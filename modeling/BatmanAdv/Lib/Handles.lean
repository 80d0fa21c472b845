import Mathlib.Data.Set.Basic
import Mathlib.Logic.Function.Basic

/-!
# Handles

Memory of chunks that are named by handles. A handle is valid from its allocation until it is freed, and
never given out again; reading or freeing one that is not valid has no result.

The pointers of a program to such chunks are a function `own`. The programs that use them safely keep it
`Owned`: what the live places hold is valid, and no two of them hold the same.
-/

namespace Handles

variable {α ι : Type*}

structure Heap (α : Type*) where
  /-- The contents of a valid handle. -/
  chunk : ℕ → Option α
  next : ℕ

namespace Heap

def empty : Heap α := ⟨fun _ => none, 0⟩

def alloc (m : Heap α) (x : α) : Heap α := ⟨Function.update m.chunk m.next (some x), m.next + 1⟩

def free (m : Heap α) (a : ℕ) : Option (Heap α) :=
  (m.chunk a).map fun _ => { m with chunk := Function.update m.chunk a none }

/-- What is found at a place. -/
def at? (m : Heap α) (own : ι → Option ℕ) (i : ι) : Option α := (own i).bind m.chunk

/-- The places in `live` hold valid handles, each its own. -/
structure Owned (m : Heap α) (own : ι → Option ℕ) (live : Set ι) : Prop where
  valid : ∀ i ∈ live, ∀ a, own i = some a → a < m.next ∧ (m.chunk a).isSome
  unshared : ∀ i ∈ live, ∀ j ∈ live, ∀ a, own i = some a → own j = some a → i = j

theorem free_of_isSome {m : Heap α} {a : ℕ} (h : (m.chunk a).isSome) :
    m.free a = some { m with chunk := Function.update m.chunk a none } := by
  obtain ⟨x, hx⟩ := Option.isSome_iff_exists.mp h
  unfold free
  rw [hx]
  rfl

namespace Owned

variable {m : Heap α} {own : ι → Option ℕ} {live : Set ι}

theorem empty (live : Set ι) : (Heap.empty : Heap α).Owned (fun _ => none) live :=
  ⟨fun _ _ _ h => (Option.some_ne_none _ h.symm).elim, fun _ _ _ _ _ h => (Option.some_ne_none _ h.symm).elim⟩

theorem congr (h : m.Owned own live) {own' : ι → Option ℕ} {live' : Set ι} (hlive : live' ⊆ live)
    (hown : ∀ i ∈ live', own' i = own i ∨ own' i = none) : m.Owned own' live' := by
  have hback : ∀ i ∈ live', ∀ a, own' i = some a → own i = some a := by
    intro i hi a ha
    obtain heq | hnone := hown i hi
    · exact heq ▸ ha
    · rw [hnone] at ha
      cases ha
  exact ⟨fun i hi a ha => h.valid i (hlive hi) a (hback i hi a ha),
    fun i hi j hj a ha hb => h.unshared i (hlive hi) j (hlive hj) a (hback i hi a ha) (hback j hj a hb)⟩

theorem free (h : m.Owned own live) {i : ι} (hi : i ∈ live) {a : ℕ} (ha : own i = some a) :
    ∃ m', m.free a = some m' ∧ m'.Owned own (live \ {i}) ∧ ∀ j ∈ live, j ≠ i → m'.at? own j = m.at? own j := by
  have hother : ∀ j ∈ live, j ≠ i → ∀ b, own j = some b → b ≠ a := fun j hj hne b hb hab =>
    hne (h.unshared j hj i hi a (hab ▸ hb) ha)
  refine ⟨_, free_of_isSome (h.valid i hi a ha).2, ⟨?_, ?_⟩, ?_⟩
  · rintro j ⟨hj, hne⟩ b hb
    obtain ⟨hlt, hsome⟩ := h.valid j hj b hb
    refine ⟨hlt, ?_⟩
    show (Function.update m.chunk a none b).isSome
    rwa [Function.update_of_ne (hother j hj hne b hb)]
  · rintro j ⟨hj, _⟩ k ⟨hk, _⟩
    exact h.unshared j hj k hk
  · intro j hj hne
    unfold at?
    cases hb : own j with
    | none => rfl
    | some b => exact Function.update_of_ne (hother j hj hne b hb) _ _

theorem alloc [DecidableEq ι] {i : ι} (h : m.Owned own (live \ {i})) (x : α) :
    (m.alloc x).Owned (Function.update own i (some m.next)) live ∧
      (m.alloc x).at? (Function.update own i (some m.next)) i = some x ∧
      ∀ j ∈ live, j ≠ i → (m.alloc x).at? (Function.update own i (some m.next)) j = m.at? own j := by
  have hold : ∀ j, j ≠ i → Function.update own i (some m.next) j = own j :=
    fun j hne => Function.update_of_ne hne _ _
  have hself : Function.update own i (some m.next) i = some m.next := Function.update_self _ _ _
  -- a handle that was valid before is not the new one
  have hne : ∀ j ∈ live, j ≠ i → ∀ a, own j = some a → a ≠ m.next := fun j hj hne a ha =>
    (h.valid j ⟨hj, hne⟩ a ha).1.ne
  refine ⟨⟨fun j hj a ha => ?_, fun j hj k hk a ha hb => ?_⟩, ?_, fun j hj hji => ?_⟩
  · by_cases hji : j = i
    · subst hji
      obtain rfl := Option.some.inj (hself.symm.trans ha)
      refine ⟨Nat.lt_succ_self _, ?_⟩
      show (Function.update m.chunk m.next (some x) m.next).isSome
      rw [Function.update_self]
      rfl
    · rw [hold j hji] at ha
      obtain ⟨hlt, hsome⟩ := h.valid j ⟨hj, hji⟩ a ha
      refine ⟨hlt.trans (Nat.lt_succ_self _), ?_⟩
      show (Function.update m.chunk m.next (some x) a).isSome
      rwa [Function.update_of_ne hlt.ne]
  · by_cases hji : j = i <;> by_cases hki : k = i
    · rw [hji, hki]
    · subst hji
      rw [hold k hki] at hb
      exact absurd (Option.some.inj (ha.symm.trans hself)) (hne k hk hki a hb)
    · subst hki
      rw [hold j hji] at ha
      exact absurd (Option.some.inj (hb.symm.trans hself)) (hne j hj hji a ha)
    · rw [hold j hji] at ha
      rw [hold k hki] at hb
      exact h.unshared j ⟨hj, hji⟩ k ⟨hk, hki⟩ a ha hb
  · unfold at?
    rw [hself]
    exact Function.update_self _ _ _
  · unfold at?
    rw [hold j hji]
    cases ha : own j with
    | none => rfl
    | some a => exact Function.update_of_ne (hne j hj hji a ha) _ _

end Owned

end Heap

end Handles
