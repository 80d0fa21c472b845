import BatmanAdv.Lib.Trace
import Mathlib.Logic.Function.Basic
import Mathlib.Order.Lattice.Nat

/-!
# Parties that talk

Any number of parties, each with a state of its own. A party takes a step by itself or on a message it
hears. What it sends stays in the air for good, so that a message may be lost, delayed, copied and
overtaken at will. The facts a party makes true are kept as well. What holds of every party and of every
message, in the light of the facts so far, is checked against the steps of one party.
-/

namespace Parties

open Transition

variable {ι σ ε μ ν : Type*}

/-- What a step of a party leads to: its next state, the messages it sends, the facts it makes true. -/
structure Outcome (σ μ ν : Type*) where
  state : σ
  sent : List μ
  made : List ν

/-- The parties, the messages sent so far with their senders, and the facts by party. -/
structure World (ι σ μ ν : Type*) where
  party : ι → σ
  air : List (ι × μ)
  made : ι → List ν

/-- A party takes a step: by itself, or on the `k`-th message. -/
structure Happening (ι ε : Type*) where
  who : ι
  what : ε
  hears : Option ℕ

abbrev Behaviour (ι σ ε μ ν : Type*) := ι → σ → ε → Option μ → Option (Outcome σ μ ν)

/-- No fact is lost. -/
def Recalls (made made' : ι → List ν) : Prop := ∀ i, made i ⊆ made' i

section Step

variable [DecidableEq ι]

def learn (made : ι → List ν) (i : ι) (more : List ν) : ι → List ν :=
  Function.update made i (made i ++ more)

theorem recalls_learn (made : ι → List ν) (i : ι) (more : List ν) : Recalls made (learn made i more) := by
  intro j
  unfold learn
  by_cases hj : j = i
  · subst hj
    rw [Function.update_self]
    exact List.subset_append_left _ _
  · rw [Function.update_of_ne hj]
    exact List.Subset.refl _

theorem mem_learn {made : ι → List ν} {i j : ι} {more : List ν} {x : ν} :
    x ∈ learn made i more j ↔ x ∈ made j ∨ j = i ∧ x ∈ more := by
  unfold learn
  by_cases hj : j = i
  · subst hj
    rw [Function.update_self, List.mem_append, and_iff_right rfl]
  · rw [Function.update_of_ne hj]
    exact (or_iff_left fun h => hj h.1).symm

namespace World

def after (w : World ι σ μ ν) (i : ι) (o : Outcome σ μ ν) : World ι σ μ ν where
  party := Function.update w.party i o.state
  air := w.air ++ o.sent.map (i, ·)
  made := learn w.made i o.made

variable (links : ι → ι → Bool) (act : Behaviour ι σ ε μ ν)

/-- `links j i`: what `j` sends may be heard by `i`. -/
def step (w : World ι σ μ ν) (h : Happening ι ε) : Option (World ι σ μ ν) :=
  match h.hears with
  | none => (act h.who (w.party h.who) h.what none).map (w.after h.who)
  | some k =>
    (w.air[k]?.filter fun x => links x.1 h.who).bind fun x =>
      (act h.who (w.party h.who) h.what (some x.2)).map (w.after h.who)

/-- Somebody within reach has sent it. -/
def Audible (w : World ι σ μ ν) (i : ι) (m : μ) : Prop := ∃ j, links j i = true ∧ (j, m) ∈ w.air

variable {links act}

theorem step_cases {w w' : World ι σ μ ν} {h : Happening ι ε} (hstep : w.step links act h = some w') :
    ∃ m o, (∀ m' ∈ m, w.Audible links h.who m') ∧ act h.who (w.party h.who) h.what m = some o ∧
      w' = w.after h.who o := by
  unfold step at hstep
  cases hears : h.hears with
  | none =>
    rw [hears] at hstep
    obtain ⟨o, hact, hw'⟩ := Option.map_eq_some_iff.mp hstep
    exact ⟨none, o, fun m' hm' => (Option.not_mem_none m' hm').elim, hact, hw'.symm⟩
  | some k =>
    rw [hears] at hstep
    obtain ⟨x, hx, hrest⟩ := Option.bind_eq_some_iff.mp hstep
    obtain ⟨hget, hlink⟩ := Option.filter_eq_some_iff.mp hx
    obtain ⟨o, hact, hw'⟩ := Option.map_eq_some_iff.mp hrest
    refine ⟨some x.2, o, fun m' hm' => ?_, hact, hw'.symm⟩
    obtain rfl := Option.some.inj hm'
    exact ⟨x.1, hlink, List.mem_of_getElem? hget⟩

/-- What holds of the parties and of the messages. -/
structure Holds (inv : (ι → List ν) → ι → σ → Prop) (msg : (ι → List ν) → ι → μ → Prop)
    (w : World ι σ μ ν) : Prop where
  party : ∀ i, inv w.made i (w.party i)
  air : ∀ x ∈ w.air, msg w.made x.1 x.2

end World

/-- **The rule.** `inv` and `msg` outlive new facts, and a step that is `good` of one party, on a message
with `msg` from within reach, leads to a state with `inv` and to messages with `msg`. -/
structure Keeps (links : ι → ι → Bool) (act : Behaviour ι σ ε μ ν) (good : σ → ε → Prop)
    (inv : (ι → List ν) → ι → σ → Prop) (msg : (ι → List ν) → ι → μ → Prop) : Prop where
  inv_mono {made made' : ι → List ν} {i : ι} {s : σ} (h : Recalls made made') (hs : inv made i s) :
    inv made' i s
  msg_mono {made made' : ι → List ν} {i : ι} {m : μ} (h : Recalls made made') (hm : msg made i m) :
    msg made' i m
  act {made : ι → List ν} {i : ι} {s : σ} {e : ε} {m : Option μ} {o : Outcome σ μ ν} (hs : inv made i s)
    (hm : ∀ m' ∈ m, ∃ j, links j i = true ∧ msg made j m') (hgood : good s e) (hact : act i s e m = some o) :
    inv (learn made i o.made) i o.state ∧ ∀ m' ∈ o.sent, msg (learn made i o.made) i m'

variable {links : ι → ι → Bool} {act : Behaviour ι σ ε μ ν} {good : σ → ε → Prop}
  {inv : (ι → List ν) → ι → σ → Prop} {msg : (ι → List ν) → ι → μ → Prop}
  {w w' : World ι σ μ ν} {tr : List (World ι σ μ ν × Happening ι ε)}

theorem Keeps.step (h : Keeps links act good inv msg) (hw : w.Holds inv msg) {e : Happening ι ε}
    (hgood : good (w.party e.who) e.what) (hstep : w.step links act e = some w') : w'.Holds inv msg := by
  obtain ⟨m, o, haudible, hact, rfl⟩ := World.step_cases hstep
  have hrecalls := recalls_learn w.made e.who o.made
  have hm : ∀ m' ∈ m, ∃ j, links j e.who = true ∧ msg w.made j m' := by
    intro m' hm'
    obtain ⟨j, hlink, hair⟩ := haudible m' hm'
    exact ⟨j, hlink, hw.air _ hair⟩
  obtain ⟨hstate, hsent⟩ := h.act (hw.party e.who) hm hgood hact
  refine ⟨fun i => ?_, fun x hx => ?_⟩
  · show inv _ i (Function.update w.party e.who o.state i)
    by_cases hi : i = e.who
    · subst hi
      rw [Function.update_self]
      exact hstate
    · rw [Function.update_of_ne hi]
      exact h.inv_mono hrecalls (hw.party i)
  · rcases List.mem_append.mp hx with hx | hx
    · exact h.msg_mono hrecalls (hw.air x hx)
    · obtain ⟨m', hm', rfl⟩ := List.mem_map.mp hx
      exact hsent m' hm'

/-- **What holds in a whole run**, whatever the order of its steps. -/
theorem Keeps.run (h : Keeps links act good inv msg) (hrun : Trace (World.step links act) w tr w')
    (hgood : ∀ x ∈ tr, good (x.1.party x.2.who) x.2.what) (hw : w.Holds inv msg) : w'.Holds inv msg := by
  refine hrun.invariant_of_good (I := fun _ w => w.Holds inv msg)
    (G := fun _ w e => good (w.party e.who) e.what) hw ?_ ?_
  · exact fun _ _ _ _ hI hG hstep => h.step hI hG hstep
  · rintro pre x post rfl
    exact hgood x (List.mem_append_right _ List.mem_cons_self)

theorem Keeps.run_all (h : Keeps links act (fun _ _ => True) inv msg)
    (hrun : Trace (World.step links act) w tr w') (hw : w.Holds inv msg) : w'.Holds inv msg :=
  h.run hrun (fun _ _ => trivial) hw

/-- **The rule for facts.** `fact` outlives new facts, and holds of those of a single step. -/
theorem Keeps.run_made (h : Keeps links act (fun _ _ => True) inv msg) (fact : (ι → List ν) → ι → ν → Prop)
    (hmono : ∀ {made made' i x}, Recalls made made' → fact made i x → fact made' i x)
    (hact : ∀ {made i s e m o}, inv made i s → (∀ m' ∈ m, ∃ j, links j i = true ∧ msg made j m') →
      act i s e m = some o → ∀ x ∈ o.made, fact (learn made i o.made) i x)
    (hrun : Trace (World.step links act) w tr w') (hw : w.Holds inv msg)
    (hmade : ∀ i, ∀ x ∈ w.made i, fact w.made i x) : ∀ i, ∀ x ∈ w'.made i, fact w'.made i x := by
  have hinv := hrun.state_invariant (I := fun w => w.Holds inv msg ∧ ∀ i, ∀ x ∈ w.made i, fact w.made i x)
    ⟨hw, hmade⟩ fun u e u' ⟨hu, hfacts⟩ hstep => by
      refine ⟨h.step hu trivial hstep, fun i x hx => ?_⟩
      obtain ⟨m, o, haudible, hact', rfl⟩ := World.step_cases hstep
      rcases mem_learn.mp hx with hold | ⟨rfl, hnew⟩
      · exact hmono (recalls_learn u.made e.who o.made) (hfacts i x hold)
      · refine hact (hu.party e.who) (fun m' hm' => ?_) hact' x hnew
        obtain ⟨j, hlink, hair⟩ := haudible m' hm'
        exact ⟨j, hlink, hu.air _ hair⟩
  exact hinv.2.2

end Step

/-! ## Hops -/

section Hops

variable (links : ι → ι → Bool) (src : ι → Prop)

/-- What one of `src` sends may come here in `n` hops. -/
inductive Hops : ℕ → ι → Prop
  | here {i : ι} (h : src i) : Hops 0 i
  | hop {n : ℕ} {j i : ι} (h : Hops n j) (hlink : links j i = true) : Hops (n + 1) i

/-- The number of hops, as far as `n`. -/
noncomputable def hopsUpTo (n : ℕ) (i : ι) : ℕ := sInf {k | Hops links src k i ∨ k = n}

variable {links src} {n : ℕ} {i j : ι}

variable (links src n i) in
theorem hopsUpTo_mem : Hops links src (hopsUpTo links src n i) i ∨ hopsUpTo links src n i = n :=
  Nat.sInf_mem (s := {k | Hops links src k i ∨ k = n}) ⟨n, .inr rfl⟩

theorem hopsUpTo_le : hopsUpTo links src n i ≤ n := Nat.sInf_le (.inr rfl)

theorem Hops.hopsUpTo_le {k : ℕ} (h : Hops links src k i) : hopsUpTo links src n i ≤ k := Nat.sInf_le (.inl h)

theorem hopsUpTo_src (h : src i) : hopsUpTo links src n i = 0 :=
  Nat.le_zero.mp (Hops.here h).hopsUpTo_le

theorem hopsUpTo_link (hlink : links j i = true) : hopsUpTo links src n i ≤ hopsUpTo links src n j + 1 := by
  rcases hopsUpTo_mem links src n j with h | h
  · exact (h.hop hlink).hopsUpTo_le
  · rw [h]
    exact Nat.le_succ_of_le hopsUpTo_le

theorem hopsUpTo_far (h : ∀ k < n, ¬ Hops links src k i) : hopsUpTo links src n i = n := by
  rcases hopsUpTo_mem links src n i with hmem | heq
  · exact le_antisymm hopsUpTo_le (not_lt.mp fun hlt => h _ hlt hmem)
  · exact heq

/-- Where fewer than `n` hops do not lead, the hops can be counted so that there are `n`. -/
theorem exists_hops (h : ∀ k < n, ¬ Hops links src k i) : ∃ hops : ι → ℕ,
    (∀ j i, links j i = true → hops i ≤ hops j + 1) ∧ (∀ j, src j → hops j = 0) ∧ hops i = n :=
  ⟨hopsUpTo links src n, fun _ _ => hopsUpTo_link, fun _ => hopsUpTo_src, hopsUpTo_far h⟩

end Hops

end Parties
