import BatmanAdv.ListBatman
import Mathlib.Logic.Function.Iterate

/-!
# Sequences of list calls (`list-batman.c`)

The functions on lists check nothing: they are handed a new entry, or the node that is the one before
another. Where the callers see to that, the ring of pointers goes on to be the list that the same
operations make of a plain one, and the pointer to the last entry goes with it.
-/

namespace BatmanAdv

/-- `new` in front of `next`. -/
def insertBefore {α : Type*} [DecidableEq α] (next new : α) : List α → List α
  | [] => []
  | x :: xs => if x = next then new :: x :: xs else x :: insertBefore next new xs

theorem insertBefore_append {α : Type*} [DecidableEq α] {next new : α} {a b : List α} (h : next ∉ a) :
    insertBefore next new (a ++ next :: b) = a ++ new :: next :: b := by
  induction a with
  | nil => exact if_pos rfl
  | cons x a ih =>
    rw [List.mem_cons, not_or] at h
    show (if x = next then _ else x :: insertBefore next new (a ++ next :: b)) = _
    rw [if_neg (Ne.symm h.1), ih h.2]
    rfl

/-- A call, with the pointers it is made with. -/
inductive ListCall where
  | add (new : ℕ)
  | addTail (new : ℕ)
  | addBefore (prevNode : ListPtr) (nextNode newNode : ℕ)
  | del (prevEntry : ListPtr) (entry : ℕ)
  deriving DecidableEq

/-- The same operation on a plain list, which needs no pointer to the node before. -/
def ListCall.onList (xs : List ℕ) : ListCall → List ℕ
  | .add new => new :: xs
  | .addTail new => xs ++ [new]
  | .addBefore _ nextNode newNode => insertBefore nextNode newNode xs
  | .del _ entry => xs.erase entry

namespace ListHeadFirst

/-! ## Calls and what their callers see to -/

def call (m : ListHeadFirst) : ListCall → ListHeadFirst
  | .add new => m.listAdd (.entry new)
  | .addTail new => m.listAddTail (.entry new)
  | .addBefore prevNode nextNode newNode => m.listAddBefore prevNode (.entry nextNode) (.entry newNode)
  | .del prevEntry entry => m.listDel prevEntry (.entry entry)

/-- The way along the `next` pointers from the head comes to `ptr`. -/
def Reaches (m : ListHeadFirst) (ptr : ListPtr) : Prop := ∃ k, m.next^[k] .head = ptr

/-- The actual predecessor of an entry. -/
def Precedes (m : ListHeadFirst) (prev : ListPtr) (ptr : ℕ) : Prop :=
  m.Reaches prev ∧ m.next prev = .entry ptr

/-- What is added is new, and a predecessor is one. -/
def Proper (m : ListHeadFirst) : ListCall → Prop
  | .add new => ¬ m.Reaches (.entry new)
  | .addTail new => ¬ m.Reaches (.entry new)
  | .addBefore prevNode nextNode newNode => m.Precedes prevNode nextNode ∧ ¬ m.Reaches (.entry newNode)
  | .del prevEntry entry => m.Precedes prevEntry entry

/-- Every call is proper in the memory that the ones before it leave. -/
def ProperCalls : ListHeadFirst → List ListCall → Prop
  | _, [] => True
  | m, c :: cs => m.Proper c ∧ (m.call c).ProperCalls cs

def calls (m : ListHeadFirst) (cs : List ListCall) : ListHeadFirst := cs.foldl call m

end ListHeadFirst

namespace ListCall

def onLists (xs : List ℕ) (cs : List ListCall) : List ℕ := cs.foldl onList xs

/-- `prev` is the pointer to what is in front of `y`. -/
def InFront (xs : List ℕ) (prev : ListPtr) (y : ℕ) : Prop :=
  y ∈ xs ∧ prev = ListHeadFirst.lastPtr (xs.takeWhile (· ≠ y))

instance (xs : List ℕ) (prev : ListPtr) (y : ℕ) : Decidable (InFront xs prev y) :=
  inferInstanceAs (Decidable (_ ∧ _))

/-- What a proper call comes to on the plain list. -/
def Fits (xs : List ℕ) : ListCall → Prop
  | .add new => new ∉ xs
  | .addTail new => new ∉ xs
  | .addBefore prevNode nextNode newNode => InFront xs prevNode nextNode ∧ newNode ∉ xs
  | .del prevEntry entry => InFront xs prevEntry entry

instance (xs : List ℕ) : DecidablePred (Fits xs)
  | .add _ => inferInstanceAs (Decidable (_ ∉ _))
  | .addTail _ => inferInstanceAs (Decidable (_ ∉ _))
  | .addBefore _ _ _ => inferInstanceAs (Decidable (_ ∧ _))
  | .del _ _ => inferInstanceAs (Decidable (InFront _ _ _))

/-- Every operation fits the list that the ones before it leave. -/
def fitAll : List ℕ → List ListCall → Bool
  | _, [] => true
  | xs, c :: cs => decide (c.Fits xs) && fitAll (c.onList xs) cs

theorem inFront_iff {xs : List ℕ} (h : xs.Nodup) {prev : ListPtr} {y : ℕ} :
    InFront xs prev y ↔ ∃ a b, xs = a ++ y :: b ∧ prev = ListHeadFirst.lastPtr a := by
  have hpre : ∀ a b : List ℕ, xs = a ++ y :: b → xs.takeWhile (· ≠ y) = a := by
    rintro a b rfl
    have hy : ∀ z ∈ a, decide (z ≠ y) = true := by
      rintro z hz
      have hne := (List.nodup_append.mp h).2.2 z hz y List.mem_cons_self
      simpa using hne
    rw [List.takeWhile_append_of_pos hy]
    simp
  constructor
  · rintro ⟨hy, rfl⟩
    obtain ⟨a, b, hxs⟩ := List.append_of_mem hy
    exact ⟨a, b, hxs, by rw [hpre a b hxs]⟩
  · rintro ⟨a, b, hxs, rfl⟩
    exact ⟨by simp [hxs], by rw [hpre a b hxs]⟩

end ListCall

namespace ListHeadFirst

variable {m : ListHeadFirst} {xs a b : List ℕ} {x y : ℕ} {ptr : ListPtr} {c : ListCall}
  {cs cs' : List ListCall}

/-! ## The way along the ring -/

theorem Lists.reaches_iff (h : m.Lists xs) : m.Reaches ptr ↔ ∃ a b, xs = a ++ b ∧ ptr = lastPtr a := by
  constructor
  · rintro ⟨k, rfl⟩
    induction k with
    | zero => exact ⟨[], xs, rfl, rfl⟩
    | succ k ih =>
      obtain ⟨a, b, rfl, heq⟩ := ih
      rw [Function.iterate_succ_apply', heq, h.next_lastPtr]
      cases b with
      | nil => exact ⟨[], a ++ [], rfl, rfl⟩
      | cons x b => exact ⟨a ++ [x], b, by simp, (lastPtr_concat a x).symm⟩
  · rintro ⟨a, b, rfl, rfl⟩
    induction a using List.reverseRecOn generalizing b with
    | nil => exact ⟨0, rfl⟩
    | append_singleton a x ih =>
      rw [List.append_assoc] at h
      obtain ⟨k, hk⟩ := ih _ h
      refine ⟨k + 1, ?_⟩
      rw [Function.iterate_succ_apply', hk, h.next_lastPtr, lastPtr_concat]
      rfl

theorem Lists.reaches_entry_iff (h : m.Lists xs) : m.Reaches (.entry x) ↔ x ∈ xs := by
  rw [h.reaches_iff]
  constructor
  · rintro ⟨a, b, rfl, heq⟩
    exact List.mem_append_left b (lastPtr_eq_entry heq.symm)
  · intro hx
    obtain ⟨a, b, rfl⟩ := List.append_of_mem hx
    exact ⟨a ++ [x], b, by simp, (lastPtr_concat a x).symm⟩

/-- The predecessor of an entry ends the part of the list before it. -/
theorem Lists.precedes_iff (h : m.Lists xs) :
    m.Precedes ptr y ↔ ∃ a b, xs = a ++ y :: b ∧ ptr = lastPtr a := by
  unfold Precedes
  rw [h.reaches_iff]
  constructor
  · rintro ⟨⟨a, b, rfl, rfl⟩, hnext⟩
    rw [h.next_lastPtr] at hnext
    obtain ⟨b, rfl⟩ := firstPtr_eq_entry hnext
    exact ⟨a, b, rfl, rfl⟩
  · rintro ⟨a, b, rfl, rfl⟩
    exact ⟨⟨a, y :: b, rfl, rfl⟩, h.next_lastPtr⟩

theorem Lists.notMem_pre (h : m.Lists (a ++ y :: b)) : y ∉ a :=
  fun hy => (List.nodup_append.mp h.nodup).2.2 y hy y List.mem_cons_self rfl

/-! ## One call -/

/-- **A proper call** does to the list in memory what the operation does to a plain one. -/
theorem Lists.call (h : m.Lists xs) (hc : m.Proper c) : (m.call c).Lists (c.onList xs) := by
  cases c with
  | add new => exact h.listAdd (mt h.reaches_entry_iff.mpr hc)
  | addTail new => exact h.listAddTail (mt h.reaches_entry_iff.mpr hc)
  | addBefore prevNode nextNode newNode =>
    have hnew : newNode ∉ xs := mt h.reaches_entry_iff.mpr hc.2
    obtain ⟨a, b, rfl, rfl⟩ := h.precedes_iff.mp hc.1
    show Lists _ (insertBefore nextNode newNode (a ++ nextNode :: b))
    rw [insertBefore_append h.notMem_pre]
    exact h.listAddBefore hnew
  | del prevEntry entry =>
    obtain ⟨a, b, rfl, rfl⟩ := h.precedes_iff.mp hc
    show Lists _ ((a ++ entry :: b).erase entry)
    rw [List.erase_append_right _ h.notMem_pre, List.erase_cons_head]
    exact Lists.listDel (c := []) h

/-! ## Sequences of calls -/

theorem ProperCalls.of_append (h : m.ProperCalls (cs ++ cs')) : m.ProperCalls cs := by
  induction cs generalizing m with
  | nil => trivial
  | cons c cs ih => exact ⟨h.1, ih h.2⟩

/-- The callers can see to it: a call is proper just if it fits the list. -/
theorem Lists.proper_iff (h : m.Lists xs) : m.Proper c ↔ c.Fits xs := by
  cases c with
  | add new => exact not_congr h.reaches_entry_iff
  | addTail new => exact not_congr h.reaches_entry_iff
  | addBefore prevNode nextNode newNode =>
    have hprev : m.Precedes prevNode nextNode ↔ ListCall.InFront xs prevNode nextNode :=
      h.precedes_iff.trans (ListCall.inFront_iff h.nodup).symm
    exact and_congr hprev (not_congr h.reaches_entry_iff)
  | del prevEntry entry => exact h.precedes_iff.trans (ListCall.inFront_iff h.nodup).symm

theorem Lists.properCalls_iff (h : m.Lists xs) : m.ProperCalls cs ↔ ListCall.fitAll xs cs = true := by
  induction cs generalizing m xs with
  | nil => exact iff_of_true trivial rfl
  | cons c cs ih =>
    unfold ProperCalls ListCall.fitAll
    rw [Bool.and_eq_true, decide_eq_true_iff, h.proper_iff]
    exact and_congr_right fun hc => ih (h.call (h.proper_iff.mpr hc))

/-- The calls go along with the operations on a plain list. -/
theorem Lists.calls (h : m.Lists xs) (hcs : m.ProperCalls cs) :
    (m.calls cs).Lists (ListCall.onLists xs cs) := by
  induction cs generalizing m xs with
  | nil => exact h
  | cons c cs ih => exact ih (h.call hcs.1) hcs.2

/-- **The ring is the list.** After every part of a sequence of proper calls from
`INIT_LIST_HEAD_FIRST` on, whatever the memory held before: the `next` pointers lead from the head through
what the same operations make of a plain list and back to it, `prev` points to the last entry, or to the
head where there is none, and `list_empty` tells whether there is one. -/
theorem ring_of_properCalls (m : ListHeadFirst) (cs : List ListCall)
    (h : m.initListHeadFirst.ProperCalls cs) (cs' : List ListCall) (hpre : cs' <+: cs) :
    (m.initListHeadFirst.calls cs').Lists (ListCall.onLists [] cs') ∧
      (m.initListHeadFirst.calls cs').prev = lastPtr (ListCall.onLists [] cs') ∧
      ((m.initListHeadFirst.calls cs').listEmpty = true ↔ ListCall.onLists [] cs' = []) := by
  obtain ⟨_, rfl⟩ := hpre
  have hlists := (lists_initListHeadFirst m).calls h.of_append
  exact ⟨hlists, hlists.prev, hlists.listEmpty_iff⟩

/-- Inserts at the front, at the back and between, and the last, the first and the only entry deleted. -/
theorem ring_of_properCalls_eight :
    let m : ListHeadFirst := ⟨fun _ => .null, .null⟩
    let cs : List ListCall :=
      [.addTail 1, .add 2, .addBefore (.entry 2) 1 3, .del (.entry 3) 1, .addTail 4, .del .head 2,
        .del (.entry 3) 4, .del .head 3]
    m.initListHeadFirst.ProperCalls cs ∧ ListCall.onLists [] (cs.take 3) = [2, 3, 1] ∧
      (m.initListHeadFirst.calls (cs.take 3)).Lists [2, 3, 1] ∧
      (m.initListHeadFirst.calls cs).listEmpty = true := by
  intro m cs
  have h : m.initListHeadFirst.ProperCalls cs := (lists_initListHeadFirst m).properCalls_iff.mpr (by decide)
  exact ⟨h, rfl, (ring_of_properCalls m cs h (cs.take 3) (List.take_prefix 3 cs)).1,
    (ring_of_properCalls m cs h cs (List.prefix_refl cs)).2.2.mpr rfl⟩

end ListHeadFirst

end BatmanAdv
