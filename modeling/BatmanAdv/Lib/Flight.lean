import Mathlib.Algebra.GroupWithZero.Nat
import Mathlib.Algebra.BigOperators.Group.List.Basic
import Mathlib.Algebra.Order.BigOperators.Group.List
import Mathlib.Data.List.Perm.Basic

/-!
# Messages in flight

Messages between parties, each delivered to one of them, which answers with outputs, some of them
further messages. Every message carries the number of the injection it descends from, its root, and
every output is kept with its root and its cause. A charge for the messages in flight bounds what an
injection can bring about: it is enough that a party spends, in outputs that count and in charges of
what it sends, no more than the charge of the message it reacts to.
-/

namespace Flight

variable {P M O : Type*}

/-- An output, the party that made it and the message it is a reaction to. -/
structure Entry (P M O : Type*) where
  root : ℕ
  party : P
  cause : Option M
  out : O

/-- The messages in flight and all outputs so far; `next` is the root of the next injection. -/
structure Traffic (P M O : Type*) where
  air : List (ℕ × M)
  log : List (Entry P M O)
  next : ℕ

namespace Traffic

def empty : Traffic P M O := ⟨[], [], 0⟩

variable (sent : O → Option M)

def emit (n : Traffic P M O) (root : ℕ) (party : P) (cause : Option M) (outs : List O) : Traffic P M O :=
  { n with
    air := n.air ++ (outs.filterMap sent).map fun m => (root, m)
    log := n.log ++ outs.map fun o => ⟨root, party, cause, o⟩ }

/-- Outputs that are no reaction to a message. -/
def inject (n : Traffic P M O) (party : P) (outs : List O) : Traffic P M O :=
  { n.emit sent n.next party none outs with next := n.next + 1 }

def lose (n : Traffic P M O) (i : ℕ) : Traffic P M O := { n with air := n.air.eraseIdx i }

/-- The `i`-th message is delivered, and the party reacts with `outs`. -/
def deliver (n : Traffic P M O) (i : ℕ) (x : ℕ × M) (party : P) (outs : List O) : Traffic P M O :=
  (n.lose i).emit sent x.1 party (some x.2) outs

/-- The same with a message that stays in flight for other parties. -/
def share (n : Traffic P M O) (x : ℕ × M) (party : P) (outs : List O) : Traffic P M O :=
  n.emit sent x.1 party (some x.2) outs

/-! ## Roots -/

/-- No root from `next` on is in use. -/
structure Rooted (n : Traffic P M O) : Prop where
  air : ∀ x ∈ n.air, x.1 < n.next
  log : ∀ e ∈ n.log, e.root < n.next

theorem Rooted.empty : (empty : Traffic P M O).Rooted := ⟨by simp [Traffic.empty], by simp [Traffic.empty]⟩

variable {sent} {n : Traffic P M O} {root i : ℕ} {party : P} {cause : Option M} {outs : List O}

theorem mem_air_emit {x : ℕ × M} :
    x ∈ (n.emit sent root party cause outs).air ↔
      x ∈ n.air ∨ x.1 = root ∧ ∃ o ∈ outs, sent o = some x.2 := by
  obtain ⟨r, m⟩ := x
  simp only [emit, List.mem_append, List.mem_map, List.mem_filterMap, Prod.mk.injEq]
  constructor
  · rintro (h | ⟨m', hm, rfl, rfl⟩)
    · exact .inl h
    · exact .inr ⟨rfl, hm⟩
  · rintro (h | ⟨rfl, hm⟩)
    · exact .inl h
    · exact .inr ⟨m, hm, rfl, rfl⟩

theorem mem_log_emit {e : Entry P M O} :
    e ∈ (n.emit sent root party cause outs).log ↔
      e ∈ n.log ∨ ∃ o ∈ outs, (⟨root, party, cause, o⟩ : Entry P M O) = e := by
  simp [emit]

theorem mem_log_inject {e : Entry P M O} :
    e ∈ (n.inject sent party outs).log ↔
      e ∈ n.log ∨ ∃ o ∈ outs, (⟨n.next, party, none, o⟩ : Entry P M O) = e := by
  simp [inject, emit]

theorem Rooted.emit (h : n.Rooted) (hroot : root < n.next) :
    (n.emit sent root party cause outs).Rooted := by
  constructor
  · intro x hx
    rcases mem_air_emit.mp hx with hx | ⟨hx, _⟩
    · exact h.air x hx
    · exact hx.trans_lt hroot
  · intro e he
    rcases mem_log_emit.mp he with he | ⟨o, _, rfl⟩
    · exact h.log e he
    · exact hroot

theorem Rooted.inject (h : n.Rooted) : (n.inject sent party outs).Rooted := by
  have hnext : ({ n with next := n.next + 1 } : Traffic P M O).Rooted :=
    ⟨fun x hx => Nat.lt_succ_of_lt (h.air x hx), fun e he => Nat.lt_succ_of_lt (h.log e he)⟩
  exact hnext.emit (Nat.lt_succ_self _)

theorem Rooted.lose (h : n.Rooted) : (n.lose i).Rooted :=
  ⟨fun x hx => h.air x (List.mem_of_mem_eraseIdx hx), h.log⟩

theorem Rooted.deliver (h : n.Rooted) {x : ℕ × M} (hx : x ∈ n.air) :
    (n.deliver sent i x party outs).Rooted :=
  h.lose.emit (h.air x hx)

theorem Rooted.share (h : n.Rooted) {x : ℕ × M} (hx : x ∈ n.air) :
    (n.share sent x party outs).Rooted :=
  h.emit (h.air x hx)

/-! ## What holds of all descendants of an injection -/

/-- `I` of the messages in flight, `Q` of the outputs. -/
structure Descend (I : M → Prop) (Q : Entry P M O → Prop) (root : ℕ) (n : Traffic P M O) : Prop where
  air : ∀ m, (root, m) ∈ n.air → I m
  log : ∀ e ∈ n.log, e.root = root → Q e

variable {I : M → Prop} {Q : Entry P M O → Prop} {r : ℕ}

theorem Descend.emit (h : n.Descend I Q root)
    (houts : r = root → ∀ o ∈ outs, (∀ m, sent o = some m → I m) ∧ Q ⟨r, party, cause, o⟩) :
    (n.emit sent r party cause outs).Descend I Q root := by
  constructor
  · intro m hm
    rcases mem_air_emit.mp hm with hm | ⟨hr, o, ho, hsent⟩
    · exact h.air m hm
    · exact (houts hr.symm o ho).1 m hsent
  · intro e he hroot
    rcases mem_log_emit.mp he with he | ⟨o, ho, rfl⟩
    · exact h.log e he hroot
    · exact (houts hroot o ho).2

theorem Rooted.descend (h : n.Rooted) (hroot : n.next ≤ root) : n.Descend I Q root :=
  ⟨fun _ hm => absurd (h.air _ hm) hroot.not_gt, fun e he heq =>
    absurd (h.log e he) (heq ▸ hroot).not_gt⟩

theorem Descend.inject (h : n.Descend I Q root)
    (houts : n.next = root → ∀ o ∈ outs, (∀ m, sent o = some m → I m) ∧ Q ⟨root, party, none, o⟩) :
    (n.inject sent party outs).Descend I Q root := by
  have hemit : (n.emit sent n.next party none outs).Descend I Q root :=
    h.emit fun hr o ho => by
      rw [hr]
      exact houts hr o ho
  exact ⟨hemit.air, hemit.log⟩

theorem Descend.lose (h : n.Descend I Q root) : (n.lose i).Descend I Q root :=
  ⟨fun _ hm => h.air _ (List.mem_of_mem_eraseIdx hm), h.log⟩

theorem Descend.deliver (h : n.Descend I Q root) {x : ℕ × M} (hx : x ∈ n.air)
    (houts : ∀ m, I m → x = (root, m) →
      ∀ o ∈ outs, (∀ m', sent o = some m' → I m') ∧ Q ⟨root, party, some m, o⟩) :
    (n.deliver sent i x party outs).Descend I Q root := by
  obtain ⟨r, m⟩ := x
  refine h.lose.emit fun hr o ho => ?_
  subst hr
  exact houts m (h.air m hx) rfl o ho

theorem Descend.share (h : n.Descend I Q root) {x : ℕ × M} (hx : x ∈ n.air)
    (houts : ∀ m, I m → x = (root, m) →
      ∀ o ∈ outs, (∀ m', sent o = some m' → I m') ∧ Q ⟨root, party, some m, o⟩) :
    (n.share sent x party outs).Descend I Q root := by
  obtain ⟨r, m⟩ := x
  refine h.emit fun hr o ho => ?_
  subst hr
  exact houts m (h.air m hx) rfl o ho

/-! ## Charges -/

variable (q : Option M → O → Bool) (w : M → ℕ)

/-- The outputs of a root that count. -/
def count (root : ℕ) (n : Traffic P M O) : ℕ :=
  n.log.countP fun e => e.root == root && q e.cause e.out

/-- The charge of the messages of a root in flight. -/
def charge (root : ℕ) (n : Traffic P M O) : ℕ :=
  (n.air.map fun x => if x.1 = root then w x.2 else 0).sum

/-- What a reaction spends. -/
def price (sent : O → Option M) (cause : Option M) (outs : List O) : ℕ :=
  outs.countP (q cause) + ((outs.filterMap sent).map w).sum

variable {q w}

theorem count_emit : (n.emit sent r party cause outs).count q root =
    n.count q root + if r = root then outs.countP (q cause) else 0 := by
  unfold count emit
  rw [List.countP_append, List.countP_map]
  congr 1
  split_ifs with hr
  · subst hr
    simp [Function.comp_def]
  · simp [Function.comp_def, hr]

theorem charge_emit : (n.emit sent r party cause outs).charge w root =
    n.charge w root + if r = root then ((outs.filterMap sent).map w).sum else 0 := by
  unfold charge emit
  rw [List.map_append, List.sum_append, List.map_map]
  congr 1
  split_ifs with hr
  · subst hr
    simp [Function.comp_def]
  · simp [Function.comp_def, hr]

theorem charge_lose_add {x : ℕ × M} (hx : n.air[i]? = some x) :
    (n.lose i).charge w root + (if x.1 = root then w x.2 else 0) = n.charge w root := by
  obtain ⟨hi, hget⟩ := List.getElem?_eq_some_iff.mp hx
  have hperm := (List.getElem_cons_eraseIdx_perm hi).map
    (fun x : ℕ × M => if x.1 = root then w x.2 else 0)
  have hsum := hperm.sum_eq
  simp only [List.map_cons, List.sum_cons, hget] at hsum
  unfold charge lose
  rw [Nat.add_comm]
  exact hsum

theorem charge_lose_le : (n.lose i).charge w root ≤ n.charge w root := by
  cases hx : n.air[i]? with
  | none =>
    unfold charge lose
    rw [List.eraseIdx_of_length_le (List.getElem?_eq_none_iff.mp hx)]
  | some x =>
    have hlose : (n.lose i).charge w root + (if x.1 = root then w x.2 else 0) = n.charge w root :=
      charge_lose_add hx
    omega

variable (q w) in
/-- What a root has spent, and what it may still spend. -/
def Within (root budget : ℕ) (n : Traffic P M O) : Prop := n.count q root + n.charge w root ≤ budget

variable {budget : ℕ}

theorem Within.count_le (h : n.Within q w root budget) : n.count q root ≤ budget :=
  (Nat.le_add_right _ _).trans h

theorem Rooted.within (h : n.Rooted) : n.Within q w n.next 0 := by
  unfold Within count charge
  have hlog : n.log.countP (fun e => e.root == n.next && q e.cause e.out) = 0 := by
    rw [List.countP_eq_zero]
    intro e he
    have hne : e.root ≠ n.next := (h.log e he).ne
    simp [hne]
  have hair : (n.air.map fun x => if x.1 = n.next then w x.2 else 0).sum = 0 := by
    apply List.sum_eq_zero
    intro c hc
    obtain ⟨x, hx, rfl⟩ := List.mem_map.mp hc
    exact if_neg (h.air x hx).ne
  rw [hlog, hair]

/-- **An injection** spends from its own budget only. -/
theorem Rooted.within_inject (h : n.Rooted) :
    (n.inject sent party outs).Within q w n.next (price q w sent none outs) := by
  have h0 : n.Within q w n.next 0 := h.within
  have hcount : (n.inject sent party outs).count q n.next =
      (n.emit sent n.next party none outs).count q n.next := rfl
  have hcharge : (n.inject sent party outs).charge w n.next =
      (n.emit sent n.next party none outs).charge w n.next := rfl
  unfold Within price at *
  rw [hcount, hcharge, count_emit, charge_emit, if_pos rfl, if_pos rfl]
  omega

theorem Within.inject (h : n.Within q w root budget) (hroot : n.next ≠ root) :
    (n.inject sent party outs).Within q w root budget := by
  have hcount : (n.inject sent party outs).count q root =
      (n.emit sent n.next party none outs).count q root := rfl
  have hcharge : (n.inject sent party outs).charge w root =
      (n.emit sent n.next party none outs).charge w root := rfl
  unfold Within at *
  rw [hcount, hcharge, count_emit, charge_emit, if_neg hroot, if_neg hroot]
  exact h

theorem Within.lose (h : n.Within q w root budget) : (n.lose i).Within q w root budget :=
  (Nat.add_le_add_left charge_lose_le _).trans h

/-- **A delivery** stays within every budget if what it spends is no more than the charge of the
message. -/
theorem Within.deliver (h : n.Within q w root budget) {x : ℕ × M} (hx : n.air[i]? = some x)
    (hprice : x.1 = root → price q w sent (some x.2) outs ≤ w x.2) :
    (n.deliver sent i x party outs).Within q w root budget := by
  have hlose : (n.lose i).charge w root + (if x.1 = root then w x.2 else 0) = n.charge w root :=
    charge_lose_add hx
  have hcount : (n.lose i).count q root = n.count q root := rfl
  unfold Within Traffic.deliver price at *
  rw [count_emit, charge_emit, hcount]
  by_cases hr : x.1 = root
  · rw [if_pos hr] at hlose ⊢
    rw [if_pos hr]
    have := hprice hr
    omega
  · rw [if_neg hr] at hlose ⊢
    rw [if_neg hr]
    omega

/-- A message that stays in flight must not lead to anything that counts. -/
theorem Within.share (h : n.Within q w root budget) {x : ℕ × M}
    (hprice : x.1 = root → price q w sent (some x.2) outs = 0) :
    (n.share sent x party outs).Within q w root budget := by
  unfold Within Traffic.share price at *
  rw [count_emit, charge_emit]
  by_cases hr : x.1 = root
  · have := hprice hr
    rw [if_pos hr, if_pos hr]
    omega
  · rw [if_neg hr, if_neg hr]
    exact h

end Traffic

end Flight
