import BatmanAdv.SendQueue

/-!
# The order of dispatch

`schedule_own_packet` sorts, `schedule_forward_packet` puts its packet in front, and
`send_outstanding_packets` stops at the first packet that is not due. The queue need not be sorted for
that: what is out of order are forwarded packets, and those are due since they were queued.
-/

namespace BatmanAdv

open Transition

variable {p : Platform}

/-! ## The calls -/

/-- A call of `schedule.c`, or a round of the loop in it, with what `get_time` and `rand_num` return there;
a call that does not read the clock has the last reading. -/
inductive SendEvent (p : Platform)
  | own (ifNum : ℕ) (now : Time) (rnd : ℕ)
  | forward (g : Garbage p) (origNode : ℕ) (neigh : Mac) (pkt : BatmanPacket) (hna : List Byte)
      (directlinkFlag : Bool) (now : Time) (ifOutgoing : ℕ)
  | sendBegin (now : Time)
  | sendNext (now : Time) (rnd : ℕ)

/-- The state, and what `get_time` returned last. The clock does not go back. -/
def sendStep (x : State p × Time) : SendEvent p → Option (State p × Time)
  | .own ifNum now rnd =>
    if x.1.walk = none ∧ x.2 ≤ now ∧ rnd < 2 * jitter.toNat then
      some (x.1.scheduleOwnPacket ifNum now rnd, now)
    else none
  | .forward g origNode neigh pkt hna directlinkFlag now ifOutgoing =>
    if x.1.walk = none ∧ x.2 ≤ now then
      some (x.1.scheduleForwardPacket g origNode neigh pkt hna directlinkFlag now ifOutgoing, now)
    else none
  | .sendBegin now => if x.1.walk = none ∧ x.2 ≤ now then some (x.1.sendBegin now, now) else none
  | .sendNext now rnd =>
    if x.2 ≤ now ∧ rnd < 2 * jitter.toNat then (x.1.sendNext now rnd).map fun s => (s, now) else none

/-- The packet this step processes. -/
def SendEvent.transmitted (s : State p) : SendEvent p → Option ForwNode
  | .sendNext now rnd => s.transmitted (.sendNext now rnd)
  | _ => none

def SendEvent.isRound : SendEvent p → Bool
  | .sendNext _ _ => true
  | _ => false

def transmissions (tr : List ((State p × Time) × SendEvent p)) : List ForwNode :=
  tr.filterMap fun x => x.2.transmitted x.1.1

/-- `get_time() + originator_interval - JITTER + rand_num(2*JITTER)` is computed without wrapping. -/
def State.SendTimeFits (s : State p) (now : Time) (rnd : ℕ) : Prop :=
  now.toNat + s.originatorInterval.toInt - jitter.toNat + rnd < 2 ^ 32

/-- No send time wraps in this step. -/
def SendTimeFits (x : (State p × Time) × SendEvent p) : Prop :=
  match x.2 with
  | .own _ now rnd => x.1.1.SendTimeFits now rnd
  | .sendNext now rnd => ∀ f ∈ x.2.transmitted x.1.1, f.own = true → x.1.1.SendTimeFits now rnd
  | _ => True

instance (s : State p) (now : Time) (rnd : ℕ) : Decidable (s.SendTimeFits now rnd) := by
  unfold State.SendTimeFits
  infer_instance

instance (x : (State p × Time) × SendEvent p) : Decidable (SendTimeFits x) := by
  unfold SendTimeFits
  split <;> infer_instance

def State.selectTimeout (s : State p) (currTime : Time) : Option Time :=
  s.forwList.head?.map fun f => if currTime < f.sendTime then f.sendTime - currTime else 10

/-! ## The order of the queue -/

/-- Forwarded packets that are due by `now`, and behind them packets in the order of their send times. -/
def InOrder (now : Time) (l : List ForwNode) : Prop :=
  ∃ forwarded sorted, l = forwarded ++ sorted ∧
    (∀ f ∈ forwarded, f.own = false ∧ f.sendTime ≤ now) ∧
    sorted.Pairwise fun a b => a.sendTime ≤ b.sendTime

theorem InOrder.nil (now : Time) : InOrder now [] :=
  ⟨[], [], rfl, by simp, List.Pairwise.nil⟩

theorem InOrder.mono {now later : Time} {l : List ForwNode} (h : InOrder now l) (hle : now ≤ later) :
    InOrder later l := by
  obtain ⟨forwarded, sorted, rfl, hdue, hsorted⟩ := h
  refine ⟨forwarded, sorted, rfl, fun f hf => ?_, hsorted⟩
  exact ⟨(hdue f hf).1, BitVec.le_trans (hdue f hf).2 hle⟩

theorem InOrder.forward {now : Time} {f : ForwNode} {l : List ForwNode} (h : InOrder now l)
    (hown : f.own = false) (hdue : f.sendTime ≤ now) : InOrder now (f :: l) := by
  obtain ⟨forwarded, sorted, rfl, hall, hsorted⟩ := h
  refine ⟨f :: forwarded, sorted, rfl, fun x hx => ?_, hsorted⟩
  rcases List.mem_cons.mp hx with rfl | hx
  · exact ⟨hown, hdue⟩
  · exact hall x hx

theorem insertForw_append {f : ForwNode} {l : List ForwNode} (h : ∀ x ∈ l, x.sendTime ≤ f.sendTime)
    (k : List ForwNode) : insertForw f (l ++ k) = l ++ insertForw f k := by
  induction l with
  | nil => rfl
  | cons a l ih =>
    have ha : ¬ a.sendTime.toNat > f.sendTime.toNat := not_lt.mpr (h a List.mem_cons_self)
    rw [List.cons_append, insertForw, if_neg ha, ih fun x hx => h x (List.mem_cons_of_mem a hx)]
    rfl

theorem insertForw_sorted {f : ForwNode} {l : List ForwNode}
    (h : l.Pairwise fun a b => a.sendTime ≤ b.sendTime) :
    (insertForw f l).Pairwise fun a b => a.sendTime ≤ b.sendTime := by
  induction l with
  | nil => exact List.pairwise_singleton _ f
  | cons a l ih =>
    obtain ⟨ha, hl⟩ := List.pairwise_cons.mp h
    unfold insertForw
    by_cases hlater : a.sendTime.toNat > f.sendTime.toNat
    · rw [if_pos hlater]
      refine List.pairwise_cons.mpr ⟨fun x hx => ?_, h⟩
      have hfa : f.sendTime ≤ a.sendTime := Nat.le_of_lt hlater
      rcases List.mem_cons.mp hx with rfl | hx
      · exact hfa
      · exact BitVec.le_trans hfa (ha x hx)
    · rw [if_neg hlater]
      refine List.pairwise_cons.mpr ⟨fun x hx => ?_, ih hl⟩
      rcases mem_insertForw.mp hx with rfl | hx
      · exact Nat.le_of_not_lt hlater
      · exact ha x hx

theorem InOrder.insert {now : Time} {f : ForwNode} {l : List ForwNode} (h : InOrder now l)
    (hlate : now ≤ f.sendTime) : InOrder now (insertForw f l) := by
  obtain ⟨forwarded, sorted, rfl, hdue, hsorted⟩ := h
  have hfront : ∀ x ∈ forwarded, x.sendTime ≤ f.sendTime :=
    fun x hx => BitVec.le_trans (hdue x hx).2 hlate
  exact ⟨forwarded, insertForw f sorted, insertForw_append hfront sorted, hdue, insertForw_sorted hsorted⟩

theorem InOrder.tail {now : Time} {f : ForwNode} {l : List ForwNode} (h : InOrder now (f :: l)) :
    InOrder now l := by
  obtain ⟨forwarded, sorted, heq, hdue, hsorted⟩ := h
  cases forwarded with
  | nil =>
    rw [List.nil_append] at heq
    refine ⟨[], l, rfl, by simp, ?_⟩
    rw [← heq] at hsorted
    exact hsorted.of_cons
  | cons a forwarded =>
    obtain ⟨rfl, rfl⟩ := List.cons.inj heq
    exact ⟨forwarded, sorted, rfl, fun x hx => hdue x (List.mem_cons_of_mem f hx), hsorted⟩

theorem InOrder.earliest {now : Time} {f : ForwNode} {l : List ForwNode} (h : InOrder now (f :: l))
    (hlate : ¬ f.sendTime ≤ now) : ∀ x ∈ f :: l, f.sendTime ≤ x.sendTime := by
  obtain ⟨forwarded, sorted, heq, hdue, hsorted⟩ := h
  cases forwarded with
  | nil =>
    rw [List.nil_append] at heq
    rw [← heq] at hsorted
    intro x hx
    rcases List.mem_cons.mp hx with rfl | hx
    · exact BitVec.le_refl _
    · exact (List.pairwise_cons.mp hsorted).1 x hx
  | cons a forwarded =>
    obtain ⟨rfl, -⟩ := List.cons.inj heq
    exact absurd (hdue f List.mem_cons_self).2 hlate

theorem InOrder.late {now : Time} {f : ForwNode} {l : List ForwNode} (h : InOrder now (f :: l))
    (hlate : ¬ f.sendTime ≤ now) : ∀ x ∈ f :: l, ¬ x.sendTime ≤ now :=
  fun x hx hdue => hlate (BitVec.le_trans (h.earliest hlate x hx) hdue)

theorem filter_insertForw_of_neg {q : ForwNode → Bool} {f : ForwNode} (hf : q f = false)
    (l : List ForwNode) : (insertForw f l).filter q = l.filter q := by
  induction l with
  | nil => simp [insertForw, hf]
  | cons a l ih =>
    unfold insertForw
    split_ifs
    · rw [List.filter_cons_of_neg (by simp [hf])]
    · rw [List.filter_cons, List.filter_cons, ih]

/-! ## The clock -/

theorem State.lt_sendTimeOf {s : State p} {now : Time} {rnd : ℕ}
    (hinterval : jitter.toNat < s.originatorInterval.toInt) (hfits : s.SendTimeFits now rnd) :
    now < s.sendTimeOf now rnd := by
  have htime := State.toNat_sendTimeOf hinterval.le hfits
  rw [BitVec.lt_def]
  omega

/-! ## One step -/

/-- Where a pass at `t` stands in the queue `l`: at the first packet, or nothing is due and it ends in the
next round. -/
def StandsAt (t : Time) (pos : Option ℕ) (l : List ForwNode) : Prop :=
  pos = l.head?.map (·.ptr) ∨
    (∀ f ∈ l, ¬ f.sendTime ≤ t) ∧ ∀ ptr ∈ pos, ∃ f ∈ l, f.ptr = ptr

theorem StandsAt.insert {t : Time} {own : ForwNode} {l : List ForwNode} (h : InOrder t l)
    (hlate : t < own.sendTime) : StandsAt t (l.head?.map (·.ptr)) (insertForw own l) := by
  have hown : ¬ own.sendTime ≤ t := BitVec.not_le.mpr hlate
  cases l with
  | nil =>
    refine .inr ⟨fun f hf => ?_, by simp⟩
    rcases mem_insertForw.mp hf with rfl | hf
    · exact hown
    · cases hf
  | cons a l =>
    by_cases hdue : a.sendTime ≤ t
    · have hfront : ¬ a.sendTime.toNat > own.sendTime.toNat :=
        not_lt.mpr (hdue.trans (Nat.le_of_lt hlate))
      rw [insertForw, if_neg hfront]
      exact .inl rfl
    · refine .inr ⟨fun f hf => ?_, fun ptr hptr => ?_⟩
      · rcases mem_insertForw.mp hf with rfl | hf
        · exact hown
        · exact h.late hdue f hf
      · exact ⟨a, mem_insertForw.mpr (.inr List.mem_cons_self), Option.some.inj hptr⟩

/-- What holds in every state. -/
structure SendOk (x : State p × Time) : Prop where
  interval : jitter.toNat < x.1.originatorInterval.toInt
  ptr_lt : ∀ f ∈ x.1.forwList, f.ptr < x.1.nextPtr
  ptr_ne : x.1.forwList.Pairwise fun a b => a.ptr ≠ b.ptr
  order : InOrder x.2 x.1.forwList
  walk : ∀ t pos, x.1.walk = some (t, pos) →
    t ≤ x.2 ∧ InOrder t x.1.forwList ∧ StandsAt t pos x.1.forwList

theorem SendOk.of_start {x : State p × Time} (hinterval : jitter.toNat < x.1.originatorInterval.toInt)
    (hlist : x.1.forwList = []) (hwalk : x.1.walk = none) : SendOk x where
  interval := hinterval
  ptr_lt := by simp [hlist]
  ptr_ne := by simp [hlist]
  order := by rw [hlist]; exact .nil _
  walk t pos h := by rw [hwalk] at h; cases h

theorem ptrs_of_perm {f : ForwNode} {l l' : List ForwNode} {nextPtr : ℕ} (hperm : l'.Perm (f :: l))
    (hf : f.ptr = nextPtr) (hlt : ∀ x ∈ l, x.ptr < nextPtr)
    (hne : l.Pairwise fun a b => a.ptr ≠ b.ptr) :
    (∀ x ∈ l', x.ptr < nextPtr + 1) ∧ l'.Pairwise fun a b => a.ptr ≠ b.ptr := by
  constructor
  · intro x hx
    rcases List.mem_cons.mp (hperm.mem_iff.mp hx) with rfl | hx
    · omega
    · exact Nat.lt_succ_of_lt (hlt x hx)
  · refine (hperm.pairwise_iff fun h => h.symm).mpr (List.pairwise_cons.mpr ⟨fun x hx => ?_, hne⟩)
    rw [hf]
    exact (hlt x hx).ne'

theorem SendOk.scheduleOwnPacket {s : State p} {clock now : Time} {ifNum rnd : ℕ}
    (h : SendOk (s, clock)) (hwalk : s.walk = none) (hclock : clock ≤ now)
    (hfits : s.SendTimeFits now rnd) : SendOk (s.scheduleOwnPacket ifNum now rnd, now) := by
  have hlt : now < s.sendTimeOf now rnd := State.lt_sendTimeOf h.interval hfits
  obtain ⟨hptr, hne⟩ := ptrs_of_perm (insertForw_perm (s.ownNode ifNum now rnd) s.forwList) rfl
    h.ptr_lt h.ptr_ne
  refine ⟨h.interval, hptr, hne, (h.order.mono hclock).insert (BitVec.le_of_lt hlt), ?_⟩
  intro t pos hpos
  have : s.walk = some (t, pos) := hpos
  rw [hwalk] at this
  cases this

theorem SendOk.scheduleForwardPacket {s : State p} {clock now : Time} (h : SendOk (s, clock))
    (hwalk : s.walk = none) (hclock : clock ≤ now) (g : Garbage p) (origNode : ℕ) (neigh : Mac)
    (pkt : BatmanPacket) (hna : List Byte) (directlinkFlag : Bool) (ifOutgoing : ℕ) :
    SendOk (s.scheduleForwardPacket g origNode neigh pkt hna directlinkFlag now ifOutgoing, now) := by
  have hnone : ∀ t pos, s.walk = some (t, pos) → False := fun t pos hpos => by
    rw [hwalk] at hpos
    cases hpos
  rw [State.scheduleForwardPacket_eq]
  split_ifs
  · exact ⟨h.interval, h.ptr_lt, h.ptr_ne, h.order.mono hclock, fun t pos hpos => (hnone t pos hpos).elim⟩
  · obtain ⟨hptr, hne⟩ := ptrs_of_perm
      (f := s.forwardNode g origNode neigh pkt hna directlinkFlag now ifOutgoing) (.refl _) rfl
      h.ptr_lt h.ptr_ne
    exact ⟨h.interval, hptr, hne, (h.order.mono hclock).forward rfl (BitVec.le_refl now),
      fun t pos hpos => (hnone t pos hpos).elim⟩

theorem SendOk.sendBegin {s : State p} {clock now : Time} (h : SendOk (s, clock)) (hclock : clock ≤ now) :
    SendOk (s.sendBegin now, now) := by
  refine ⟨h.interval, h.ptr_lt, h.ptr_ne, h.order.mono hclock, fun t pos hpos => ?_⟩
  obtain ⟨f, hf, heq⟩ := Option.map_eq_some_iff.mp (show s.forwList.head?.map _ = _ from hpos)
  obtain ⟨rfl, rfl⟩ := Prod.mk.inj heq
  refine ⟨BitVec.le_refl _, h.order.mono hclock, .inl ?_⟩
  show some f.ptr = s.forwList.head?.map (·.ptr)
  rw [hf]
  rfl

/-- A round of a pass at `t`, which processes `sent`. -/
inductive State.Round (t : Time) (s s' : State p) : Option ForwNode → Prop
  | ends (hlate : ∀ f ∈ s.forwList, ¬ f.sendTime ≤ t) (heq : s' = { s with walk := none }) :
      State.Round t s s' none
  | sends {f : ForwNode} {post : List ForwNode} {pos : Option ℕ} (hlist : s.forwList = f :: post)
      (hdue : f.sendTime ≤ t) (hwalk : s'.walk = some (t, pos))
      (hafter : s'.forwList = post ∨ ∃ own, ¬ own.sendTime ≤ t ∧ s'.forwList = insertForw own post) :
      State.Round t s s' (some f)

variable {s s' : State p} {clock now t : Time} {pos : Option ℕ} {rnd : ℕ}

/-- The pass ends where nothing is due. -/
theorem SendOk.late_of_transmitted (h : SendOk (s, clock)) (hwalk : s.walk = some (t, pos))
    (hnone : s.transmitted (.sendNext now rnd) = none) : ∀ f ∈ s.forwList, ¬ f.sendTime ≤ t := by
  obtain ⟨-, horder, hstands⟩ := h.walk t pos hwalk
  rcases hstands with rfl | ⟨hlate, -⟩
  · intro f hf
    cases hlist : s.forwList with
    | nil =>
      rw [hlist] at hf
      cases hf
    | cons a l =>
      dsimp only at horder
      rw [hlist] at horder hf
      have ha : ¬ a.sendTime ≤ t := by
        unfold State.transmitted at hnone
        simpa [hwalk, hlist, Option.filter_eq_none_iff] using hnone
      exact horder.late ha f hf
  · exact hlate

theorem SendOk.first (h : SendOk (s, clock)) {f : ForwNode} {pre post : List ForwNode}
    (hwalk : s.walk = some (t, some f.ptr)) (hlist : s.forwList = pre ++ f :: post)
    (hdue : f.sendTime ≤ t) : pre = [] := by
  have hf : f ∈ s.forwList := by simp [hlist]
  rcases (h.walk t (some f.ptr) hwalk).2.2 with hhead | ⟨hlate, -⟩
  · cases pre with
    | nil => rfl
    | cons a pre =>
      have hne := h.ptr_ne
      dsimp only at hhead hne
      rw [hlist] at hhead hne
      have ha : a.ptr ≠ f.ptr := (List.pairwise_cons.mp hne).1 f (by simp)
      exact absurd (Option.some.inj hhead).symm ha
  · exact absurd hdue (hlate f hf)

/-- **One round.** -/
theorem SendOk.sendNext (h : SendOk (s, clock)) (hwalk : s.walk = some (t, pos)) (hclock : clock ≤ now)
    (hfits : ∀ f ∈ s.transmitted (.sendNext now rnd), f.own = true → s.SendTimeFits now rnd)
    (hnext : s.sendNext now rnd = some s') :
    SendOk (s', now) ∧ State.Round t s s' (s.transmitted (.sendNext now rnd)) := by
  obtain ⟨htclock, horder, -⟩ := h.walk t pos hwalk
  rcases State.sendNext_transmitted hnext with
    ⟨hnone, rfl⟩ | ⟨t', f, pre, post, hsent, hwalk', hlist, hdue, rfl⟩
  · refine ⟨⟨h.interval, h.ptr_lt, h.ptr_ne, h.order.mono hclock, fun _ _ hpos => nomatch hpos⟩, ?_⟩
    rw [hnone]
    exact .ends (h.late_of_transmitted hwalk hnone) rfl
  · obtain ⟨rfl, rfl⟩ := Prod.mk.inj (Option.some.inj (hwalk.symm.trans hwalk'))
    obtain rfl := h.first hwalk hlist hdue
    rw [List.nil_append] at hlist
    obtain ⟨hinterval, hptr, hne, hclocked, -⟩ := h
    dsimp only at hinterval hptr hne hclocked horder
    rw [hlist] at hptr hne hclocked horder
    have hptr' : ∀ x ∈ post, x.ptr < s.nextPtr := fun x hx => hptr x (List.mem_cons_of_mem f hx)
    have horder' : InOrder now post := (hclocked.tail).mono hclock
    rw [hsent]
    dsimp only
    by_cases hown : f.own = true
    · rw [if_pos hown]
      have hlt : now < s.sendTimeOf now rnd := State.lt_sendTimeOf hinterval (hfits f hsent hown)
      have htlt : t < s.sendTimeOf now rnd :=
        Nat.lt_of_le_of_lt (BitVec.le_trans htclock hclock) hlt
      refine ⟨?_, .sends hlist hdue rfl (.inr ⟨_, BitVec.not_le.mpr htlt, rfl⟩)⟩
      obtain ⟨hptrs, hdistinct⟩ := ptrs_of_perm
        (insertForw_perm (State.ownNode { s with forwList := post } f.ifOutgoing now rnd) post) rfl
        hptr' hne.of_cons
      refine ⟨hinterval, hptrs, hdistinct, horder'.insert (BitVec.le_of_lt hlt), ?_⟩
      intro t' pos' hpos
      obtain ⟨rfl, rfl⟩ := Prod.mk.inj (Option.some.inj hpos)
      exact ⟨BitVec.le_trans htclock hclock, horder.tail.insert (BitVec.le_of_lt htlt),
        .insert horder.tail htlt⟩
    · rw [if_neg hown]
      refine ⟨⟨hinterval, hptr', hne.of_cons, horder', ?_⟩, .sends hlist hdue rfl (.inl rfl)⟩
      intro t' pos' hpos
      obtain ⟨rfl, rfl⟩ := Prod.mk.inj (Option.some.inj hpos)
      exact ⟨BitVec.le_trans htclock hclock, horder.tail, .inl rfl⟩

variable {x y : State p × Time} {e : SendEvent p} {tr : List ((State p × Time) × SendEvent p)}

theorem sendStep_round (h : sendStep x (.sendNext now rnd) = some y) :
    x.2 ≤ now ∧ y.2 = now ∧ x.1.sendNext now rnd = some y.1 := by
  obtain ⟨hguard, hy⟩ := Option.ite_none_right_eq_some.mp h
  obtain ⟨u, hu, rfl⟩ := Option.map_eq_some_iff.mp hy
  exact ⟨hguard.1, rfl, hu⟩

theorem State.walk_of_sendNext (h : s.sendNext now rnd = some s') : ∃ t pos, s.walk = some (t, pos) := by
  cases hwalk : s.walk with
  | none =>
    unfold State.sendNext at h
    rw [hwalk] at h
    cases h
  | some walk => exact ⟨walk.1, walk.2, rfl⟩

theorem sendStep_ok (h : SendOk x) (hfits : SendTimeFits (x, e)) (hstep : sendStep x e = some y) :
    SendOk y := by
  cases e with
  | own ifNum now rnd =>
    obtain ⟨hguard, hy⟩ := Option.ite_none_right_eq_some.mp hstep
    cases hy
    exact h.scheduleOwnPacket hguard.1 hguard.2.1 hfits
  | forward g origNode neigh pkt hna directlinkFlag now ifOutgoing =>
    obtain ⟨hguard, hy⟩ := Option.ite_none_right_eq_some.mp hstep
    cases hy
    exact h.scheduleForwardPacket hguard.1 hguard.2 g origNode neigh pkt hna directlinkFlag ifOutgoing
  | sendBegin now =>
    obtain ⟨hguard, hy⟩ := Option.ite_none_right_eq_some.mp hstep
    cases hy
    exact h.sendBegin hguard.2
  | sendNext now rnd =>
    obtain ⟨hclock, rfl, hnext⟩ := sendStep_round hstep
    obtain ⟨t, pos, hwalk⟩ := State.walk_of_sendNext hnext
    exact (h.sendNext hwalk hclock hfits hnext).1

theorem sendOk_of_run (h : Trace sendStep x tr y) (hempty : x.1.forwList = []) (hwalk : x.1.walk = none)
    (hinterval : jitter.toNat < x.1.originatorInterval.toInt) (hfits : ∀ r ∈ tr, SendTimeFits r) :
    SendOk y :=
  h.invariant_of_good (I := fun _ => SendOk) (G := fun _ t e => SendTimeFits (t, e))
    (.of_start hinterval hempty hwalk) (fun _ _ _ _ ht hG hu => sendStep_ok ht hG hu)
    fun pre r post heq => hfits r (by rw [heq]; simp)

/-! ## A pass -/

theorem SendOk.progress (h : SendOk x) (hwalk : x.1.walk ≠ none) (hclock : x.2 ≤ now)
    (hrnd : rnd < 2 * jitter.toNat) : ∃ y, sendStep x (.sendNext now rnd) = some y := by
  have hnext : ∃ s, x.1.sendNext now rnd = some s := by
    unfold State.sendNext
    rcases hpos : x.1.walk with _ | ⟨t, _ | ptr⟩
    · exact absurd hpos hwalk
    · exact ⟨_, rfl⟩
    · have hfind : (x.1.forwList.find? (·.ptr = ptr)).isSome := by
        rw [List.find?_isSome]
        rcases (h.walk t (some ptr) hpos).2.2 with hhead | ⟨-, hmem⟩
        · obtain ⟨f, hf, hptr⟩ := Option.map_eq_some_iff.mp hhead.symm
          exact ⟨f, List.mem_of_head? hf, by simpa using hptr⟩
        · obtain ⟨f, hf, hptr⟩ := hmem ptr rfl
          exact ⟨f, hf, by simpa using hptr⟩
      obtain ⟨f, hf⟩ := Option.isSome_iff_exists.mp hfind
      dsimp only
      rw [hf]
      dsimp only
      split_ifs
      · exact ⟨_, rfl⟩
      · exact ⟨_, rfl⟩
      · exact ⟨_, rfl⟩
  obtain ⟨s, hs⟩ := hnext
  refine ⟨(s, now), ?_⟩
  unfold sendStep
  dsimp only
  rw [if_pos ⟨hclock, hrnd⟩, hs]
  rfl

/-- Between the rounds of a pass at `t` over the queue `l`. -/
structure PassOk (t : Time) (l sent : List ForwNode) (rounds : ℕ) (s : State p) : Prop where
  due : sent ++ s.forwList.filter (·.sendTime ≤ t) = l.filter (·.sendTime ≤ t)
  kept : ∀ f ∈ l, ¬ f.sendTime ≤ t → f ∈ s.forwList
  order : InOrder t s.forwList
  walk : (∃ pos, s.walk = some (t, pos)) ∧ rounds ≤ sent.length ∨
    s.walk = none ∧ rounds ≤ sent.length + 1 ∧ ∀ f ∈ s.forwList, ¬ f.sendTime ≤ t

theorem InOrder.passOk_sendBegin (h : InOrder now s.forwList) :
    PassOk now s.forwList [] 0 (s.sendBegin now) where
  due := rfl
  kept := fun f hf _ => hf
  order := h
  walk := by
    unfold State.sendBegin
    cases hlist : s.forwList with
    | nil => exact .inr ⟨rfl, Nat.zero_le _, by simp⟩
    | cons f l => exact .inl ⟨⟨_, rfl⟩, le_rfl⟩

theorem PassOk.round {l sent : List ForwNode} {rounds : ℕ} {f : Option ForwNode}
    (h : PassOk t l sent rounds s) (hwalk : s.walk ≠ none) (hround : State.Round t s s' f) :
    PassOk t l (sent ++ f.toList) (rounds + 1) s' := by
  have hrounds : rounds ≤ sent.length := by
    rcases h.walk with ⟨-, hrounds⟩ | ⟨hnone, -⟩
    · exact hrounds
    · exact absurd hnone hwalk
  cases hround with
  | ends hlate heq =>
    subst heq
    refine ⟨?_, h.kept, h.order, .inr ⟨rfl, ?_, hlate⟩⟩
    · simpa using h.due
    · simpa using hrounds
  | @sends f post pos hlist hdue hpos hafter =>
    have hfilter : s'.forwList.filter (·.sendTime ≤ t) = post.filter (·.sendTime ≤ t) := by
      rcases hafter with heq | ⟨own, hlate, heq⟩
      · rw [heq]
      · rw [heq, filter_insertForw_of_neg (by simpa using hlate)]
    have hpost : InOrder t post := (hlist ▸ h.order).tail
    refine ⟨?_, fun x hx hlate => ?_, ?_, .inl ⟨⟨pos, hpos⟩, by simpa using hrounds⟩⟩
    · rw [hfilter, ← h.due, hlist, List.filter_cons_of_pos (by simpa using hdue)]
      simp
    · have hmem := h.kept x hx hlate
      rw [hlist] at hmem
      rcases List.mem_cons.mp hmem with rfl | hmem
      · exact absurd hdue hlate
      · rcases hafter with heq | ⟨own, -, heq⟩
        · rwa [heq]
        · rw [heq]
          exact mem_insertForw.mpr (.inr hmem)
    · rcases hafter with heq | ⟨own, hlate, heq⟩
      · rwa [heq]
      · rw [heq]
        exact hpost.insert (BitVec.le_of_lt (BitVec.not_le.mp hlate))

/-- What a pass at `now` over the queue `l`, which processed `sent`, leaves behind. -/
structure Dispatched (now : Time) (l sent : List ForwNode) (s : State p) : Prop where
  due : sent = l.filter (·.sendTime ≤ now)
  once : sent.Nodup
  kept : ∀ f ∈ l, ¬ f.sendTime ≤ now → f ∈ s.forwList
  pending : ∀ f ∈ s.forwList, now < f.sendTime
  earliest : ∀ f ∈ s.forwList.head?, ∀ x ∈ s.forwList, f.sendTime ≤ x.sendTime
  timeout : ∀ currTime, ∀ timeout ∈ s.selectTimeout currTime,
    ∃ f ∈ s.forwList, (∀ x ∈ s.forwList, f.sendTime ≤ x.sendTime) ∧
      timeout = if currTime < f.sendTime then f.sendTime - currTime else 10

theorem PassOk.dispatched {l sent : List ForwNode} {rounds : ℕ} (h : PassOk t l sent rounds s)
    (hptr : l.Pairwise fun a b => a.ptr ≠ b.ptr) (hwalk : s.walk = none) : Dispatched t l sent s := by
  have hlate : ∀ f ∈ s.forwList, ¬ f.sendTime ≤ t := by
    rcases h.walk with ⟨⟨pos, hpos⟩, -⟩ | ⟨-, -, hlate⟩
    · rw [hwalk] at hpos
      cases hpos
    · exact hlate
  have hsent : sent = l.filter (·.sendTime ≤ t) := by
    have hrest : s.forwList.filter (·.sendTime ≤ t) = [] :=
      List.filter_eq_nil_iff.mpr fun f hf => by simpa using hlate f hf
    rw [← h.due, hrest, List.append_nil]
  have hearliest : ∀ f ∈ s.forwList.head?, ∀ x ∈ s.forwList, f.sendTime ≤ x.sendTime := by
    intro f hf
    obtain ⟨rest, hlist⟩ := List.head?_eq_some_iff.mp hf
    have horder := h.order
    rw [hlist] at horder hlate ⊢
    exact horder.earliest (hlate f List.mem_cons_self)
  refine ⟨hsent, ?_, h.kept, fun f hf => BitVec.not_le.mp (hlate f hf), hearliest, ?_⟩
  · rw [hsent]
    exact (hptr.filter _).imp fun hne heq => hne (congrArg ForwNode.ptr heq)
  · intro currTime timeout htimeout
    obtain ⟨f, hf, rfl⟩ := Option.map_eq_some_iff.mp htimeout
    exact ⟨f, List.mem_of_head? hf, hearliest f hf, rfl⟩

theorem transmissions_append (a b : List ((State p × Time) × SendEvent p)) :
    transmissions (a ++ b) = transmissions a ++ transmissions b :=
  List.filterMap_append

theorem passOk_of_rounds {l : List ForwNode} (h : Trace sendStep x tr y) (hx : SendOk x)
    (hpass : PassOk t l [] 0 x.1) (hrounds : ∀ r ∈ tr, r.2.isRound = true)
    (hfits : ∀ r ∈ tr, SendTimeFits r) : SendOk y ∧ PassOk t l (transmissions tr) tr.length y.1 := by
  refine h.invariant_of_good
    (I := fun pre u => SendOk u ∧ PassOk t l (transmissions pre) pre.length u.1)
    (G := fun _ u e => SendEvent.isRound e = true ∧ SendTimeFits (u, e)) ⟨hx, hpass⟩
    (fun pre u e v ⟨hu, hpre⟩ ⟨hround, hG⟩ hstep => ⟨sendStep_ok hu hG hstep, ?_⟩)
    fun pre r post heq => ⟨hrounds r (by rw [heq]; simp), hfits r (by rw [heq]; simp)⟩
  cases e with
  | own => cases hround
  | forward => cases hround
  | sendBegin => cases hround
  | sendNext now rnd =>
    obtain ⟨hclock, -, hnext⟩ := sendStep_round hstep
    obtain ⟨t', pos, hwalk⟩ := State.walk_of_sendNext hnext
    have hne : u.1.walk ≠ none := by rw [hwalk]; exact Option.some_ne_none _
    obtain rfl : t' = t := by
      rcases hpre.walk with ⟨⟨pos', hwalk'⟩, -⟩ | ⟨hnone, -⟩
      · rw [hwalk] at hwalk'
        exact (Prod.mk.inj (Option.some.inj hwalk')).1
      · exact absurd hnone hne
    have hround := (hu.sendNext hwalk hclock hG hnext).2
    rw [transmissions_append, List.length_append]
    have hlast : transmissions [(u, SendEvent.sendNext now rnd)] =
        (u.1.transmitted (.sendNext now rnd)).toList := by
      unfold transmissions SendEvent.transmitted
      cases h : u.1.transmitted (.sendNext now rnd) <;> simp [h]
    rw [hlast]
    exact hpre.round hne hround

/-- **Dispatch.** The queue is in order in every state. A pass processes just what is due by its
`curr_time`, in the order of the queue and each packet once, in at most one round more, and leaves the
earliest of the other packets in front. -/
theorem dispatch_order (h : Trace sendStep x tr y) (hempty : x.1.forwList = [])
    (hwalk : x.1.walk = none) (hinterval : jitter.toNat < x.1.originatorInterval.toInt)
    (hfits : ∀ r ∈ tr, SendTimeFits r) :
    InOrder y.2 y.1.forwList ∧
      ∀ pre u now rounds, tr = pre ++ (u, .sendBegin now) :: rounds →
        (∀ r ∈ rounds, r.2.isRound = true) →
        (y.1.walk = none → Dispatched now u.1.forwList (transmissions rounds) y.1) ∧
        rounds.length ≤ (u.1.forwList.filter (·.sendTime ≤ now)).length + 1 ∧
        (y.1.walk ≠ none → ∀ later rnd, y.2 ≤ later → rnd < 2 * jitter.toNat →
          ∃ v, sendStep y (.sendNext later rnd) = some v) := by
  have hy := sendOk_of_run h hempty hwalk hinterval hfits
  refine ⟨hy.order, ?_⟩
  rintro pre u now rounds rfl hrounds
  obtain ⟨hpre, v, hv, hpost⟩ := h.split
  have hu := sendOk_of_run hpre hempty hwalk hinterval fun r hr => hfits r (by simp [hr])
  have hvok : SendOk v := sendStep_ok hu (hfits (u, .sendBegin now) (by simp)) hv
  have hbegin : PassOk now u.1.forwList [] 0 v.1 := by
    obtain ⟨hguard, hy⟩ := Option.ite_none_right_eq_some.mp hv
    cases hy
    exact (hu.order.mono hguard.2).passOk_sendBegin
  obtain ⟨-, hpass⟩ := passOk_of_rounds hpost hvok hbegin hrounds fun r hr => hfits r (by simp [hr])
  refine ⟨hpass.dispatched hu.ptr_ne, ?_, fun hne later rnd hlater hrnd => hy.progress hne hlater hrnd⟩
  have hlen : (transmissions rounds).length ≤ (u.1.forwList.filter (·.sendTime ≤ now)).length := by
    rw [← hpass.due, List.length_append]
    exact Nat.le_add_right _ _
  rcases hpass.walk with ⟨-, hrounds⟩ | ⟨-, hrounds, -⟩
  · omega
  · omega

/-! ## Two runs -/

theorem sends_of_exec (x : State p × Time) (events : List (SendEvent p))
    (q : List ((State p × Time) × SendEvent p) → State p × Time → Bool)
    (h : (exec sendStep x events).any (fun r => q r.1 r.2) = true) :
    ∃ tr y, Trace sendStep x tr y ∧ tr.map Prod.snd = events ∧ q tr y = true :=
  Trace.exists_of_exec h

/-- An OGM that is forwarded at `now`. -/
def Net.forwarding (now : Time) : SendEvent Net.p64 :=
  .forward (Net.zeros Net.p64) 0 Net.macA (Net.ogm Net.macA Net.macA 0 1 now).pkt [] true now 0

def Net.passing : List (SendEvent Net.p64) :=
  [.own 0 1000 0, .own 1 1000 50, forwarding 1200] ++
    .sendBegin 1900 :: [.sendNext 1900 0, .sendNext 1900 0, .sendNext 1900 0]

def Net.wrapping : List (SendEvent Net.p64) :=
  [forwarding 4294966596, forwarding 4294966646, .own 0 4294966696 100]

/-- A pass over a forwarded packet, an own one that is due, and one that is not. -/
theorem dispatch_order_pass : ∃ pre u rounds y,
    Trace sendStep (Net.cfg.start Net.p64, 1000) (pre ++ (u, .sendBegin 1900) :: rounds) y ∧
    Dispatched 1900 u.1.forwList (transmissions rounds) y.1 ∧ (transmissions rounds).length = 2 := by
  obtain ⟨tr, y, hrun, hevents, hcheck⟩ := sends_of_exec (Net.cfg.start Net.p64, 1000) Net.passing
    (fun tr y => decide ((∀ r ∈ tr, SendTimeFits r) ∧ y.1.walk = none ∧
      (transmissions (tr.drop 4)).length = 2 ∧ ∀ r ∈ tr.drop 4, r.2.isRound = true))
    (by decide +kernel)
  obtain ⟨hfits, hwalk, hlen, hrounds⟩ := of_decide_eq_true hcheck
  obtain ⟨pre, post, rfl, hpre, hpost⟩ := List.map_eq_append_iff.mp hevents
  obtain ⟨⟨u, e⟩, rounds, rfl, rfl, -⟩ := List.map_eq_cons_iff.mp hpost
  have hdrop : (pre ++ (u, SendEvent.sendBegin 1900) :: rounds).drop 4 = rounds := by
    have hthree : pre.length = 3 := by simpa using congrArg List.length hpre
    rw [List.drop_append, List.drop_eq_nil_of_le (by omega), hthree]
    rfl
  rw [hdrop] at hlen hrounds
  obtain ⟨-, hpass⟩ := dispatch_order hrun rfl rfl (by decide) hfits
  exact ⟨pre, u, rounds, y, hrun, (hpass pre u 1900 rounds rfl hrounds).1 hwalk, hlen⟩

/-- The clock does not wrap, but the send time of an own packet does: it is put in front of two forwarded
packets, which are not in the order of their send times. -/
theorem dispatch_order_wraps : ∃ tr y,
    Trace sendStep (Net.cfg.start Net.p64, 4294966596) tr y ∧
    jitter.toNat < (Net.cfg.start Net.p64).originatorInterval.toInt ∧
    ¬ InOrder y.2 y.1.forwList := by
  obtain ⟨tr, y, hrun, -, hcheck⟩ := sends_of_exec (Net.cfg.start Net.p64, 4294966596) Net.wrapping
    (fun _ y => decide ((∀ f ∈ y.1.forwList.head?, f.own = true) ∧
      ¬ y.1.forwList.Pairwise fun a b : ForwNode => a.sendTime ≤ b.sendTime))
    (by decide +kernel)
  obtain ⟨hown, hunsorted⟩ := of_decide_eq_true hcheck
  refine ⟨tr, y, hrun, by decide, ?_⟩
  rintro ⟨forwarded, sorted, heq, hforwarded, hsorted⟩
  cases forwarded with
  | nil => exact hunsorted (heq ▸ hsorted)
  | cons f forwarded =>
    have hf : f.own = true := hown f (by rw [heq]; rfl)
    rw [(hforwarded f List.mem_cons_self).1] at hf
    cases hf

end BatmanAdv
