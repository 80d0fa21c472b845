import BatmanAdv.SeqWindow
import BatmanAdv.Windows

/-!
# The broadcast flood filter

A broadcast frame is accepted once: its sequence number enters the history of its originator and is found
there until the history restarts. That holds as long as `bit_mark` and `get_bit_status` are about the
same bit. A frame exactly 64 behind is marked by neither, so that it is accepted every time.
-/

namespace BatmanAdv

open Transition Sequence

variable {p : Platform} {s : State p} {e : Event p} {ptr : ℕ} {q : Seqno}

/-- How far ahead of the history of an entry a sequence number is. -/
def State.bcastDiff (s : State p) (ptr : ℕ) (q : Seqno) : ℤ :=
  (q - (s.origAt ptr).lastBcastSeqno).toInt

/-- The frame of this step is accepted for the entry and restarts its history. -/
def RestartsBcast (ptr : ℕ) (x : State p × Event p) : Prop :=
  ∃ q ∈ x.1.bcastFor ptr x.2, ¬ (-64 ≤ x.1.bcastDiff ptr q ∧ x.1.bcastDiff ptr q ≤ 64)

instance (ptr : ℕ) (x : State p × Event p) : Decidable (RestartsBcast ptr x) :=
  Option.decidableExistsMem (x.1.bcastFor ptr x.2)

/-- How far the frame of this step moves the history of the entry on. -/
def bcastMove (ptr : ℕ) (x : State p × Event p) : ℕ :=
  match x.1.bcastFor ptr x.2 with
  | some q => (x.1.bcastDiff ptr q).toNat
  | none => 0

def bcastMoves (ptr : ℕ) (tr : List (State p × Event p)) : ℕ := (tr.map (bcastMove ptr)).sum

theorem bcastMoves_snoc (ptr : ℕ) (tr : List (State p × Event p)) (x : State p × Event p) :
    bcastMoves ptr (tr ++ [x]) = bcastMoves ptr tr + bcastMove ptr x := by
  unfold bcastMoves
  rw [List.map_append, List.sum_append, List.map_singleton, List.sum_singleton]

theorem State.bcastFor_some (hs : s.Wf) (h : s.bcastFor ptr e = some q) :
    ∃ g o, o ∈ s.origs ∧ o.ptr = ptr ∧
      getBitStatus (Garbage.front g o.ptr) o.seqBits o.lastBcastSeqno q = false := by
  unfold State.bcastFor at h
  cases e with
  | bcast g frame =>
    dsimp only at h
    split_ifs at h with hfor
    obtain rfl : frame.seqno = q := Option.some.inj h
    obtain ⟨haccepted, e, he, hptr, horig⟩ := hfor
    rcases s.receiveBcast_cases g frame with heq | ⟨o, hfind, hnew, _⟩
    · rw [heq] at haccepted
      cases haccepted
    · obtain ⟨ho, horig'⟩ := hs.findOrigNode_eq_some_iff.mp hfind
      obtain rfl := hs.eq_of_orig ho he (horig'.trans horig.symm)
      exact ⟨g, o, ho, hptr, hnew⟩
  | _ => cases h

/-! ## The history of an entry -/

/-- The history of the entry records this sequence number, received `age` ago. -/
def OrigNode.Remembers (o : OrigNode p) (q : Seqno) (age : ℕ) : Prop :=
  Records o.seqBits o.lastBcastSeqno q age

theorem OrigNode.remembers_acceptBcast (front : ℕ → p.Word) (o : OrigNode p)
    (hreach : InReach p o.lastBcastSeqno q) :
    (o.acceptBcast front q).Remembers q (lateness o.lastBcastSeqno q) :=
  records_received front o.seqBits hreach

theorem OrigNode.Remembers.acceptBcast {o : OrigNode p} {age : ℕ} (h : o.Remembers q age)
    (front : ℕ → p.Word) {seqno : Seqno} (hnear : -64 ≤ (seqno - o.lastBcastSeqno).toInt) :
    (o.acceptBcast front seqno).Remembers q (age + (seqno - o.lastBcastSeqno).toInt.toNat) := by
  unfold OrigNode.acceptBcast OrigNode.Remembers
  dsimp only
  rw [bitGetPacket_snd]
  by_cases h0 : 0 ≤ (seqno - o.lastBcastSeqno).toInt
  · rw [decide_eq_true (by omega), if_pos rfl]
    exact Records.forward h front true h0
  · rw [decide_eq_false (by omega), if_neg Bool.false_ne_true,
      Int.toNat_of_nonpos (by omega), Nat.add_zero]
    exact Records.late h front true (not_le.mp h0) hnear

theorem OrigNode.Remembers.step {o o' : OrigNode p} {age : ℕ} (h : o.Remembers q age) (hs : s.Wf)
    (ho : o ∈ s.origs) (hptr : o.ptr = ptr) (hrestart : ¬ RestartsBcast ptr (s, e))
    (hstepped : o.Stepped s e o') : o'.Remembers q (age + bcastMove ptr (s, e)) := by
  subst hptr
  have hkeep : s.bcastFor o.ptr e = none → o'.seqBits = o.seqBits ∧ o'.lastBcastSeqno = o.lastBcastSeqno →
      o'.Remembers q (age + bcastMove o.ptr (s, e)) := by
    intro hnone hhistory
    unfold bcastMove OrigNode.Remembers
    rw [hnone, hhistory.1, hhistory.2]
    exact h
  cases hstepped with
  | count g rx he hfor hsame =>
    subst he
    exact hkeep rfl hsame.history
  | purge g currTime gwTime he hkept hpurged =>
    subst he
    refine hkeep rfl ?_
    rw [hpurged, OrigNode.purge_frame]
    exact ⟨rfl, rfl⟩
  | same hogm hbcast hsame => exact hkeep hbcast hsame.history
  | bcast g frame he hfor hnew heq =>
    have hdiff : s.bcastDiff o.ptr frame.seqno = (frame.seqno - o.lastBcastSeqno).toInt := by
      unfold State.bcastDiff
      rw [hs.origAt_of_mem ho]
    have hnear : -64 ≤ (frame.seqno - o.lastBcastSeqno).toInt := by
      rw [← hdiff]
      by_contra hfar
      exact hrestart ⟨frame.seqno, hfor, fun hboth => hfar hboth.1⟩
    have hmove : bcastMove o.ptr (s, e) = (frame.seqno - o.lastBcastSeqno).toInt.toNat := by
      unfold bcastMove
      rw [hfor, ← hdiff]
    rw [heq, hmove]
    exact h.acceptBcast _ hnear

/-! ## Runs -/

/-- From one accepted frame of an entry to a later state without restart. -/
theorem remembers_of_accepted {x : State p × Event p} {u t : State p} {b : List (State p × Event p)}
    (hs : x.1.Wf) (hstep : step x.1 x.2 = some u) (hrun : Trace step u b t)
    (hx : x.1.bcastFor ptr x.2 = some q) (hreach : InReach p (x.1.origAt ptr).lastBcastSeqno q)
    (hrestart : ∀ z ∈ b, ¬ RestartsBcast ptr z) :
    t.Wf ∧ ptr < t.nextPtr ∧ ∀ o ∈ t.origs, o.ptr = ptr →
      o.Remembers q (lateness (x.1.origAt ptr).lastBcastSeqno q + bcastMoves ptr b) := by
  obtain ⟨_, e, he, heptr, _⟩ := State.bcastFor_some hs hx
  have hlt : ptr < x.1.nextPtr := heptr ▸ (hs.node e he).ptr_lt
  refine entry_invariant (G := fun _ t e => ¬ RestartsBcast ptr (t, e))
    (I := fun pre o => o.Remembers q (lateness (x.1.origAt ptr).lastBcastSeqno q + bcastMoves ptr pre))
    hrun (step_wf hs hstep) (hlt.trans_le (step_nextPtr hs hstep)) ?_ ?_
    fun pre z post heq => hrestart z (by rw [heq]; simp)
  · intro o' ho' hptr'
    obtain ⟨o, ho, hptr, hstepped⟩ := step_windows hs hstep ho' (hptr' ▸ hlt)
    have hread := hs.origAt_of_mem ho
    rw [hptr, hptr'] at hread
    rw [← hptr', ← hptr] at hx
    rw [hread] at hreach ⊢
    cases hstepped with
    | count g rx heq =>
      rw [heq] at hx
      cases hx
    | purge g currTime gwTime heq =>
      rw [heq] at hx
      cases hx
    | same _ hnone =>
      rw [hnone] at hx
      cases hx
    | bcast g frame heq hfor hnew hnode =>
      obtain rfl : frame.seqno = q := Option.some.inj (hfor.symm.trans hx)
      rw [hnode]
      exact OrigNode.remembers_acceptBcast _ o hreach
  · intro pre t e o o' ht _ ho hptr hI hG hstepped
    rw [bcastMoves_snoc, ← Nat.add_assoc]
    exact hI.step ht ho hptr hG hstepped

/-- **The flood filter.** Between two acceptances of one sequence number the history is restarted,
perhaps by the second frame, and some other frame is accepted, provided that both are in reach where
they are late and that without a restart the sequence numbers do not go around in between. -/
theorem flood_filter {cfg : Config} {a b c : List (State p × Event p)} {x y : State p × Event p}
    (h : Run p cfg (a ++ x :: (b ++ y :: c)) s) (hx : x.1.bcastFor ptr x.2 = some q)
    (hy : y.1.bcastFor ptr y.2 = some q) (hxreach : InReach p (x.1.origAt ptr).lastBcastSeqno q)
    (hyreach : InReach p (y.1.origAt ptr).lastBcastSeqno q)
    (hcycle : (∀ z ∈ b ++ [y], ¬ RestartsBcast ptr z) →
      lateness (x.1.origAt ptr).lastBcastSeqno q + bcastMoves ptr (b ++ [y]) < 2 ^ 16) :
    (∃ z ∈ b ++ [y], RestartsBcast ptr z) ∧ ∃ z ∈ b, (z.1.bcastFor ptr z.2).isSome := by
  obtain ⟨hbefore, u, hu, hafter⟩ := Trace.split h
  have hbetween := (Trace.split hafter).1
  have hs := Run.wf hbefore
  -- what the history of the entry says when the second frame comes
  have hknown : (∀ z ∈ b, ¬ RestartsBcast ptr z) → y.1.Wf ∧ ∃ g o, o ∈ y.1.origs ∧ o.ptr = ptr ∧
      getBitStatus (Garbage.front g o.ptr) o.seqBits o.lastBcastSeqno q = false ∧
      o.Remembers q (lateness (x.1.origAt ptr).lastBcastSeqno q + bcastMoves ptr b) := by
    intro hrestart
    obtain ⟨hwf, _, hall⟩ := remembers_of_accepted hs hu hbetween hx hxreach hrestart
    obtain ⟨g, o, ho, hptr, hnew⟩ := State.bcastFor_some hwf hy
    exact ⟨hwf, g, o, ho, hptr, hnew, hall o ho hptr⟩
  have hrestarts : ∃ z ∈ b ++ [y], RestartsBcast ptr z := by
    by_contra hno
    have hno : ∀ z ∈ b ++ [y], ¬ RestartsBcast ptr z := fun z hz hr => hno ⟨z, hz, hr⟩
    obtain ⟨hwf, g, o, ho, hptr, hnew, hrecords⟩ := hknown fun z hz => hno z (List.mem_append_left _ hz)
    have hread : y.1.origAt ptr = o := by rw [← hptr, hwf.origAt_of_mem ho]
    have hcount := hcycle hno
    have hmove : bcastMove ptr y = (q - o.lastBcastSeqno).toInt.toNat := by
      unfold bcastMove State.bcastDiff
      rw [hy, hread]
    rw [bcastMoves_snoc, hmove] at hcount
    rw [hread] at hyreach
    have hnear : -64 ≤ (q - o.lastBcastSeqno).toInt ∧ (q - o.lastBcastSeqno).toInt ≤ 64 := by
      by_contra hfar
      refine hno y (List.mem_append_right _ (List.mem_singleton_self y)) ⟨q, hy, ?_⟩
      unfold State.bcastDiff
      rwa [hread]
    have hdiff := diff_of_near hrecords.1 (by omega) hnear
    have hage := hyreach.age_lt hdiff (by omega)
    have hfound := getBitStatus_of_recorded (g.front o.ptr) hrecords.1 hyreach hdiff hage
      (hrecords.2 hage)
    rw [hfound] at hnew
    cases hnew
  refine ⟨hrestarts, ?_⟩
  by_contra hnone
  have hnone : ∀ z ∈ b, z.1.bcastFor ptr z.2 = none := by
    intro z hz
    by_contra hsome
    exact hnone ⟨z, hz, Option.isSome_iff_ne_none.mpr hsome⟩
  have hstill : ∀ z ∈ b, ¬ RestartsBcast ptr z := by
    rintro z hz ⟨q', hq', _⟩
    rw [hnone z hz] at hq'
    cases hq'
  have hzero : bcastMoves ptr b = 0 := by
    unfold bcastMoves
    refine List.sum_eq_zero fun n hn => ?_
    obtain ⟨z, hz, rfl⟩ := List.mem_map.mp hn
    unfold bcastMove
    rw [hnone z hz]
  obtain ⟨hwf, g, o, ho, hptr, hnew, hrecords⟩ := hknown hstill
  rw [hzero, Nat.add_zero] at hrecords
  -- the second frame is as late as the first one was
  have hlate : lateness (x.1.origAt ptr).lastBcastSeqno q ≤ 64 := by
    unfold lateness
    split_ifs <;> omega
  have hdiff := hrecords.1.toInt_sub (by omega)
  rw [if_pos (by omega)] at hdiff
  obtain ⟨z, hz, hzrestart⟩ := hrestarts
  rcases List.mem_append.mp hz with hz | hz
  · exact hstill z hz hzrestart
  · obtain rfl := List.mem_singleton.mp hz
    obtain ⟨q', hq', hfar⟩ := hzrestart
    obtain rfl : q' = q := Option.some.inj (hq'.symm.trans hy)
    refine hfar ?_
    unfold State.bcastDiff
    rw [← hptr, hwf.origAt_of_mem ho]
    omega

def Net.bcast (seqno : Seqno) : Event Net.p64 :=
  .bcast (Net.zeros Net.p64) ⟨Net.macA, 100, Net.macA, seqno⟩

/-- A frame, then one far ahead, then the first one again. -/
theorem flood_filter_restart : ∃ a x z y s,
    Run Net.p64 Net.cfg (a ++ x :: ([z] ++ [y])) s ∧
    (a ++ x :: ([z] ++ [y])).map Prod.snd =
      Net.linkUp Net.p64 ++ [Net.bcast 1, Net.bcast 1000, Net.bcast 1] ∧
    x.1.bcastFor 4 x.2 = some 1 ∧ y.1.bcastFor 4 y.2 = some 1 ∧
    ∃ w ∈ [z] ++ [y], RestartsBcast 4 w := by
  obtain ⟨tr, s, hrun, hevents, hcheck⟩ := Run.of_exec Net.cfg
    (Net.linkUp Net.p64 ++ [Net.bcast 1, Net.bcast 1000, Net.bcast 1])
    (fun tr _ => lastThree (fun (x z y : State Net.p64 × Event Net.p64) => decide (x.1.bcastFor 4 x.2 = some 1 ∧
      y.1.bcastFor 4 y.2 = some 1 ∧ InReach Net.p64 (x.1.origAt 4).lastBcastSeqno 1 ∧
      InReach Net.p64 (y.1.origAt 4).lastBcastSeqno 1 ∧
      lateness (x.1.origAt 4).lastBcastSeqno 1 + bcastMoves 4 ([z] ++ [y]) < 2 ^ 16)) tr)
    (by decide +kernel)
  obtain ⟨a, x, z, y, htr, hq⟩ := exists_of_lastThree hcheck
  rw [htr] at hrun hevents
  obtain ⟨hx, hy, hxreach, hyreach, hcycle⟩ := of_decide_eq_true hq
  exact ⟨a, x, z, y, s, hrun, hevents, hx, hy,
    (flood_filter hrun hx hy hxreach hyreach fun _ => hcycle).1⟩

/-- A frame 64 behind is accepted, and when the same frame comes next it is accepted again. -/
theorem flood_filter_leaks : ∃ a x z y s,
    Run Net.p64 Net.cfg (a ++ x :: ([z] ++ [y])) s ∧
    (a ++ x :: ([z] ++ [y])).map Prod.snd =
      Net.linkUp Net.p64 ++ [Net.bcast 200, Net.bcast 136, Net.bcast 136] ∧
    z.1.bcastFor 4 z.2 = some 136 ∧ y.1.bcastFor 4 y.2 = some 136 ∧ ¬ RestartsBcast 4 y := by
  obtain ⟨tr, s, hrun, hevents, hcheck⟩ := Run.of_exec Net.cfg
    (Net.linkUp Net.p64 ++ [Net.bcast 200, Net.bcast 136, Net.bcast 136])
    (fun tr _ => lastThree (fun (_ z y : State Net.p64 × Event Net.p64) => decide (z.1.bcastFor 4 z.2 = some 136 ∧
      y.1.bcastFor 4 y.2 = some 136 ∧ ¬ RestartsBcast 4 y)) tr) (by decide +kernel)
  obtain ⟨a, x, z, y, htr, hq⟩ := exists_of_lastThree hcheck
  rw [htr] at hrun hevents
  obtain ⟨hz, hy, hno⟩ := of_decide_eq_true hq
  exact ⟨a, x, z, y, s, hrun, hevents, hz, hy, hno⟩

end BatmanAdv
