import BatmanAdv.Reachable

/-!
# What a step does to the windows

The reception windows of an entry are written by `count_real_packets` alone, and its broadcast history by
accepted broadcast frames alone. Everything else leaves them as they are, up to neighbours that come
with an empty window and neighbours that are purged.
-/

namespace BatmanAdv

open Transition

variable {p : Platform} {g : Garbage p} {rx : Ogm} {s s' : State p}

/-- `o'` has the windows of `o`, and perhaps new neighbours whose windows are empty. -/
structure OrigNode.SameWindows (next : ℕ) (o o' : OrigNode p) : Prop where
  ptr : o'.ptr = o.ptr
  orig : o'.orig = o.orig
  lastRealSeqno : o'.lastRealSeqno = o.lastRealSeqno
  history : o'.seqBits = o.seqBits ∧ o'.lastBcastSeqno = o.lastBcastSeqno
  kept : ∀ n ∈ o.neighList, ∃ n' ∈ o'.neighList, n'.SameLink n
  mem : ∀ n' ∈ o'.neighList,
    (∃ n ∈ o.neighList, n'.SameLink n) ∨ next ≤ n'.ptr ∧ n'.realBits = bitInit

theorem NeighNode.SameLink.trans {a b c : NeighNode p} (hab : a.SameLink b) (hbc : b.SameLink c) :
    a.SameLink c where
  ptr := hab.ptr.trans hbc.ptr
  addr := hab.addr.trans hbc.addr
  ifIncoming := hab.ifIncoming.trans hbc.ifIncoming
  origNode := hab.origNode.trans hbc.origNode
  realBits := hab.realBits.trans hbc.realBits
  realPacketCount := hab.realPacketCount.trans hbc.realPacketCount

namespace OrigNode.SameWindows

variable {next next' : ℕ} {o o' o'' : OrigNode p}

theorem of_map {f : NeighNode p → NeighNode p} (hptr : o'.ptr = o.ptr) (horig : o'.orig = o.orig)
    (hlast : o'.lastRealSeqno = o.lastRealSeqno)
    (hhistory : o'.seqBits = o.seqBits ∧ o'.lastBcastSeqno = o.lastBcastSeqno)
    (hlist : o'.neighList = o.neighList.map f) (hf : ∀ n, (f n).SameLink n) :
    o.SameWindows next o' := by
  refine ⟨hptr, horig, hlast, hhistory, fun n hn => ?_, fun n' hn' => ?_⟩
  · exact ⟨f n, hlist ▸ List.mem_map_of_mem hn, hf n⟩
  · rw [hlist] at hn'
    obtain ⟨n, hn, rfl⟩ := List.mem_map.mp hn'
    exact .inl ⟨n, hn, hf n⟩

theorem of_eq (hptr : o'.ptr = o.ptr) (horig : o'.orig = o.orig)
    (hlast : o'.lastRealSeqno = o.lastRealSeqno)
    (hhistory : o'.seqBits = o.seqBits ∧ o'.lastBcastSeqno = o.lastBcastSeqno)
    (hlist : o'.neighList = o.neighList) : o.SameWindows next o' :=
  of_map hptr horig hlast hhistory (hlist.trans (List.map_id _).symm) fun n => .refl n

theorem refl (next : ℕ) (o : OrigNode p) : o.SameWindows next o := of_eq rfl rfl rfl ⟨rfl, rfl⟩ rfl

theorem trans (h : o.SameWindows next o') (h' : o'.SameWindows next' o'') (hle : next ≤ next') :
    o.SameWindows next o'' where
  ptr := h'.ptr.trans h.ptr
  orig := h'.orig.trans h.orig
  lastRealSeqno := h'.lastRealSeqno.trans h.lastRealSeqno
  history := ⟨h'.history.1.trans h.history.1, h'.history.2.trans h.history.2⟩
  kept n hn := by
    obtain ⟨n', hn', hlink⟩ := h.kept n hn
    obtain ⟨n'', hn'', hlink'⟩ := h'.kept n' hn'
    exact ⟨n'', hn'', hlink'.trans hlink⟩
  mem n'' hn'' := by
    rcases h'.mem n'' hn'' with ⟨n', hn', hlink'⟩ | ⟨hnew, hbits⟩
    · rcases h.mem n' hn' with ⟨n, hn, hlink⟩ | ⟨hnew, hbits⟩
      · exact .inl ⟨n, hn, hlink'.trans hlink⟩
      · exact .inr ⟨hlink'.ptr ▸ hnew, hlink'.realBits.trans hbits⟩
    · exact .inr ⟨hle.trans hnew, hbits⟩

end OrigNode.SameWindows

/-- The entries of `s'` that are not new have the windows they had in `s`. -/
def State.SameWindows (s s' : State p) : Prop :=
  s.nextPtr ≤ s'.nextPtr ∧
    ∀ o' ∈ s'.origs, o'.ptr < s.nextPtr → ∃ o ∈ s.origs, o.SameWindows s.nextPtr o'

namespace State.SameWindows

theorem of_origHash (h : s'.origHash = s.origHash) (hnext : s.nextPtr ≤ s'.nextPtr) :
    s.SameWindows s' := by
  refine ⟨hnext, fun o' ho' _ => ⟨o', ?_, .refl _ _⟩⟩
  unfold State.origs at ho' ⊢
  rwa [h] at ho'

theorem refl (s : State p) : s.SameWindows s := of_origHash rfl le_rfl

theorem trans {s'' : State p} (h : s.SameWindows s') (h' : s'.SameWindows s'') :
    s.SameWindows s'' := by
  refine ⟨h.1.trans h'.1, fun o'' ho'' hold => ?_⟩
  obtain ⟨o', ho', hsame'⟩ := h'.2 o'' ho'' (hold.trans_le h.1)
  obtain ⟨o, ho, hsame⟩ := h.2 o' ho' (hsame'.ptr ▸ hold)
  exact ⟨o, ho, hsame.trans hsame' h.1⟩

theorem modOrig (s : State p) (ptr : ℕ) {f : OrigNode p → OrigNode p}
    (hf : ∀ o : OrigNode p, o.SameWindows s.nextPtr (f o)) : s.SameWindows (s.modOrig ptr f) := by
  refine ⟨le_rfl, fun o' ho' _ => ?_⟩
  obtain ⟨o, ho, rfl⟩ := State.mem_origs_modOrig.mp ho'
  refine ⟨o, ho, ?_⟩
  split_ifs
  · exact hf o
  · exact .refl _ o

end State.SameWindows

/-! ## OGMs -/

theorem State.sameWindows_getOrigNode (hs : s.Wf) (addr : Mac) :
    s.SameWindows (s.getOrigNode addr).1 := by
  refine ⟨?_, fun o' ho' hold => ?_⟩
  · unfold State.getOrigNode
    split
    · exact le_rfl
    · exact Nat.le_succ _
  · rcases hs.mem_getOrigNode ho' with ho' | ⟨rfl, _⟩
    · exact ⟨o', ho', .refl _ o'⟩
    · exact absurd hold (lt_irrefl _)

theorem Write.sameWindows (h : Write rx s s') (hs : s.Wf) : s.SameWindows s' := by
  cases h with
  | clock => exact .of_origHash rfl le_rfl
  | create addr => exact State.sameWindows_getOrigNode hs addr
  | own ptr b c =>
    refine .modOrig s ptr fun o => ?_
    exact .of_eq rfl rfl rfl ⟨rfl, rfl⟩ rfl
  | neighbor origNode origNeighNode =>
    have hmod : s.SameWindows (s.modOrig origNode fun o => { o with neighList :=
        o.neighList ++ [NeighNode.new s.nextPtr rx.neigh origNeighNode rx.ifIncoming] }) := by
      refine .modOrig s origNode fun o => ⟨rfl, rfl, rfl, ⟨rfl, rfl⟩, fun n hn => ?_, fun n hn => ?_⟩
      · exact ⟨n, List.mem_append_left _ hn, .refl n⟩
      · rcases List.mem_append.mp hn with hn | hn
        · exact .inl ⟨n, hn, .refl n⟩
        · rw [List.mem_singleton.mp hn]
          exact .inr ⟨le_rfl, rfl⟩
    exact ⟨Nat.le_succ _, hmod.2⟩
  | valid ptr neigh =>
    refine .modOrig s ptr fun o => ?_
    exact .of_map rfl rfl rfl ⟨rfl, rfl⟩ (o.neighList_modNeigh _ _) fun n =>
      NeighNode.SameLink.ite (n.sameLink_touch _) (.refl n) _
  | entry ptr f =>
    refine .modOrig s ptr fun o => ?_
    exact .of_eq rfl rfl rfl ⟨rfl, rfl⟩ rfl
  | pushZero ptr dup =>
    refine .modOrig s ptr fun o => ?_
    exact .of_map rfl rfl rfl ⟨rfl, rfl⟩ (o.neighList_pushZero _ _ _) fun n =>
      NeighNode.SameLink.ite (.refl n) (n.sameLink_pushTq 0) _
  | receive ptr hat neigh pkt htq httl dup =>
    refine .modOrig s ptr fun o => ?_
    exact .of_map rfl rfl rfl ⟨rfl, rfl⟩ (o.neighList_receive _ _ _ _) fun n =>
      NeighNode.SameLink.ite (n.sameLink_receive pkt dup _) (.refl n) _
  | route ptr hat best hbest recv len =>
    have hmod : s.SameWindows (s.modOrig ptr (·.withRoutes (updateRoutes s.hwAddrs s.currTime s.trans
        (s.origAt ptr) best (some recv) len).2)) := by
      refine .modOrig s ptr fun o => ?_
      exact .of_eq rfl rfl rfl ⟨rfl, rfl⟩ rfl
    exact ⟨hmod.1, hmod.2⟩
  | gateway gwList => exact .of_origHash rfl le_rfl

theorem Writes.sameWindows (h : Writes rx s s') (hs : s.Wf) : s.SameWindows s' :=
  (h.preserves hs (.refl s) fun _ _ ht hI hwrite => hI.trans (hwrite.sameWindows ht)).2

theorem State.sameWindows_batmanOgm (hs : s.Wf) (h : ¬ s.Counts rx) :
    s.SameWindows (s.batmanOgm g rx).1 := by
  rcases State.batmanOgm_cases hs g rx with ⟨_, hwrites⟩ | ⟨hnoTq, _⟩ | ⟨hprocess, _⟩
  · exact hwrites.sameWindows hs
  · exact absurd (.inl hnoTq) h
  · exact absurd (.inr hprocess) h

theorem State.countState_sameWindows (hs : s.Wf) (h : s.Counts rx) :
    (s.countState g rx).SameWindows (s.batmanOgm g rx).1 := by
  have hcount := (State.countState_moves (g := g) hs h).wf hs
  rcases State.batmanOgm_cases hs g rx with ⟨hnot, _⟩ | ⟨_, heq⟩ | ⟨_, t, hwrites, hqueue⟩
  · exact absurd h hnot
  · rw [heq]
    exact .refl _
  · refine (hwrites.sameWindows hcount).trans ?_
    rcases hqueue with heq | ⟨f, _, _, heq⟩
    · rw [heq]
      exact .refl _
    · rw [heq]
      exact .of_origHash rfl (Nat.le_succ _)

theorem State.mem_countState (hs : s.Wf) (h : s.Counts rx) {o' : OrigNode p}
    (ho' : o' ∈ (s.countState g rx).origs) (hold : o'.ptr < s.nextPtr) :
    ∃ o ∈ s.origs, o' = if o.orig = rx.pkt.orig then
      o.countPacket g.front rx.neigh rx.ifIncoming rx.pkt.seqno else o := by
  have hclock : ({ s with currTime := rx.rcvdTime } : State p).Wf := hs.congr rfl le_rfl rfl
  have hat := hclock.at_getOrigNode rx.pkt.orig
  have hwf := hclock.getOrigNode (State.ogmCase_orig h)
  have hmem := fun o (ho : o ∈ (({ s with currTime := rx.rcvdTime } : State p).getOrigNode
    rx.pkt.orig).1.origs) => hclock.mem_getOrigNode ho
  unfold State.countState State.countRealPackets at ho'
  generalize ({ s with currTime := rx.rcvdTime } : State p).getOrigNode rx.pkt.orig = got
    at hat hwf hmem ho'
  obtain ⟨s1, origNode⟩ := got
  dsimp only at hat hwf hmem ho'
  obtain ⟨o, ho, rfl⟩ := State.mem_origs_modOrig.mp ho'
  have hptr : (if o.ptr = origNode then
      o.countPacket g.front rx.neigh rx.ifIncoming rx.pkt.seqno else o).ptr = o.ptr := by
    split_ifs <;> rfl
  rw [hptr] at hold
  refine ⟨o, ?_, ?_⟩
  · rcases hmem o ho with ho | ⟨rfl, _⟩
    · exact ho
    · exact absurd hold (lt_irrefl _)
  · have hiff : o.ptr = origNode ↔ o.orig = rx.pkt.orig := by
      obtain ⟨e, he, heptr, heorig⟩ := hat
      constructor
      · intro hptr'
        rw [hwf.eq_of_ptr ho he (hptr'.trans heptr.symm), heorig]
      · intro horig
        rw [hwf.eq_of_orig ho he (horig.trans heorig.symm), heptr]
    simp only [hiff]

/-! ## Steps -/

/-- The OGM of this step, where `count_real_packets` counts it for the entry `ptr` points to. -/
def State.ogmFor (s : State p) (ptr : ℕ) : Event p → Option Ogm
  | .ogm _ rx => if s.Counts rx ∧ s.At ptr rx.pkt.orig then some rx else none
  | _ => none

/-- The sequence number of the frame of this step, where it is accepted for the entry `ptr` points
to. -/
def State.bcastFor (s : State p) (ptr : ℕ) : Event p → Option Seqno
  | .bcast g frame =>
    if (s.receiveBcast g frame).2 = true ∧ s.At ptr frame.orig then some frame.seqno else none
  | _ => none

/-- What a step makes of the windows of an entry that was there before. -/
inductive OrigNode.Stepped (s : State p) (e : Event p) (o o' : OrigNode p) : Prop
  | count (g : Garbage p) (rx : Ogm) (he : e = .ogm g rx) (hfor : s.ogmFor o.ptr e = some rx)
      (h : (o.countPacket g.front rx.neigh rx.ifIncoming rx.pkt.seqno).SameWindows s.nextPtr o')
  | bcast (g : Garbage p) (frame : BcastFrame) (he : e = .bcast g frame)
      (hfor : s.bcastFor o.ptr e = some frame.seqno)
      (hnew : getBitStatus (g.front o.ptr) o.seqBits o.lastBcastSeqno frame.seqno = false)
      (h : o' = o.acceptBcast (g.front o.ptr) frame.seqno)
  | purge (g : Garbage p) (currTime gwTime : Time) (he : e = .purge g currTime gwTime)
      (hkept : expired o.lastValid currTime = false) (h : o.Purged g currTime o')
  | same (hogm : s.ogmFor o.ptr e = none) (hbcast : s.bcastFor o.ptr e = none)
      (h : o.SameWindows s.nextPtr o')

theorem State.stepped_of_sameWindows {e : Event p} (hogm : ∀ o ∈ s.origs, s.ogmFor o.ptr e = none)
    (hbcast : ∀ o ∈ s.origs, s.bcastFor o.ptr e = none) (h : s.SameWindows s') {o' : OrigNode p}
    (ho' : o' ∈ s'.origs) (hold : o'.ptr < s.nextPtr) :
    ∃ o ∈ s.origs, o.ptr = o'.ptr ∧ o.Stepped s e o' := by
  obtain ⟨o, ho, hsame⟩ := h.2 o' ho' hold
  exact ⟨o, ho, hsame.ptr.symm, .same (hogm o ho) (hbcast o ho) hsame⟩

/-- **The windows of an entry in a step.** -/
theorem step_windows {e : Event p} (hs : s.Wf) (h : step s e = some s') {o' : OrigNode p}
    (ho' : o' ∈ s'.origs) (hold : o'.ptr < s.nextPtr) :
    ∃ o ∈ s.origs, o.ptr = o'.ptr ∧ o.Stepped s e o' := by
  cases stepped h with
  | ogm g rx =>
    by_cases hcounts : s.Counts rx
    · obtain ⟨o1, ho1, hsame⟩ := (State.countState_sameWindows (g := g) hs hcounts).2 o' ho'
        (hold.trans_le (State.countState_moves hs hcounts).nextPtr)
      obtain ⟨o, ho, heq⟩ := State.mem_countState hs hcounts ho1 (hsame.ptr ▸ hold)
      have hle : s.nextPtr ≤ (s.countState g rx).nextPtr :=
        (State.countState_moves hs hcounts).nextPtr
      by_cases horig : o.orig = rx.pkt.orig
      · rw [if_pos horig] at heq
        subst heq
        refine ⟨o, ho, hsame.ptr.symm, .count g rx rfl (if_pos ⟨hcounts, o, ho, rfl, horig⟩) ?_⟩
        exact (OrigNode.SameWindows.refl _ _).trans hsame hle
      · rw [if_neg horig] at heq
        subst heq
        refine ⟨o1, ho, hsame.ptr.symm, .same (if_neg ?_) rfl ?_⟩
        · rintro ⟨_, e, he, hptr, horig'⟩
          rw [hs.eq_of_ptr he ho hptr] at horig'
          exact horig horig'
        · exact (OrigNode.SameWindows.refl _ _).trans hsame hle
    · have hnone : ∀ o ∈ s.origs, s.ogmFor o.ptr (.ogm g rx) = none :=
        fun o _ => if_neg fun hfor => hcounts hfor.1
      exact State.stepped_of_sameWindows hnone (fun o _ => rfl)
        (State.sameWindows_batmanOgm hs hcounts) ho' hold
  | bcast g frame =>
    rcases s.receiveBcast_cases g frame with heq | ⟨o, hfind, hnew, heq⟩
    · have hnone : ∀ o ∈ s.origs, s.bcastFor o.ptr (.bcast g frame) = none := by
        intro o _
        refine if_neg fun hfor => ?_
        rw [heq] at hfor
        exact Bool.false_ne_true hfor.1
      refine State.stepped_of_sameWindows (fun o _ => rfl) hnone ?_ ho' hold
      rw [heq]
      exact .refl s
    · obtain ⟨ho, horig⟩ := hs.findOrigNode_eq_some_iff.mp hfind
      rw [heq] at ho'
      obtain ⟨o1, ho1, rfl⟩ := State.mem_origs_modOrig.mp ho'
      by_cases hptr : o1.ptr = o.ptr
      · obtain rfl := hs.eq_of_ptr ho1 ho hptr
        refine ⟨o1, ho, ?_, .bcast g frame rfl (if_pos ⟨?_, o1, ho, rfl, horig⟩) hnew (if_pos rfl)⟩
        · rw [if_pos rfl]
          rfl
        · rw [heq]
      · rw [if_neg hptr]
        refine ⟨o1, ho1, rfl, .same rfl (if_neg ?_) (.refl _ _)⟩
        rintro ⟨_, e, he, hptr', horig'⟩
        rw [hs.eq_of_ptr he ho1 hptr'] at horig'
        exact hptr (hs.eq_of_orig ho1 ho (horig'.trans horig.symm) ▸ rfl)
  | tap shost dhost =>
    refine State.stepped_of_sameWindows (fun o _ => rfl) (fun o _ => rfl) ?_ ho' hold
    exact .of_origHash (s.receiveTap_frame shost dhost).1 (s.receiveTap_frame shost dhost).2.1.ge
  | clock now =>
    exact State.stepped_of_sameWindows (fun o _ => rfl) (fun o _ => rfl) (.of_origHash rfl le_rfl) ho' hold
  | hnaUpdate =>
    refine State.stepped_of_sameWindows (fun o _ => rfl) (fun o _ => rfl) ?_ ho' hold
    exact .of_origHash s.hnaUpdate_frame.1 s.hnaUpdate_frame.2.1.ge
  | purge g currTime gwTime =>
    obtain ⟨_, hfrom, _⟩ := State.origs_purgeOrig g currTime gwTime hs
    obtain ⟨o, ho, hkept, hpurged⟩ := hfrom o' ho'
    exact ⟨o, ho, hpurged.ptr.symm, .purge g currTime gwTime rfl hkept hpurged⟩
  | sendBegin now =>
    exact State.stepped_of_sameWindows (fun o _ => rfl) (fun o _ => rfl) (.of_origHash rfl le_rfl) ho' hold
  | sendNext now rnd _ _ hnext =>
    refine State.stepped_of_sameWindows (fun o _ => rfl) (fun o _ => rfl) ?_ ho' hold
    rcases State.sendNext_cases hnext with rfl | ⟨t, pos, f, _, _, _, rfl⟩
    · exact .of_origHash rfl le_rfl
    · dsimp only
      split_ifs
      · refine ⟨Nat.le_succ _, fun o1 ho1 _ => ?_⟩
        rw [State.origs_scheduleOwnPacket] at ho1
        obtain ⟨o, ho, rfl⟩ := List.mem_map.mp ho1
        exact ⟨o, ho, .of_eq rfl rfl rfl ⟨rfl, rfl⟩ rfl⟩
      · exact .of_origHash rfl le_rfl

/-- **Induction over a run for one entry.** The entry may be purged on the way; what has its pointer is
the same entry. -/
theorem entry_invariant {ptr : ℕ} {tr : List (State p × Event p)}
    {I : List (State p × Event p) → OrigNode p → Prop}
    {G : List (State p × Event p) → State p → Event p → Prop} (h : Trace step s tr s') (hs : s.Wf)
    (hold : ptr < s.nextPtr) (h0 : ∀ o ∈ s.origs, o.ptr = ptr → I [] o)
    (hstep : ∀ pre t e o o', t.Wf → s.nextPtr ≤ t.nextPtr → o ∈ t.origs → o.ptr = ptr → I pre o →
      G pre t e → o.Stepped t e o' → I (pre ++ [(t, e)]) o')
    (hgood : ∀ pre x post, tr = pre ++ x :: post → G pre x.1 x.2) :
    s'.Wf ∧ ptr < s'.nextPtr ∧ ∀ o ∈ s'.origs, o.ptr = ptr → I tr o := by
  have hinv := Trace.invariant_of_good (G := G)
    (I := fun pre t => t.Wf ∧ s.nextPtr ≤ t.nextPtr ∧ ∀ o ∈ t.origs, o.ptr = ptr → I pre o) h
    ⟨hs, le_rfl, h0⟩ (fun pre t e u ⟨ht, hle, hI⟩ hG hu => by
      refine ⟨step_wf ht hu, hle.trans (step_nextPtr ht hu), fun o' ho' hptr' => ?_⟩
      obtain ⟨o, ho, hptr, hstepped⟩ := step_windows ht hu ho' (hptr' ▸ hold.trans_le hle)
      have hptr : o.ptr = ptr := hptr.trans hptr'
      exact hstep pre t e o o' ht hle ho hptr (hI o ho hptr) hG hstepped) hgood
  exact ⟨hinv.1, hold.trans_le hinv.2.1, hinv.2.2⟩

end BatmanAdv
