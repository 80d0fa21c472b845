import BatmanAdv.SeqWindow
import BatmanAdv.Windows

/-!
# OGMs handed on once

`batman()` hands an OGM of a multihop originator to `schedule_forward_packet` unless a window of the
originator shows its sequence number. The window that is marked is that of the neighbour the OGM came
via, so that an OGM is not remembered where that neighbour is not there yet, and `last_real_seqno`
follows every OGM that is not found, late ones too, without the windows.
-/

namespace BatmanAdv

open Transition Sequence

variable {p : Platform} {g : Garbage p} {rx : Ogm} {s : State p} {e : Event p} {ptr : ℕ} {q : Seqno}
  {currTime : Time}

/-- The OGM of this step, where it is handed on for the entry `ptr` points to and its originator is not
the sender. -/
def State.handsOn (s : State p) (ptr : ℕ) : Event p → Option Ogm
  | .ogm g rx =>
    if (s.batmanOgm g rx).2 = .multihop ∧ (s.counted g rx).origNode = ptr then some rx else none
  | _ => none

/-- The OGM is behind the newest one by at most the window. -/
def OrigNode.Late (o : OrigNode p) (q : Seqno) : Prop :=
  -64 ≤ (q - o.lastRealSeqno).toInt ∧ (q - o.lastRealSeqno).toInt < 0

instance (o : OrigNode p) (q : Seqno) : Decidable (o.Late q) := inferInstanceAs (Decidable (_ ∧ _))

/-- The OGM of this step is counted for the entry and restarts its windows. -/
def RestartsWindow (ptr : ℕ) (x : State p × Event p) : Prop :=
  ∃ rx ∈ x.1.ogmFor ptr x.2,
    ¬ (-64 ≤ (rx.pkt.seqno - (x.1.origAt ptr).lastRealSeqno).toInt ∧
      (rx.pkt.seqno - (x.1.origAt ptr).lastRealSeqno).toInt ≤ 64)

instance (ptr : ℕ) (x : State p × Event p) : Decidable (RestartsWindow ptr x) :=
  Option.decidableExistsMem (x.1.ogmFor ptr x.2)

/-- How far the OGM of this step moves the windows of the entry on. -/
def windowMove (ptr : ℕ) (x : State p × Event p) : ℕ :=
  match x.1.ogmFor ptr x.2 with
  | some rx => (rx.pkt.seqno - (x.1.origAt ptr).lastRealSeqno).toInt.toNat
  | none => 0

def windowMoves (ptr : ℕ) (tr : List (State p × Event p)) : ℕ := (tr.map (windowMove ptr)).sum

theorem windowMoves_snoc (ptr : ℕ) (tr : List (State p × Event p)) (x : State p × Event p) :
    windowMoves ptr (tr ++ [x]) = windowMoves ptr tr + windowMove ptr x := by
  unfold windowMoves
  rw [List.map_append, List.sum_append, List.map_singleton, List.sum_singleton]

/-- One of these neighbours has the sequence number in its window. -/
def OrigNode.Shows (o : OrigNode p) (neighList : List (NeighNode p)) (q : Seqno) : Prop :=
  (o.lastRealSeqno - q).toNat < 64 ∧
    ∃ n ∈ neighList, winBit n.realBits (o.lastRealSeqno - q).toNat = true

instance (o : OrigNode p) (neighList : List (NeighNode p)) (q : Seqno) :
    Decidable (o.Shows neighList q) :=
  inferInstanceAs (Decidable (_ ∧ ∃ n ∈ neighList, _))

/-- A late OGM of the entry is found in a window, so that `last_real_seqno` stays; and a purge that keeps
the entry keeps a window that shows this sequence number, if there is one. -/
def KeepsWindow (ptr : ℕ) (q : Seqno) (x : State p × Event p) : Prop :=
  match x.2 with
  | .ogm g rx => x.1.ogmFor ptr x.2 = some rx → (x.1.origAt ptr).Late rx.pkt.seqno →
    (x.1.origAt ptr).isDuplicate g.front rx.pkt.seqno = true
  | .purge _ currTime _ => expired (x.1.origAt ptr).lastValid currTime = false →
    (x.1.origAt ptr).Shows (x.1.origAt ptr).neighList q →
      (x.1.origAt ptr).Shows ((x.1.origAt ptr).keptNeighs currTime) q
  | _ => True

instance (ptr : ℕ) (q : Seqno) (x : State p × Event p) : Decidable (KeepsWindow ptr q x) :=
  match x with
  | (_, .ogm _ _) => inferInstanceAs (Decidable (_ → _ → _))
  | (_, .purge _ _ _) => inferInstanceAs (Decidable (_ → _ → _))
  | (_, .bcast _ _) => isTrue trivial
  | (_, .tap _ _) => isTrue trivial
  | (_, .clock _) => isTrue trivial
  | (_, .hnaUpdate) => isTrue trivial
  | (_, .sendBegin _) => isTrue trivial
  | (_, .sendNext _ _) => isTrue trivial

/-! ## OGMs that are handed on -/

theorem OrigNode.isDuplicate_eq_false {front : ℕ → ℕ → p.Word} {o : OrigNode p} :
    o.isDuplicate front q = false ↔
      ∀ n ∈ o.neighList, getBitStatus (front n.ptr) n.realBits o.lastRealSeqno q = false := by
  unfold OrigNode.isDuplicate
  simp

theorem State.isDuplicate_counted (hs : s.Wf) {o : OrigNode p} (ho : o ∈ s.origs)
    (horig : o.orig = rx.pkt.orig) :
    (s.counted g rx).isDuplicate = o.isDuplicate g.front rx.pkt.seqno := by
  have hclock : ({ s with currTime := rx.rcvdTime } : State p).Wf := hs.congr rfl le_rfl rfl
  have hfind : ({ s with currTime := rx.rcvdTime } : State p).findOrigNode rx.pkt.orig = some o :=
    hclock.findOrigNode_eq_some_iff.mpr ⟨ho, horig⟩
  have hverdict : (s.counted g rx).isDuplicate = (({ s with currTime := rx.rcvdTime } :
      State p).countRealPackets g rx.neigh rx.pkt rx.ifIncoming).2 := rfl
  have hread := hclock.origAt_of_mem ho
  rw [hverdict]
  unfold State.countRealPackets State.getOrigNode
  rw [hfind]
  dsimp only
  rw [hread]

theorem State.multihop_cases (h : (s.batmanOgm g rx).2 = .multihop) :
    s.ogmCase rx = .process ∧ (s.counted g rx).isDuplicate = false := by
  have hprocess : s.ogmCase rx = .process := by
    by_contra hcase
    rw [State.batmanOgm_dropped g hcase] at h
    cases h
  refine ⟨hprocess, ?_⟩
  rw [State.batmanOgm_of_process hprocess] at h
  unfold Counted.handed at h
  split_ifs at h with _ _ _ hdup
  simpa using hdup

/-- **An OGM that is handed on** is counted for the entry, and no window of the entry shows it. -/
theorem State.handsOn_some (hs : s.Wf) (h : s.handsOn ptr e = some rx) {o : OrigNode p}
    (ho : o ∈ s.origs) (hptr : o.ptr = ptr) :
    ∃ g, e = .ogm g rx ∧ s.ogmFor ptr e = some rx ∧ o.isDuplicate g.front rx.pkt.seqno = false := by
  unfold State.handsOn at h
  cases e with
  | ogm g rx' =>
    dsimp only at h
    split_ifs at h with hfor
    obtain rfl : rx' = rx := Option.some.inj h
    obtain ⟨hmultihop, horigNode⟩ := hfor
    obtain ⟨hprocess, hdup⟩ := State.multihop_cases hmultihop
    obtain ⟨hmoves, hat, _, _⟩ := State.counted_moves (g := g) hs hprocess
    have hkept := hmoves.preserves (I := fun t => t.At o.ptr o.orig) hs ⟨o, ho, rfl, rfl⟩
      fun _ _ ht hI hmove => hmove.at ht hI
    have horig : o.orig = rx'.pkt.orig := by
      obtain ⟨o1, ho1, hptr1, horig1⟩ := hkept.2
      obtain ⟨o2, ho2, hptr2, horig2⟩ := hat
      rw [← horig1, ← horig2, hkept.1.eq_of_ptr ho1 ho2]
      rw [hptr1, hptr2, hptr, horigNode]
    refine ⟨g, rfl, if_pos ⟨.inr hprocess, o, ho, hptr, horig⟩, ?_⟩
    rw [← State.isDuplicate_counted hs ho horig]
    exact hdup
  | _ => cases h

/-- The entry an OGM is handed on for was there before, if its pointer is not new. -/
theorem State.handsOn_mem (hs : s.Wf) (h : s.handsOn ptr e = some rx) (hold : ptr < s.nextPtr) :
    ∃ o ∈ s.origs, o.ptr = ptr := by
  unfold State.handsOn at h
  cases e with
  | ogm g rx' =>
    dsimp only at h
    split_ifs at h with hfor
    obtain ⟨hmultihop, rfl⟩ := hfor
    have hprocess := (State.multihop_cases hmultihop).1
    have hcount := State.countState_moves (g := g) hs (.inr hprocess)
    obtain ⟨hwrites, ⟨o2, ho2, hptr2, _⟩, _⟩ := State.counted_writes (g := g) hs hprocess
    obtain ⟨o1, ho1, hsame⟩ := (hwrites.sameWindows (hcount.wf hs)).2 o2 ho2
      (hptr2 ▸ hold.trans_le hcount.nextPtr)
    obtain ⟨o, ho, heq⟩ := State.mem_countState hs (.inr hprocess) ho1
      (hsame.ptr ▸ hptr2 ▸ hold)
    refine ⟨o, ho, ?_⟩
    rw [← hptr2, hsame.ptr, heq]
    split_ifs <;> rfl
  | _ => cases h

/-! ## What the windows of an entry know -/

/-- The sequence number is `age` behind, and in a window as long as it may be. -/
def OrigNode.Knows (o : OrigNode p) (q : Seqno) (age : ℕ) : Prop :=
  Behind o.lastRealSeqno q age ∧ (age < 64 → ∃ n ∈ o.neighList, winBit n.realBits age = true)

/-- A sequence number that is found is in the window. -/
theorem OrigNode.near_of_isDuplicate {front : ℕ → ℕ → p.Word} {o : OrigNode p}
    (h : o.isDuplicate front q = true) :
    -64 < (q - o.lastRealSeqno).toInt ∧ (q - o.lastRealSeqno).toInt ≤ 0 ∧
      Behind o.lastRealSeqno q (-(q - o.lastRealSeqno).toInt).toNat := by
  unfold OrigNode.isDuplicate at h
  obtain ⟨n, _, hstatus⟩ := List.any_eq_true.mp h
  have hin : 0 ≤ (o.lastRealSeqno - q).toInt ∧ (o.lastRealSeqno - q).toInt < 64 := by
    by_contra hout
    rw [getBitStatus_of_out (by omega)] at hstatus
    cases hstatus
  have hbehind := behind_of_nonneg hin.1
  have hdiff := hbehind.toInt_sub (by omega)
  rw [if_pos (by omega)] at hdiff
  refine ⟨by omega, by omega, behind_of_nonpos (by omega)⟩

theorem OrigNode.lastRealSeqno_countPacket (front : ℕ → ℕ → p.Word) (o : OrigNode p) (neigh : Mac)
    (ifIncoming : ℕ) (hlate : ¬ o.Late q) : (o.countPacket front neigh ifIncoming q).lastRealSeqno = q := by
  unfold OrigNode.countPacket
  dsimp only
  split_ifs with hdup
  · -- a sequence number that is found is late or the newest one
    obtain ⟨hlow, hhigh, hbehind⟩ := OrigNode.near_of_isDuplicate hdup
    have hzero : (-(q - o.lastRealSeqno).toInt).toNat = 0 := by
      by_contra hne
      exact hlate ⟨by omega, by omega⟩
    unfold Behind at hbehind
    rw [hbehind, hzero, BitVec.add_zero]
  · rfl

theorem OrigNode.mem_countPacket (front : ℕ → ℕ → p.Word) (o : OrigNode p) (neigh : Mac)
    (ifIncoming : ℕ) {n : NeighNode p} (hn : n ∈ o.neighList) :
    n.countPacket front (q - o.lastRealSeqno).toInt (n.isVia neigh ifIncoming) ∈
      (o.countPacket front neigh ifIncoming q).neighList :=
  List.mem_map_of_mem hn

theorem OrigNode.knows_countPacket (front : ℕ → ℕ → p.Word) (o : OrigNode p) {neigh : Mac}
    {ifIncoming : ℕ} (hvia : (o.neighVia neigh ifIncoming).isSome) (hlate : ¬ o.Late q) :
    (o.countPacket front neigh ifIncoming q).Knows q 0 := by
  obtain ⟨n, hn⟩ := Option.isSome_iff_exists.mp hvia
  obtain ⟨hmem, haddr, hif⟩ := OrigNode.neighVia_some hn
  refine ⟨?_, fun _ => ⟨_, o.mem_countPacket front neigh ifIncoming hmem, ?_⟩⟩
  · rw [o.lastRealSeqno_countPacket front neigh ifIncoming hlate]
    exact .refl q
  · rw [NeighNode.isVia_iff.mpr ⟨haddr, hif⟩]
    exact winBit_bitGetPacket_new _ _ fun h => hlate ⟨h.2, h.1⟩

theorem OrigNode.Knows.countPacket {o : OrigNode p} {age : ℕ} (h : o.Knows q age)
    (front : ℕ → ℕ → p.Word) (neigh : Mac) (ifIncoming : ℕ) {seqno : Seqno}
    (hnear : -64 ≤ (seqno - o.lastRealSeqno).toInt)
    (hlate : o.Late seqno → o.isDuplicate front seqno = true) :
    (o.countPacket front neigh ifIncoming seqno).Knows q
      (age + (seqno - o.lastRealSeqno).toInt.toNat) := by
  by_cases h0 : 0 ≤ (seqno - o.lastRealSeqno).toInt
  · have hlast := o.lastRealSeqno_countPacket front neigh ifIncoming (q := seqno)
      fun hl => absurd hl.2 (not_lt.mpr h0)
    refine ⟨?_, fun hage => ?_⟩
    · rw [hlast, Nat.add_comm]
      exact (behind_of_nonneg h0).trans h.1
    · obtain ⟨n, hn, hbit⟩ := h.2 (by omega)
      have hrec : Records n.realBits o.lastRealSeqno q age := ⟨h.1, fun _ => hbit⟩
      exact ⟨_, o.mem_countPacket front neigh ifIncoming hn, (hrec.forward _ _ h0).2 hage⟩
  · have hdup := hlate ⟨hnear, not_le.mp h0⟩
    rw [Int.toNat_of_nonpos (by omega), Nat.add_zero]
    refine ⟨?_, fun hage => ?_⟩
    · unfold OrigNode.countPacket
      rw [if_pos hdup]
      exact h.1
    · obtain ⟨n, hn, hbit⟩ := h.2 hage
      exact ⟨_, o.mem_countPacket front neigh ifIncoming hn,
        winBit_bitGetPacket_late_mono _ _ (not_le.mp h0) hnear hbit⟩

theorem OrigNode.Knows.of_sameWindows {o o' : OrigNode p} {age next : ℕ} (h : o.Knows q age)
    (hsame : o.SameWindows next o') : o'.Knows q age := by
  refine ⟨hsame.lastRealSeqno ▸ h.1, fun hage => ?_⟩
  obtain ⟨n, hn, hbit⟩ := h.2 hage
  obtain ⟨n', hn', hlink⟩ := hsame.kept n hn
  exact ⟨n', hn', by rw [hlink.realBits]; exact hbit⟩

theorem OrigNode.Knows.purge {o o' : OrigNode p} {age : ℕ} (h : o.Knows q age)
    (hpurged : o.Purged g currTime o')
    (hkeeps : o.Shows o.neighList q → o.Shows (o.keptNeighs currTime) q) : o'.Knows q age := by
  have hlast : o'.lastRealSeqno = o.lastRealSeqno := by
    rw [hpurged, OrigNode.purge_frame]
  refine ⟨hlast ▸ h.1, fun hage => ?_⟩
  obtain ⟨n, hn, hbit⟩ := h.2 hage
  have hread : (o.lastRealSeqno - q).toNat = age := by
    have hbehind := h.1.toInt_ahead (by omega)
    rw [BitVec.toInt_eq_toNat_cond] at hbehind
    split_ifs at hbehind <;> omega
  obtain ⟨_, n', hn', hbit'⟩ := hkeeps ⟨by omega, n, hn, by rw [hread]; exact hbit⟩
  rw [hread] at hbit'
  exact ⟨n', hpurged.neighList ▸ hn', hbit'⟩

theorem OrigNode.Knows.step {o o' : OrigNode p} {age : ℕ} (h : o.Knows q age) (hs : s.Wf)
    (ho : o ∈ s.origs) (hptr : o.ptr = ptr) (hrestart : ¬ RestartsWindow ptr (s, e))
    (hkeeps : KeepsWindow ptr q (s, e)) (hstepped : o.Stepped s e o') :
    o'.Knows q (age + windowMove ptr (s, e)) := by
  subst hptr
  have hread := hs.origAt_of_mem ho
  cases hstepped with
  | count g rx he hfor hsame =>
    subst he
    unfold KeepsWindow at hkeeps
    dsimp only at hkeeps
    rw [hread] at hkeeps
    have hmove : windowMove o.ptr (s, .ogm g rx) = (rx.pkt.seqno - o.lastRealSeqno).toInt.toNat := by
      unfold windowMove
      rw [hfor, hread]
    have hnear : -64 ≤ (rx.pkt.seqno - o.lastRealSeqno).toInt := by
      by_contra hfar
      refine hrestart ⟨rx, hfor, fun hboth => hfar ?_⟩
      rw [hread] at hboth
      exact hboth.1
    rw [hmove]
    exact (h.countPacket g.front rx.neigh rx.ifIncoming hnear (hkeeps hfor)).of_sameWindows hsame
  | bcast g frame he hfor hnew heq =>
    subst he
    rw [heq]
    exact h
  | purge g currTime gwTime he hkept hpurged =>
    subst he
    unfold KeepsWindow at hkeeps
    dsimp only at hkeeps
    rw [hread] at hkeeps
    exact h.purge hpurged (hkeeps hkept)
  | same hogm hbcast hsame =>
    have hmove : windowMove o.ptr (s, e) = 0 := by
      unfold windowMove
      rw [hogm]
    rw [hmove]
    exact h.of_sameWindows hsame

/-! ## Runs -/

/-- From the step that hands an OGM on to a later state without restart. -/
theorem knows_of_handed {x : State p × Event p} {u t : State p} {b : List (State p × Event p)}
    (hs : x.1.Wf) (hstep : step x.1 x.2 = some u) (hrun : Trace step u b t)
    (hx : x.1.handsOn ptr x.2 = some rx)
    (hknown : ((x.1.origAt ptr).neighVia rx.neigh rx.ifIncoming).isSome)
    (hlate : ¬ (x.1.origAt ptr).Late rx.pkt.seqno)
    (hrestart : ∀ z ∈ b, ¬ RestartsWindow ptr z) (hkeeps : ∀ z ∈ b, KeepsWindow ptr rx.pkt.seqno z) :
    t.Wf ∧ ptr < t.nextPtr ∧
      ∀ o ∈ t.origs, o.ptr = ptr → o.Knows rx.pkt.seqno (windowMoves ptr b) := by
  have hmem : ∃ o ∈ x.1.origs, o.ptr = ptr := by
    by_contra hno
    have hnone : x.1.orig? ptr = none :=
      List.find?_eq_none.mpr fun o ho => by simpa using fun hptr => hno ⟨o, ho, hptr⟩
    unfold State.origAt at hknown
    rw [hnone] at hknown
    exact absurd hknown Bool.false_ne_true
  obtain ⟨e, he, heptr⟩ := hmem
  have hlt : ptr < x.1.nextPtr := heptr ▸ (hs.node e he).ptr_lt
  refine entry_invariant
    (G := fun _ t e => ¬ RestartsWindow ptr (t, e) ∧ KeepsWindow ptr rx.pkt.seqno (t, e))
    (I := fun pre o => o.Knows rx.pkt.seqno (windowMoves ptr pre)) hrun (step_wf hs hstep)
    (hlt.trans_le (step_nextPtr hs hstep)) ?_ ?_
    fun pre z post heq => ⟨hrestart z (by rw [heq]; simp), hkeeps z (by rw [heq]; simp)⟩
  · intro o' ho' hptr'
    obtain ⟨o, ho, hptr, hstepped⟩ := step_windows hs hstep ho' (hptr' ▸ hlt)
    have hptr : o.ptr = ptr := hptr.trans hptr'
    obtain ⟨g, heq, hfor, hdup⟩ := State.handsOn_some hs hx ho hptr
    have hread := hs.origAt_of_mem ho
    rw [hptr] at hread
    rw [hread] at hknown hlate
    rw [← hptr] at hfor
    cases hstepped with
    | count g' rx' heq' hfor' hsame =>
      obtain rfl : rx' = rx := Option.some.inj (hfor'.symm.trans hfor)
      exact (o.knows_countPacket g'.front hknown hlate).of_sameWindows hsame
    | bcast g' frame heq' =>
      rw [heq'] at heq
      cases heq
    | purge g' currTime gwTime heq' =>
      rw [heq'] at heq
      cases heq
    | same hnone =>
      rw [hnone] at hfor
      cases hfor
  · intro pre t e o o' ht _ ho hptr hI hG hstepped
    rw [windowMoves_snoc]
    exact hI.step ht ho hptr hG.1 hG.2 hstepped

/-- **An OGM is handed on once.** Between two steps that hand on OGMs of one originator with one
sequence number its windows are restarted, perhaps by the second OGM, provided that the first one came in
time via a neighbour that was there, that `last_real_seqno` and the windows stay together in between, and
that the second one is in reach where it is late. -/
theorem forward_once {cfg : Config} {a b c : List (State p × Event p)} {x y : State p × Event p}
    {rx' : Ogm} (h : Run p cfg (a ++ x :: (b ++ y :: c)) s) (hx : x.1.handsOn ptr x.2 = some rx)
    (hy : y.1.handsOn ptr y.2 = some rx') (hseqno : rx'.pkt.seqno = rx.pkt.seqno)
    (hknown : ((x.1.origAt ptr).neighVia rx.neigh rx.ifIncoming).isSome)
    (hlate : ¬ (x.1.origAt ptr).Late rx.pkt.seqno)
    (hkeeps : ∀ z ∈ b, KeepsWindow ptr rx.pkt.seqno z)
    (hreach : InReach p (y.1.origAt ptr).lastRealSeqno rx.pkt.seqno)
    (hcycle : (∀ z ∈ b ++ [y], ¬ RestartsWindow ptr z) → windowMoves ptr (b ++ [y]) < 2 ^ 16) :
    ∃ z ∈ b ++ [y], RestartsWindow ptr z := by
  obtain ⟨hbefore, u, hu, hafter⟩ := Trace.split h
  have hbetween := (Trace.split hafter).1
  by_contra hno
  have hno : ∀ z ∈ b ++ [y], ¬ RestartsWindow ptr z := fun z hz hr => hno ⟨z, hz, hr⟩
  obtain ⟨hwf, hlt, hall⟩ := knows_of_handed (Run.wf hbefore) hu hbetween hx hknown hlate
    (fun z hz => hno z (List.mem_append_left _ hz)) hkeeps
  obtain ⟨o, ho, hptr⟩ := State.handsOn_mem hwf hy hlt
  obtain ⟨g, _, hfor, hdup⟩ := State.handsOn_some hwf hy ho hptr
  have hknows := hall o ho hptr
  have hread : y.1.origAt ptr = o := by rw [← hptr, hwf.origAt_of_mem ho]
  rw [hread] at hreach
  have hmove : windowMove ptr y = (rx.pkt.seqno - o.lastRealSeqno).toInt.toNat := by
    unfold windowMove
    rw [hfor, hread]
    dsimp only
    rw [hseqno]
  have hcount := hcycle hno
  rw [windowMoves_snoc, hmove] at hcount
  have hnear : -64 ≤ (rx.pkt.seqno - o.lastRealSeqno).toInt ∧
      (rx.pkt.seqno - o.lastRealSeqno).toInt ≤ 64 := by
    by_contra hfar
    refine hno y (List.mem_append_right _ (List.mem_singleton_self y)) ⟨rx', hfor, ?_⟩
    rwa [hread, hseqno]
  have hdiff := diff_of_near hknows.1 (by omega) hnear
  have hage := hreach.age_lt hdiff (by omega)
  obtain ⟨n, hn, hbit⟩ := hknows.2 hage
  -- a neighbour has it in its window
  have hfound := getBitStatus_of_recorded (g.front n.ptr) hknows.1 hreach hdiff hage hbit
  rw [hseqno] at hdup
  rw [OrigNode.isDuplicate_eq_false.mp hdup n hn] at hfound
  cases hfound

def Net.viaA (seqno : Seqno) (now : Time) : Event Net.p64 :=
  .ogm (Net.zeros Net.p64) (Net.ogm Net.macA Net.macC 0 seqno now)

/-- The second OGM of `C`, a later one, and the second one again. -/
theorem forward_once_restart : ∃ a x z y s,
    Run Net.p64 Net.cfg (a ++ x :: ([z] ++ [y])) s ∧
    (a ++ x :: ([z] ++ [y])).map Prod.snd = Net.linkUp Net.p64 ++
      [Net.viaA 1 1400, Net.viaA 2 1500, Net.viaA 1000 1600, Net.viaA 2 1700] ∧
    x.1.handsOn 8 x.2 = some (Net.ogm Net.macA Net.macC 0 2 1500) ∧
    y.1.handsOn 8 y.2 = some (Net.ogm Net.macA Net.macC 0 2 1700) ∧
    ∃ w ∈ [z] ++ [y], RestartsWindow 8 w := by
  obtain ⟨tr, s, hrun, hevents, hcheck⟩ := Run.of_exec Net.cfg (Net.linkUp Net.p64 ++
      [Net.viaA 1 1400, Net.viaA 2 1500, Net.viaA 1000 1600, Net.viaA 2 1700])
    (fun tr _ => lastThree (fun (x z y : State Net.p64 × Event Net.p64) => decide (
      x.1.handsOn 8 x.2 = some (Net.ogm Net.macA Net.macC 0 2 1500) ∧
      y.1.handsOn 8 y.2 = some (Net.ogm Net.macA Net.macC 0 2 1700) ∧
      ((x.1.origAt 8).neighVia Net.macA 0).isSome ∧ ¬ (x.1.origAt 8).Late 2 ∧
      KeepsWindow 8 2 z ∧ InReach Net.p64 (y.1.origAt 8).lastRealSeqno 2 ∧
      windowMoves 8 ([z] ++ [y]) < 2 ^ 16)) tr) (by decide +kernel)
  obtain ⟨a, x, z, y, htr, hq⟩ := exists_of_lastThree hcheck
  rw [htr] at hrun hevents
  obtain ⟨hx, hy, hknown, hlate, hkeeps, hreach, hcycle⟩ := of_decide_eq_true hq
  refine ⟨a, x, z, y, s, hrun, hevents, hx, hy, ?_⟩
  refine forward_once hrun hx hy rfl hknown hlate ?_ hreach fun _ => hcycle
  intro w hw
  rw [List.mem_singleton.mp hw]
  exact hkeeps

/-- The very first OGM of `C` is handed on, and its copy over the same neighbour too. -/
theorem forward_once_repeats : ∃ a x z y s,
    Run Net.p64 Net.cfg (a ++ x :: ([z] ++ [y])) s ∧
    (a ++ x :: ([z] ++ [y])).map Prod.snd = Net.linkUp Net.p64 ++
      [Net.viaA 1 1400, Net.viaA 1 1500] ∧
    z.1.handsOn 8 z.2 = some (Net.ogm Net.macA Net.macC 0 1 1400) ∧
    y.1.handsOn 8 y.2 = some (Net.ogm Net.macA Net.macC 0 1 1500) ∧ ¬ RestartsWindow 8 y := by
  obtain ⟨tr, s, hrun, hevents, hcheck⟩ := Run.of_exec Net.cfg (Net.linkUp Net.p64 ++
      [Net.viaA 1 1400, Net.viaA 1 1500])
    (fun tr _ => lastThree (fun (_ z y : State Net.p64 × Event Net.p64) => decide (
      z.1.handsOn 8 z.2 = some (Net.ogm Net.macA Net.macC 0 1 1400) ∧
      y.1.handsOn 8 y.2 = some (Net.ogm Net.macA Net.macC 0 1 1500) ∧
      ¬ RestartsWindow 8 y)) tr) (by decide +kernel)
  obtain ⟨a, x, z, y, htr, hq⟩ := exists_of_lastThree hcheck
  rw [htr] at hrun hevents
  obtain ⟨hz, hy, hno⟩ := of_decide_eq_true hq
  exact ⟨a, x, z, y, s, hrun, hevents, hz, hy, hno⟩

end BatmanAdv
