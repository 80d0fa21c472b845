import BatmanAdv.Gateways
import BatmanAdv.Receive
import BatmanAdv.SeqnoWrap
import BatmanAdv.WindowBits

/-!
# What an OGM indexes and measures

Bytes of a received OGM become an index or a length in five places: its sequence number moves and reads the
reception windows, `num_hna` and the length of the frame say how much is copied and how many hosts are read,
the gateway class picks a text of `gw2string`, and the length of the frame is that of the copy that is
forwarded. The functions are given here once more, with an access outside the array having no value.

The lengths are sound. The windows are left in two ways that the wrap of the sequence numbers and the width of
the window open, and the class of a new gateway is not compared with the size of `gw2string`.
-/

namespace BatmanAdv

open Transition

variable {p : Platform} {s : State p} {g : Garbage p} {rx : Ogm}

/-! ## The functions -/

def getBitStatusIn (seqBits : p.SeqBits) (lastSeqno currSeqno : Seqno) : Option Bool :=
  let diff := (lastSeqno - currSeqno).toInt
  if diff < 0 ∨ diff ≥ tqLocalWindowSize then some false
  else do
    let wordOffset := ((lastSeqno.toNat : ℤ) - currSeqno.toNat).tmod p.wordBitSize
    let wordNum := ((lastSeqno.toNat : ℤ) - currSeqno.toNat).tdiv p.wordBitSize
    let word ← wordIn seqBits wordNum
    some (word &&& bitMask p wordOffset != 0)

/-- `if (!is_duplicate) is_duplicate = get_bit_status(...)`. -/
def duplicateIn (isDuplicate : Bool) (seqBits : p.SeqBits) (lastSeqno currSeqno : Seqno) : Option Bool :=
  if isDuplicate then some true else getBitStatusIn seqBits lastSeqno currSeqno

/-- The loop of `count_real_packets`. -/
def countNeighsIn (lastRealSeqno seqno : Seqno) (isVia : NeighNode p → Bool) :
    Bool → List (NeighNode p) → Option (Bool × List (NeighNode p))
  | isDuplicate, [] => some (isDuplicate, [])
  | isDuplicate, n :: neighList => do
    let isDuplicate ← duplicateIn isDuplicate n.realBits lastRealSeqno seqno
    let (realBits, _) ← bitGetPacketIn n.realBits (seqno - lastRealSeqno).toInt (isVia n)
    let n := { n with realBits := realBits, realPacketCount := BitVec.ofNat 8 (bitPacketCount realBits) }
    let (isDuplicate, neighList) ← countNeighsIn lastRealSeqno seqno isVia isDuplicate neighList
    some (isDuplicate, n :: neighList)

/-- `len` bytes from the front of a buffer, by `memcpy` or for `memcmp`. -/
def bytesIn (buff : List Byte) (len : ℕ) : Option (List Byte) :=
  if len ≤ buff.length then some (buff.take len) else none

/-- The hosts `hna_add_buff` reads. -/
def hostsIn (hnaBuff : List Byte) (hnaBuffLen : ℕ) : Option (List Mac) :=
  (List.range (hnaBuffLen / 6)).mapM fun i =>
    if i * 6 + 6 ≤ hnaBuff.length then some (Mac.read hnaBuff (i * 6)) else none

/-- `memcpy` and `hna_add_buff`: what is stored, and its hosts. -/
def storeHnaIn (hnaRecvBuff : List Byte) (hnaBuffLen : ℕ) : Option (List Byte × List Mac) := do
  let hnaBuff ← bytesIn hnaRecvBuff hnaBuffLen
  let hosts ← hostsIn hnaBuff hnaBuffLen
  some (hnaBuff, hosts)

/-- The part of `update_routes` about the announced hosts, for a packet: what is stored anew. -/
def OrigNode.updateHnaIn (o : OrigNode p) (hnaRecvBuff : List Byte) (hnaBuffLen : ℕ) :
    Option (Option (List Byte × List Mac)) :=
  match o.hnaBuff with
  | none => (storeHnaIn hnaRecvBuff hnaBuffLen).map some
  | some hnaBuff => do
    let changed ←
      if hnaBuffLen ≠ o.hnaBuffLen then some true
      else do
        let recv ← bytesIn hnaRecvBuff hnaBuffLen
        let stored ← bytesIn hnaBuff hnaBuffLen
        some (decide (recv = stored))
    if changed then (storeHnaIn hnaRecvBuff hnaBuffLen).map some else some none

def gw2string : List String :=
  ["No Gateway", "56 KBit (e.g. Modem)", "64 KBit (e.g. ISDN)", "128 KBit (e.g. double ISDN)", "256 KBit",
    "512 KBit (e.g. UMTS)", "1 MBit", "2 MBit", "3 MBit", "5 MBit", "6 MBit", ">6 MBit"]

/-- The text of a gateway's class is read where there is no node for it yet. -/
def updateGwListIn (origNode : ℕ) (newGwflags : Byte) (now : Time) : List GwNode → Option (List GwNode)
  | [] => do
    let _ ← gw2string[newGwflags.toNat]?
    some [{ origNode := origNode, unavailFactor := 0, lastFailure := now, deleted := 0 }]
  | gwNode :: gwList =>
    if gwNode.origNode = origNode then
      some ((if newGwflags = 0 then { gwNode with deleted := now } else { gwNode with deleted := 0 }) :: gwList)
    else (updateGwListIn origNode newGwflags now gwList).map (gwNode :: ·)

/-- `schedule_forward_packet` copies the packet out of the buffer it was received in. -/
def Ogm.forwardIn (rx : Ogm) : Option ℕ :=
  let packBuffLen := batmanPacketSize + rx.hna.length
  if packBuffLen ≤ packetBuffLen then some packBuffLen else none

namespace State

def countIn (s : State p) (rx : Ogm) : Option Bool :=
  match s.findOrigNode rx.pkt.orig with
  | none => some false
  | some o =>
    (countNeighsIn o.lastRealSeqno rx.pkt.seqno (·.isVia rx.neigh rx.ifIncoming) false o.neighList).map (·.1)

/-- The end of `update_orig`: the stored bytes and the gateway list. -/
def updateIn (s : State p) (g : Garbage p) (rx : Ogm) : Option (List GwNode) := do
  let o := s.entryBefore g rx
  let _ ← o.updateHnaIn rx.hna (tmpHnaBuffLen rx.hna.length rx.pkt.numHna)
  if o.gwflags ≠ rx.pkt.gwflags then updateGwListIn o.ptr rx.pkt.gwflags rx.gwTime s.gwList else some s.gwList

/-- The body of the main loop for an OGM, as far as its bytes are indices and lengths. -/
def batmanOgmIn (s : State p) (g : Garbage p) (rx : Ogm) : Option (State p) := do
  let _ ← (if s.ogmCase rx = .noTq ∨ s.ogmCase rx = .process then s.countIn rx else some false)
  let _ ← (if s.UpdatesOrig g rx then s.updateIn g rx else some s.gwList)
  let _ ← (if (s.batmanOgm g rx).2 = .dropped ∨ rx.pkt.ttl.toNat ≤ 1 then some 0 else rx.forwardIn)
  some (s.batmanOgm g rx).1

end State

/-! ## The windows -/

/-- Within the window where the numbers have not wrapped in between, and false outside of it. -/
theorem getBitStatusIn_eq (front : ℕ → p.Word) (seqBits : p.SeqBits) {newest c : Seqno}
    (h : InWindow newest c → Unwrapped newest c) :
    getBitStatusIn seqBits newest c = some (getBitStatus front seqBits newest c) := by
  by_cases hin : InWindow newest c
  · have hdiff := intDiff_of_inWindow hin
    rw [if_pos (h hin)] at hdiff
    rw [getBitStatus_of_inWindow front seqBits hin]
    unfold InWindow at hin
    unfold getBitStatusIn bitRead
    rw [if_neg (by simp only [tqLocalWindowSize]; omega), hdiff]
    obtain ⟨d, hd⟩ := Int.eq_ofNat_of_zero_le hin.1
    rw [hd] at hin ⊢
    have hlt : d / p.wordBitSize < p.numWords := div_lt_numWords (by omega)
    have hword : ((d : ℤ).tdiv p.wordBitSize) = (d / p.wordBitSize : ℕ) := Int.ofNat_tdiv d p.wordBitSize |>.symm
    dsimp only
    rw [hword, wordIn_eq seqBits hlt]
    rfl
  · rw [getBitStatus_of_not_inWindow front seqBits hin]
    unfold InWindow at hin
    exact if_pos (by simp only [tqLocalWindowSize]; omega)

/-- Across the wrap the word is far in front of the array. -/
theorem getBitStatusIn_eq_none (seqBits : p.SeqBits) {newest c : Seqno} (hin : InWindow newest c)
    (hwrap : ¬ Unwrapped newest c) : getBitStatusIn seqBits newest c = none := by
  have hdiff := intDiff_of_inWindow hin
  rw [if_neg hwrap] at hdiff
  unfold InWindow at hin
  unfold getBitStatusIn
  rw [if_neg (by simp only [tqLocalWindowSize]; omega), hdiff]
  obtain ⟨d, hd⟩ := Int.eq_ofNat_of_zero_le hin.1
  rw [hd] at hin ⊢
  have hneg : (d : ℤ) - 2 ^ 16 = -((2 ^ 16 - d : ℕ) : ℤ) := by omega
  have hfar : 1 ≤ (2 ^ 16 - d) / p.wordBitSize := by
    rw [Nat.one_le_div_iff p.wordBitSize_pos]
    obtain hw | hw := p.wordBitSize_eq <;> omega
  have hword : ((d : ℤ) - 2 ^ 16).tdiv p.wordBitSize = -(((2 ^ 16 - d) / p.wordBitSize : ℕ) : ℤ) := by
    rw [hneg, Int.neg_tdiv, ← Int.ofNat_tdiv]
  have hread : wordIn seqBits (((d : ℤ) - 2 ^ 16).tdiv p.wordBitSize) = none := by
    rw [hword]
    exact if_neg (by omega)
  dsimp only
  rw [hread]
  rfl

/-- The sequence number stays within the windows of the neighbours. -/
def WindowsFit (lastRealSeqno seqno : Seqno) : Prop :=
  (InWindow lastRealSeqno seqno → Unwrapped lastRealSeqno seqno) ∧ (seqno - lastRealSeqno).toInt ≠ 64

instance (lastRealSeqno seqno : Seqno) : Decidable (WindowsFit lastRealSeqno seqno) :=
  inferInstanceAs (Decidable ((_ → _) ∧ _))

theorem countNeighsIn_eq (front : ℕ → ℕ → p.Word) {lastRealSeqno seqno : Seqno} (h : WindowsFit lastRealSeqno seqno)
    (isVia : NeighNode p → Bool) (isDuplicate : Bool) (neighList : List (NeighNode p)) :
    countNeighsIn lastRealSeqno seqno isVia isDuplicate neighList =
      some (isDuplicate || neighList.any fun n => getBitStatus (front n.ptr) n.realBits lastRealSeqno seqno,
        neighList.map fun n => n.countPacket front (seqno - lastRealSeqno).toInt (isVia n)) := by
  induction neighList generalizing isDuplicate with
  | nil =>
    rw [List.any_nil, Bool.or_false]
    rfl
  | cons n neighList ih =>
    unfold countNeighsIn
    have hstatus : duplicateIn isDuplicate n.realBits lastRealSeqno seqno =
        some (isDuplicate || getBitStatus (front n.ptr) n.realBits lastRealSeqno seqno) := by
      cases isDuplicate with
      | true => rfl
      | false => exact getBitStatusIn_eq (front n.ptr) n.realBits h.1
    rw [hstatus, bitGetPacketIn_eq (front n.ptr) n.realBits (isVia n) h.2]
    dsimp only [Option.bind_eq_bind, Option.bind_some]
    rw [ih, Option.bind_some, List.any_cons, Bool.or_assoc]
    rfl

/-- The first neighbour is enough to leave a window. -/
theorem countNeighsIn_eq_none {lastRealSeqno seqno : Seqno} (h : ¬ WindowsFit lastRealSeqno seqno)
    (isVia : NeighNode p → Bool) (n : NeighNode p) (neighList : List (NeighNode p)) :
    countNeighsIn lastRealSeqno seqno isVia false (n :: neighList) = none := by
  unfold countNeighsIn duplicateIn
  by_cases hstatus : InWindow lastRealSeqno seqno → Unwrapped lastRealSeqno seqno
  · have hwhole : (seqno - lastRealSeqno).toInt = 64 := not_not.mp fun hne => h ⟨hstatus, hne⟩
    rw [if_neg Bool.false_ne_true, getBitStatusIn_eq (fun _ => 0) n.realBits hstatus, hwhole, bitGetPacketIn_whole]
    rfl
  · rw [Classical.not_imp] at hstatus
    rw [if_neg Bool.false_ne_true, getBitStatusIn_eq_none n.realBits hstatus.1 hstatus.2]
    rfl

/-! ## The lengths -/

theorem bytesIn_eq {buff : List Byte} {len : ℕ} (h : len ≤ buff.length) : bytesIn buff len = some (buff.take len) :=
  if_pos h

theorem mapM_eq_some_map {α β : Type*} {f : α → Option β} {q : α → β} {l : List α} (h : ∀ x ∈ l, f x = some (q x)) :
    l.mapM f = some (l.map q) := by
  induction l with
  | nil => rfl
  | cons x l ih =>
    rw [List.mapM_cons, h x List.mem_cons_self, ih fun y hy => h y (List.mem_cons_of_mem _ hy)]
    rfl

theorem hostsIn_eq {buff : List Byte} {len : ℕ} (h : len ≤ buff.length) :
    hostsIn buff len = some (TransTable.hosts buff len) := by
  refine mapM_eq_some_map fun i hi => ?_
  rw [List.mem_range] at hi
  exact if_pos (by omega)

theorem storeHnaIn_eq {recv : List Byte} {len : ℕ} (h : len ≤ recv.length) :
    storeHnaIn recv len = some (recv.take len, TransTable.hosts (recv.take len) len) := by
  unfold storeHnaIn
  rw [bytesIn_eq h]
  dsimp only [Option.bind_eq_bind, Option.bind_some]
  rw [hostsIn_eq (by rw [List.length_take, min_eq_left h]), Option.bind_some]

/-- What is stored is as long as `hna_buff_len` says. -/
def OrigNode.BuffFits (o : OrigNode p) : Prop := ∀ buff, o.hnaBuff = some buff → buff.length = o.hnaBuffLen

theorem OrigNode.updateHnaIn_isSome {o : OrigNode p} (ho : o.BuffFits) {recv : List Byte} {len : ℕ}
    (h : len ≤ recv.length) : (o.updateHnaIn recv len).isSome := by
  unfold OrigNode.updateHnaIn
  rw [storeHnaIn_eq h]
  cases hbuff : o.hnaBuff with
  | none => rfl
  | some buff =>
    dsimp only
    by_cases hlen : len ≠ o.hnaBuffLen
    · rw [if_pos hlen]
      rfl
    · have hstored : len ≤ buff.length := by
        rw [ho buff hbuff]
        exact (not_not.mp hlen).le
      rw [if_neg hlen, bytesIn_eq h, bytesIn_eq hstored]
      dsimp only [Option.bind_eq_bind, Option.bind_some]
      split_ifs <;> rfl

/-! ## The gateway class -/

theorem gw2string_isSome_iff (gwflags : Byte) : (gw2string[gwflags.toNat]?).isSome ↔ gwflags.toNat < 12 := by
  rw [Option.isSome_iff_ne_none, Ne, List.getElem?_eq_none_iff]
  exact not_le

/-- The text is looked up only where the originator has no node. -/
theorem updateGwListIn_isSome_iff (origNode : ℕ) (newGwflags : Byte) (now : Time) (gwList : List GwNode) :
    (updateGwListIn origNode newGwflags now gwList).isSome ↔
      ((∀ gwNode ∈ gwList, gwNode.origNode ≠ origNode) → newGwflags.toNat < 12) := by
  induction gwList with
  | nil =>
    unfold updateGwListIn
    rw [← gw2string_isSome_iff]
    cases gw2string[newGwflags.toNat]? with
    | none => exact iff_of_false Bool.false_ne_true fun h => Bool.false_ne_true (h fun _ hin => by cases hin)
    | some text => exact iff_of_true rfl fun _ => rfl
  | cons gwNode gwList ih =>
    unfold updateGwListIn
    by_cases heq : gwNode.origNode = origNode
    · rw [if_pos heq]
      exact iff_of_true rfl fun h => absurd heq (h gwNode List.mem_cons_self)
    · rw [if_neg heq, Option.isSome_map, ih]
      refine imp_congr_left ⟨fun h x hx => ?_, fun h x hx => h x (List.mem_cons_of_mem _ hx)⟩
      obtain rfl | hx := List.mem_cons.mp hx
      · exact heq
      · exact h x hx

/-! ## The stored bytes along a run -/

theorem hnaAfter_fits {buff : Option (List Byte)} {buffLen : ℕ} (hbuff : ∀ b, buff = some b → b.length = buffLen)
    {recv : List Byte} {len : ℕ} (h : len ≤ recv.length) :
    ∀ b, (hnaAfter buff buffLen recv len).1 = some b → b.length = (hnaAfter buff buffLen recv len).2 := by
  have hnew : ∀ b, some (recv.take len) = some b → b.length = len := by
    intro b hb
    rw [← Option.some.inj hb, List.length_take, min_eq_left h]
  unfold hnaAfter
  cases buff with
  | none => exact hnew
  | some old =>
    dsimp only
    split_ifs
    · exact hnew
    · exact hbuff

/-- A reroute stores the same bytes again. -/
theorem OrigNode.BuffFits.reroute {o : OrigNode p} (h : o.BuffFits) (hwAddrs : List Mac) (currTime : Time)
    (t : TransTable) (best : Option (NeighNode p)) :
    (updateRoutes hwAddrs currTime t o best o.hnaBuff o.hnaBuffLen).2.BuffFits := by
  obtain ⟨-, -, hbuff, hlen⟩ := o.setRouter_hna best
  unfold updateRoutes
  have hrouted : (o.setRouter best).BuffFits := by
    unfold OrigNode.BuffFits
    rw [hbuff, hlen]
    exact h
  generalize o.setRouter best = r at hbuff hlen hrouted
  rw [← hbuff, ← hlen]
  cases hstored : r.hnaBuff with
  | none =>
    unfold updateHna
    rw [hstored]
    exact hrouted
  | some buff =>
    have hafter := updateHna_hnaAfter hwAddrs currTime t r buff r.hnaBuffLen
    have hlong : r.hnaBuffLen ≤ buff.length := (hrouted buff hstored).ge
    have hfits := hnaAfter_fits hrouted hlong
    rw [← hafter] at hfits
    exact hfits

def State.BuffsFit (s : State p) : Prop := ∀ o ∈ s.origs, o.BuffFits

namespace State.BuffsFit

variable {s' : State p}

theorem calm (h : s.BuffsFit) (hcalm : s.Calm s') : s'.BuffsFit := by
  intro o' ho' buff hbuff
  obtain ⟨o, ho, hsame⟩ | hfresh := hcalm.old_or_fresh o' ho'
  · rw [hsame.hnaBuff] at hbuff
    rw [hsame.hnaBuffLen]
    exact h o ho buff hbuff
  · rw [hfresh.hnaBuff] at hbuff
    cases hbuff

theorem ends {o : OrigNode p} (h : s.BuffsFit) (ho : o ∈ s.origs) (hends : s.Ends s' o rx) : s'.BuffsFit := by
  obtain ⟨y, hy, hptr, -, -, hafter⟩ := hends.self
  intro x hx buff hbuff
  by_cases heq : x.ptr = o.ptr
  · obtain rfl := hends.table.eq_of_ptr hx hy (heq.trans hptr.symm)
    have hlen : tmpHnaBuffLen rx.hna.length rx.pkt.numHna ≤ rx.hna.length := by
      rw [tmpHnaBuffLen_eq]
      exact min_le_left _ _
    have hfits := hnaAfter_fits (h o ho) hlen
    rw [← hafter] at hfits
    exact hfits buff hbuff
  · exact h x ((hends.other x heq).mp hx) buff hbuff

theorem purgeNeighbors {o : OrigNode p} (h : s.BuffsFit) (hs : s.Table) (ho : o ∈ s.origs) (g : Garbage p)
    (currTime : Time) : (s.purgeNeighbors g currTime o.ptr).BuffsFit := by
  unfold State.purgeNeighbors
  dsimp only
  rw [hs.origAt_of_mem ho]
  have hkept : s.Calm (s.modOrig o.ptr fun o => { o with neighList := o.keptNeighs currTime }) :=
    .modOrig hs o.ptr fun _ => ⟨rfl, rfl, rfl, rfl, rfl⟩
  have ho' : ({ o with neighList := o.keptNeighs currTime } : OrigNode p) ∈
      (s.modOrig o.ptr fun o => { o with neighList := o.keptNeighs currTime }).origs :=
    mem_origs_modOrig.mpr ⟨o, ho, if_pos rfl⟩
  have hfits := h.calm hkept
  split_ifs
  · generalize s.modOrig o.ptr (fun o => { o with neighList := o.keptNeighs currTime }) = t at hkept ho' hfits
    have hat : t.origAt o.ptr = { o with neighList := o.keptNeighs currTime } := hkept.table.origAt_of_mem ho'
    have hroute := OrigNode.BuffFits.reroute (hfits _ ho') t.hwAddrs t.currTime t.trans
      (bestNeighNode (o.keptNeighs currTime))
    intro x hx
    unfold State.updateRoutes at hx
    rw [hat] at hx
    obtain ⟨y, hy, rfl⟩ := mem_origs_modOrig.mp hx
    split_ifs
    · exact hroute
    · exact hfits y hy
  · exact hfits

theorem purgeOrig (h : s.BuffsFit) (hs : s.Wf) (g : Garbage p) (currTime gwTime : Time) :
    (s.purgeOrig g currTime gwTime).BuffsFit := by
  refine State.purgeOrig_induct g currTime gwTime hs h (fun t o ht ho hIt => ?_) fun _ _ hIt => hIt
  unfold State.purgeOrigNode
  split_ifs
  · intro x hx
    exact hIt x (((State.origs_purgeExpired gwTime ht ho).2 x).mp hx).1
  · exact hIt.purgeNeighbors ht.table ho g currTime

theorem step (hs : s.Wf) (h : s.BuffsFit) {e : Event p} (hstep : BatmanAdv.step s e = some s') : s'.BuffsFit := by
  obtain ⟨g, rx, rfl, rfl⟩ | ⟨g, currTime, gwTime, rfl, rfl⟩ | ⟨-, hcalm⟩ := step_calm hs hstep
  · obtain ⟨hcalm, hupdate⟩ := s.batmanOgm_calm hs g rx
    by_cases hcall : s.UpdatesOrig g rx
    · obtain ⟨t, o, best, hbefore, ho, -, -, hafter⟩ := hupdate hcall
      exact ((h.calm hbefore).ends ho (hbefore.table.ends ho best rx)).calm hafter
    · exact h.calm (hcalm hcall)
  · exact h.purgeOrig hs g currTime gwTime
  · exact h.calm hcalm

end State.BuffsFit

theorem Run.buffsFit {cfg : Config} {tr : List (State p × Event p)} (h : Run p cfg tr s) : s.BuffsFit := by
  have hinv := h.state_invariant (I := fun t => t.Wf ∧ t.BuffsFit) ⟨cfg.boot_wf p, cfg.forall_origs_boot⟩
    fun t e u ⟨ht, hfits⟩ hstep => ⟨step_wf ht hstep, State.BuffsFit.step ht hfits hstep⟩
  exact hinv.2.2

/-! ## OGMs -/

/-- The entry `update_orig` is called for is one of the table, as far as it announces, or a new one. -/
theorem State.entryBefore_cases (hs : s.Wf) (g : Garbage p) (hprocess : s.ogmCase rx = .process) :
    (∃ o ∈ s.origs, o.orig = rx.pkt.orig ∧ o.SameClaims (s.entryBefore g rx)) ∨
      (s.entryBefore g rx).Fresh s.nextPtr ∧ ∀ o ∈ s.origs, o.orig ≠ rx.pkt.orig := by
  have hcount := Calm.counted hs.table g rx
  have hrate := Calm.rated hs.table g rx
  obtain ⟨-, hat, -⟩ := State.counted_writes (g := g) hs hprocess
  obtain ⟨o', ho', hptr, horig⟩ := (Calm.rate hcount.table rx).keepsAt hat
  have heq : s.entryBefore g rx = o' := by
    unfold State.entryBefore
    rw [← hptr]
    exact hrate.table.origAt_of_mem ho'
  rw [heq]
  obtain ⟨o, ho, hsame⟩ | hfresh := hrate.old_or_fresh o' ho'
  · exact .inl ⟨o, ho, hsame.orig.symm.trans horig, hsame⟩
  · refine .inr ⟨hfresh, fun o ho hsame => ?_⟩
    -- an entry of the table would have stayed
    obtain ⟨x, hx, hclaims⟩ := hrate.stays o ho
    obtain rfl := hrate.table.eq_of_orig hx ho' (hclaims.orig.trans (hsame.trans horig.symm))
    exact absurd (hs.table.ptr_lt o ho) (Nat.not_lt.mpr (hclaims.ptr ▸ hfresh.ptr))

/-- Where the bytes of an OGM are no index out of range. A class that is not in `gw2string` is that of an
originator with a gateway node, or it is not new. -/
structure State.OgmFits (s : State p) (g : Garbage p) (rx : Ogm) : Prop where
  windows : s.ogmCase rx = .noTq ∨ s.ogmCase rx = .process →
    ∀ o ∈ s.origs, o.orig = rx.pkt.orig → o.neighList ≠ [] → WindowsFit o.lastRealSeqno rx.pkt.seqno
  gateway : s.UpdatesOrig g rx → (∀ o ∈ s.origs, o.orig = rx.pkt.orig →
    o.gwflags ≠ rx.pkt.gwflags ∧ ∀ gwNode ∈ s.gwList, gwNode.origNode ≠ o.ptr) → rx.pkt.gwflags.toNat < 12

theorem State.countIn_isSome_iff (hs : s.Wf) : (s.countIn rx).isSome ↔
    ∀ o ∈ s.origs, o.orig = rx.pkt.orig → o.neighList ≠ [] → WindowsFit o.lastRealSeqno rx.pkt.seqno := by
  unfold State.countIn
  cases hfind : s.findOrigNode rx.pkt.orig with
  | none =>
    have hnone := (State.findOrigNode_eq_none_iff hs.ok).mp hfind
    exact iff_of_true rfl fun o ho horig => absurd horig (hnone o ho)
  | some o =>
    obtain ⟨ho, horig⟩ := hs.findOrigNode_eq_some_iff.mp hfind
    have honly : (∀ x ∈ s.origs, x.orig = rx.pkt.orig → x.neighList ≠ [] → WindowsFit x.lastRealSeqno rx.pkt.seqno) ↔
        (o.neighList ≠ [] → WindowsFit o.lastRealSeqno rx.pkt.seqno) := by
      refine ⟨fun h => h o ho horig, fun h x hx hxorig => ?_⟩
      obtain rfl := hs.table.eq_of_orig hx ho (hxorig.trans horig.symm)
      exact h
    rw [honly, Option.isSome_map]
    by_cases hfits : WindowsFit o.lastRealSeqno rx.pkt.seqno
    · rw [countNeighsIn_eq (fun _ _ => 0) hfits]
      exact iff_of_true rfl fun _ => hfits
    · cases hlist : o.neighList with
      | nil => exact iff_of_true rfl fun hne => absurd rfl hne
      | cons n neighList =>
        rw [countNeighsIn_eq_none hfits]
        exact iff_of_false Bool.false_ne_true fun h => hfits (h (List.cons_ne_nil _ _))

theorem State.updateIn_isSome_iff (hs : s.Wf) (hfits : s.BuffsFit) (hbounded : s.GwBounded)
    (hprocess : s.ogmCase rx = .process) : (s.updateIn g rx).isSome ↔
      ((∀ o ∈ s.origs, o.orig = rx.pkt.orig →
        o.gwflags ≠ rx.pkt.gwflags ∧ ∀ gwNode ∈ s.gwList, gwNode.origNode ≠ o.ptr) → rx.pkt.gwflags.toNat < 12) := by
  have hlen : tmpHnaBuffLen rx.hna.length rx.pkt.numHna ≤ rx.hna.length := by
    rw [tmpHnaBuffLen_eq]
    exact min_le_left _ _
  have hcases := s.entryBefore_cases hs g hprocess
  unfold State.updateIn
  generalize s.entryBefore g rx = e at hcases
  -- what is copied, compared and read as hosts is there
  have hbuff : e.BuffFits := by
    intro buff hbuff
    obtain ⟨o, ho, -, hsame⟩ | ⟨hfresh, -⟩ := hcases
    · rw [hsame.hnaBuff] at hbuff
      rw [hsame.hnaBuffLen]
      exact hfits o ho buff hbuff
    · rw [hfresh.hnaBuff] at hbuff
      cases hbuff
  obtain ⟨stored, hstored⟩ := Option.isSome_iff_exists.mp (OrigNode.updateHnaIn_isSome hbuff hlen)
  dsimp only [Option.bind_eq_bind]
  rw [hstored, Option.bind_some]
  obtain ⟨o, ho, horig, hsame⟩ | ⟨hfresh, hnone⟩ := hcases
  · have honly : (∀ x ∈ s.origs, x.orig = rx.pkt.orig →
        x.gwflags ≠ rx.pkt.gwflags ∧ ∀ gwNode ∈ s.gwList, gwNode.origNode ≠ x.ptr) ↔
        e.gwflags ≠ rx.pkt.gwflags ∧ ∀ gwNode ∈ s.gwList, gwNode.origNode ≠ e.ptr := by
      rw [hsame.gwflags, hsame.ptr]
      refine ⟨fun h => h o ho horig, fun h x hx hxorig => ?_⟩
      obtain rfl := hs.table.eq_of_orig hx ho (hxorig.trans horig.symm)
      exact h
    rw [honly]
    by_cases hflags : e.gwflags ≠ rx.pkt.gwflags
    · rw [if_pos hflags, updateGwListIn_isSome_iff, and_iff_right hflags]
    · rw [if_neg hflags]
      exact iff_of_true rfl fun h => absurd h.1 hflags
  · have hall : ∀ x ∈ s.origs, x.orig = rx.pkt.orig →
        x.gwflags ≠ rx.pkt.gwflags ∧ ∀ gwNode ∈ s.gwList, gwNode.origNode ≠ x.ptr :=
      fun x hx hxorig => absurd hxorig (hnone x hx)
    have hunused : ∀ gwNode ∈ s.gwList, gwNode.origNode ≠ e.ptr :=
      fun gwNode hin => ((hbounded gwNode hin).trans_le hfresh.ptr).ne
    rw [imp_iff_right hall, hfresh.gwflags]
    by_cases hflags : (0 : Byte) ≠ rx.pkt.gwflags
    · rw [if_pos hflags, updateGwListIn_isSome_iff, imp_iff_right hunused]
    · rw [if_neg hflags, ← not_not.mp hflags]
      exact iff_of_true rfl (by decide)

def Ogm.read (neigh : Mac) (ifIncoming : ℕ) (packetBuff : List Byte) (rcvdTime gwTime sendTime : Time) : Ogm where
  neigh := neigh
  ifIncoming := ifIncoming
  pkt := BatmanPacket.read packetBuff
  hna := packetBuff.drop batmanPacketSize
  rcvdTime := rcvdTime
  gwTime := gwTime
  sendTime := sendTime

/-- A frame that is handed to `batman()` is longer than the header and shorter than its buffer. -/
theorem Node.receivePacketBatiface_ogm {node : Node p} {frame : Frame} {neigh : Mac} {packetBuff : List Byte}
    (h : (node.receivePacketBatiface g frame).ogm = some (neigh, packetBuff)) :
    batmanPacketSize ≤ packetBuff.length ∧ packetBuff.length < packetBuffLen := by
  unfold Node.receivePacketBatiface at h
  dsimp only at h
  split_ifs at h with _ _ hlen
  obtain ⟨-, rfl⟩ := Prod.mk.inj (Option.some.inj h)
  refine ⟨not_lt.mp hlen, ?_⟩
  unfold Frame.rawsockRead
  rw [List.length_take]
  exact (min_le_left _ _).trans_lt (by decide)

/-- Such a frame is handed on as it was read. -/
theorem Node.receivePacketBatiface_of_length {node : Node p} {frame : Frame}
    (htype : frame.rawsockRead.getD 0 0 = batPacket) (hlen : batmanPacketSize ≤ frame.rawsockRead.length) :
    (node.receivePacketBatiface g frame).ogm = some (frame.shost, frame.rawsockRead) := by
  have htwo : ¬ frame.rawsockRead.length < 2 := not_lt.mpr ((by decide : 2 ≤ batmanPacketSize).trans hlen)
  unfold Node.receivePacketBatiface
  dsimp only
  rw [if_neg htwo, if_pos htype, if_neg (not_lt.mpr hlen)]

/-- **Bounds.** For every frame that is handed to `batman()` and in every reachable state, every access whose
index or length comes from the packet is within its array exactly where the sequence number stays within the
windows and the class of a gateway without a node is in `gw2string`. -/
theorem ogm_in_bounds_iff {cfg : Config} {tr : List (State p × Event p)} {node : Node p}
    (h : Run p cfg tr node.state) {frame : Frame} {neigh : Mac} {packetBuff : List Byte}
    (hrecv : (node.receivePacketBatiface g frame).ogm = some (neigh, packetBuff)) (ifIncoming : ℕ)
    (rcvdTime gwTime sendTime : Time) :
    (node.state.batmanOgmIn g (Ogm.read neigh ifIncoming packetBuff rcvdTime gwTime sendTime)).isSome ↔
      node.state.OgmFits g (Ogm.read neigh ifIncoming packetBuff rcvdTime gwTime sendTime) := by
  obtain ⟨hlong, hshort⟩ := Node.receivePacketBatiface_ogm hrecv
  have hcopy : batmanPacketSize + (Ogm.read neigh ifIncoming packetBuff rcvdTime gwTime sendTime).hna.length ≤
      packetBuffLen := by
    show batmanPacketSize + (packetBuff.drop batmanPacketSize).length ≤ packetBuffLen
    rw [List.length_drop]
    omega
  generalize Ogm.read neigh ifIncoming packetBuff rcvdTime gwTime sendTime = rx at hcopy
  generalize node.state = s at h
  have hforward : (if (s.batmanOgm g rx).2 = .dropped ∨ rx.pkt.ttl.toNat ≤ 1 then some 0 else rx.forwardIn).isSome := by
    split_ifs
    · rfl
    · unfold Ogm.forwardIn
      rw [if_pos hcopy]
      rfl
  have hsome : (s.batmanOgmIn g rx).isSome ↔
      (if s.ogmCase rx = .noTq ∨ s.ogmCase rx = .process then s.countIn rx else some false).isSome ∧
        (if s.UpdatesOrig g rx then s.updateIn g rx else some s.gwList).isSome := by
    obtain ⟨len, hlen⟩ := Option.isSome_iff_exists.mp hforward
    unfold State.batmanOgmIn
    rw [hlen]
    dsimp only [Option.bind_eq_bind, Option.bind_some]
    generalize (if s.ogmCase rx = .noTq ∨ s.ogmCase rx = .process then s.countIn rx else some false) = counted
    generalize (if s.UpdatesOrig g rx then s.updateIn g rx else some s.gwList) = updated
    cases counted <;> cases updated <;> simp
  rw [hsome]
  constructor
  · rintro ⟨hcount, hupdate⟩
    refine ⟨fun hcounts => ?_, fun hcall => ?_⟩
    · rw [if_pos hcounts] at hcount
      exact (State.countIn_isSome_iff h.wf).mp hcount
    · rw [if_pos hcall] at hupdate
      exact (State.updateIn_isSome_iff h.wf h.buffsFit h.gwBounded hcall.1).mp hupdate
  · rintro ⟨hwindows, hgateway⟩
    constructor
    · split_ifs with hcounts
      · exact (State.countIn_isSome_iff h.wf).mpr (hwindows hcounts)
      · rfl
    · split_ifs with hcall
      · exact (State.updateIn_isSome_iff h.wf h.buffsFit h.gwBounded hcall.1).mpr (hgateway hcall)
      · rfl

def Net.classFrame (gwflags : Byte) : Frame where
  dhost := broadcastAddr
  shost := Net.macA
  packetBuff := { (Net.ogm Net.macA Net.macA 0 3 1400).pkt with gwflags := gwflags, numHna := 255 }.bytes ++
    Net.macC.bytes ++ [1, 2, 3]

theorem ogm_in_bounds_last : ∃ tr s, Run Net.p64 Net.cfg tr s ∧ tr.map Prod.snd = Net.linkUp Net.p64 ∧
    (s.batmanOgmIn (Net.zeros Net.p64)
      (Ogm.read Net.macA 0 (Net.classFrame 11).rawsockRead 1400 1400 1400)).isSome := by
  obtain ⟨tr, s, hrun, hevents, hcheck⟩ := Run.of_exec Net.cfg (Net.linkUp Net.p64) (fun _ s =>
    decide (∀ o ∈ s.origs, o.neighList ≠ [] → WindowsFit o.lastRealSeqno 3)) (by decide +kernel)
  have hrecv : ((Node.mk s fun _ => none).receivePacketBatiface (Net.zeros Net.p64) (Net.classFrame 11)).ogm =
      some (Net.macA, (Net.classFrame 11).rawsockRead) :=
    Node.receivePacketBatiface_of_length (by decide +kernel) (by decide +kernel)
  have hrun' : Run Net.p64 Net.cfg tr (Node.mk s fun _ => none).state := hrun
  refine ⟨tr, s, hrun, hevents, (ogm_in_bounds_iff hrun' hrecv 0 1400 1400 1400).mpr ?_⟩
  refine ⟨fun _ o ho _ hne => ?_, fun _ _ => ?_⟩
  · exact of_decide_eq_true hcheck o ho hne
  · show (11 : Byte).toNat < 12
    decide

/-- `A` announces the class 12, which has no text. -/
theorem ogm_not_in_bounds : ∃ tr s, Run Net.p64 Net.cfg tr s ∧ tr.map Prod.snd = Net.linkUp Net.p64 ∧
    (∀ g, ((Node.mk s fun _ => none).receivePacketBatiface g (Net.classFrame 12)).ogm =
      some (Net.macA, (Net.classFrame 12).rawsockRead)) ∧
    (s.batmanOgmIn (Net.zeros Net.p64)
      (Ogm.read Net.macA 0 (Net.classFrame 12).rawsockRead 1400 1400 1400)).isNone := by
  obtain ⟨tr, s, hrun, hevents, hcheck⟩ := Run.of_exec Net.cfg (Net.linkUp Net.p64) (fun _ s =>
    (s.batmanOgmIn (Net.zeros Net.p64)
      (Ogm.read Net.macA 0 (Net.classFrame 12).rawsockRead 1400 1400 1400)).isNone) (by decide +kernel)
  exact ⟨tr, s, hrun, hevents, fun _ => Node.receivePacketBatiface_of_length (by decide +kernel) (by decide +kernel),
    hcheck⟩

end BatmanAdv
