import BatmanAdv.OwnEcho
import BatmanAdv.Lib.CInt

/-!
# The numbers behind the link quality

`real_packet_count` and `bcast_own_sum` are caches of the number of bits in a window, written wherever
the window is: where a packet is counted, where an own packet is scheduled and where an own packet is
heard again. So they are at most `TQ_LOCAL_WINDOW_SIZE`, and the `int` arithmetic of
`isBidirectionalNeigh`, which multiplies four such numbers, has no overflow. The division by
`real_packet_count` is by at least `TQ_LOCAL_BIDRECT_RECV_MINIMUM`, which is tested just before.
-/

namespace BatmanAdv

open Transition

variable {p : Platform} {g : Garbage p} {rx : Ogm} {s s' : State p}

/-! ## Counts and windows -/

def setBits (seqBits : p.SeqBits) : ℕ := (List.range tqLocalWindowSize).countP (winBit seqBits)

theorem setBits_le (seqBits : p.SeqBits) : setBits seqBits ≤ tqLocalWindowSize :=
  List.countP_le_length.trans_eq List.length_range

theorem toNat_bitPacketCount (seqBits : p.SeqBits) :
    (BitVec.ofNat 8 (bitPacketCount seqBits)).toNat = setBits seqBits := by
  have hle := setBits_le seqBits
  unfold tqLocalWindowSize at hle
  rw [BitVec.toNat_ofNat, bitPacketCount_eq]
  exact Nat.mod_eq_of_lt (by unfold setBits tqLocalWindowSize at hle; omega)

@[simp] theorem setBits_bitInit : setBits (bitInit : p.SeqBits) = 0 := by
  unfold setBits
  rw [List.countP_eq_zero]
  intro i _
  simp

/-- `real_packet_count` is the number of packets in `real_bits`. -/
def NeighNode.Counted (n : NeighNode p) : Prop := n.realPacketCount.toNat = setBits n.realBits

/-- `bcast_own_sum` is, for each interface, the number of echoes in `bcast_own`. -/
def OrigNode.OwnCounted (o : OrigNode p) : Prop :=
  ∀ ifNum, (o.bcastOwnSum ifNum).toNat = setBits (o.bcastOwn ifNum)

theorem NeighNode.counted_new (ptr : ℕ) (addr : Mac) (origNode ifIncoming : ℕ) :
    (NeighNode.new ptr addr origNode ifIncoming : NeighNode p).Counted :=
  setBits_bitInit.symm

theorem NeighNode.counted_countPacket (front : ℕ → ℕ → p.Word) (n : NeighNode p) (d : ℤ) (m : Bool) :
    (n.countPacket front d m).Counted :=
  toNat_bitPacketCount _

theorem NeighNode.Counted.of_sameLink {n n' : NeighNode p} (h : n.Counted) (hsame : n'.SameLink n) :
    n'.Counted := by
  unfold NeighNode.Counted
  rw [hsame.realBits, hsame.realPacketCount]
  exact h

theorem NeighNode.kept_counted : NeighNode.Kept (p := p) NeighNode.Counted where
  new := NeighNode.counted_new
  touch n t h := h.of_sameLink (n.sameLink_touch t)
  pushTq n value h := h.of_sameLink (n.sameLink_pushTq value)
  receive n pkt dup t h := h.of_sameLink (n.sameLink_receive pkt dup t)
  count front n d m _ := NeighNode.counted_countPacket front n d m

theorem OrigNode.ownCounted_new (ptr : ℕ) (addr : Mac) : (OrigNode.new ptr addr : OrigNode p).OwnCounted :=
  fun _ => setBits_bitInit.symm

theorem OrigNode.OwnCounted.of_sameOwn {o o' : OrigNode p} (h : o.OwnCounted) (hsame : o.SameOwn o') :
    o'.OwnCounted := by
  intro ifNum
  rw [hsame.bcastOwn, hsame.bcastOwnSum]
  exact h ifNum

/-- A window of own packets and its count are written together. -/
theorem OrigNode.OwnCounted.update {o o' : OrigNode p} (h : o.OwnCounted) {ifNum : ℕ} {seqBits : p.SeqBits}
    (hown : o'.bcastOwn = Function.update o.bcastOwn ifNum seqBits)
    (hsum : o'.bcastOwnSum =
      Function.update o.bcastOwnSum ifNum (BitVec.ofNat 8 (bitPacketCount seqBits))) :
    o'.OwnCounted := by
  intro i
  rw [hown, hsum, Function.update_apply, Function.update_apply]
  split_ifs
  · exact toNat_bitPacketCount seqBits
  · exact h i

theorem step_ownCounted {e : Event p} (hs : s.Wf) (h : step s e = some s')
    (hc : ∀ o ∈ s.origs, o.OwnCounted) : ∀ o ∈ s'.origs, o.OwnCounted := by
  intro o' ho'
  obtain ⟨o, ho, hstepped⟩ := step_own hs h ho'
  have hcounted : o.OwnCounted := by
    rcases ho with ho | ⟨_, hnew⟩
    · exact hc o ho
    · rw [hnew]
      exact OrigNode.ownCounted_new _ _
  cases hstepped with
  | sent ifOutgoing _ _ hsame =>
    have hshift : (o.shiftBcastOwn ifOutgoing).OwnCounted := hcounted.update rfl rfl
    exact hshift.of_sameOwn hsame
  | echo g rx _ _ hsame =>
    refine OrigNode.OwnCounted.of_sameOwn ?_ hsame
    split_ifs
    · exact hcounted.update rfl rfl
    · exact hcounted
  | same _ _ hsame => exact hcounted.of_sameOwn hsame

theorem Run.ownCounted {cfg : Config} {tr : List (State p × Event p)} (h : Run p cfg tr s) :
    ∀ o ∈ s.origs, o.OwnCounted := by
  have hinv := Trace.state_invariant (I := fun s : State p => s.Wf ∧ ∀ o ∈ s.origs, o.OwnCounted) h
    ⟨cfg.boot_wf p, cfg.forall_origs_boot⟩
    fun t e u ⟨ht, hc⟩ hstep => ⟨step_wf ht hstep, step_ownCounted ht hstep hc⟩
  exact hinv.2.2

/-! ## The arithmetic

`isBidirectionalNeigh` once more, in `int` arithmetic. -/

def tqOwnIn (bcastOwnSum realPacketCount : Byte) : Option Byte :=
  let totalCount := if bcastOwnSum.toNat > realPacketCount.toNat then realPacketCount else bcastOwnSum
  if totalCount.toNat < tqLocalBidrectSendMinimum ∨
      realPacketCount.toNat < tqLocalBidrectRecvMinimum then some 0
  else do
    let product ← CInt.mul tqMaxValue totalCount.toNat
    CInt.toByte (← CInt.div product realPacketCount.toNat)

def tqAsymPenaltyIn (realPacketCount : Byte) : Option ℤ := do
  let missing ← CInt.sub tqLocalWindowSize realPacketCount.toNat
  let product ← CInt.mul (← CInt.mul (← CInt.mul tqMaxValue missing) missing) missing
  let divisor ← CInt.mul (← CInt.mul tqLocalWindowSize tqLocalWindowSize) tqLocalWindowSize
  CInt.sub tqMaxValue (← CInt.div product divisor)

def penalizedTqIn (tq tqOwn : Byte) (tqAsymPenalty : ℤ) : Option Byte := do
  let product ← CInt.mul (← CInt.mul tq.toNat tqOwn.toNat) tqAsymPenalty
  let divisor ← CInt.mul tqMaxValue tqMaxValue
  CInt.toByte (← CInt.div product divisor)

def State.isBidirectionalNeighIn (s : State p) (origNode origNeighNode : ℕ) (pkt : BatmanPacket)
    (recvTime : Time) (ifIncoming : ℕ) : Option (State p × BatmanPacket × Bool) :=
  let (s, neighNode) := s.selfNeighbor origNeighNode ifIncoming
  let s :=
    if origNode = origNeighNode then
      s.modOrig origNode (·.modNeigh neighNode.ptr (·.touch recvTime))
    else s
  let s := s.modOrig origNode fun o => { o with lastValid := recvTime }
  do
    let tqOwn ← tqOwnIn ((s.origAt origNeighNode).bcastOwnSum ifIncoming) neighNode.realPacketCount
    let tqAsymPenalty ← tqAsymPenaltyIn neighNode.realPacketCount
    let s := s.modOrig origNeighNode fun o =>
      { o with tqOwn := tqOwn, tqAsymPenalty := tqAsymPenalty }
    let tq ← penalizedTqIn pkt.tq tqOwn tqAsymPenalty
    let pkt := { pkt with tq := tq }
    return (s, pkt, decide (pkt.tq.toNat ≥ tqTotalBidrectLimit))

theorem tqOwnIn_eq (bcastOwnSum realPacketCount : Byte) :
    tqOwnIn bcastOwnSum realPacketCount = some (tqOwnOf bcastOwnSum realPacketCount) := by
  unfold tqOwnIn tqOwnOf
  generalize htotal : (if bcastOwnSum.toNat > realPacketCount.toNat then realPacketCount
    else bcastOwnSum) = totalCount
  have hle : totalCount.toNat ≤ realPacketCount.toNat := by
    rw [← htotal]
    split_ifs <;> omega
  dsimp only
  by_cases hfew : totalCount.toNat < tqLocalBidrectSendMinimum ∨
      realPacketCount.toNat < tqLocalBidrectRecvMinimum
  · rw [if_pos hfew, if_pos hfew]
  · rw [if_neg hfew, if_neg hfew]
    unfold tqLocalBidrectSendMinimum tqLocalBidrectRecvMinimum at hfew
    have hpos : 0 < realPacketCount.toNat := by omega
    have hbyte := totalCount.isLt
    have hquot : 255 * totalCount.toNat / realPacketCount.toNat ≤ 255 :=
      Nat.div_le_of_le_mul (by rw [Nat.mul_comm]; exact Nat.mul_le_mul_right 255 hle)
    have hprod : CInt.mul tqMaxValue totalCount.toNat = some ((255 * totalCount.toNat : ℕ) : ℤ) :=
      CInt.mul_eq ⟨by unfold tqMaxValue; omega, by unfold tqMaxValue; omega⟩
    have hdiv : ((255 * totalCount.toNat : ℕ) : ℤ).tdiv realPacketCount.toNat =
        ((255 * totalCount.toNat / realPacketCount.toNat : ℕ) : ℤ) := (Int.ofNat_tdiv _ _).symm
    unfold tqMaxValue at hprod ⊢
    generalize 255 * totalCount.toNat / realPacketCount.toNat = quot at hquot hdiv
    have hquot' : CInt.div ((255 * totalCount.toNat : ℕ) : ℤ) realPacketCount.toNat = some (quot : ℤ) := by
      rw [CInt.div_eq (by omega) (by rw [hdiv]; exact ⟨by omega, by omega⟩), hdiv]
    simp only [hprod, hquot', Option.bind_eq_bind, Option.bind_some]
    rw [CInt.toByte_eq (by omega) (by omega), BitVec.ofInt_natCast]

theorem tqAsymPenaltyIn_eq {realPacketCount : Byte} (h : realPacketCount.toNat ≤ tqLocalWindowSize) :
    tqAsymPenaltyIn realPacketCount = some (tqAsymPenaltyOf realPacketCount) := by
  obtain ⟨hpos, hle⟩ := tqAsymPenaltyOf_bounds h
  unfold tqAsymPenaltyIn
  unfold tqAsymPenaltyOf at *
  dsimp only at hpos hle ⊢
  have hsub : CInt.sub tqLocalWindowSize realPacketCount.toNat =
      some ((tqLocalWindowSize : ℤ) - realPacketCount.toNat) :=
    CInt.sub_eq ⟨by unfold tqLocalWindowSize at *; omega, by unfold tqLocalWindowSize at *; omega⟩
  have h0 : 0 ≤ (tqLocalWindowSize : ℤ) - realPacketCount.toNat := by omega
  have h64 : (tqLocalWindowSize : ℤ) - realPacketCount.toNat ≤ 64 := by
    unfold tqLocalWindowSize
    omega
  generalize (tqLocalWindowSize : ℤ) - realPacketCount.toNat = missing at *
  obtain ⟨hfits1, h01, h1⟩ := CInt.fits_mul (x := (tqMaxValue : ℤ)) (a := 255) (by decide) (by decide)
    h0 h64 (by decide)
  obtain ⟨hfits2, h02, h2⟩ := CInt.fits_mul h01 h1 h0 h64 (by decide)
  obtain ⟨hfits3, h03, h3⟩ := CInt.fits_mul h02 h2 h0 h64 (by decide)
  have hsquare : CInt.mul tqLocalWindowSize tqLocalWindowSize =
      some ((tqLocalWindowSize : ℤ) * tqLocalWindowSize) := CInt.mul_eq (by decide)
  have hcube : CInt.mul ((tqLocalWindowSize : ℤ) * tqLocalWindowSize) tqLocalWindowSize =
      some ((tqLocalWindowSize : ℤ) * tqLocalWindowSize * tqLocalWindowSize) := CInt.mul_eq (by decide)
  have hfits4 : CInt.Fits (((tqMaxValue : ℤ) * missing * missing * missing).tdiv
      ((tqLocalWindowSize : ℤ) * tqLocalWindowSize * tqLocalWindowSize)) := by
    unfold tqMaxValue at hpos hle ⊢
    exact ⟨by omega, by omega⟩
  have hdiv := CInt.div_eq (y := (tqLocalWindowSize : ℤ) * tqLocalWindowSize * tqLocalWindowSize)
    (by decide) hfits4
  simp only [hsub, CInt.mul_eq hfits1, CInt.mul_eq hfits2, CInt.mul_eq hfits3, hsquare, hcube, hdiv,
    Option.bind_eq_bind, Option.bind_some]
  exact CInt.sub_eq ⟨by omega, by omega⟩

theorem penalizedTqIn_eq {tq tqOwn : Byte} {tqAsymPenalty : ℤ} (h0 : 0 ≤ tqAsymPenalty)
    (h255 : tqAsymPenalty ≤ 255) :
    penalizedTqIn tq tqOwn tqAsymPenalty = some (penalizedTq tq tqOwn tqAsymPenalty) := by
  have htq := tq.isLt
  have hown := tqOwn.isLt
  unfold penalizedTqIn penalizedTq
  obtain ⟨hfits1, h01, h1⟩ := CInt.fits_mul (x := (tq.toNat : ℤ)) (y := tqOwn.toNat) (a := 255)
    (b := 255) (by omega) (by omega) (by omega) (by omega) (by decide)
  obtain ⟨hfits2, h02, h2⟩ := CInt.fits_mul h01 h1 h0 h255 (by decide)
  have hsquare : CInt.mul tqMaxValue tqMaxValue = some ((tqMaxValue : ℤ) * tqMaxValue) :=
    CInt.mul_eq (by decide)
  simp only [CInt.mul_eq hfits1, CInt.mul_eq hfits2, hsquare, Option.bind_eq_bind, Option.bind_some]
  generalize (tq.toNat : ℤ) * tqOwn.toNat * tqAsymPenalty = product at h02 h2 ⊢
  have hquot : product.tdiv ((tqMaxValue : ℤ) * tqMaxValue) = product / 65025 :=
    Int.tdiv_eq_ediv_of_nonneg h02
  rw [CInt.div_eq (by decide) (by rw [hquot]; exact ⟨by omega, by omega⟩), hquot]
  exact CInt.toByte_eq (by omega) (by omega)

/-- With counts of at most 64, `isBidirectionalNeigh` computes what its integers say. -/
theorem State.isBidirectionalNeighIn_eq {origNode origNeighNode : ℕ} {pkt : BatmanPacket} {recvTime : Time}
    {ifIncoming : ℕ}
    (h : (s.selfNeighbor origNeighNode ifIncoming).2.realPacketCount.toNat ≤ tqLocalWindowSize) :
    s.isBidirectionalNeighIn origNode origNeighNode pkt recvTime ifIncoming =
      some (s.isBidirectionalNeigh origNode origNeighNode pkt recvTime ifIncoming) := by
  obtain ⟨hpos, hle⟩ := tqAsymPenaltyOf_bounds h
  unfold State.isBidirectionalNeighIn State.isBidirectionalNeigh
  generalize s.selfNeighbor origNeighNode ifIncoming = self at *
  obtain ⟨s1, n⟩ := self
  dsimp only at *
  simp only [tqOwnIn_eq, tqAsymPenaltyIn_eq h, penalizedTqIn_eq hpos hle, Option.bind_eq_bind,
    Option.bind_some]
  rfl

/-- The call of `isBidirectionalNeigh` in `batman()`. -/
def Counted.rateIn (c : Counted p) (rx : Ogm) : Option (Rated p) :=
  (c.state.isBidirectionalNeighIn c.origNode c.origNeighNode rx.pkt rx.rcvdTime rx.ifIncoming).map
    fun r => { state := r.1, pkt := r.2.1, isBidirectional := r.2.2 }

theorem Counted.rateIn_eq {c : Counted p} (hs : c.state.Wf) (hneigh : c.state.At c.origNeighNode rx.neigh) :
    c.rateIn rx = some (c.rate rx) := by
  unfold Counted.rateIn Counted.rate
  rw [State.isBidirectionalNeighIn_eq (State.selfNeighbor_moves hs hneigh).2]
  rfl

theorem Counted.rate_penalty (rx : Ogm) {c : Counted p} (hs : c.state.Wf)
    (hneigh : c.state.At c.origNeighNode rx.neigh) :
    ∃ realPacketCount : Byte, realPacketCount.toNat ≤ tqLocalWindowSize ∧
      ((c.rate rx).state.origAt c.origNeighNode).tqAsymPenalty = tqAsymPenaltyOf realPacketCount := by
  obtain ⟨hself, hcount⟩ := State.selfNeighbor_moves hs hneigh
  unfold Counted.rate State.isBidirectionalNeigh
  generalize c.state.selfNeighbor c.origNeighNode rx.ifIncoming = self at hself hcount ⊢
  obtain ⟨s1, n⟩ := self
  dsimp only at hself hcount ⊢
  refine ⟨n.realPacketCount, hcount, ?_⟩
  have hvalid := Writes.touch hself c.origNode c.origNeighNode n.ptr
  obtain ⟨o, ho, hptr, _⟩ := Writes.at hvalid hs hneigh
  generalize tqOwnOf _ n.realPacketCount = tqOwn
  have hread := (Writes.wf hvalid hs).table.origAt_modOrig ho (f := fun o =>
    { o with tqOwn := tqOwn, tqAsymPenalty := tqAsymPenaltyOf n.realPacketCount }) (fun _ => rfl)
    fun _ => rfl
  rw [hptr] at hread
  exact congrArg OrigNode.tqAsymPenalty hread

/-- **Counts and link quality.** In every reachable state the counts are those of the windows, at most
64; and for every OGM that is processed, `isBidirectionalNeigh` computes without overflow or division
by zero, with a quality of the own link and a penalty from 0 to 255, and never raises `in->tq`. -/
theorem link_quality {cfg : Config} {tr : List (State p × Event p)} (h : Run p cfg tr s) :
    (∀ o ∈ s.origs, ∀ n ∈ o.neighList,
      n.realPacketCount.toNat = setBits n.realBits ∧ setBits n.realBits ≤ 64) ∧
      (∀ o ∈ s.origs, ∀ ifNum, (o.bcastOwnSum ifNum).toNat = setBits (o.bcastOwn ifNum) ∧
        setBits (o.bcastOwn ifNum) ≤ 64) ∧
      ∀ (g : Garbage p) (rx : Ogm), s.ogmCase rx = .process →
        let c := s.counted g rx
        let origNeighNode := (c.rate rx).state.origAt c.origNeighNode
        c.rateIn rx = some (c.rate rx) ∧ origNeighNode.tqOwn.toNat ≤ 255 ∧
          (0 ≤ origNeighNode.tqAsymPenalty ∧ origNeighNode.tqAsymPenalty ≤ 255) ∧
          (c.rate rx).pkt.tq.toNat ≤ rx.pkt.tq.toNat := by
  have hneighs := h.neighs NeighNode.kept_counted
  refine ⟨fun o ho n hn => ⟨hneighs o ho n hn, setBits_le _⟩,
    fun o ho ifNum => ⟨h.ownCounted o ho ifNum, setBits_le _⟩, fun g rx hprocess => ?_⟩
  obtain ⟨hmoves, _, hneigh, _⟩ := State.counted_moves (g := g) h.wf hprocess
  have hwf := hmoves.wf h.wf
  obtain ⟨count, hle, hpenalty⟩ := Counted.rate_penalty rx hwf hneigh
  dsimp only
  refine ⟨Counted.rateIn_eq hwf hneigh, Nat.le_of_lt_succ (BitVec.isLt _), ?_,
    (Counted.rate_moves hwf hneigh).2.2.1⟩
  rw [hpenalty]
  exact tqAsymPenaltyOf_bounds hle

/-- The third OGM of `A` in a row, after one own packet was heard again. -/
theorem link_quality_linkUp : ∃ tr s, Run Net.p64 Net.cfg tr s ∧
    tr.map Prod.snd = Net.linkUp Net.p64 ∧
    (∃ o ∈ s.origs, ∃ n ∈ o.neighList, n.realPacketCount.toNat = setBits n.realBits ∧
      0 < n.realPacketCount.toNat) ∧
    let rx := Net.ogm Net.macA Net.macA 0 3 1400
    let c := s.counted (Net.zeros Net.p64) rx
    c.rateIn rx = some (c.rate rx) ∧ (c.rate rx).pkt.tq.toNat ≤ 255 := by
  obtain ⟨tr, s, hrun, hevents, hcheck⟩ := Run.of_exec Net.cfg (Net.linkUp Net.p64)
    (fun _ (s : State Net.p64) => decide
      ((∃ o ∈ s.origs, ∃ n ∈ o.neighList, 0 < n.realPacketCount.toNat) ∧
        s.ogmCase (Net.ogm Net.macA Net.macA 0 3 1400) = .process)) (by decide +kernel)
  obtain ⟨⟨o, ho, n, hn, hpos⟩, hprocess⟩ := of_decide_eq_true hcheck
  obtain ⟨hneigh, _, hrate⟩ := link_quality hrun
  obtain ⟨hin, _, _, htq⟩ := hrate (Net.zeros Net.p64) _ hprocess
  exact ⟨tr, s, hrun, hevents, ⟨o, ho, n, hn, (hneigh o ho n hn).1, hpos⟩, hin, htq⟩

end BatmanAdv
