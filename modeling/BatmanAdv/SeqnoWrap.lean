import BatmanAdv.Reachable

/-!
# Sequence numbers across the wrap

`count_real_packets` compares the sequence number of an OGM with the newest one of its originator, so
that only their difference should count. The windows are moved by the 16-bit difference. The duplicate
check takes the 16-bit difference for its range, but finds the word and the bit by a difference that is
not reduced to 16 bits: where exactly one of the two has wrapped, it reads 2^16 bits in front of the
window.
-/

namespace BatmanAdv

open Transition

variable {p : Platform} {s : State p} {newest c : Seqno}

/-- The entry with its newest sequence number moved on by `k`. -/
def OrigNode.shiftSeqno (o : OrigNode p) (k : Seqno) : OrigNode p :=
  { o with lastRealSeqno := o.lastRealSeqno + k }

def BatmanPacket.shiftSeqno (pkt : BatmanPacket) (k : Seqno) : BatmanPacket :=
  { pkt with seqno := pkt.seqno + k }

/-- `count_real_packets` of both shifted by `k` gives the same verdict and the same entry, shifted. -/
def State.CountsShifted (s : State p) (g : Garbage p) (o : OrigNode p) (neigh : Mac)
    (pkt : BatmanPacket) (ifIncoming : ℕ) (k : Seqno) : Prop :=
  let counted := s.countRealPackets g neigh pkt ifIncoming
  let shifted :=
    (s.modOrig o.ptr (·.shiftSeqno k)).countRealPackets g neigh (pkt.shiftSeqno k) ifIncoming
  shifted.2 = counted.2 ∧ shifted.1.origAt o.ptr = (counted.1.origAt o.ptr).shiftSeqno k

/-- The bit at this difference, in front of the window where the difference is negative. -/
def bitRead (front : ℕ → p.Word) (seqBits : p.SeqBits) (diff : ℤ) : Bool :=
  wordAt front seqBits (diff.tdiv p.wordBitSize) &&& bitMask p (diff.tmod p.wordBitSize) != 0

/-- Some window has the bit at this difference. -/
def OrigNode.anyBit (front : ℕ → ℕ → p.Word) (o : OrigNode p) (diff : ℤ) : Bool :=
  o.neighList.any fun n => bitRead (front n.ptr) n.realBits diff

/-- Whether the numbers, as they are, are in the order of the window. -/
def Unwrapped (newest c : Seqno) : Prop := c.toNat ≤ newest.toNat

instance (newest c : Seqno) : Decidable (Unwrapped newest c) := inferInstanceAs (Decidable (_ ≤ _))

/-- The sequence number is in the window. -/
def InWindow (newest c : Seqno) : Prop := 0 ≤ (newest - c).toInt ∧ (newest - c).toInt < 64

instance (newest c : Seqno) : Decidable (InWindow newest c) := inferInstanceAs (Decidable (_ ∧ _))

/-! ## The difference -/

theorem sub_shift (newest c k : Seqno) : newest + k - (c + k) = newest - c := by
  bv_omega

theorem intDiff_of_inWindow (h : InWindow newest c) :
    (newest.toNat : ℤ) - c.toNat =
      if Unwrapped newest c then (newest - c).toInt else (newest - c).toInt - 2 ^ 16 := by
  unfold InWindow at h
  unfold Unwrapped
  have hnewest := newest.isLt
  have hc := c.isLt
  rw [BitVec.toInt_sub] at h ⊢
  simp only [BitVec.toInt_eq_toNat_bmod, Int.sub_bmod_bmod, Int.bmod_sub_bmod] at h ⊢
  simp only [Int.bmod_def] at h ⊢
  omega

theorem getBitStatus_of_inWindow (front : ℕ → p.Word) (seqBits : p.SeqBits) (h : InWindow newest c) :
    getBitStatus front seqBits newest c = bitRead front seqBits ((newest.toNat : ℤ) - c.toNat) := by
  unfold InWindow at h
  unfold getBitStatus
  rw [if_neg (by simp only [tqLocalWindowSize]; omega)]
  rfl

theorem getBitStatus_of_not_inWindow (front : ℕ → p.Word) (seqBits : p.SeqBits)
    (h : ¬ InWindow newest c) : getBitStatus front seqBits newest c = false := by
  unfold InWindow at h
  exact getBitStatus_of_out (by omega)

theorem inWindow_shift (newest c k : Seqno) : InWindow (newest + k) (c + k) ↔ InWindow newest c := by
  unfold InWindow
  rw [sub_shift]

/-! ## The entry -/

/-- The verdict, by the window and by what is in front of it. -/
theorem OrigNode.isDuplicate_eq (front : ℕ → ℕ → p.Word) (o : OrigNode p) (q : Seqno) :
    o.isDuplicate front q =
      (decide (InWindow o.lastRealSeqno q) &&
        o.anyBit front (if Unwrapped o.lastRealSeqno q then (o.lastRealSeqno - q).toInt
          else (o.lastRealSeqno - q).toInt - 2 ^ 16)) := by
  unfold OrigNode.isDuplicate OrigNode.anyBit
  by_cases h : InWindow o.lastRealSeqno q
  · rw [decide_eq_true h, Bool.true_and, ← intDiff_of_inWindow h]
    congr 1
    funext n
    exact getBitStatus_of_inWindow _ _ h
  · rw [decide_eq_false h, Bool.false_and, List.any_eq_false]
    intro n _
    rw [getBitStatus_of_not_inWindow _ _ h]
    exact Bool.false_ne_true

/-- Shifting changes the verdict where it moves exactly one of the two across the wrap and the bit in
front of the windows differs. -/
theorem OrigNode.isDuplicate_shift_iff (front : ℕ → ℕ → p.Word) (o : OrigNode p) (q k : Seqno) :
    (o.shiftSeqno k).isDuplicate front (q + k) = o.isDuplicate front q ↔
      ¬ InWindow o.lastRealSeqno q ∨
      (Unwrapped (o.lastRealSeqno + k) (q + k) ↔ Unwrapped o.lastRealSeqno q) ∨
      o.anyBit front (o.lastRealSeqno - q).toInt =
        o.anyBit front ((o.lastRealSeqno - q).toInt - 2 ^ 16) := by
  have hlast : (o.shiftSeqno k).lastRealSeqno = o.lastRealSeqno + k := rfl
  have hany : (o.shiftSeqno k).anyBit front = o.anyBit front := rfl
  rw [OrigNode.isDuplicate_eq, OrigNode.isDuplicate_eq, hlast, hany, sub_shift]
  simp only [inWindow_shift]
  by_cases hin : InWindow o.lastRealSeqno q
  · rw [decide_eq_true hin, Bool.true_and, Bool.true_and]
    by_cases hbefore : Unwrapped o.lastRealSeqno q <;>
      by_cases hafter : Unwrapped (o.lastRealSeqno + k) (q + k)
    · simp [hbefore, hafter]
    · simp [hbefore, hafter, hin, eq_comm]
    · simp [hbefore, hafter, hin]
    · simp [hbefore, hafter]
  · simp [hin]

theorem OrigNode.countPacket_shift (front : ℕ → ℕ → p.Word) (o : OrigNode p) (neigh : Mac)
    (ifIncoming : ℕ) (q k : Seqno)
    (h : (o.shiftSeqno k).isDuplicate front (q + k) = o.isDuplicate front q) :
    (o.shiftSeqno k).countPacket front neigh ifIncoming (q + k) =
      (o.countPacket front neigh ifIncoming q).shiftSeqno k := by
  unfold OrigNode.countPacket
  rw [h]
  have hdiff : q + k - (o.shiftSeqno k).lastRealSeqno = q - o.lastRealSeqno := sub_shift _ _ _
  rw [hdiff]
  unfold OrigNode.shiftSeqno
  dsimp only
  split_ifs
  · rfl
  · rfl

/-! ## The state -/

/-- **`count_real_packets`** of an originator that has an entry. -/
theorem State.countRealPackets_of_mem (hs : s.Wf) (g : Garbage p) {o : OrigNode p} (ho : o ∈ s.origs)
    {pkt : BatmanPacket} (horig : o.orig = pkt.orig) (neigh : Mac) (ifIncoming : ℕ) :
    (s.countRealPackets g neigh pkt ifIncoming).2 = o.isDuplicate g.front pkt.seqno ∧
      (s.countRealPackets g neigh pkt ifIncoming).1.origAt o.ptr =
        o.countPacket g.front neigh ifIncoming pkt.seqno := by
  have hfind : s.findOrigNode pkt.orig = some o := hs.findOrigNode_eq_some_iff.mpr ⟨ho, horig⟩
  have hread := hs.origAt_of_mem ho
  unfold State.countRealPackets State.getOrigNode
  rw [hfind]
  dsimp only
  rw [hread]
  refine ⟨rfl, ?_⟩
  have hwf : (s.modOrig o.ptr fun o =>
      o.countPacket g.front neigh ifIncoming pkt.seqno).Wf := by
    refine hs.modOrig (fun _ => rfl) (fun _ => rfl) fun o ho _ => ?_
    exact (hs.node o ho).mapNeigh rfl rfl (fun _ => rfl) (fun _ => rfl) (fun _ => rfl)
      fun n _ => countPacket_count_le _ n _ _
  exact hwf.origAt_of_mem ((hs.mem_modOrig_iff ho).mpr (.inl rfl))

/-- What is shifted along with the sequence numbers depends on the duplicate test alone. -/
theorem State.countsShifted_iff (hs : s.Wf) (g : Garbage p) {o : OrigNode p} (ho : o ∈ s.origs)
    {pkt : BatmanPacket} (horig : o.orig = pkt.orig) (neigh : Mac) (ifIncoming : ℕ) (k : Seqno) :
    s.CountsShifted g o neigh pkt ifIncoming k ↔
      (o.shiftSeqno k).isDuplicate g.front (pkt.seqno + k) = o.isDuplicate g.front pkt.seqno := by
  have hshift : (s.modOrig o.ptr (·.shiftSeqno k)).Wf :=
    hs.modOrig (fun _ => rfl) (fun _ => rfl) fun o ho _ => (hs.node o ho).of_eq rfl rfl
  have hmem : o.shiftSeqno k ∈ (s.modOrig o.ptr (·.shiftSeqno k)).origs :=
    (hs.mem_modOrig_iff ho).mpr (.inl rfl)
  obtain ⟨hverdict, hentry⟩ := State.countRealPackets_of_mem hs g ho horig neigh ifIncoming
  have horig' : (o.shiftSeqno k).orig = (pkt.shiftSeqno k).orig := horig
  obtain ⟨hverdict', hentry'⟩ := State.countRealPackets_of_mem hshift g hmem horig' neigh ifIncoming
  have hptr : (o.shiftSeqno k).ptr = o.ptr := rfl
  have hseqno : (pkt.shiftSeqno k).seqno = pkt.seqno + k := rfl
  rw [hptr, hseqno] at hentry'
  rw [hseqno] at hverdict'
  unfold State.CountsShifted
  dsimp only
  rw [hverdict, hverdict', hentry, hentry']
  constructor
  · exact fun h => h.1
  · exact fun h => ⟨h, OrigNode.countPacket_shift g.front o neigh ifIncoming pkt.seqno k h⟩

/-- **Transparency to the wrap.** Shifting both sequence numbers of an OGM and its originator changes
nothing else exactly where the OGM is outside the window, or the order of the two numbers stays as it is,
or the memory in front of the windows happens to tell what the windows do. -/
theorem State.countRealPackets_shift_iff (hs : s.Wf) (g : Garbage p) {o : OrigNode p}
    (ho : o ∈ s.origs) {pkt : BatmanPacket} (horig : o.orig = pkt.orig) (neigh : Mac)
    (ifIncoming : ℕ) (k : Seqno) :
    s.CountsShifted g o neigh pkt ifIncoming k ↔
      ¬ InWindow o.lastRealSeqno pkt.seqno ∨
      (Unwrapped (o.lastRealSeqno + k) (pkt.seqno + k) ↔ Unwrapped o.lastRealSeqno pkt.seqno) ∨
      o.anyBit g.front (o.lastRealSeqno - pkt.seqno).toInt =
        o.anyBit g.front ((o.lastRealSeqno - pkt.seqno).toInt - 2 ^ 16) := by
  rw [State.countsShifted_iff hs g ho horig, OrigNode.isDuplicate_shift_iff]

/-- The second OGM of `A` again, after the third one and with both numbers five higher. -/
theorem State.countRealPackets_shift_five : ∃ tr s,
    Run Net.p64 Net.cfg tr s ∧
    tr.map Prod.snd = Net.linkUp Net.p64 ++
      [.ogm (Net.zeros Net.p64) (Net.ogm Net.macA Net.macA 0 3 1400)] ∧
    s.CountsShifted (Net.zeros Net.p64) (s.origAt 4) Net.macA (Net.ogm Net.macA Net.macA 0 2 1500).pkt 0
      5 := by
  obtain ⟨tr, s, hrun, hevents, hcheck⟩ := Run.of_exec Net.cfg (Net.linkUp Net.p64 ++
      [.ogm (Net.zeros Net.p64) (Net.ogm Net.macA Net.macA 0 3 1400)])
    (fun _ (s : State Net.p64) => decide (s.At 4 Net.macA ∧
      (Unwrapped ((s.origAt 4).lastRealSeqno + 5) (2 + 5) ↔ Unwrapped (s.origAt 4).lastRealSeqno 2)))
    (by decide +kernel)
  obtain ⟨hat, hside⟩ := of_decide_eq_true hcheck
  obtain ⟨hmem, hptr, horig⟩ := (Run.wf hrun).origAt_mem hat
  refine ⟨tr, s, hrun, hevents, ?_⟩
  exact (State.countRealPackets_shift_iff (Run.wf hrun) _ hmem horig _ _ _).mpr (.inr (.inl hside))

/-- The same with both numbers three lower: it is no duplicate any more. -/
theorem State.countRealPackets_shift_forgets : ∃ tr s,
    Run Net.p64 Net.cfg tr s ∧
    tr.map Prod.snd = Net.linkUp Net.p64 ++
      [.ogm (Net.zeros Net.p64) (Net.ogm Net.macA Net.macA 0 3 1400)] ∧
    ¬ s.CountsShifted (Net.zeros Net.p64) (s.origAt 4) Net.macA (Net.ogm Net.macA Net.macA 0 2 1500).pkt
      0 (-3) := by
  obtain ⟨tr, s, hrun, hevents, hcheck⟩ := Run.of_exec Net.cfg (Net.linkUp Net.p64 ++
      [.ogm (Net.zeros Net.p64) (Net.ogm Net.macA Net.macA 0 3 1400)])
    (fun _ (s : State Net.p64) => decide (s.At 4 Net.macA ∧
      (s.origAt 4).isDuplicate (Net.zeros Net.p64).front 2 = true ∧
      ((s.origAt 4).shiftSeqno (-3)).isDuplicate (Net.zeros Net.p64).front (2 + -3) = false))
    (by decide +kernel)
  obtain ⟨hat, hbefore, hafter⟩ := of_decide_eq_true hcheck
  obtain ⟨hmem, _, horig⟩ := (Run.wf hrun).origAt_mem hat
  refine ⟨tr, s, hrun, hevents, fun hcounts => ?_⟩
  have hsame := (State.countsShifted_iff (Run.wf hrun) _ hmem horig _ _ _).mp hcounts
  rw [show (Net.ogm Net.macA Net.macA 0 2 1500).pkt.seqno = 2 from rfl, hbefore, hafter] at hsame
  cases hsame

end BatmanAdv
