import BatmanAdv.Packet
import Mathlib.Data.Nat.Basic
import Mathlib.Data.Nat.Factorization.Basic
import Mathlib.Logic.Function.Basic
import Mathlib.Tactic.SplitIfs
import Mathlib.Tactic.NormNum

/-!
# Reception windows (`bitarray.c`)

A window is an array of `NUM_WORDS` words of `TYPE_OF_WORD`, which is `unsigned long`: two words on a
32-bit platform, one on a 64-bit platform. Bit `i` of the window (`winBit`) stands for the sequence
number `i` behind the newest one.

Three expressions of the file leave the array or the `int` they are computed in, and are modelled as
written: `1<<word_offset` is an `int`, so it is undefined outside the offsets 0 to 31
(`Platform.overShift`) and negative at offset 31; `bit_shift` by a whole window reads the word in
front of the array (`front`); and `get_bit_status` divides a difference that was not reduced to 16
bits, so that it reads far in front of the array where the sequence numbers have wrapped in between.
-/

namespace BatmanAdv

/-- The platform the code is compiled for. -/
structure Platform where
  /-- `WORD_BIT_SIZE`. -/
  wordBitSize : ℕ
  wordBitSize_eq : wordBitSize = 32 ∨ wordBitSize = 64
  /-- What `1<<n` evaluates to where C leaves it undefined, `n < 0` or `n ≥ 32`. -/
  overShift : ℤ → BitVec 32

namespace Platform

variable (p : Platform)

def numWords : ℕ := tqLocalWindowSize / p.wordBitSize

abbrev Word : Type := BitVec p.wordBitSize

abbrev SeqBits : Type := ℕ → p.Word

theorem wordBitSize_pos : 0 < p.wordBitSize := by
  rcases p.wordBitSize_eq with h | h <;> omega

theorem numWords_mul : p.numWords * p.wordBitSize = 64 := by
  unfold numWords tqLocalWindowSize
  rcases p.wordBitSize_eq with h | h <;> rw [h]

end Platform

variable {p : Platform}

/-! ## The functions -/

/-- The value of `1<<wordOffset`, an `int`. -/
def intShift (p : Platform) (wordOffset : ℤ) : BitVec 32 :=
  if 0 ≤ wordOffset ∧ wordOffset < 32 then 1#32 <<< wordOffset.toNat else p.overShift wordOffset

/-- `1<<wordOffset` converted to `TYPE_OF_WORD`. -/
def bitMask (p : Platform) (wordOffset : ℤ) : p.Word :=
  (intShift p wordOffset).signExtend p.wordBitSize

def bitInit : p.SeqBits := fun _ => 0

/-- `seq_bits[i]`, where a negative index reads in front of the array: `front k` is the word `k + 1`
places before it. -/
def wordAt (front : ℕ → p.Word) (seqBits : p.SeqBits) : ℤ → p.Word
  | .ofNat i => seqBits i
  | .negSucc k => front k

def getBitStatus (front : ℕ → p.Word) (seqBits : p.SeqBits) (lastSeqno currSeqno : Seqno) : Bool :=
  let diff := (lastSeqno - currSeqno).toInt
  if diff < 0 ∨ diff ≥ tqLocalWindowSize then false
  else
    -- `diff` is an `int16_t`; these two are computed from the `int` difference
    let wordOffset := ((lastSeqno.toNat : ℤ) - currSeqno.toNat).tmod p.wordBitSize
    let wordNum := ((lastSeqno.toNat : ℤ) - currSeqno.toNat).tdiv p.wordBitSize
    wordAt front seqBits wordNum &&& bitMask p wordOffset != 0

def bitMark (seqBits : p.SeqBits) (n : ℤ) : p.SeqBits :=
  if n < 0 ∨ n ≥ tqLocalWindowSize then seqBits
  else
    let wordOffset : ℕ := n.toNat % p.wordBitSize
    let wordNum := n.toNat / p.wordBitSize
    Function.update seqBits wordNum (seqBits wordNum ||| bitMask p wordOffset)

/-- `for (; i>=0; i--) seq_bits[i]= 0;` from `i - 1` on. -/
def clearBelow (seqBits : p.SeqBits) : ℕ → p.SeqBits
  | 0 => seqBits
  | i + 1 => clearBelow (Function.update seqBits i 0) i

/-- The loop of `bit_shift` from word `i` down, and what follows it. -/
def bitShiftWords (front : ℕ → p.Word) (wordNum wordOffset : ℕ) :
    ℕ → p.SeqBits → p.SeqBits
  | 0, seqBits =>
    Function.update seqBits 0 (wordAt front seqBits (0 - wordNum) <<< wordOffset)
  | i + 1, seqBits =>
    if i + 1 > wordNum then
      bitShiftWords front wordNum wordOffset i
        (Function.update seqBits (i + 1)
          ((seqBits (i + 1 - wordNum) <<< wordOffset) +
            (seqBits (i + 1 - wordNum - 1) >>> (p.wordBitSize - wordOffset))))
    else
      clearBelow
        (Function.update seqBits (i + 1)
          (wordAt front seqBits ((i + 1 : ℕ) - wordNum) <<< wordOffset)) (i + 1)

def bitShift (front : ℕ → p.Word) (seqBits : p.SeqBits) (n : ℤ) : p.SeqBits :=
  if n ≤ 0 then seqBits
  else
    bitShiftWords front (n.toNat / p.wordBitSize) (n.toNat % p.wordBitSize) (p.numWords - 1) seqBits

def clearWords (seqBits : p.SeqBits) : p.SeqBits :=
  fun i => if i < p.numWords then 0 else seqBits i

/-- Returns the window and whether the sequence number is considered new. -/
def bitGetPacket (front : ℕ → p.Word) (seqBits : p.SeqBits) (seqNumDiff : ℤ) (setMark : Bool) :
    p.SeqBits × Bool :=
  if seqNumDiff < 0 ∧ seqNumDiff ≥ -tqLocalWindowSize then
    (if setMark then bitMark seqBits (-seqNumDiff) else seqBits, false)
  else if seqNumDiff > tqLocalWindowSize ∨ seqNumDiff < -tqLocalWindowSize then
    let seqBits := clearWords seqBits
    (if setMark then Function.update seqBits 0 1 else seqBits, true)
  else
    let seqBits := bitShift front seqBits seqNumDiff
    (if setMark then bitMark seqBits 0 else seqBits, true)

/-- `while (word) { word &= word-1; hamming++; }`, for at most `fuel` rounds. -/
def hammingLoop {w : ℕ} : ℕ → BitVec w → ℕ → ℕ
  | 0, _, hamming => hamming
  | fuel + 1, word, hamming =>
    if word = 0 then hamming else hammingLoop fuel (word &&& (word - 1)) (hamming + 1)

/-- Each round clears the lowest set bit, so `WORD_BIT_SIZE` rounds empty a word. -/
def bitPacketCount (seqBits : p.SeqBits) : ℕ :=
  (List.range p.numWords).foldl (fun hamming i => hammingLoop p.wordBitSize (seqBits i) hamming) 0

/-! ## Window bits -/

/-- Bit `i` of a window: the packet `i` behind the newest one. -/
def winBit (seqBits : p.SeqBits) (i : ℕ) : Bool :=
  (seqBits (i / p.wordBitSize)).getLsbD (i % p.wordBitSize)

@[simp] theorem winBit_bitInit (i : ℕ) : winBit (bitInit : p.SeqBits) i = false := by
  simp [winBit, bitInit]

theorem getLsbD_intShift {k i : ℕ} (hk : k < 32) :
    (intShift p k).getLsbD i = decide (i = k) := by
  unfold intShift
  rw [if_pos (by omega), Int.toNat_natCast, ← BitVec.twoPow_eq, BitVec.getLsbD_twoPow]
  simp only [hk, decide_true, Bool.true_and]
  exact decide_eq_decide.mpr eq_comm

/-- An offset below the sign bit of an `int`, or any offset of a 32-bit word, selects one bit. -/
theorem getLsbD_bitMask {k i : ℕ} (hk : k < 31 ∨ (p.wordBitSize = 32 ∧ k < 32))
    (hi : i < p.wordBitSize) : (bitMask p k).getLsbD i = decide (i = k) := by
  unfold bitMask
  rw [BitVec.getLsbD_signExtend]
  simp only [hi, decide_true, Bool.true_and]
  split_ifs
  · exact getLsbD_intShift (by omega)
  · rw [BitVec.msb_eq_getLsbD_last, getLsbD_intShift (by omega)]
    exact decide_eq_decide.mpr (by omega)

/-- An offset below 32 selects at least its own bit. -/
theorem getLsbD_bitMask_self {k : ℕ} (hk : k < 32) : (bitMask p k).getLsbD k = true := by
  have hw : k < p.wordBitSize := by rcases p.wordBitSize_eq with h | h <;> omega
  unfold bitMask
  rw [BitVec.getLsbD_signExtend, if_pos hk, getLsbD_intShift hk]
  simp [hw]

theorem winBit_update {seqBits : p.SeqBits} {k i : ℕ} {x : p.Word} :
    winBit (Function.update seqBits k x) i =
      if i / p.wordBitSize = k then x.getLsbD (i % p.wordBitSize) else winBit seqBits i := by
  unfold winBit
  rw [Function.update_apply]
  split_ifs <;> rfl

/-- Where `1<<word_offset` is exact: at most 30 behind, or 32-bit words. -/
def Exact (p : Platform) (n : ℕ) : Prop := p.wordBitSize = 32 ∨ n < 31

theorem Exact.mask {n : ℕ} (h : Exact p n) (hn : n < 64) :
    n % p.wordBitSize < 31 ∨ (p.wordBitSize = 32 ∧ n % p.wordBitSize < 32) := by
  rcases h with h | h
  · rw [h]; omega
  · have := Nat.mod_le n p.wordBitSize
    omega

/-! ### Marking -/

theorem winBit_bitMark {seqBits : p.SeqBits} {n i : ℕ} (hn : n < 64) (hx : Exact p n) :
    winBit (bitMark seqBits n) i = (winBit seqBits i || decide (i = n)) := by
  have hpos := p.wordBitSize_pos
  have hmod := Nat.mod_lt i hpos
  unfold bitMark
  rw [if_neg (by simp [tqLocalWindowSize]; omega), winBit_update]
  simp only [Int.toNat_natCast]
  have hdiv : i = n ↔ i / p.wordBitSize = n / p.wordBitSize ∧
      i % p.wordBitSize = n % p.wordBitSize := by
    constructor
    · rintro rfl; exact ⟨rfl, rfl⟩
    · rintro ⟨hd, hm⟩
      rw [← Nat.div_add_mod i p.wordBitSize, hd, hm, Nat.div_add_mod]
  split_ifs with hword
  · rw [BitVec.getLsbD_or, getLsbD_bitMask (hx.mask hn) hmod, ← hword]
    simp only [winBit, hdiv, hword, true_and]
  · simp [hdiv, hword]

theorem winBit_bitMark_of_winBit {seqBits : p.SeqBits} {i : ℕ} (n : ℤ)
    (h : winBit seqBits i = true) : winBit (bitMark seqBits n) i = true := by
  unfold bitMark
  split_ifs
  · exact h
  · rw [winBit_update]
    split_ifs with hword
    · rw [BitVec.getLsbD_or, ← hword]
      simp [show (seqBits (i / p.wordBitSize)).getLsbD (i % p.wordBitSize) = true from h]
    · exact h

theorem winBit_bitMark_self {seqBits : p.SeqBits} {n : ℕ} (hn : n < 64)
    (h32 : p.wordBitSize = 32 ∨ n < 32) : winBit (bitMark seqBits n) n = true := by
  have hlt : n % p.wordBitSize < 32 := by
    rcases h32 with h | h
    · rw [h]; omega
    · exact lt_of_le_of_lt (Nat.mod_le _ _) h
  unfold bitMark
  rw [if_neg (by simp [tqLocalWindowSize]; omega), winBit_update]
  simp only [Int.toNat_natCast, if_true]
  rw [BitVec.getLsbD_or, getLsbD_bitMask_self hlt, Bool.or_true]

/-! ### Shifting -/

/-- The two halves `bit_shift` adds do not overlap. -/
theorem getLsbD_shiftLeft_add_shiftRight {w : ℕ} (hi lo : BitVec w) {n : ℕ} (hn : n ≤ w) (j : ℕ) :
    ((hi <<< n) + (lo >>> (w - n))).getLsbD j =
      (decide (j < w) && (if n ≤ j then hi.getLsbD (j - n) else lo.getLsbD (w - n + j))) := by
  have hdisj : (hi <<< n) &&& (lo >>> (w - n)) = 0#w := by
    ext k hk
    simp only [BitVec.getElem_and, BitVec.getElem_shiftLeft, BitVec.getElem_zero]
    by_cases hkn : k < n
    · simp [hkn]
    · simp only [BitVec.getElem_ushiftRight]
      rw [BitVec.getLsbD_of_ge lo _ (by omega)]
      simp
  rw [BitVec.add_eq_or_of_and_eq_zero _ _ hdisj, BitVec.getLsbD_or, BitVec.getLsbD_shiftLeft,
    BitVec.getLsbD_ushiftRight]
  by_cases hj : j < w
  · by_cases hjn : n ≤ j
    · rw [BitVec.getLsbD_of_ge lo _ (by omega)]
      simp [hj, hjn]
    · simp [hj, hjn, not_le.mp hjn]
  · rw [BitVec.getLsbD_of_ge lo _ (by omega)]
    simp [hj]

theorem numWords_of_64 (hw : p.wordBitSize = 64) : p.numWords = 0 + 1 := by
  unfold Platform.numWords; rw [hw]; rfl

theorem numWords_of_32 (hw : p.wordBitSize = 32) : p.numWords = 1 + 1 := by
  unfold Platform.numWords; rw [hw]; rfl

theorem winBit_bitShift_64 (hw : p.wordBitSize = 64) (front : ℕ → p.Word) (seqBits : p.SeqBits)
    {n i : ℕ} (h0 : 0 < n) (hn : n < 64) (hi : i < 64) :
    winBit (bitShift front seqBits n) i = (decide (n ≤ i) && winBit seqBits (i - n)) := by
  unfold bitShift
  rw [if_neg (by omega), Int.toNat_natCast, numWords_of_64 hw,
    Nat.add_sub_cancel, Nat.div_eq_of_lt (by omega), Nat.mod_eq_of_lt (by omega)]
  rw [bitShiftWords, winBit_update, if_pos (Nat.div_eq_of_lt (by omega)), Nat.mod_eq_of_lt (by omega)]
  unfold winBit
  rw [Nat.div_eq_of_lt (by omega : i - n < p.wordBitSize),
    Nat.mod_eq_of_lt (by omega : i - n < p.wordBitSize), BitVec.getLsbD_shiftLeft]
  simp [hw, hi, wordAt, ← decide_not]

theorem winBit_bitShift_32 (hw : p.wordBitSize = 32) (front : ℕ → p.Word) (seqBits : p.SeqBits)
    {n i : ℕ} (h0 : 0 < n) (hn : n < 64) (hi : i < 64) :
    winBit (bitShift front seqBits n) i = (decide (n ≤ i) && winBit seqBits (i - n)) := by
  unfold bitShift
  rw [if_neg (by omega), Int.toNat_natCast, numWords_of_32 hw,
    Nat.add_sub_cancel]
  rw [bitShiftWords]
  by_cases h32 : n < 32
  · rw [Nat.div_eq_of_lt (by omega), Nat.mod_eq_of_lt (by omega), if_pos (by omega),
      bitShiftWords, winBit_update, winBit_update]
    unfold winBit
    by_cases hi32 : i < 32
    · rw [if_pos (Nat.div_eq_of_lt (by omega)), Nat.mod_eq_of_lt (by omega),
        Nat.div_eq_of_lt (by omega), Nat.mod_eq_of_lt (by omega), BitVec.getLsbD_shiftLeft]
      simp [hw, hi32, wordAt, ← decide_not]
    · have hd : i / p.wordBitSize = 1 := by rw [hw]; omega
      have hm : i % p.wordBitSize = i - 32 := by rw [hw]; omega
      rw [hd, hm, if_neg (by omega), if_pos rfl, getLsbD_shiftLeft_add_shiftRight _ _ (by omega)]
      by_cases hle : n ≤ i - 32
      · have hd' : (i - n) / p.wordBitSize = 1 := by rw [hw]; omega
        have hm' : (i - n) % p.wordBitSize = i - 32 - n := by rw [hw]; omega
        rw [hd', hm', if_pos hle]
        simp [hw, show i - 32 < 32 by omega, show n ≤ i by omega]
      · have hd' : (i - n) / p.wordBitSize = 0 := by rw [hw]; omega
        have hm' : (i - n) % p.wordBitSize = p.wordBitSize - n + (i - 32) := by rw [hw]; omega
        rw [hd', hm', if_neg hle]
        simp [hw, show i - 32 < 32 by omega, show n ≤ i by omega]
  · have hd : n / p.wordBitSize = 1 := by rw [hw]; omega
    have hm : n % p.wordBitSize = n - 32 := by rw [hw]; omega
    rw [hd, hm, if_neg (by omega), clearBelow, clearBelow, winBit_update, winBit_update]
    unfold winBit
    by_cases hi32 : i < 32
    · rw [if_pos (Nat.div_eq_of_lt (by omega))]
      simp [show ¬ n ≤ i by omega]
    · have hd' : i / p.wordBitSize = 1 := by rw [hw]; omega
      have hm' : i % p.wordBitSize = i - 32 := by rw [hw]; omega
      rw [hd', hm', if_neg (by omega), if_pos rfl, BitVec.getLsbD_shiftLeft,
        Nat.div_eq_of_lt (by omega : i - n < p.wordBitSize),
        Nat.mod_eq_of_lt (by omega : i - n < p.wordBitSize)]
      by_cases hle : n ≤ i
      · rw [show i - 32 - (n - 32) = i - n by omega]
        simp [hw, wordAt, hle, show i - 32 < 32 by omega, show ¬ i - 32 < n - 32 by omega]
      · simp [hle, show i - 32 < n - 32 by omega]

theorem winBit_bitShift (front : ℕ → p.Word) (seqBits : p.SeqBits) {n i : ℕ} (hn : n < 64)
    (hi : i < 64) :
    winBit (bitShift front seqBits n) i = (decide (n ≤ i) && winBit seqBits (i - n)) := by
  by_cases h0 : n = 0
  · subst h0; simp [bitShift]
  · rcases p.wordBitSize_eq with hw | hw
    · exact winBit_bitShift_32 hw front seqBits (by omega) hn hi
    · exact winBit_bitShift_64 hw front seqBits (by omega) hn hi

/-! ### Receiving a packet -/

theorem winBit_clearWords (seqBits : p.SeqBits) {i : ℕ} (hi : i < 64) :
    winBit (clearWords seqBits) i = false := by
  have hlt : i / p.wordBitSize < p.numWords := by
    rw [Nat.div_lt_iff_lt_mul p.wordBitSize_pos, p.numWords_mul]; exact hi
  simp [winBit, clearWords, hlt]

/-- **Restart.** Only the latest packet is left. -/
theorem winBit_bitGetPacket_restart (front : ℕ → p.Word) (seqBits : p.SeqBits) {d : ℤ} (m : Bool)
    {i : ℕ} (hd : 64 < d ∨ d < -64) (hi : i < 64) :
    winBit (bitGetPacket front seqBits d m).1 i = (m && decide (i = 0)) := by
  unfold bitGetPacket
  rw [if_neg (by simp only [tqLocalWindowSize]; omega),
    if_pos (by simp only [tqLocalWindowSize]; omega)]
  cases m with
  | false => simpa using winBit_clearWords seqBits hi
  | true =>
    simp only [if_true, Bool.true_and]
    rw [winBit_update]
    split_ifs with hword
    · have hlt : i < p.wordBitSize := (Nat.div_eq_zero_iff_lt p.wordBitSize_pos).mp hword
      rw [Nat.mod_eq_of_lt hlt]
      show (1#p.wordBitSize).getLsbD i = _
      rw [BitVec.getLsbD_one]
      simp [p.wordBitSize_pos]
    · rw [winBit_clearWords seqBits hi]
      exact (decide_eq_false (by rintro rfl; exact hword (Nat.zero_div _))).symm

/-- **Moving on.** Fewer than 64 packets ahead: the window moves and the packet is its newest. -/
theorem winBit_bitGetPacket_forward (front : ℕ → p.Word) (seqBits : p.SeqBits) {n i : ℕ} (m : Bool)
    (hn : n < 64) (hi : i < 64) :
    winBit (bitGetPacket front seqBits n m).1 i =
      ((m && decide (i = 0)) || (decide (n ≤ i) && winBit seqBits (i - n))) := by
  unfold bitGetPacket
  rw [if_neg (by omega), if_neg (by simp only [tqLocalWindowSize]; omega)]
  cases m with
  | false => simpa using winBit_bitShift front seqBits hn hi
  | true =>
    simp only [if_true, Bool.true_and]
    rw [show (0 : ℤ) = ((0 : ℕ) : ℤ) from rfl, winBit_bitMark (by omega) (.inr (by omega)),
      winBit_bitShift front seqBits hn hi, Bool.or_comm]

/-- **New.** A packet that is not late is the newest one of the window. -/
theorem winBit_bitGetPacket_new (front : ℕ → p.Word) (seqBits : p.SeqBits) {d : ℤ}
    (hd : ¬ (d < 0 ∧ -64 ≤ d)) : winBit (bitGetPacket front seqBits d true).1 0 = true := by
  by_cases hfar : 64 < d ∨ d < -64
  · rw [winBit_bitGetPacket_restart front seqBits true hfar (by omega)]
    rfl
  · unfold bitGetPacket
    rw [if_neg (by simp only [tqLocalWindowSize]; omega),
      if_neg (by simp only [tqLocalWindowSize]; omega)]
    exact winBit_bitMark_self (n := 0) (by omega) (.inr (by omega))

theorem bitGetPacket_late (front : ℕ → p.Word) (seqBits : p.SeqBits) {d : ℤ} (m : Bool)
    (hd : d < 0) (hd' : -64 ≤ d) :
    bitGetPacket front seqBits d m = (if m then bitMark seqBits (-d) else seqBits, false) := by
  unfold bitGetPacket
  rw [if_pos (by simp only [tqLocalWindowSize]; omega)]

/-- **Late.** The packet is marked in place. -/
theorem winBit_bitGetPacket_late (front : ℕ → p.Word) (seqBits : p.SeqBits) {n i : ℕ} (m : Bool)
    (h0 : 0 < n) (hn : n < 64) (hx : Exact p n) :
    winBit (bitGetPacket front seqBits (-n) m).1 i = (winBit seqBits i || (m && decide (i = n))) := by
  rw [bitGetPacket_late front seqBits m (by omega) (by omega)]
  cases m with
  | false => simp
  | true => simpa using winBit_bitMark hn hx

theorem winBit_bitGetPacket_late_mono (front : ℕ → p.Word) {seqBits : p.SeqBits} {d : ℤ} (m : Bool)
    {i : ℕ} (hd : d < 0) (hd' : -64 ≤ d) (h : winBit seqBits i = true) :
    winBit (bitGetPacket front seqBits d m).1 i = true := by
  rw [bitGetPacket_late front seqBits m hd hd']
  cases m with
  | false => exact h
  | true => exact winBit_bitMark_of_winBit _ h

theorem bitGetPacket_snd (front : ℕ → p.Word) (seqBits : p.SeqBits) (d : ℤ) (m : Bool) :
    (bitGetPacket front seqBits d m).2 = decide (¬ (d < 0 ∧ -64 ≤ d)) := by
  by_cases h : d < 0 ∧ -64 ≤ d
  · rw [bitGetPacket_late front seqBits m h.1 h.2]
    simp [h]
  · unfold bitGetPacket
    rw [if_neg (by simp only [tqLocalWindowSize]; omega), decide_eq_true h]
    split_ifs <;> rfl

/-! ### Testing for a packet -/

theorem getBitStatus_of_out {front : ℕ → p.Word} {seqBits : p.SeqBits} {lastSeqno currSeqno : Seqno}
    (h : (lastSeqno - currSeqno).toInt < 0 ∨ 64 ≤ (lastSeqno - currSeqno).toInt) :
    getBitStatus front seqBits lastSeqno currSeqno = false := by
  unfold getBitStatus
  exact if_pos (by simp only [tqLocalWindowSize]; omega)

/-- Where the sequence numbers have not wrapped in between, both differences are the same. -/
theorem getBitStatus_of_in {front : ℕ → p.Word} {seqBits : p.SeqBits} {lastSeqno currSeqno : Seqno}
    {n : ℕ} (h : (lastSeqno - currSeqno).toInt = n) (hn : n < 64)
    (hwrap : currSeqno.toNat ≤ lastSeqno.toNat) :
    getBitStatus front seqBits lastSeqno currSeqno =
      (seqBits (n / p.wordBitSize) &&& bitMask p (n % p.wordBitSize : ℕ) != 0) := by
  have hdiff : (lastSeqno.toNat : ℤ) - currSeqno.toNat = n := by
    rw [BitVec.toInt_sub] at h
    have := lastSeqno.isLt
    have := currSeqno.isLt
    simp only [BitVec.toInt_eq_toNat_bmod, Int.sub_bmod_bmod, Int.bmod_sub_bmod] at h
    simp only [Int.bmod_def] at h
    omega
  unfold getBitStatus
  rw [if_neg (by simp only [tqLocalWindowSize]; omega), hdiff, ← Int.ofNat_tdiv, ← Int.ofNat_tmod]
  rfl

theorem getBitStatus_eq_winBit {front : ℕ → p.Word} {seqBits : p.SeqBits}
    {lastSeqno currSeqno : Seqno} {n : ℕ} (h : (lastSeqno - currSeqno).toInt = n) (hn : n < 64)
    (hwrap : currSeqno.toNat ≤ lastSeqno.toNat) (hx : Exact p n) :
    getBitStatus front seqBits lastSeqno currSeqno = winBit seqBits n := by
  rw [getBitStatus_of_in h hn hwrap, Bool.eq_iff_iff, bne_iff_ne, ne_eq]
  have hlt := Nat.mod_lt n p.wordBitSize_pos
  constructor
  · intro hne
    by_contra hbit
    refine hne (BitVec.eq_of_getLsbD_eq fun i hi => ?_)
    rw [BitVec.getLsbD_and, getLsbD_bitMask (hx.mask hn) hi]
    by_cases hin : i = n % p.wordBitSize
    · subst hin
      simpa [winBit] using hbit
    · simp [hin]
  · intro hbit hzero
    have := congrArg (fun x => BitVec.getLsbD x (n % p.wordBitSize)) hzero
    simp only [BitVec.getLsbD_and, getLsbD_bitMask (hx.mask hn) hlt] at this
    simp [show (seqBits (n / p.wordBitSize)).getLsbD (n % p.wordBitSize) = true from hbit] at this

theorem getBitStatus_of_winBit {front : ℕ → p.Word} {seqBits : p.SeqBits}
    {lastSeqno currSeqno : Seqno} {n : ℕ} (h : (lastSeqno - currSeqno).toInt = n) (hn : n < 64)
    (hwrap : currSeqno.toNat ≤ lastSeqno.toNat) (h32 : p.wordBitSize = 32 ∨ n < 32)
    (hbit : winBit seqBits n = true) : getBitStatus front seqBits lastSeqno currSeqno = true := by
  have hlt : n % p.wordBitSize < 32 := by
    rcases h32 with h | h
    · rw [h]; omega
    · exact lt_of_le_of_lt (Nat.mod_le _ _) h
  rw [getBitStatus_of_in h hn hwrap, bne_iff_ne]
  intro hzero
  have := congrArg (fun x => BitVec.getLsbD x (n % p.wordBitSize)) hzero
  simp only [BitVec.getLsbD_and, getLsbD_bitMask_self hlt] at this
  simp [show (seqBits (n / p.wordBitSize)).getLsbD (n % p.wordBitSize) = true from hbit] at this

/-! ### Counting -/

theorem hammingLoop_le {w : ℕ} (fuel : ℕ) (word : BitVec w) (hamming : ℕ) :
    hammingLoop fuel word hamming ≤ hamming + fuel := by
  induction fuel generalizing word hamming with
  | zero => simp [hammingLoop]
  | succ fuel ih =>
    unfold hammingLoop
    split_ifs
    · omega
    · exact (ih _ _).trans (by omega)

theorem bitPacketCount_le (seqBits : p.SeqBits) : bitPacketCount seqBits ≤ 64 := by
  have key : ∀ (l : List ℕ) (hamming : ℕ),
      l.foldl (fun hamming i => hammingLoop p.wordBitSize (seqBits i) hamming) hamming ≤
        hamming + l.length * p.wordBitSize := by
    intro l
    induction l with
    | nil => simp
    | cons i l ih =>
      intro hamming
      have h := hammingLoop_le p.wordBitSize (seqBits i) hamming
      have hl := ih (hammingLoop p.wordBitSize (seqBits i) hamming)
      rw [List.foldl_cons, List.length_cons, Nat.succ_mul]
      omega
  have h := key (List.range p.numWords) 0
  rw [List.length_range, p.numWords_mul] at h
  unfold bitPacketCount
  omega

/-- `word & (word-1)` clears the lowest bit that is set. -/
theorem exists_getLsbD_and_sub_one {w : ℕ} {word : BitVec w} (h : word ≠ 0) :
    ∃ k < w, word.getLsbD k = true ∧
      ∀ j, (word &&& (word - 1)).getLsbD j = (word.getLsbD j && j != k) := by
  have hpos : word.toNat ≠ 0 := fun hzero => h (BitVec.eq_of_toNat_eq hzero)
  obtain ⟨k, m, ⟨half, rfl⟩, hword⟩ := Nat.exists_eq_two_pow_mul_odd hpos
  have hlt := word.isLt
  have hk : k < w := by
    by_contra hge
    have hle : 2 ^ w ≤ 2 ^ k := Nat.pow_le_pow_right (by omega) (by omega)
    have hmul : 2 ^ k * 1 ≤ 2 ^ k * (2 * half + 1) := Nat.mul_le_mul_left _ (by omega)
    omega
  have hsub : (word - 1).toNat = 2 ^ k * (2 * half) + (2 ^ k - 1) := by
    have hone : (1 : BitVec w).toNat = 1 := by
      rw [BitVec.ofNat_eq_ofNat, BitVec.toNat_ofNat]
      exact Nat.mod_eq_of_lt (Nat.one_lt_two_pow (by omega))
    have hp : 0 < 2 ^ k := Nat.two_pow_pos k
    rw [BitVec.toNat_sub_of_le (by rw [BitVec.le_def, hone]; omega), hone, hword, Nat.mul_add]
    omega
  have hbit : ∀ j, word.getLsbD j = if j < k then false else (2 * half + 1).testBit (j - k) := by
    intro j
    rw [BitVec.getLsbD, hword, ← Nat.add_zero (2 ^ k * _), Nat.testBit_two_pow_mul_add _ (Nat.two_pow_pos k)]
    simp
  have hbit' : ∀ j, (word - 1).getLsbD j = if j < k then true else (2 * half).testBit (j - k) := by
    intro j
    have hp : 0 < 2 ^ k := Nat.two_pow_pos k
    rw [BitVec.getLsbD, hsub, Nat.testBit_two_pow_mul_add _ (by omega)]
    by_cases hj : j < k
    · rw [if_pos hj, if_pos hj, Nat.testBit_two_pow_sub_one, decide_eq_true hj]
    · rw [if_neg hj, if_neg hj]
  refine ⟨k, hk, ?_, fun j => ?_⟩
  · rw [hbit, if_neg (lt_irrefl k), Nat.sub_self]
    simp
  · rw [BitVec.getLsbD_and, hbit, hbit']
    by_cases hj : j < k
    · simp [hj]
    · by_cases hjk : j = k
      · subst hjk
        simp
      · obtain ⟨d, hd⟩ : ∃ d, j - k = d + 1 := ⟨j - k - 1, by omega⟩
        rw [if_neg hj, if_neg hj, hd, Nat.testBit_succ, Nat.testBit_succ]
        have h1 : (2 * half + 1) / 2 = half := by omega
        have h2 : 2 * half / 2 = half := by omega
        rw [h1, h2]
        simp [hjk]

/-- Kernighan's count is the number of bits that are set. -/
theorem hammingLoop_eq {w : ℕ} (fuel : ℕ) (word : BitVec w) (hamming : ℕ)
    (h : (List.range w).countP word.getLsbD ≤ fuel) :
    hammingLoop fuel word hamming = hamming + (List.range w).countP word.getLsbD := by
  induction fuel generalizing word hamming with
  | zero => rw [Nat.le_zero.mp h]; rfl
  | succ fuel ih =>
    unfold hammingLoop
    by_cases hzero : word = 0
    · rw [if_pos hzero, hzero]
      simp
    · rw [if_neg hzero]
      obtain ⟨k, hk, hbit, hclear⟩ := exists_getLsbD_and_sub_one hzero
      have hcount : (List.range w).countP word.getLsbD =
          (List.range w).countP (word &&& (word - 1)).getLsbD + 1 := by
        have hfun : (word &&& (word - 1)).getLsbD = fun j => word.getLsbD j && j != k := funext hclear
        have hmem : k ∈ List.range w := List.mem_range.mpr hk
        rw [hfun, ← List.countP_filter, ← List.nodup_range.erase_eq_filter,
          (List.perm_cons_erase hmem).countP_eq, List.countP_cons_of_pos hbit]
      rw [ih _ _ (by omega), hcount]
      omega

/-- **The packet count** is the number of packets in the window. -/
theorem bitPacketCount_eq (seqBits : p.SeqBits) :
    bitPacketCount seqBits = (List.range 64).countP (winBit seqBits) := by
  have key : ∀ n, (List.range n).foldl
      (fun hamming i => hammingLoop p.wordBitSize (seqBits i) hamming) 0 =
        (List.range (n * p.wordBitSize)).countP (winBit seqBits) := by
    intro n
    induction n with
    | zero => simp
    | succ n ih =>
      have hword : ∀ j < p.wordBitSize,
          winBit seqBits (n * p.wordBitSize + j) = (seqBits n).getLsbD j := by
        intro j hj
        unfold winBit
        rw [Nat.mul_comm n, Nat.mul_add_div p.wordBitSize_pos, Nat.div_eq_of_lt hj, Nat.add_zero,
          Nat.mul_add_mod, Nat.mod_eq_of_lt hj]
      have hcount : (List.range p.wordBitSize).countP (seqBits n).getLsbD ≤ p.wordBitSize :=
        (List.countP_le_length).trans_eq List.length_range
      rw [List.range_succ, List.foldl_append, ih, List.foldl_cons, List.foldl_nil,
        hammingLoop_eq _ _ _ hcount, Nat.succ_mul, List.range_add, List.countP_append,
        List.countP_map]
      congr 1
      refine List.countP_congr fun j hj => ?_
      rw [Function.comp_apply, hword j (List.mem_range.mp hj)]
  unfold bitPacketCount
  rw [key, p.numWords_mul]

end BatmanAdv
