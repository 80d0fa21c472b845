import BatmanAdv.Reachable

/-!
# The window functions bit by bit

`bit_get_packet` is meant to move a window by any distance, and `bit_mark` and `get_bit_status` to be
about one bit. Both have one place where they are not: a packet exactly `TQ_LOCAL_WINDOW_SIZE` ahead is
not far enough for the window to be cleared and too far for `bit_shift`, which then copies the word in
front of the array; and from offset 31 of a 64-bit word on, `1<<word_offset` is not the mask of that
offset.
-/

namespace BatmanAdv

variable {p : Platform}

/-! ## Accesses to the window

The functions once more, with the accesses that leave the words `0..NUM_WORDS-1` having no value. -/

def wordIn (seqBits : p.SeqBits) (i : ℤ) : Option p.Word :=
  if 0 ≤ i ∧ i < p.numWords then some (seqBits i.toNat) else none

def setWordIn (seqBits : p.SeqBits) (i : ℤ) (word : p.Word) : Option p.SeqBits :=
  if 0 ≤ i ∧ i < p.numWords then some (Function.update seqBits i.toNat word) else none

def bitMarkIn (seqBits : p.SeqBits) (n : ℤ) : Option p.SeqBits :=
  if n < 0 ∨ n ≥ tqLocalWindowSize then some seqBits
  else do
    let wordOffset : ℕ := n.toNat % p.wordBitSize
    let wordNum := n.toNat / p.wordBitSize
    let word ← wordIn seqBits wordNum
    setWordIn seqBits wordNum (word ||| bitMask p wordOffset)

def clearBelowIn (seqBits : p.SeqBits) : ℕ → Option p.SeqBits
  | 0 => some seqBits
  | i + 1 => do clearBelowIn (← setWordIn seqBits i 0) i

def bitShiftWordsIn (wordNum wordOffset : ℕ) : ℕ → p.SeqBits → Option p.SeqBits
  | 0, seqBits => do
    let word ← wordIn seqBits (0 - wordNum)
    setWordIn seqBits 0 (word <<< wordOffset)
  | i + 1, seqBits =>
    if i + 1 > wordNum then do
      let left ← wordIn seqBits ((i + 1 : ℕ) - wordNum)
      let right ← wordIn seqBits ((i + 1 : ℕ) - wordNum - 1)
      let seqBits ← setWordIn seqBits (i + 1 : ℕ)
        ((left <<< wordOffset) + (right >>> (p.wordBitSize - wordOffset)))
      bitShiftWordsIn wordNum wordOffset i seqBits
    else do
      let word ← wordIn seqBits ((i + 1 : ℕ) - wordNum)
      let seqBits ← setWordIn seqBits (i + 1 : ℕ) (word <<< wordOffset)
      clearBelowIn seqBits (i + 1)

def bitShiftIn (seqBits : p.SeqBits) (n : ℤ) : Option p.SeqBits :=
  if n ≤ 0 then some seqBits
  else bitShiftWordsIn (n.toNat / p.wordBitSize) (n.toNat % p.wordBitSize) (p.numWords - 1) seqBits

def clearWordsIn (seqBits : p.SeqBits) : Option p.SeqBits :=
  (List.range p.numWords).foldlM (fun seqBits (i : ℕ) => setWordIn seqBits i 0) seqBits

def bitGetPacketIn (seqBits : p.SeqBits) (seqNumDiff : ℤ) (setMark : Bool) :
    Option (p.SeqBits × Bool) :=
  if seqNumDiff < 0 ∧ seqNumDiff ≥ -tqLocalWindowSize then
    (if setMark then bitMarkIn seqBits (-seqNumDiff) else some seqBits).map (·, false)
  else if seqNumDiff > tqLocalWindowSize ∨ seqNumDiff < -tqLocalWindowSize then do
    let seqBits ← clearWordsIn seqBits
    (if setMark then setWordIn seqBits 0 1 else some seqBits).map (·, true)
  else do
    let seqBits ← bitShiftIn seqBits seqNumDiff
    (if setMark then bitMarkIn seqBits 0 else some seqBits).map (·, true)

/-! ### Accesses that stay within -/

theorem wordIn_eq (seqBits : p.SeqBits) {i : ℕ} (hi : i < p.numWords) :
    wordIn seqBits i = some (seqBits i) := by
  unfold wordIn
  rw [if_pos (by omega), Int.toNat_natCast]

theorem setWordIn_eq (seqBits : p.SeqBits) {i : ℕ} (hi : i < p.numWords) (word : p.Word) :
    setWordIn seqBits i word = some (Function.update seqBits i word) := by
  unfold setWordIn
  rw [if_pos (by omega), Int.toNat_natCast]

theorem numWords_pos (p : Platform) : 0 < p.numWords := by
  have := p.numWords_mul
  by_contra h
  rw [Nat.eq_zero_of_not_pos h, Nat.zero_mul] at this
  omega

theorem div_lt_numWords {n : ℕ} (hn : n < 64) : n / p.wordBitSize < p.numWords := by
  rw [Nat.div_lt_iff_lt_mul p.wordBitSize_pos, p.numWords_mul]
  exact hn

theorem bitMarkIn_eq (seqBits : p.SeqBits) (n : ℤ) : bitMarkIn seqBits n = some (bitMark seqBits n) := by
  unfold bitMarkIn bitMark
  by_cases h : n < 0 ∨ n ≥ tqLocalWindowSize
  · rw [if_pos h, if_pos h]
  · have hlt : n.toNat / p.wordBitSize < p.numWords :=
      div_lt_numWords (by simp only [tqLocalWindowSize] at h; omega)
    rw [if_neg h, if_neg h]
    dsimp only
    rw [wordIn_eq seqBits hlt]
    exact setWordIn_eq seqBits hlt _

theorem clearBelowIn_eq (seqBits : p.SeqBits) {i : ℕ} (hi : i ≤ p.numWords) :
    clearBelowIn seqBits i = some (clearBelow seqBits i) := by
  induction i generalizing seqBits with
  | zero => rfl
  | succ i ih =>
    show (setWordIn seqBits i 0).bind (clearBelowIn · i) = _
    rw [setWordIn_eq seqBits (by omega)]
    exact ih _ (by omega)

/-- `bit_shift` by less than a window stays within it, whatever is in front of the array. -/
theorem bitShiftWordsIn_eq (front : ℕ → p.Word) {wordNum wordOffset i : ℕ} (seqBits : p.SeqBits)
    (hi : i < p.numWords) (hnum : wordNum ≤ i) :
    bitShiftWordsIn wordNum wordOffset i seqBits =
      some (bitShiftWords front wordNum wordOffset i seqBits) := by
  induction i generalizing seqBits with
  | zero =>
    obtain rfl : wordNum = 0 := by omega
    show (wordIn seqBits 0).bind (fun word => setWordIn seqBits 0 (word <<< wordOffset)) = _
    rw [show (0 : ℤ) = ((0 : ℕ) : ℤ) from rfl, wordIn_eq seqBits hi]
    exact setWordIn_eq seqBits hi _
  | succ i ih =>
    unfold bitShiftWordsIn bitShiftWords
    by_cases hgt : i + 1 > wordNum
    · rw [if_pos hgt, if_pos hgt,
        show ((i + 1 : ℕ) : ℤ) - wordNum - 1 = ((i + 1 - wordNum - 1 : ℕ) : ℤ) by omega,
        show ((i + 1 : ℕ) : ℤ) - wordNum = ((i + 1 - wordNum : ℕ) : ℤ) by omega,
        wordIn_eq seqBits (by omega), wordIn_eq seqBits (by omega)]
      show (setWordIn seqBits (i + 1 : ℕ) _).bind _ = _
      rw [setWordIn_eq seqBits hi]
      exact ih _ (by omega) (by omega)
    · obtain rfl : wordNum = i + 1 := by omega
      rw [if_neg hgt, if_neg hgt, Int.sub_self]
      show (wordIn seqBits ((0 : ℕ) : ℤ)).bind _ = _
      rw [wordIn_eq seqBits (by omega)]
      show (setWordIn seqBits (i + 1 : ℕ) _).bind _ = _
      rw [setWordIn_eq seqBits hi]
      exact clearBelowIn_eq _ (by omega)

theorem clearWordsIn_eq (seqBits : p.SeqBits) : clearWordsIn seqBits = some (clearWords seqBits) := by
  have key : ∀ k ≤ p.numWords, (List.range k).foldlM (fun seqBits (i : ℕ) => setWordIn seqBits i 0) seqBits =
      some fun i => if i < k then 0 else seqBits i := by
    intro k
    induction k with
    | zero => intro _; rfl
    | succ k ih =>
      intro hk
      rw [List.range_succ, List.foldlM_append, ih (by omega)]
      show (setWordIn _ (k : ℤ) 0).bind some = _
      rw [Option.bind_fun_some, setWordIn_eq _ (by omega)]
      congr 1
      ext1 i
      rw [Function.update_apply]
      by_cases heq : i = k
      · rw [if_pos heq, if_pos (by omega)]
      · rw [if_neg heq]
        exact if_congr (by omega) rfl rfl
  exact key p.numWords le_rfl

/-- **Within the window.** Unless the packet is a whole window ahead. -/
theorem bitGetPacketIn_eq (front : ℕ → p.Word) (seqBits : p.SeqBits) {d : ℤ} (m : Bool) (hd : d ≠ 64) :
    bitGetPacketIn seqBits d m = some (bitGetPacket front seqBits d m) := by
  unfold bitGetPacketIn bitGetPacket
  by_cases hlate : d < 0 ∧ d ≥ -tqLocalWindowSize
  · rw [if_pos hlate, if_pos hlate]
    cases m with
    | false => rfl
    | true => exact congrArg (Option.map (·, false)) (bitMarkIn_eq seqBits (-d))
  · rw [if_neg hlate, if_neg hlate]
    by_cases hfar : d > tqLocalWindowSize ∨ d < -tqLocalWindowSize
    · rw [if_pos hfar, if_pos hfar, clearWordsIn_eq]
      cases m with
      | false => rfl
      | true => exact congrArg (Option.map (·, true)) (setWordIn_eq _ (numWords_pos p) 1)
    · rw [if_neg hfar, if_neg hfar]
      have hshift : bitShiftIn seqBits d = some (bitShift front seqBits d) := by
        unfold bitShiftIn bitShift
        simp only [tqLocalWindowSize] at hfar hlate
        by_cases h0 : d ≤ 0
        · rw [if_pos h0, if_pos h0]
        · have hlt : d.toNat / p.wordBitSize < p.numWords := div_lt_numWords (by omega)
          rw [if_neg h0, if_neg h0]
          exact bitShiftWordsIn_eq front seqBits (Nat.sub_one_lt_of_lt hlt) (Nat.le_sub_one_of_lt hlt)
      rw [hshift]
      cases m with
      | false => rfl
      | true => exact congrArg (Option.map (·, true)) (bitMarkIn_eq _ 0)

/-! ## Receiving a packet that is not late -/

/-- What `bit_get_packet` is to do with a packet `d` ahead: it is new, only the window is accessed, and
the window moves by `d`. -/
structure MovesWindow (seqBits : p.SeqBits) (d : ℤ) (setMark : Bool) : Prop where
  within (front : ℕ → p.Word) :
    bitGetPacketIn seqBits d setMark = some (bitGetPacket front seqBits d setMark)
  new (front : ℕ → p.Word) : (bitGetPacket front seqBits d setMark).2 = true
  bits (front : ℕ → p.Word) (i : ℕ) (hi : i < tqLocalWindowSize) :
    winBit (bitGetPacket front seqBits d setMark).1 i = true ↔
      (i = 0 ∧ setMark = true) ∨ (d ≤ i ∧ winBit seqBits (i - d.toNat) = true)

/-- A whole window ahead: `bit_shift` begins with the word in front of the array. -/
theorem bitGetPacketIn_whole (seqBits : p.SeqBits) (m : Bool) : bitGetPacketIn seqBits 64 m = none := by
  obtain ⟨k, hk⟩ : ∃ k, p.numWords = k + 1 := Nat.exists_eq_add_one_of_ne_zero (numWords_pos p).ne'
  have hdiv : (64 : ℤ).toNat / p.wordBitSize = k + 1 := by
    rw [← hk]
    exact Nat.div_eq_of_eq_mul_left p.wordBitSize_pos p.numWords_mul.symm
  have hread : wordIn seqBits (k - (k + 1 : ℕ)) = none := if_neg (by omega)
  have hshift : bitShiftIn seqBits 64 = none := by
    unfold bitShiftIn
    rw [if_neg (by decide), hdiv, hk, Nat.add_sub_cancel]
    cases k with
    | zero =>
      unfold bitShiftWordsIn
      rw [show (0 : ℤ) - (0 + 1 : ℕ) = ((0 : ℕ) : ℤ) - (0 + 1 : ℕ) from rfl, hread]
      rfl
    | succ k =>
      unfold bitShiftWordsIn
      rw [if_neg (by omega), hread]
      rfl
  unfold bitGetPacketIn
  rw [if_neg (by decide), if_neg (by decide), hshift]
  rfl

theorem movesWindow_of_ne {seqBits : p.SeqBits} {d : ℤ} {m : Bool} (h0 : 0 ≤ d) (hd : d ≠ 64) :
    MovesWindow seqBits d m where
  within front := bitGetPacketIn_eq front seqBits m hd
  new front := by
    rw [bitGetPacket_snd]
    exact decide_eq_true (by omega)
  bits front i hi := by
    obtain ⟨n, rfl⟩ := Int.eq_ofNat_of_zero_le h0
    rw [Int.toNat_natCast]
    unfold tqLocalWindowSize at hi
    by_cases hfar : n < 64
    · rw [winBit_bitGetPacket_forward front seqBits m hfar hi]
      simp only [Bool.or_eq_true, Bool.and_eq_true, decide_eq_true_eq, Nat.cast_le]
      exact or_congr_left and_comm
    · rw [winBit_bitGetPacket_restart front seqBits m (.inl (by omega)) hi]
      simp only [Bool.and_eq_true, decide_eq_true_eq, Nat.cast_le]
      constructor
      · exact fun h => .inl h.symm
      · rintro (h | ⟨hle, _⟩)
        · exact h.symm
        · omega

/-- **Moving the window.** For a packet that is not late, `bit_get_packet` returns 1, keeps to the
window and moves it by the distance, exactly if the distance is not the size of the window. -/
theorem movesWindow_iff (p : Platform) (seqBits : p.SeqBits) (d : ℤ) (setMark : Bool) (h0 : 0 ≤ d) :
    MovesWindow seqBits d setMark ↔ d ≠ 64 := by
  constructor
  · rintro h rfl
    have hwithin := h.within fun _ => 0
    rw [bitGetPacketIn_whole] at hwithin
    cases hwithin
  · exact movesWindow_of_ne h0

/-- Half a window ahead, on either platform. -/
theorem movesWindow_half :
    MovesWindow (fun _ => 5 : Net.p32.SeqBits) 32 true ∧
      MovesWindow (fun _ => 5 : Net.p64.SeqBits) 32 true :=
  ⟨(movesWindow_iff _ _ 32 true (by decide)).mpr (by decide),
    (movesWindow_iff _ _ 32 true (by decide)).mpr (by decide)⟩

/-- A whole window ahead, nothing of the window should be left; the word in front of it is. -/
theorem not_movesWindow_whole : ¬ MovesWindow (bitInit : Net.p64.SeqBits) 64 false := by
  intro h
  have hbit := (h.bits (fun _ => 1) 0 (by decide)).mp (by decide)
  simp at hbit

/-! ## One bit of the window -/

/-- The platform with another value for the shifts that C leaves undefined. -/
abbrev Platform.withOverShift (p : Platform) (overShift : ℤ → BitVec 32) : Platform :=
  { p with overShift := overShift }

/-- `bit_mark` and `get_bit_status` are about exactly the bit `n` behind `lastSeqno`. -/
structure MarksBit (seqBits : p.SeqBits) (n : ℕ) (lastSeqno : Seqno) : Prop where
  mark (i : ℕ) : winBit (bitMark seqBits n) i = (winBit seqBits i || decide (i = n))
  status (front : ℕ → p.Word) :
    getBitStatus front seqBits lastSeqno (lastSeqno - BitVec.ofNat 16 n) = winBit seqBits n

/-- The difference `get_bit_status` takes, for a position at most the newest sequence number. -/
theorem toInt_sub_ofNat {n : ℕ} {lastSeqno : Seqno} (hn : n < 64) (hlast : n ≤ lastSeqno.toNat) :
    (lastSeqno - (lastSeqno - BitVec.ofNat 16 n)).toInt = n ∧
      (lastSeqno - BitVec.ofNat 16 n).toNat ≤ lastSeqno.toNat := by
  have hnat : (BitVec.ofNat 16 n).toNat = n := by
    rw [BitVec.toNat_ofNat]
    exact Nat.mod_eq_of_lt (by omega)
  constructor
  · have hsub : lastSeqno - (lastSeqno - BitVec.ofNat 16 n) = BitVec.ofNat 16 n := by bv_omega
    rw [hsub, BitVec.toInt_eq_toNat_of_lt (by omega), hnat]
  · rw [BitVec.toNat_sub_of_le (by rw [BitVec.le_def, hnat]; exact hlast)]
    exact Nat.sub_le _ _

theorem getBitStatus_sub (front : ℕ → p.Word) (seqBits : p.SeqBits) {n : ℕ} {lastSeqno : Seqno}
    (hn : n < 64) (hlast : n ≤ lastSeqno.toNat) :
    getBitStatus front seqBits lastSeqno (lastSeqno - BitVec.ofNat 16 n) =
      (seqBits (n / p.wordBitSize) &&& bitMask p (n % p.wordBitSize : ℕ) != 0) :=
  getBitStatus_of_in (toInt_sub_ofNat hn hlast).1 hn (toInt_sub_ofNat hn hlast).2

theorem MarksBit.of_exact {seqBits : p.SeqBits} {n : ℕ} {lastSeqno : Seqno} (hn : n < 64)
    (hlast : n ≤ lastSeqno.toNat) (hx : Exact p n) : MarksBit seqBits n lastSeqno where
  mark _ := winBit_bitMark hn hx
  status _ := getBitStatus_eq_winBit (toInt_sub_ofNat hn hlast).1 hn (toInt_sub_ofNat hn hlast).2 hx

theorem and_bne_zero_iff {w : ℕ} (x y : BitVec w) :
    (x &&& y != 0) = true ↔ ∃ i < w, x.getLsbD i = true ∧ y.getLsbD i = true := by
  rw [bne_iff_ne, ne_eq]
  constructor
  · intro hne
    by_contra hnone
    refine hne (BitVec.eq_of_getLsbD_eq fun i hi => ?_)
    rw [BitVec.getLsbD_and]
    cases hx : x.getLsbD i with
    | false => simp
    | true =>
      cases hy : y.getLsbD i with
      | false => simp
      | true => exact absurd ⟨i, hi, hx, hy⟩ hnone
  · rintro ⟨i, _, hx, hy⟩ hzero
    have hbit := congrArg (BitVec.getLsbD · i) hzero
    simp [hx, hy] at hbit

/-- The mask of the sign bit of an `int`, as a 64-bit word. -/
theorem getLsbD_bitMask_sign (hw : p.wordBitSize = 64) {i : ℕ} (hi : i < 64) :
    (bitMask p 31).getLsbD i = decide (31 ≤ i) := by
  unfold bitMask
  rw [BitVec.getLsbD_signExtend, BitVec.msb_eq_getLsbD_last, hw,
    show (31 : ℤ) = ((31 : ℕ) : ℤ) from rfl, getLsbD_intShift (by omega), getLsbD_intShift (by omega),
    decide_eq_true hi, Bool.true_and]
  split_ifs with h32
  · exact decide_eq_decide.mpr (by omega)
  · exact (decide_eq_true (by omega)).trans (decide_eq_true (by omega)).symm

/-- **The sign bit.** `bit_mark` sets everything older as well, and `get_bit_status` tests for anything
from there on. -/
theorem marksBit_sign_iff (hw : p.wordBitSize = 64) (seqBits : p.SeqBits) {lastSeqno : Seqno}
    (hlast : 31 ≤ lastSeqno.toNat) :
    MarksBit seqBits 31 lastSeqno ↔ ∀ i, 31 ≤ i → i < 64 → winBit seqBits i = true := by
  have hdiv : ∀ i < 64, i / p.wordBitSize = 0 := fun i hi => Nat.div_eq_of_lt (by omega)
  have hmod : ∀ i < 64, i % p.wordBitSize = i := fun i hi => Nat.mod_eq_of_lt (by omega)
  have hmark : ∀ i, winBit (bitMark seqBits (31 : ℕ)) i =
      (winBit seqBits i || decide (31 ≤ i ∧ i < 64)) := by
    intro i
    unfold bitMark
    rw [if_neg (by decide), winBit_update, Int.toNat_natCast, hdiv 31 (by decide), hmod 31 (by decide)]
    by_cases hi : i < 64
    · rw [hdiv i hi, hmod i hi, if_pos rfl, BitVec.getLsbD_or,
        show ((31 : ℕ) : ℤ) = 31 from rfl, getLsbD_bitMask_sign hw hi]
      unfold winBit
      rw [hdiv i hi, hmod i hi]
      simp [hi]
    · have hword : i / p.wordBitSize ≠ 0 := fun h =>
        absurd ((Nat.div_eq_zero_iff_lt p.wordBitSize_pos).mp h) (by omega)
      rw [if_neg hword, decide_eq_false (by omega), Bool.or_false]
  have hstatus : ∀ front, getBitStatus front seqBits lastSeqno (lastSeqno - BitVec.ofNat 16 31) =
      true ↔ ∃ i, 31 ≤ i ∧ i < 64 ∧ winBit seqBits i = true := by
    intro front
    rw [getBitStatus_sub front seqBits (by decide) hlast, hdiv 31 (by decide), hmod 31 (by decide),
      and_bne_zero_iff]
    constructor
    · rintro ⟨i, hi, hbit, hmask⟩
      rw [hw] at hi
      rw [show ((31 : ℕ) : ℤ) = 31 from rfl, getLsbD_bitMask_sign hw hi, decide_eq_true_iff] at hmask
      refine ⟨i, hmask, hi, ?_⟩
      unfold winBit
      rwa [hdiv i hi, hmod i hi]
    · rintro ⟨i, hle, hi, hbit⟩
      unfold winBit at hbit
      rw [hdiv i hi, hmod i hi] at hbit
      exact ⟨i, by omega, hbit, (getLsbD_bitMask_sign hw hi).trans (decide_eq_true hle)⟩
  constructor
  · intro h i hle hi
    have holder : ∀ i, 32 ≤ i → i < 64 → winBit seqBits i = true := by
      intro i hle hi
      have hbit := h.mark i
      rw [hmark i, decide_eq_true ⟨by omega, hi⟩, decide_eq_false (by omega)] at hbit
      simpa using hbit.symm
    by_cases heq : i = 31
    · subst heq
      rw [← h.status fun _ => 0]
      exact (hstatus _).mpr ⟨32, by decide, by decide, holder 32 le_rfl (by decide)⟩
    · exact holder i (by omega) hi
  · intro hall
    refine ⟨fun i => ?_, fun front => ?_⟩
    · rw [hmark i]
      by_cases hi : 31 ≤ i ∧ i < 64
      · rw [hall i hi.1 hi.2]
        rfl
      · rw [decide_eq_false hi, decide_eq_false (by omega)]
    · rw [hall 31 le_rfl (by decide), hstatus]
      exact ⟨31, le_rfl, by decide, hall 31 le_rfl (by decide)⟩

/-- A mask without bits marks nothing and finds nothing. -/
theorem not_marksBit_of_mask {seqBits : p.SeqBits} {n : ℕ} {lastSeqno : Seqno} (hn : n < 64)
    (hlast : n ≤ lastSeqno.toNat)
    (hmask : ∀ i, (bitMask p (n % p.wordBitSize : ℕ)).getLsbD i = false) :
    ¬ MarksBit seqBits n lastSeqno := by
  intro h
  have hmarked : winBit (bitMark seqBits n) n = winBit seqBits n := by
    unfold bitMark
    rw [if_neg (by simp only [tqLocalWindowSize]; omega), winBit_update]
    simp only [Int.toNat_natCast, if_true]
    rw [BitVec.getLsbD_or, hmask, Bool.or_false]
    rfl
  have hbit : winBit seqBits n = true := by
    rw [← hmarked, h.mark n, decide_eq_true rfl, Bool.or_true]
  have hfound := h.status fun _ => 0
  rw [hbit, getBitStatus_sub _ _ hn hlast, and_bne_zero_iff] at hfound
  obtain ⟨i, _, _, hset⟩ := hfound
  rw [hmask] at hset
  cases hset

/-- **One bit.** Whatever the compiler makes of the undefined shifts, `bit_mark` and `get_bit_status`
are about the bit `n` behind `lastSeqno` alone exactly if words have 32 bits, or `n` is below the sign
bit of an `int`, or it is the sign bit and everything from there on is set anyway. -/
theorem marksBit_iff (p : Platform) (seqBits : p.SeqBits) (n : ℕ) (lastSeqno : Seqno) (hn : n < 64)
    (hlast : n ≤ lastSeqno.toNat) :
    (∀ overShift, MarksBit (p := p.withOverShift overShift) seqBits n lastSeqno) ↔
      p.wordBitSize = 32 ∨ n < 31 ∨
        (n = 31 ∧ ∀ i, 31 ≤ i → i < 64 → winBit seqBits i = true) := by
  constructor
  · intro h
    rcases p.wordBitSize_eq with hw | hw
    · exact .inl hw
    · rcases lt_trichotomy n 31 with hlt | rfl | hgt
      · exact .inr (.inl hlt)
      · exact .inr (.inr ⟨rfl, (marksBit_sign_iff hw seqBits hlast).mp (h p.overShift)⟩)
      · -- a shift that gives 0
        refine absurd (h fun _ => 0) (not_marksBit_of_mask hn hlast fun i => ?_)
        have hmod : n % p.wordBitSize = n := Nat.mod_eq_of_lt (by omega)
        unfold bitMask intShift
        rw [hmod, if_neg (by omega), BitVec.getLsbD_signExtend]
        simp
  · rintro (hw | hlt | ⟨rfl, hall⟩) overShift
    · exact .of_exact hn hlast (.inl hw)
    · exact .of_exact hn hlast (.inr hlt)
    · by_cases hw : p.wordBitSize = 32
      · exact .of_exact hn hlast (.inl hw)
      · have hw : p.wordBitSize = 64 := p.wordBitSize_eq.resolve_left hw
        exact (marksBit_sign_iff (p := p.withOverShift overShift) hw seqBits hlast).mpr hall

/-- The oldest bit below the sign bit, and the oldest bit of a window of 32-bit words. -/
theorem marksBit_low :
    (∀ overShift, MarksBit (p := Net.p64.withOverShift overShift) bitInit 30 100) ∧
      ∀ overShift, MarksBit (p := Net.p32.withOverShift overShift) bitInit 63 100 :=
  ⟨(marksBit_iff Net.p64 bitInit 30 100 (by decide) (by decide)).mpr (.inr (.inl (by decide))),
    (marksBit_iff Net.p32 bitInit 63 100 (by decide) (by decide)).mpr (.inl rfl)⟩

/-- 31 behind, on a 64-bit platform: the packet 40 behind is marked as well. -/
theorem not_marksBit_sign : ¬ MarksBit (bitInit : Net.p64.SeqBits) 31 100 := by
  intro h
  have hbit := h.mark 40
  revert hbit
  decide

end BatmanAdv
