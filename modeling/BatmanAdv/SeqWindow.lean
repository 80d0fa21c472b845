import BatmanAdv.BitArray
import BatmanAdv.Lib.Seq

/-!
# A window and its newest sequence number

`bit_get_packet` moves a window along with the newest sequence number, and `get_bit_status` tells what
the window records. The two agree on every sequence number ahead of the newest one, and on late ones
that are within reach.
-/

namespace BatmanAdv

open Sequence

variable {p : Platform} {seqBits : p.SeqBits} {newest c q : Seqno} {age : ℕ}

/-- Where `bit_mark` and `get_bit_status` are about the same bit, if this sequence number is late: fewer
than 64 behind, fewer than 32 on a 64-bit platform, and not wrapped since. -/
def InReach (p : Platform) (newest c : Seqno) : Prop :=
  (c - newest).toInt < 0 → -64 ≤ (c - newest).toInt →
    -64 < (c - newest).toInt ∧ (p.wordBitSize = 32 ∨ -32 < (c - newest).toInt) ∧
      c.toNat ≤ newest.toNat

instance (p : Platform) (newest c : Seqno) : Decidable (InReach p newest c) :=
  inferInstanceAs (Decidable (_ → _ → _))

/-- How far behind the newest one a sequence number enters the window. -/
def lateness (newest c : Seqno) : ℕ :=
  if (c - newest).toInt < -64 then 0 else (-(c - newest).toInt).toNat

/-- `c` is `age` behind, and recorded as long as it is in the window. -/
def Records (seqBits : p.SeqBits) (newest c : Seqno) (age : ℕ) : Prop :=
  Behind newest c age ∧ (age < 64 → winBit seqBits age = true)

theorem records_received (front : ℕ → p.Word) (seqBits : p.SeqBits) (hreach : InReach p newest c) :
    Records (bitGetPacket front seqBits (c - newest).toInt true).1
      (if (bitGetPacket front seqBits (c - newest).toInt true).2 then c else newest) c
      (lateness newest c) := by
  rw [bitGetPacket_snd]
  unfold lateness
  by_cases hlate : (c - newest).toInt < 0 ∧ -64 ≤ (c - newest).toInt
  · obtain ⟨h64, h32, _⟩ := hreach hlate.1 hlate.2
    rw [decide_eq_false (not_not.mpr hlate), if_neg (not_lt.mpr hlate.2)]
    refine ⟨behind_of_nonpos hlate.1.le, fun hage => ?_⟩
    rw [bitGetPacket_late front seqBits true hlate.1 hlate.2]
    have hnat : -(c - newest).toInt = ((-(c - newest).toInt).toNat : ℤ) := by omega
    rw [if_pos rfl, hnat]
    exact winBit_bitMark_self hage (by omega)
  · have hzero : (if (c - newest).toInt < -64 then 0 else (-(c - newest).toInt).toNat) = 0 := by
      split_ifs <;> omega
    rw [decide_eq_true hlate, hzero]
    exact ⟨.refl c, fun _ => winBit_bitGetPacket_new front seqBits hlate⟩

theorem Records.forward (h : Records seqBits newest c age) (front : ℕ → p.Word) (m : Bool)
    (h0 : 0 ≤ (q - newest).toInt) :
    Records (bitGetPacket front seqBits (q - newest).toInt m).1 q c
      (age + (q - newest).toInt.toNat) := by
  refine ⟨?_, fun hage => ?_⟩
  · rw [Nat.add_comm]
    exact (behind_of_nonneg h0).trans h.1
  · have hnat : (q - newest).toInt = ((q - newest).toInt.toNat : ℤ) := by omega
    rw [hnat, winBit_bitGetPacket_forward front seqBits m (by omega) (by omega)]
    have hold := h.2 (by omega)
    simp only [Int.toNat_natCast, Nat.add_sub_cancel, hold, Nat.le_add_left, decide_true, Bool.and_true,
      Bool.or_true]

theorem Records.late (h : Records seqBits newest c age) (front : ℕ → p.Word) (m : Bool) {d : ℤ}
    (hd : d < 0) (hd' : -64 ≤ d) : Records (bitGetPacket front seqBits d m).1 newest c age :=
  ⟨h.1, fun hage => winBit_bitGetPacket_late_mono front m hd hd' (h.2 hage)⟩

/-- Between sequence numbers that are near and have not gone around, the age is the difference. -/
theorem diff_of_near (h : Behind newest c age) (hcycle : age + (c - newest).toInt.toNat < 2 ^ 16)
    (hnear : -64 ≤ (c - newest).toInt ∧ (c - newest).toInt ≤ 64) : (c - newest).toInt = -(age : ℤ) := by
  have hdiff := h.toInt_sub (by omega)
  rw [hdiff] at hcycle hnear ⊢
  split_ifs at hcycle hnear ⊢
  · rfl
  · omega

theorem InReach.age_lt (hreach : InReach p newest c) (hdiff : (c - newest).toInt = -(age : ℤ))
    (hle : age ≤ 64) : age < 64 := by
  by_cases hzero : age = 0
  · omega
  · have := hreach (by omega) (by omega)
    omega

/-- **What is recorded is found**, if it is in reach. -/
theorem getBitStatus_of_recorded (front : ℕ → p.Word) (h : Behind newest c age)
    (hreach : InReach p newest c) (hdiff : (c - newest).toInt = -(age : ℤ)) (hage : age < 64)
    (hbit : winBit seqBits age = true) : getBitStatus front seqBits newest c = true := by
  have hlast : (newest - c).toInt = (age : ℤ) := h.toInt_ahead (by omega)
  by_cases hzero : age = 0
  · have heq : newest = c := by
      unfold Behind at h
      rw [h, hzero, BitVec.add_zero]
    exact getBitStatus_of_winBit hlast hage (heq ▸ le_rfl) (.inr (by omega)) hbit
  · obtain ⟨_, h32, hwrap⟩ := hreach (by omega) (by omega)
    exact getBitStatus_of_winBit hlast hage hwrap (by omega) hbit

end BatmanAdv
