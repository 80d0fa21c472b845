import Mathlib.Algebra.Group.Int.Defs
import Mathlib.Algebra.Group.Nat.Defs
import Mathlib.Data.Int.Init
import Mathlib.Tactic.SplitIfs

/-!
# Wrapping sequence numbers

Sequence numbers of `w` bits that are compared by their signed difference. `Behind newest c age` says
how far `newest` has moved on since it was `c`; `age` counts every step, so that it tells a number from
the same number one time around later.
-/

namespace Sequence

variable {w : ℕ} {newest next c : BitVec w} {age : ℕ}

/-- `newest` is `age` steps ahead of `c`. -/
def Behind (newest c : BitVec w) (age : ℕ) : Prop := newest = c + BitVec.ofNat w age

theorem Behind.refl (c : BitVec w) : Behind c c 0 := by
  unfold Behind
  simp

theorem Behind.trans {b : BitVec w} {n : ℕ} (h : Behind newest c age) (h' : Behind c b n) :
    Behind newest b (age + n) := by
  unfold Behind at *
  rw [h, h', BitVec.add_assoc, ← BitVec.ofNat_add, Nat.add_comm]

theorem behind_iff : Behind newest c age ↔ c = newest - BitVec.ofNat w age := by
  unfold Behind
  constructor
  · intro h
    rw [h, BitVec.add_sub_cancel]
  · intro h
    rw [h, BitVec.sub_add_cancel]

theorem Behind.unique {n : ℕ} (h : Behind newest c age) (h' : Behind newest c n) (hlt : age < 2 ^ w)
    (hlt' : n < 2 ^ w) : age = n := by
  have heq : BitVec.ofNat w age = BitVec.ofNat w n :=
    BitVec.add_right_inj c |>.mp (h.symm.trans h')
  have hnat := congrArg BitVec.toNat heq
  rwa [BitVec.toNat_ofNat, BitVec.toNat_ofNat, Nat.mod_eq_of_lt hlt, Nat.mod_eq_of_lt hlt'] at hnat

theorem behind_of_nonneg (h : 0 ≤ (next - newest).toInt) :
    Behind next newest (next - newest).toInt.toNat := by
  unfold Behind
  have hofInt : BitVec.ofNat w (next - newest).toInt.toNat = next - newest := by
    rw [← BitVec.ofInt_natCast, Int.toNat_of_nonneg h, BitVec.ofInt_toInt]
  rw [hofInt, BitVec.add_comm, BitVec.sub_add_cancel]

theorem behind_of_nonpos (h : (c - newest).toInt ≤ 0) :
    Behind newest c (-(c - newest).toInt).toNat := by
  unfold Behind
  have hofInt : BitVec.ofNat w (-(c - newest).toInt).toNat = newest - c := by
    rw [← BitVec.ofInt_natCast, Int.toNat_of_nonneg (by omega), BitVec.ofInt_neg, BitVec.ofInt_toInt,
      BitVec.neg_sub, BitVec.add_comm, ← BitVec.sub_eq_add_neg]
  rw [hofInt, BitVec.add_comm, BitVec.sub_add_cancel]

/-- **The signed difference** of a number less than one time around behind. -/
theorem Behind.toInt_sub (h : Behind newest c age) (hlt : age < 2 ^ w) :
    (c - newest).toInt = if 2 * age ≤ 2 ^ w then -(age : ℤ) else 2 ^ w - (age : ℤ) := by
  have hdiff : c - newest = BitVec.ofInt w (-(age : ℤ)) := by
    rw [h, BitVec.ofInt_neg, BitVec.ofInt_natCast]
    grind
  have hcast : ((2 ^ w : ℕ) : ℤ) = 2 ^ w := by push_cast; rfl
  have heven : 2 ^ w = 1 ∨ 2 ^ w % 2 = 0 := by
    cases w with
    | zero => exact .inl rfl
    | succ w => exact .inr (by omega)
  rw [hdiff, BitVec.toInt_ofInt, Int.bmod_def, ← hcast]
  generalize 2 ^ w = m at hlt heven
  by_cases h0 : age = 0
  · subst h0
    have hmod : -((0 : ℕ) : ℤ) % m = 0 := by simp
    rw [hmod]
    split_ifs <;> omega
  · have hmod : -(age : ℤ) % m = m - age := by
      rw [← Int.add_emod_right, Int.emod_eq_of_lt (by omega) (by omega)]
      omega
    rw [hmod]
    split_ifs <;> omega

/-- The difference the other way round, less than half a time around. -/
theorem Behind.toInt_ahead (h : Behind newest c age) (hlt : 2 * age < 2 ^ w) :
    (newest - c).toInt = age := by
  have hdiff : newest - c = BitVec.ofNat w age := by
    rw [h]
    grind
  rw [hdiff, BitVec.toInt_ofNat']
  generalize 2 ^ w = m at hlt
  exact Int.bmod_eq_of_le (by omega) (by omega)

end Sequence
