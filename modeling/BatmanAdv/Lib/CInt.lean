import Mathlib.Data.Int.Notation
import Mathlib.Data.Nat.Notation

/-!
# Arithmetic of `int`

The operations of a 32-bit `int`, without a value where C leaves them undefined: a result that does not
fit, a division by zero. Where every intermediate value fits, they are those of the integers.
-/

namespace CInt

/-- `x` is a value of an `int`. -/
def Fits (x : ℤ) : Prop := -2147483648 ≤ x ∧ x ≤ 2147483647

instance (x : ℤ) : Decidable (Fits x) := inferInstanceAs (Decidable (_ ∧ _))

def ofInt (x : ℤ) : Option ℤ := if Fits x then some x else none

def sub (x y : ℤ) : Option ℤ := ofInt (x - y)

def mul (x y : ℤ) : Option ℤ := ofInt (x * y)

def div (x y : ℤ) : Option ℤ := if y = 0 then none else ofInt (x.tdiv y)

/-- An `int` stored in a `uint8_t`, without a value where that changes it. -/
def toByte (x : ℤ) : Option (BitVec 8) := if 0 ≤ x ∧ x < 256 then some (BitVec.ofInt 8 x) else none

variable {x y : ℤ}

theorem sub_eq (h : Fits (x - y)) : sub x y = some (x - y) := if_pos h

theorem mul_eq (h : Fits (x * y)) : mul x y = some (x * y) := if_pos h

theorem div_eq (hy : y ≠ 0) (h : Fits (x.tdiv y)) : div x y = some (x.tdiv y) := by
  unfold div
  rw [if_neg hy]
  exact if_pos h

theorem toByte_eq (h0 : 0 ≤ x) (h : x < 256) : toByte x = some (BitVec.ofInt 8 x) := if_pos ⟨h0, h⟩

theorem fits_mul {a b : ℤ} (hx : 0 ≤ x) (hxa : x ≤ a) (hy : 0 ≤ y) (hyb : y ≤ b)
    (hab : a * b ≤ 2147483647) : Fits (x * y) ∧ 0 ≤ x * y ∧ x * y ≤ a * b := by
  have h0 : 0 ≤ x * y := Int.mul_nonneg hx hy
  have hle : x * y ≤ a * b := Int.mul_le_mul hxa hyb hy (Int.le_trans hx hxa)
  exact ⟨⟨by omega, by omega⟩, h0, hle⟩

end CInt
