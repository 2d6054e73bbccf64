import Mathlib

/-!
# Machine integers

Fixed-width integers of C as integers with an explicit wrap. `toInt32` is the
value an expression takes when it is converted to `int`, `toUInt32` and
`toUInt64` the same for the unsigned types.
-/

namespace MachineInt

/-- Conversion to a 32-bit two's complement `int`. -/
def toInt32 (x : Int) : Int := Int.bmod x (2 ^ 32)

/-- Conversion to `uint32_t`. -/
def toUInt32 (x : Int) : Nat := (x % 2 ^ 32).toNat

/-- Conversion to `uint64_t`. -/
def toUInt64 (x : Int) : Nat := (x % 2 ^ 64).toNat

theorem toInt32_eq {x : Int} (h1 : -2 ^ 31 ≤ x) (h2 : x < 2 ^ 31) : toInt32 x = x := by
  simp only [toInt32, Int.bmod]
  omega

/-- The only value of the `int` range that differs from `x` by a multiple of
`2 ^ 32`. -/
theorem toInt32_unique {x y : Int} (h1 : -2 ^ 31 ≤ y) (h2 : y < 2 ^ 31)
    (hd : ∃ k : Int, x = y + k * 2 ^ 32) : toInt32 x = y := by
  obtain ⟨k, rfl⟩ := hd
  simp only [toInt32, Int.bmod]
  omega

theorem toInt32_bounds (x : Int) : -2 ^ 31 ≤ toInt32 x ∧ toInt32 x < 2 ^ 31 := by
  simp only [toInt32, Int.bmod]
  omega

theorem toUInt64_natCast {n : Nat} (h : n < 2 ^ 64) : toUInt64 n = n := by
  simp only [toUInt64]
  omega

/-- Converting to `int` takes off a multiple of `2 ^ 32`. -/
theorem toInt32_diff (x : Int) : ∃ k : Int, toInt32 x = x - k * 2 ^ 32 := by
  refine ⟨(x - toInt32 x) / 2 ^ 32, ?_⟩
  simp only [toInt32, Int.bmod]
  omega

theorem toUInt32_toInt32 (x : Int) : toUInt32 (toInt32 x) = toUInt32 x := by
  obtain ⟨k, hk⟩ := toInt32_diff x
  rw [hk]
  simp only [toUInt32]
  omega

end MachineInt
