import Mathlib.Algebra.Order.Ring.Int

/-! The `int` of C: what an operation stores where its value is out of range. -/
namespace PucRio

/-- The value that an `int` keeps of `x`. -/
def wrap32 (x : ℤ) : ℤ := x.bmod (2^32)

theorem wrap32_of_lt {x : ℤ} (h₀ : -2^31 ≤ x) (h : x < 2^31) : wrap32 x = x := by
  rw [wrap32,Int.bmod_def]
  omega

theorem wrap32_natCast {n : ℕ} (h : n < 2^31) : wrap32 n = n := by
  apply wrap32_of_lt <;> omega

/-- The first values that do not fit are stored as negative ones. -/
theorem wrap32_neg {x : ℤ} (h₀ : 2^31 ≤ x) (h : x < 2^32) : wrap32 x < 0 := by
  rw [wrap32,Int.bmod_def]
  omega

theorem wrap32_lt (x : ℤ) : wrap32 x < 2^31 := by
  rw [wrap32,Int.bmod_def]
  omega

/-- An `int` that has wrapped around goes on as it would have without. -/
theorem wrap32_add (x y : ℤ) : wrap32 (wrap32 x+y) = wrap32 (x+y) := Int.bmod_add_bmod

/-- Nor does wrapping around change what a power of two divides. -/
theorem dvd_wrap32_iff {a : ℤ} (ha : a ∣ 2^32) (x : ℤ) : a ∣ wrap32 x ↔ a ∣ x := by
  have hmod : wrap32 x%2^32 = x%2^32 := Int.bmod_emod
  rw [Int.dvd_iff_emod_eq_zero,Int.dvd_iff_emod_eq_zero,← Int.emod_emod_of_dvd (wrap32 x) ha,hmod,
    Int.emod_emod_of_dvd x ha]

end PucRio
