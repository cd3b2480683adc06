import Mathlib.Data.Int.Log
import Mathlib.Data.Rat.Floor

/-!
# The number that a float64 keeps

A float64 has 53 significant bits and no bit below `2 ^ (-1074)`. `float64` rounds an exact
number to the nearest of these, ties to even, and has no result from `2 ^ 1024` on. The sign
of zero is not kept apart.
-/
namespace Skit.Lib

def roundHalfEven (x : ℚ) : ℤ :=
  let below := x - ⌊x⌋
  if below < 1 / 2 ∨ below = 1 / 2 ∧ ⌊x⌋ % 2 = 0 then ⌊x⌋ else ⌊x⌋ + 1

/-- The weight of the last bit of a number. -/
def ulp (q : ℚ) : ℚ := 2 ^ max (Int.log 2 |q| - 52) (-1074)

def float64 (q : ℚ) : Option ℚ :=
  let r := roundHalfEven (q / ulp q) * ulp q
  if |r| < 2 ^ 1024 then some r else none

@[simp] theorem roundHalfEven_intCast (n : ℤ) : roundHalfEven n = n := by
  simp [roundHalfEven]

variable {n : ℤ}

/-- A multiple of its last bit is kept as it is. -/
theorem float64_of_multiple {q : ℚ} (h : q = n * ulp q) (hq : |q| < 2 ^ 1024) :
    float64 q = some q := by
  have hpos : ulp q ≠ 0 := zpow_ne_zero _ two_ne_zero
  have hdiv : q / ulp q = n := by
    rw [div_eq_iff hpos]
    exact h
  have hr : (roundHalfEven (q / ulp q) : ℚ) * ulp q = q := by
    rw [hdiv, roundHalfEven_intCast]
    exact h.symm
  simp only [float64, hr]
  exact if_pos hq

theorem ulp_of_lt (h : |n| < 2 ^ 53) : ∃ k : ℕ, ulp n = 2 ^ (-(k : ℤ)) := by
  have hlog : Int.log 2 |(n : ℚ)| ≤ 52 := by
    by_cases hn : n = 0
    · simp [hn]
    · have hpos : 0 < |(n : ℚ)| := by simpa using hn
      have hlt : |(n : ℚ)| < ((2 : ℕ) : ℚ) ^ (53 : ℤ) := by exact_mod_cast h
      have := (Int.lt_zpow_iff_log_lt Nat.one_lt_two hpos).mp hlt
      omega
  refine ⟨(-max (Int.log 2 |(n : ℚ)| - 52) (-1074)).toNat, ?_⟩
  rw [ulp, Int.toNat_of_nonneg (by omega), neg_neg]

/-- An integer of up to 53 bits is kept as it is. -/
theorem float64_intCast (h : |n| < 2 ^ 53) : float64 n = some (n : ℚ) := by
  obtain ⟨k, hk⟩ := ulp_of_lt h
  refine float64_of_multiple (n := n * 2 ^ k) ?_ ?_
  · rw [hk, zpow_neg, zpow_natCast]
    push_cast
    rw [mul_assoc, mul_inv_cancel₀ (by positivity), mul_one]
  · have hlt : |(n : ℚ)| < 2 ^ 53 := by exact_mod_cast h
    exact hlt.trans (pow_lt_pow_right₀ one_lt_two (by decide))
end Skit.Lib
