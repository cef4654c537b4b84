import Mathlib

/-!
# Digits of a number

The sum of the decimal digits of a number and its digital root, the single digit that
repeated summing reaches.

* `digitalRoot_eq_of_modEq` — what determines the digital root: of the nine digits `1`, …,
  `9` it is the one congruent to the number modulo `9`.
-/

namespace Xv6.Lib

open List

/-- The sum of the decimal digits. -/
def digitSum (n : ℕ) : ℕ := (Nat.digits 10 n).sum

theorem digitSum_modEq (n : ℕ) : digitSum n ≡ n [MOD 9] :=
  (Nat.modEq_nine_digits_sum n).symm

variable {n : ℕ}

theorem digitSum_lt (h : 10 ≤ n) : digitSum n < n := by
  have hsum : digitSum n = n % 10 + (Nat.digits 10 (n / 10)).sum := by
    rw [digitSum, Nat.digits_def' (by decide) (by omega), sum_cons]
  have hle : (Nat.digits 10 (n / 10)).sum ≤ n / 10 := Nat.digit_sum_le 10 _
  omega

theorem digitSum_pos (h : 0 < n) : 0 < digitSum n := by
  rw [digitSum, Nat.pos_iff_ne_zero, Ne, sum_eq_zero_iff]
  intro hzero
  have hof := Nat.ofDigits_digits 10 n
  rw [eq_replicate_of_mem hzero, Nat.ofDigits_replicate_zero] at hof
  omega

/-- The single digit reached by summing the digits again and again. -/
def digitalRoot (n : ℕ) : ℕ :=
  if 10 ≤ n then digitalRoot (digitSum n) else n
termination_by n
decreasing_by exact digitSum_lt ‹10 ≤ n›

theorem digitalRoot_lt (n : ℕ) : digitalRoot n < 10 := by
  fun_induction digitalRoot n with
  | case1 n _ ih => exact ih
  | case2 n h => exact not_le.1 h

theorem digitalRoot_pos (h : 0 < n) : 0 < digitalRoot n := by
  fun_induction digitalRoot n with
  | case1 n _ ih => exact ih (digitSum_pos h)
  | case2 n _ => exact h

theorem digitalRoot_modEq (n : ℕ) : digitalRoot n ≡ n [MOD 9] := by
  fun_induction digitalRoot n with
  | case1 n _ ih => exact ih.trans (digitSum_modEq n)
  | case2 n _ => rfl

theorem digitalRoot_eq_of_modEq {r : ℕ} (hn : 0 < n) (hr : 0 < r) (hr₉ : r ≤ 9) (h : r ≡ n [MOD 9]) :
    digitalRoot n = r := by
  have hlt := digitalRoot_lt n
  have hpos := digitalRoot_pos hn
  have hmod : digitalRoot n % 9 = r % 9 := (digitalRoot_modEq n).trans h.symm
  omega

theorem digitalRoot_eq (hn : 0 < n) : digitalRoot n = 1 + (n - 1) % 9 := by
  refine digitalRoot_eq_of_modEq hn (by omega) (by omega) ?_
  rw [Nat.ModEq]
  omega

end Xv6.Lib
