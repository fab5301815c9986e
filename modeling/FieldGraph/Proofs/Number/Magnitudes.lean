import FieldGraph.Number.Decimal
import Mathlib.Algebra.Order.Field.Power
import Mathlib.Tactic.FieldSimp
import Mathlib.Tactic.Linarith
import Mathlib.Tactic.LinearCombination
import Mathlib.Tactic.Positivity
import Mathlib.Tactic.Ring

/-!
# The magnitudes of a binary format

Encodings count the magnitudes in order: the next one is larger by one unit of the last place.  A
magnitude therefore takes the numbers from halfway to the one before it up to halfway to the one
after it.
-/

namespace FieldGraph.Number

/-- A power with an integer exponent as a quotient of natural powers. -/
theorem zpow_eq_div (b : ℚ) (k : ℤ) : b ^ k = b ^ k.toNat / b ^ (-k).toNat := by
  cases k with
  | ofNat n => simp
  | negSucc n =>
      have hn : (-Int.negSucc n).toNat = n + 1 := rfl
      rw [zpow_negSucc, hn]
      simp

namespace BinaryFormat

variable {f : BinaryFormat}

/-- The least significand of the larger exponents. -/
def half (f : BinaryFormat) : ℕ := 2 ^ (f.precision - 1)

theorem half_pos (f : BinaryFormat) : 0 < f.half := Nat.two_pow_pos _

theorem half_mod_two (hf : 2 ≤ f.precision) : f.half % 2 = 0 := by
  obtain ⟨p, hp⟩ := Nat.exists_eq_add_of_le hf
  rw [half, hp, show 2 + p - 1 = p + 1 by omega, Nat.pow_succ, Nat.mul_mod_left]

/-- A magnitude as a number. -/
def value (f : BinaryFormat) (code : ℕ) : ℚ := (f.parts code).1 * 2 ^ (f.parts code).2

/-- One unit in the last place of a magnitude. -/
def unit (f : BinaryFormat) (code : ℕ) : ℚ := 2 ^ (f.parts code).2

/-- Halfway to the next magnitude. -/
def mid (f : BinaryFormat) (code : ℕ) : ℚ := f.value code + f.unit code / 2

theorem unit_pos (f : BinaryFormat) (code : ℕ) : 0 < f.unit code := zpow_pos (by norm_num) _

theorem parts_of_lt {code : ℕ} (h : code < f.half) : f.parts code = (code, f.leastExponent) := by
  rw [half, ← Nat.one_shiftLeft] at h
  simp only [parts, if_pos h]

/-- The encodings of one exponent follow those of the exponent before. -/
theorem parts_mul_add {k r : ℕ} (hr : r < f.half) :
    f.parts (f.half * (k + 1) + r) = (f.half + r, f.leastExponent + k) := by
  have hnot : ¬ f.half * (k + 1) + r < f.half := by
    rw [Nat.mul_succ]
    omega
  have hmod : (f.half * (k + 1) + r) % f.half = r := by
    rw [Nat.mul_add_mod, Nat.mod_eq_of_lt hr]
  have hdiv : (f.half * (k + 1) + r) / f.half = k + 1 := by
    rw [Nat.mul_add_div f.half_pos, Nat.div_eq_of_lt hr, Nat.add_zero]
  simp only [parts, Nat.one_shiftLeft]
  rw [show 2 ^ (f.precision - 1) = f.half from rfl, if_neg hnot, hmod, hdiv]
  push_cast
  rw [show f.leastExponent + ((k : ℤ) + 1) - 1 = f.leastExponent + k by ring]

/-- A significand and an exponent are encoded by adding them up. -/
theorem parts_encode {k n : ℕ} (hn : n < 2 * f.half) (h : k = 0 ∨ f.half ≤ n) :
    f.parts (f.half * k + n) = (n, f.leastExponent + k) := by
  by_cases hlt : n < f.half
  · obtain rfl := h.resolve_right (Nat.not_le.2 hlt)
    rw [Nat.mul_zero, Nat.zero_add, parts_of_lt hlt]
    simp
  · obtain ⟨r, rfl⟩ := Nat.exists_eq_add_of_le (Nat.not_lt.1 hlt)
    rw [← Nat.add_assoc, ← Nat.mul_succ]
    exact parts_mul_add (by omega)

/-- Every encoding is of this form. -/
theorem exists_encode (f : BinaryFormat) (code : ℕ) :
    ∃ k n, code = f.half * k + n ∧ n < 2 * f.half ∧ (k = 0 ∨ f.half ≤ n) := by
  by_cases h : code < f.half
  · exact ⟨0, code, by omega, by omega, .inl rfl⟩
  · have hpos := f.half_pos
    have hdiv : 0 < code / f.half := Nat.div_pos (Nat.not_lt.1 h) hpos
    obtain ⟨k, hk⟩ := Nat.exists_eq_succ_of_ne_zero hdiv.ne'
    have hmod := Nat.mod_lt code hpos
    have hcode := Nat.div_add_mod code f.half
    rw [hk, Nat.mul_succ] at hcode
    exact ⟨k, f.half + code % f.half, by omega, by omega, .inr (Nat.le_add_right _ _)⟩

theorem unit_eq_zpow (f : BinaryFormat) (code : ℕ) : f.unit code = 2 ^ (f.parts code).2 := rfl

theorem leastExponent_le (f : BinaryFormat) (code : ℕ) : f.leastExponent ≤ (f.parts code).2 := by
  obtain ⟨k, n, rfl, hn, h⟩ := f.exists_encode code
  rw [parts_encode hn h]
  omega

theorem value_succ (f : BinaryFormat) (code : ℕ) :
    f.value (code + 1) = f.value code + f.unit code := by
  obtain ⟨k, n, rfl, hn, h⟩ := f.exists_encode code
  rw [value, value, unit, parts_encode hn h]
  by_cases hlt : n + 1 < 2 * f.half
  · rw [Nat.add_assoc, parts_encode hlt (h.imp_right Nat.le_succ_of_le)]
    push_cast
    ring
  · obtain hlast : n + 1 = 2 * f.half := by omega
    have hnext : f.half * k + n + 1 = f.half * (k + 1) + f.half := by
      rw [Nat.mul_succ]
      omega
    have hcast : (n : ℚ) + 1 = 2 * f.half := by exact_mod_cast hlast
    have hpos := f.half_pos
    rw [hnext, parts_encode (by omega) (.inr le_rfl)]
    push_cast
    rw [show f.leastExponent + ((k : ℤ) + 1) = f.leastExponent + k + 1 by ring,
      zpow_add_one₀ (by norm_num)]
    linear_combination -((2 : ℚ) ^ (f.leastExponent + (k : ℤ)) * hcast)

theorem strictMono_value (f : BinaryFormat) : StrictMono f.value :=
  strictMono_nat_of_lt_succ fun code ↦ by
    rw [value_succ]
    exact lt_add_of_pos_right _ (f.unit_pos code)

theorem value_zero (f : BinaryFormat) : f.value 0 = 0 := by
  rw [value, parts_of_lt f.half_pos]
  simp

theorem value_pos {code : ℕ} (h : 0 < code) : 0 < f.value code :=
  f.value_zero ▸ f.strictMono_value h

theorem parts_pos {f : BinaryFormat} {code : ℕ} (h : 0 < f.value code) : 0 < (f.parts code).1 := by
  rw [value] at h
  exact_mod_cast (pos_iff_pos_of_mul_pos h).2 (zpow_pos two_pos _)

theorem value_lt_mid (f : BinaryFormat) (code : ℕ) : f.value code < f.mid code := by
  rw [mid]
  have := f.unit_pos code
  linarith

theorem mid_pos (f : BinaryFormat) (code : ℕ) : 0 < f.mid code := by
  rw [← f.value_zero]
  exact (f.strictMono_value.monotone (Nat.zero_le code)).trans_lt (f.value_lt_mid code)

theorem mid_lt_value_succ (f : BinaryFormat) (code : ℕ) : f.mid code < f.value (code + 1) := by
  rw [value_succ, mid]
  have := f.unit_pos code
  linarith

/-- The place of a number between two magnitudes is unique. -/
theorem eq_of_value_le {c c' : ℕ} {v : ℚ} (hc : f.value c ≤ v) (hv : v < f.value (c + 1))
    (hc' : f.value c' ≤ v) (hv' : v < f.value (c' + 1)) : c = c' := by
  have h := f.strictMono_value.lt_iff_lt.1 (hc.trans_lt hv')
  have h' := f.strictMono_value.lt_iff_lt.1 (hc'.trans_lt hv)
  omega

/-- The unit of a significand that uses all its digits is a fixed part of the magnitude, and the
others have the least unit. -/
theorem unit_le (f : BinaryFormat) (code : ℕ) :
    f.unit code = 2 ^ f.leastExponent ∨ f.unit code * f.half ≤ f.value code := by
  obtain ⟨k, n, rfl, hn, h⟩ := f.exists_encode code
  rw [value, unit, parts_encode hn h]
  rcases h with rfl | h
  · simp
  · refine .inr ?_
    rw [mul_comm]
    exact mul_le_mul_of_nonneg_right (by exact_mod_cast h) (zpow_nonneg (by norm_num) _)

end BinaryFormat

end FieldGraph.Number
