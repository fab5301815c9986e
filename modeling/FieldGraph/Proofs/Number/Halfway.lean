import FieldGraph.Proofs.Number.Clearance
import FieldGraph.Proofs.Number.Shortest

/-!
# Decimals close to a halfway point

A decimal that is chosen for a magnitude is either the halfway point to a neighbour of the magnitude or
well away from it, with one exception: of all magnitudes of single precision only one has such a
decimal, `7.038531e-26`.
-/

namespace FieldGraph.Number

/-! ## Multiples of decimal steps -/

/-- A decimal close to the halfway point after `m · 2 ^ q`, of a grid that is not much finer than the
unit there. -/
structure Near (m : ℕ) (q : ℤ) (d : Decimal) : Prop where
  significand_lt : m < 2 ^ 24
  exponent_ge : -149 ≤ q
  exponent_le : q ≤ 104
  digits_pos : 0 < d.digits
  ne : d.value ≠ (2 * m + 1 : ℕ) * 2 ^ (q - 1)
  close : margin d.exponent * |d.value - (2 * m + 1 : ℕ) * 2 ^ (q - 1)| ≤ 2 ^ (q - 1)
  coarse : (2 ^ 27 - 1) * 2 ^ (q - 1) ≤ 2 ^ 26 * (10 : ℚ) ^ d.exponent ∨
    (m = 2 ^ 23 ∧ (3 * 2 ^ 26 - 1) * 2 ^ (q - 1) ≤ 2 ^ 27 * (10 : ℚ) ^ d.exponent)

theorem le_margin (e : ℤ) : 2 ^ 27 ≤ margin e := by
  rw [margin]
  split <;> norm_num

namespace Near

variable {m : ℕ} {q : ℤ} {d : Decimal}

/-- The distance from the halfway point, over one denominator. -/
theorem sub_mul :
    (d.value - (2 * m + 1 : ℕ) * 2 ^ (q - 1)) * stepDenominator q d.exponent =
      ((d.digits : ℚ) * stepNumerator q d.exponent - (2 * m + 1 : ℕ) * stepDenominator q d.exponent) *
        2 ^ (q - 1) := by
  rw [Decimal.value]
  linear_combination -(d.digits * step_mul q d.exponent)

/-- A decimal is a halfway point if the two agree over one denominator. -/
theorem value_eq_iff : d.value = (2 * m + 1 : ℕ) * 2 ^ (q - 1) ↔
    d.digits * stepNumerator q d.exponent = (2 * m + 1) * stepDenominator q d.exponent := by
  have hunit : (2 : ℚ) ^ (q - 1) ≠ 0 := zpow_ne_zero _ two_ne_zero
  have hden : (stepDenominator q d.exponent : ℚ) ≠ 0 := by
    exact_mod_cast (stepDenominator_pos _ _).ne'
  rw [← sub_eq_zero, ← mul_eq_zero_iff_right hden, sub_mul, mul_eq_zero_iff_right hunit,
    sub_eq_zero]
  exact_mod_cast Iff.rfl

/-- A bound on the decimal step, over one denominator. -/
theorem le_mul_of_le {a b : ℕ} (hab : (b : ℚ) * 2 ^ (q - 1) ≤ a * 10 ^ d.exponent) :
    stepDenominator q d.exponent * b ≤ stepNumerator q d.exponent * a := by
  have hunit : (0 : ℚ) < 2 ^ (q - 1) := zpow_pos two_pos _
  have hle : (stepDenominator q d.exponent * b : ℚ) ≤ stepNumerator q d.exponent * a := by
    refine le_of_mul_le_mul_right ?_ hunit
    calc (stepDenominator q d.exponent * b : ℚ) * 2 ^ (q - 1)
        = b * 2 ^ (q - 1) * stepDenominator q d.exponent := by ring
      _ ≤ a * 10 ^ d.exponent * stepDenominator q d.exponent := by gcongr
      _ = stepNumerator q d.exponent * a * 2 ^ (q - 1) := by
          linear_combination -(a * step_mul q d.exponent)
  exact_mod_cast hle

variable (h : Near m q d)
include h

theorem close_steps :
    margin d.exponent * |(d.digits : ℤ) * stepNumerator q d.exponent -
        (2 * m + 1 : ℕ) * stepDenominator q d.exponent| ≤ stepDenominator q d.exponent := by
  have hunit : (0 : ℚ) < 2 ^ (q - 1) := zpow_pos two_pos _
  have hden : (0 : ℚ) < stepDenominator q d.exponent := by exact_mod_cast stepDenominator_pos _ _
  have habs := congrArg (|·|) (sub_mul (m := m) (q := q) (d := d))
  simp only [abs_mul, abs_of_pos hunit, abs_of_pos hden] at habs
  have hclose := mul_le_mul_of_nonneg_right h.close hden.le
  rw [mul_assoc, habs] at hclose
  have hle : margin d.exponent * |(d.digits : ℚ) * stepNumerator q d.exponent -
      (2 * m + 1 : ℕ) * stepDenominator q d.exponent| ≤ stepDenominator q d.exponent := by
    refine le_of_mul_le_mul_right ?_ hunit
    linarith
  exact_mod_cast hle

/-- The halfway point is one of those that decimals of the grid are compared with. -/
theorem le_reach : 2 * m + 2 ≤ reach q d.exponent := by
  rcases h.coarse with hcoarse | ⟨hm, hcoarse⟩
  · have hle : stepDenominator q d.exponent * (2 ^ 27 - 1) ≤ stepNumerator q d.exponent * 2 ^ 26 :=
      le_mul_of_le (by norm_num at hcoarse ⊢; exact hcoarse)
    have hlt := h.significand_lt
    rw [reach, if_neg (by omega), if_neg (by omega)]
    omega
  · have hle : stepDenominator q d.exponent * (3 * 2 ^ 26 - 1) ≤
        stepNumerator q d.exponent * 2 ^ 27 :=
      le_mul_of_le (by norm_num at hcoarse ⊢; exact hcoarse)
    rw [reach, if_neg (by omega)]
    split <;> omega

theorem le_steps :
    d.digits * stepNumerator q d.exponent ≤ (2 * m + 2) * stepDenominator q d.exponent := by
  have hclose := h.close_steps
  have hle := le_abs_self ((d.digits : ℤ) * stepNumerator q d.exponent -
    (2 * m + 1 : ℕ) * stepDenominator q d.exponent)
  have hmargin : (1 : ℤ) ≤ margin d.exponent := by
    exact_mod_cast (by norm_num : 1 ≤ 2 ^ 27).trans (le_margin d.exponent)
  have habs := le_mul_of_one_le_left (abs_nonneg ((d.digits : ℤ) * stepNumerator q d.exponent -
    (2 * m + 1 : ℕ) * stepDenominator q d.exponent)) hmargin
  have hsucc : (d.digits : ℤ) * stepNumerator q d.exponent ≤
      (2 * m + 1 : ℕ) * stepDenominator q d.exponent + stepDenominator q d.exponent := by
    linarith
  rw [show 2 * m + 2 = 2 * m + 1 + 1 from rfl, Nat.add_one_mul]
  exact_mod_cast hsucc

/-- Grids with a decimal close to a halfway point have moderate steps. -/
theorem exponent_bounds : -45 ≤ d.exponent ∧ d.exponent < 40 := by
  have hunit : (0 : ℚ) < 2 ^ (q - 1) := zpow_pos two_pos _
  have hstep : (0 : ℚ) < 10 ^ d.exponent := zpow_pos (by norm_num) _
  constructor
  · have hcoarse : (2 : ℚ) ^ (q - 1) ≤ 10 ^ d.exponent := by
      rcases h.coarse with h | ⟨-, h⟩ <;> linarith
    have hlt : (10 : ℚ) ^ (-46 : ℤ) < 10 ^ d.exponent := by
      calc (10 : ℚ) ^ (-46 : ℤ) < 2 ^ (-150 : ℤ) := by norm_num
        _ ≤ 2 ^ (q - 1) := zpow_le_zpow_right₀ one_le_two (by linarith [h.exponent_ge])
        _ ≤ 10 ^ d.exponent := hcoarse
    have := (zpow_lt_zpow_iff_right₀ (by norm_num)).1 hlt
    omega
  · have hlt : (10 : ℚ) ^ d.exponent < 10 ^ (40 : ℤ) := by
      have hsteps : (d.digits : ℚ) * 10 ^ d.exponent ≤ (2 * m + 2 : ℕ) * 2 ^ (q - 1) := by
        have hden : (0 : ℚ) < stepDenominator q d.exponent := by
          exact_mod_cast stepDenominator_pos _ _
        have hle : (d.digits : ℚ) * stepNumerator q d.exponent ≤
            (2 * m + 2 : ℕ) * stepDenominator q d.exponent := by exact_mod_cast h.le_steps
        refine le_of_mul_le_mul_right ?_ hden
        have := mul_le_mul_of_nonneg_right hle hunit.le
        rw [mul_assoc, step_mul] at this
        linarith
      calc (10 : ℚ) ^ d.exponent ≤ d.digits * 10 ^ d.exponent :=
            le_mul_of_one_le_left hstep.le (by exact_mod_cast h.digits_pos)
        _ ≤ (2 * m + 2 : ℕ) * 2 ^ (q - 1) := hsteps
        _ ≤ (2 ^ 25 : ℕ) * 2 ^ (103 : ℤ) := by
            have := h.significand_lt
            gcongr
            · omega
            · exact one_le_two
            · linarith [h.exponent_le]
        _ < 10 ^ (40 : ℤ) := by norm_num
    exact (zpow_lt_zpow_iff_right₀ (by norm_num)).1 hlt

/-- Only one halfway point has a decimal close to it. -/
theorem eq : m = 11420669 ∧ q = -107 ∧ d.exponent = -32 := by
  obtain ⟨he, he'⟩ := h.exponent_bounds
  by_cases hpair : q = -107 ∧ d.exponent = -32
  · obtain ⟨rfl, hexp⟩ := hpair
    have hle := h.le_steps
    have hclose := h.close_steps
    rw [hexp] at hle hclose
    have hlt := h.significand_lt
    have := eq_of_close h.digits_pos (hle.trans (Nat.mul_le_mul_right _ (by omega))) hclose
    exact ⟨by omega, rfl, hexp⟩
  · exfalso
    rcases eq_or_lt_of_clear (clear_of_ne h.exponent_ge h.exponent_le he he' hpair) h.digits_pos
      (2 * m + 1) (h.le_steps.trans (Nat.mul_le_mul_right _ h.le_reach)) with heq | hlt
    · exact h.ne (value_eq_iff.2 heq)
    · exact absurd h.close_steps (not_le.2 hlt)

end Near

namespace BinaryFormat

/-! ## Distance from the halfway points -/

/-- The only magnitude whose decimal comes close to a halfway point. -/
def closest : ℕ := 0x15ae43fd

theorem eq_closest_of_near {c : ℕ} {d : Decimal}
    (h : Near (single.parts c).1 (single.parts c).2 d) : c = closest ∧ d.exponent = -32 := by
  obtain ⟨hm, hq, he⟩ := h.eq
  have hparts : single.parts closest = (11420669, -107) := by decide
  refine ⟨single.strictMono_value.injective ?_, he⟩
  rw [value, value, hm, hq, hparts]

/-- What a decimal has to keep from the halfway point after a magnitude. -/
def clearance (c : ℕ) (d : Decimal) : ℚ := 2 ^ ((single.parts c).2 - 1) / margin d.exponent

theorem margin_pos (e : ℤ) : (0 : ℚ) < margin e := by
  exact_mod_cast (Nat.two_pow_pos 27).trans_le (le_margin e)

theorem clearance_pos (c : ℕ) (d : Decimal) : 0 < clearance c d :=
  div_pos (zpow_pos two_pos _) (margin_pos _)

theorem two_pow_mul_clearance_le (c : ℕ) (d : Decimal) :
    2 ^ 27 * clearance c d ≤ 2 ^ ((single.parts c).2 - 1) := by
  have hmargin : (2 ^ 27 : ℚ) ≤ margin d.exponent := by exact_mod_cast le_margin d.exponent
  calc 2 ^ 27 * clearance c d ≤ margin d.exponent * clearance c d :=
        mul_le_mul_of_nonneg_right hmargin (clearance_pos c d).le
    _ = 2 ^ ((single.parts c).2 - 1) := mul_div_cancel₀ _ (margin_pos _).ne'

theorem near_of_le {c : ℕ} (hc : c < single.infinity) {d : Decimal} (hd : 0 < d.digits)
    (hne : d.value ≠ single.mid c) (hclose : |d.value - single.mid c| ≤ clearance c d)
    (hcoarse : single.unit c - 2 * clearance c d ≤ 10 ^ d.exponent ∨
      ((single.parts c).1 = single.half ∧ 3 / 4 * single.unit c - clearance c d ≤ 10 ^ d.exponent)) :
    Near (single.parts c).1 (single.parts c).2 d := by
  obtain ⟨hm, hq, hq'⟩ := parts_single hc
  have hclearance := two_pow_mul_clearance_le c d
  refine ⟨hm, hq, hq', hd, ?_, ?_, ?_⟩
  · rwa [← mid_eq]
  · rwa [← mid_eq, ← le_div_iff₀' (margin_pos _)]
  · rw [unit_eq_two_mul] at hcoarse
    exact hcoarse.imp (fun h ↦ by linarith) fun h ↦ ⟨h.1, by linarith [h.2]⟩

section Shortest

variable (tie : Tie) {c : ℕ} (hc : c + 1 < single.infinity)
include hc

/-- The decimal of a magnitude is the halfway point below, or well above it, but for one. -/
theorem mid_add_clearance_lt (hne : (single.shortest tie (c + 1)).value ≠ single.mid c) :
    single.mid c + clearance c (single.shortest tie (c + 1)) < (single.shortest tie (c + 1)).value ∨
      (c = closest ∧ (single.shortest tie (c + 1)).exponent = -32) := by
  refine or_iff_not_imp_left.2 fun hle ↦ ?_
  rw [not_lt] at hle
  have hlow := mid_le_shortest tie hc
  have hclearance := two_pow_mul_clearance_le c (single.shortest tie (c + 1))
  have hpos := clearance_pos c (single.shortest tie (c + 1))
  have hunit := unit_eq_two_mul single c
  obtain ⟨e, he, -⟩ := exists_candidate?_eq_shortest tie hc
  obtain rfl := Decimal.exponent_of_candidate? he
  refine eq_closest_of_near (near_of_le (Nat.lt_of_succ_lt hc) (digits_shortest_pos tie hc) hne ?_
    (.inl (unit_le_of_candidate (by decide) he hpos.le (by linarith) hle)))
  rw [abs_of_nonneg (sub_nonneg.2 hlow)]
  linarith

/-- The decimal of a magnitude is the halfway point above, or well below it, but for one. -/
theorem lt_mid_sub_clearance (hne : (single.shortest tie (c + 1)).value ≠ single.mid (c + 1)) :
    (single.shortest tie (c + 1)).value <
        single.mid (c + 1) - clearance (c + 1) (single.shortest tie (c + 1)) ∨
      (c + 1 = closest ∧ (single.shortest tie (c + 1)).exponent = -32) := by
  refine or_iff_not_imp_left.2 fun hle ↦ ?_
  rw [not_lt] at hle
  have hhigh := shortest_le_mid tie hc
  have hclearance := two_pow_mul_clearance_le (c + 1) (single.shortest tie (c + 1))
  have hpos := clearance_pos (c + 1) (single.shortest tie (c + 1))
  have hunit := unit_eq_two_mul single (c + 1)
  obtain ⟨e, he, -⟩ := exists_candidate?_eq_shortest tie hc
  obtain rfl := Decimal.exponent_of_candidate? he
  refine eq_closest_of_near (near_of_le hc (digits_shortest_pos tie hc) hne ?_
    (unit_le_or_of_candidate (by decide) he hpos.le (by linarith) hle))
  rw [abs_of_nonpos (sub_nonpos.2 hhigh)]
  linarith

/-- Where powers of ten are not exact, no decimal is a halfway point. -/
theorem shortest_ne_mid (he : 22 < (single.shortest tie (c + 1)).exponent.natAbs) {c' : ℕ}
    (hc' : c' < single.infinity) : (single.shortest tie (c + 1)).value ≠ single.mid c' := by
  obtain ⟨hm, -⟩ := parts_single hc'
  obtain ⟨hdigits, -⟩ := shortest_bounds tie hc
  rw [mid_eq]
  intro heq
  refine step_ne (q := (single.parts c').2) he (digits_shortest_pos tie hc) (by omega)
    (Nat.succ_pos (2 * (single.parts c').1)) (by omega) (Near.value_eq_iff.1 heq)

end Shortest

end BinaryFormat

end FieldGraph.Number
