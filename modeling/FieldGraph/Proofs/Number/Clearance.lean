import FieldGraph.Proofs.Number.Approximation
import FieldGraph.Proofs.Number.Magnitudes

/-!
# Decimal steps and half units

The shortest decimal of a magnitude is a multiple of a decimal step, and the halfway points around the
magnitude are multiples of half a binary unit.  Single precision has finitely many pairs of such
steps, and for each pair Euclid's algorithm tells how close their multiples come to each other.  With
one exception they coincide or keep a distance that is not lost in double precision.
-/

namespace FieldGraph.Number

/-- The decimal step `10 ^ e` over the half unit `2 ^ (q - 1)`: the numerator. -/
def stepNumerator (q e : ℤ) : ℕ := 10 ^ e.toNat * 2 ^ (1 - q).toNat

/-- The decimal step `10 ^ e` over the half unit `2 ^ (q - 1)`: the denominator. -/
def stepDenominator (q e : ℤ) : ℕ := 10 ^ (-e).toNat * 2 ^ (q - 1).toNat

theorem stepNumerator_pos (q e : ℤ) : 0 < stepNumerator q e := by
  rw [stepNumerator]
  positivity

theorem stepDenominator_pos (q e : ℤ) : 0 < stepDenominator q e := by
  rw [stepDenominator]
  positivity

theorem step_mul (q e : ℤ) :
    (stepNumerator q e : ℚ) * 2 ^ (q - 1) = 10 ^ e * stepDenominator q e := by
  rw [zpow_eq_div 10, zpow_eq_div 2, stepNumerator, stepDenominator, neg_sub]
  push_cast
  field_simp

/-- The part of a half unit that the decimals of a grid have to keep from it.  Powers of ten are exact
in double precision up to the twenty-second; beyond that a decimal is read less exactly. -/
def margin (e : ℤ) : ℕ := if e.natAbs ≤ 22 then 2 ^ 29 else 2 ^ 27

/-- How many half units a decimal of a grid has to be compared with: none where the grid is too fine
for a decimal close to the end of an interval, few where only powers of two have such a decimal. -/
def reach (q e : ℤ) : ℕ :=
  if stepNumerator q e * 2 ^ 27 < stepDenominator q e * (3 * 2 ^ 26 - 1) then 0
  else if stepNumerator q e * 2 ^ 26 < stepDenominator q e * (2 ^ 27 - 1) then 2 ^ 24 + 2
  else 2 ^ 25

/-- Decimals within reach are half units, or keep the margin. -/
def clear (q e : ℤ) : Bool :=
  stepDenominator q e < margin e *
    distance (stepNumerator q e) (stepDenominator q e)
      (reach q e * stepDenominator q e / stepNumerator q e)

theorem clear_natCast : ∀ i < 254, ∀ j < 85,
    ((i : ℕ) - 149 : ℤ) = -107 ∧ ((j : ℕ) - 45 : ℤ) = -32 ∨ clear ((i : ℕ) - 149) ((j : ℕ) - 45) := by
  decide +kernel

/-- All pairs of exponents of single precision are clear but one. -/
theorem clear_of_ne {q e : ℤ} (hq : -149 ≤ q) (hq' : q ≤ 104) (he : -45 ≤ e) (he' : e < 40)
    (h : ¬(q = -107 ∧ e = -32)) : clear q e = true := by
  have := clear_natCast (q + 149).toNat (by omega) (e + 45).toNat (by omega)
  rw [Int.toNat_of_nonneg (by omega), Int.toNat_of_nonneg (by omega), add_sub_cancel_right,
    add_sub_cancel_right] at this
  exact this.resolve_left h

theorem eq_or_lt_of_clear {q e : ℤ} {d : ℕ} (h : clear q e = true) (hd : 0 < d) (m : ℕ)
    (hle : d * stepNumerator q e ≤ reach q e * stepDenominator q e) :
    d * stepNumerator q e = m * stepDenominator q e ∨
      (stepDenominator q e : ℤ) <
        margin e * |(d : ℤ) * stepNumerator q e - m * stepDenominator q e| := by
  have hn := (Nat.le_div_iff_mul_le (stepNumerator_pos q e)).2 hle
  refine (distance_le hd hn m).imp_right fun hdist ↦ ?_
  rw [clear, decide_eq_true_iff] at h
  calc (stepDenominator q e : ℤ)
      < margin e * distance (stepNumerator q e) (stepDenominator q e)
          (reach q e * stepDenominator q e / stepNumerator q e) := by exact_mod_cast h
    _ ≤ margin e * |(d : ℤ) * stepNumerator q e - m * stepDenominator q e| :=
        mul_le_mul_of_nonneg_left hdist (Int.natCast_nonneg _)

/-- At the remaining pair only one half unit has a decimal near it. -/
theorem eq_of_close {d m : ℕ} (hd : 0 < d)
    (hle : d * stepNumerator (-107) (-32) ≤ 2 ^ 25 * stepDenominator (-107) (-32))
    (hclose : margin (-32) * |(d : ℤ) * stepNumerator (-107) (-32) -
      m * stepDenominator (-107) (-32)| ≤ stepDenominator (-107) (-32)) :
    m = 2 * 11420669 + 1 := by
  have hnum : stepNumerator (-107) (-32) = 2 ^ 108 := by decide +kernel
  have hden : stepDenominator (-107) (-32) = 10 ^ 32 := by decide +kernel
  have hmargin : margin (-32) = 2 ^ 27 := by decide
  rw [hnum, hden] at hle hclose
  rw [hmargin] at hclose
  have hlimit : d ≤ 10339757 := by omega
  obtain ⟨r, hr⟩ : ∃ r, r = Remainders.upTo 5000000 64 (Remainders.start (2 ^ 108) (10 ^ 32)) :=
    ⟨_, rfl⟩
  have hspans := (Remainders.Spans.start (2 ^ 108) (10 ^ 32)).upTo 5000000 64
  have hfactor : r.nextFactor = 7038531 := by
    rw [hr]
    decide +kernel
  have hfar : 10 ^ 32 + 2 ^ 27 * r.next < 2 ^ 27 * r.last := by
    rw [hr]
    decide +kernel
  rw [← hr] at hspans
  rcases hspans.le_abs (by omega) hd hlimit m with hdvd | hlast
  · rw [hfactor] at hdvd
    obtain ⟨k, rfl⟩ := hdvd
    obtain rfl : k = 1 := by omega
    have hupper := le_abs_self (((7038531 * 1 : ℕ) : ℤ) * (2 ^ 108 : ℕ) - m * (10 ^ 32 : ℕ))
    have hlower := neg_le_abs (((7038531 * 1 : ℕ) : ℤ) * (2 ^ 108 : ℕ) - m * (10 ^ 32 : ℕ))
    push_cast at hupper hlower hclose
    omega
  · rw [hfactor, show 10339757 / 7038531 = 1 from rfl] at hlast
    push_cast at hlast hclose
    have hfar' : (10 : ℤ) ^ 32 + 2 ^ 27 * r.next < 2 ^ 27 * r.last := by exact_mod_cast hfar
    linarith

/-- Powers of ten that are not exact in double precision have more factors of five than their
multiples or half units have room for. -/
theorem step_ne {q e : ℤ} {d m : ℕ} (he : 22 < e.natAbs) (hd : 0 < d) (hd' : d < 2 ^ 30)
    (hm : 0 < m) (hm' : m < 2 ^ 30) :
    d * stepNumerator q e ≠ m * stepDenominator q e := by
  have hfive : 2 ^ 30 < 5 ^ 23 := by decide
  have hodd (k : ℕ) : Nat.Coprime (5 ^ 23) (2 ^ k) := Nat.Coprime.pow _ _ (by decide)
  have hten {k : ℕ} (hk : 23 ≤ k) : 5 ^ 23 ∣ 10 ^ k :=
    (Nat.pow_dvd_pow_iff (by norm_num)).2 (by norm_num : 5 ∣ 10) |>.trans (Nat.pow_dvd_pow _ hk)
  rw [stepNumerator, stepDenominator]
  intro heq
  rcases Int.natAbs_eq e with h | h
  · -- the five are in the half unit
    have hdvd : 5 ^ 23 ∣ m * 2 ^ (q - 1).toNat := by
      rw [show (-e).toNat = 0 by omega, pow_zero, one_mul] at heq
      rw [← heq]
      exact ((hten (by omega)).mul_right _).mul_left _
    exact absurd (Nat.le_of_dvd hm ((hodd _).dvd_of_dvd_mul_right hdvd)) (by omega)
  · have hdvd : 5 ^ 23 ∣ d * 2 ^ (1 - q).toNat := by
      rw [show e.toNat = 0 by omega, pow_zero, one_mul] at heq
      rw [heq]
      exact ((hten (by omega)).mul_right _).mul_left _
    exact absurd (Nat.le_of_dvd hd ((hodd _).dvd_of_dvd_mul_right hdvd)) (by omega)

end FieldGraph.Number
