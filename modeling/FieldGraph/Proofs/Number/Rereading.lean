import FieldGraph.Proofs.Number.Halfway
import FieldGraph.Proofs.Number.Reading

/-!
# Reading shortest decimals back

The shortest decimal of a magnitude of single precision is read in double precision and rounded from
there.  This could only go wrong for a decimal that is nearly halfway to a neighbour of the magnitude,
and of all magnitudes only one has such a decimal, `7.038531e-26`: it is so close to the next halfway
point that the nearest double is that point, from where it would be rounded to the next magnitude.
What is read of it is not the nearest double, though, but one below it.
-/

namespace FieldGraph.Number.BinaryFormat

/-! ## What is read -/

theorem mid_le {code : ℕ} (h : code < single.infinity) :
    single.mid code ≤ (2 ^ 25 - 1) * 2 ^ ((single.parts code).2 - 1) := by
  have hlt := (parts_single h).1
  have hle : ((2 * (single.parts code).1 + 1 : ℕ) : ℚ) ≤ 2 ^ 25 - 1 := by
    rw [le_sub_iff_add_le]
    exact_mod_cast (by omega : 2 * (single.parts code).1 + 1 + 1 ≤ 2 ^ 25)
  rw [mid_eq]
  gcongr

theorem slack_eq (code : ℕ) : slack code = 2 ^ ((single.parts code).2 - 1) / 2 ^ 29 := by
  rw [slack, unit_eq_two_mul]
  ring

section Reading

variable {c : ℕ} (hc : c < single.infinity) {v w : ℚ} (hw : |w - v| ≤ 3 / 2 ^ 54 * v)
include hc hw

/-- What is read of a decimal well above a halfway point is still above it. -/
theorem mid_add_slack_lt_of_read
    (h : single.mid c + 2 ^ ((single.parts c).2 - 1) / 2 ^ 27 < v) : single.mid c + slack c < w := by
  have hunit : (0 : ℚ) < 2 ^ ((single.parts c).2 - 1) := zpow_pos two_pos _
  have hmid := mid_le hc
  have := (abs_le.1 hw).1
  rw [slack_eq]
  linarith

/-- What is read of a decimal well below a halfway point is still below it. -/
theorem lt_mid_sub_slack_of_read
    (h : v < single.mid c - 2 ^ ((single.parts c).2 - 1) / 2 ^ 27) : w < single.mid c - slack c := by
  have hunit : (0 : ℚ) < 2 ^ ((single.parts c).2 - 1) := zpow_pos two_pos _
  have hmid := mid_le hc
  have := (abs_le.1 hw).2
  rw [slack_eq]
  linarith

end Reading

section Shortest

variable (tie : Tie) {c : ℕ} (hc : c + 1 < single.infinity) {num den : ℕ} (hn : 0 < num)
  (hd : 0 < den)
include hc hn hd

/-- A decimal with a small power of ten is rounded to double precision itself. -/
theorem narrow_nearest_shortest (he : (single.shortest tie (c + 1)).exponent.natAbs ≤ 22)
    (h : (num / den : ℚ) = (single.shortest tie (c + 1)).value) :
    double.narrow single (double.nearest num den) = c + 1 := by
  have hmargin (c' : ℕ) : clearance c' (single.shortest tie (c + 1)) = slack c' := by
    rw [clearance, slack_eq, margin, if_pos he]
    norm_num
  refine narrow_nearest hn hd hc ?_ ?_ <;> rw [h]
  · by_cases hodd : c % 2 = 1
    · exact .inr ⟨mid_le_shortest tie hc, hodd⟩
    · have hbetween := (shortest_between tie hc).resolve_right fun h ↦ hodd h.1
      refine .inl (hmargin c ▸ (mid_add_clearance_lt tie hc hbetween.1.ne').resolve_right ?_)
      omega
  · by_cases hodd : c % 2 = 1
    · exact .inr ⟨shortest_le_mid tie hc, hodd⟩
    · have hbetween := (shortest_between tie hc).resolve_right fun h ↦ hodd h.1
      refine .inl (hmargin (c + 1) ▸ (lt_mid_sub_clearance tie hc hbetween.2.ne).resolve_right ?_)
      omega

/-- A decimal with a larger power of ten keeps far enough from the halfway points that it does not
matter how exactly it is read, but for one. -/
theorem narrow_nearest_shortest_of_lt (he : 22 < (single.shortest tie (c + 1)).exponent.natAbs)
    (h : |(num / den : ℚ) - (single.shortest tie (c + 1)).value| ≤
      3 / 2 ^ 54 * (single.shortest tie (c + 1)).value)
    (hclosest : c ≠ closest) (hclosest' : c + 1 ≠ closest) :
    double.narrow single (double.nearest num den) = c + 1 := by
  have hc' := Nat.lt_of_succ_lt hc
  have hmargin (c' : ℕ) : clearance c' (single.shortest tie (c + 1)) =
      2 ^ ((single.parts c').2 - 1) / 2 ^ 27 := by
    rw [clearance, margin, if_neg (Nat.not_le.2 he)]
    norm_num
  refine narrow_nearest hn hd hc (.inl ?_) (.inl ?_)
  · refine mid_add_slack_lt_of_read hc' h ?_
    rw [← hmargin]
    exact (mid_add_clearance_lt tie hc (shortest_ne_mid tie hc he hc')).resolve_right
      fun h ↦ hclosest h.1
  · refine lt_mid_sub_slack_of_read hc h ?_
    rw [← hmargin]
    exact (lt_mid_sub_clearance tie hc (shortest_ne_mid tie hc he hc)).resolve_right
      fun h ↦ hclosest' h.1

end Shortest

/-- The magnitudes on either side of the halfway point that has a decimal close to it. -/
theorem narrow_ofDecimal_closest (tie : Tie) :
    double.narrow single (Double.ofDecimal (single.shortest tie closest).digits
        (single.shortest tie closest).exponent) = closest ∧
      double.narrow single (Double.ofDecimal (single.shortest tie (closest + 1)).digits
        (single.shortest tie (closest + 1)).exponent) = closest + 1 := by
  cases tie <;> decide +kernel

/-- The nearest double to the decimal of the magnitude below is halfway between the two, and from there
it is rounded to the other one, which is even. -/
theorem narrow_nearest_closest (tie : Tie) :
    double.narrow single (double.nearest
        ((single.shortest tie closest).digits * tenPow (single.shortest tie closest).exponent.toNat)
        (tenPow (-(single.shortest tie closest).exponent).toNat)) = closest + 1 ∧
      double.narrow single (double.nearest ((single.shortest tie (closest + 1)).digits *
          tenPow (single.shortest tie (closest + 1)).exponent.toNat)
        (tenPow (-(single.shortest tie (closest + 1)).exponent).toNat)) = closest + 1 := by
  cases tie <;> decide +kernel

/-- If decimals were rounded to the nearest double, one magnitude would not be read back. -/
theorem narrow_nearest_iff (tie : Tie) {c : ℕ} (hc : c + 1 < single.infinity) {num den : ℕ}
    (hn : 0 < num) (hd : 0 < den) (h : (num / den : ℚ) = (single.shortest tie (c + 1)).value) :
    double.narrow single (double.nearest num den) = c + 1 ↔ c + 1 ≠ closest := by
  have hpos := digits_shortest_pos tie hc
  by_cases hclosest : c = closest ∨ c + 1 = closest
  · rw [nearest_congr (by decide) hn hd (Nat.mul_pos hpos (tenPow_pos _)) (tenPow_pos _)
      (h.trans (single.shortest tie (c + 1)).value_eq_div)]
    rcases hclosest with rfl | h
    · exact iff_of_true (narrow_nearest_closest tie).2 (Nat.succ_ne_self closest)
    · rw [h, (narrow_nearest_closest tie).1]
      exact iff_of_false (Nat.succ_ne_self closest) fun h ↦ h rfl
  · rw [not_or] at hclosest
    refine iff_of_true ?_ hclosest.2
    rcases le_or_gt (single.shortest tie (c + 1)).exponent.natAbs 22 with he | he
    · exact narrow_nearest_shortest tie hc hn hd he h
    · refine narrow_nearest_shortest_of_lt tie hc hn hd he ?_ hclosest.1 hclosest.2
      rw [h, sub_self, abs_zero, Decimal.value]
      positivity

/-- The shortest decimal of a magnitude is read as this magnitude.  It may be written with more digits
if its power of ten and the one that is written are small. -/
theorem narrow_ofDecimal (tie : Tie) {c : ℕ} (hc : c + 1 < single.infinity) {s : ℕ} {x : ℤ}
    (hvalue : s * 10 ^ x = (single.shortest tie (c + 1)).value) (hs : s < 2 ^ 53)
    (hx : (x.natAbs ≤ 22 ∧ (single.shortest tie (c + 1)).exponent.natAbs ≤ 22) ∨
      (s = (single.shortest tie (c + 1)).digits ∧ x = (single.shortest tie (c + 1)).exponent)) :
    double.narrow single (Double.ofDecimal s x) = c + 1 := by
  obtain ⟨-, hlow, hhigh⟩ := shortest_bounds tie hc
  have hspos : 0 < s := by
    have hpos := digits_shortest_pos tie hc
    have : (0 : ℚ) < s * 10 ^ x := by
      rw [hvalue, Decimal.value]
      positivity
    exact_mod_cast (pos_iff_pos_of_mul_pos this).2 (zpow_pos (by norm_num) _)
  obtain ⟨num, den, hn, hd, hread, herror, hexact⟩ :=
    Double.exists_readFrom hspos hs (by omega : x.natAbs ≤ 46)
  rw [hvalue] at herror hexact
  rw [hread]
  by_cases he : (single.shortest tie (c + 1)).exponent.natAbs ≤ 22
  · exact narrow_nearest_shortest tie hc hn hd he (hexact (by omega))
  · obtain ⟨rfl, rfl⟩ := hx.resolve_left fun h ↦ he h.2
    rw [not_le] at he
    by_cases hclosest : c = closest ∨ c + 1 = closest
    · rw [← hread]
      rcases hclosest with rfl | h
      · exact (narrow_ofDecimal_closest tie).2
      · rw [h]
        exact (narrow_ofDecimal_closest tie).1
    · rw [not_or] at hclosest
      exact narrow_nearest_shortest_of_lt tie hc hn hd he herror hclosest.1 hclosest.2

end FieldGraph.Number.BinaryFormat
