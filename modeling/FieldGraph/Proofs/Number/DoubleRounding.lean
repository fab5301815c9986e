import FieldGraph.Proofs.Number.Nearest

/-!
# Rounding twice

A decimal is rounded to double precision before it is rounded to single precision.  The halfway
points of single precision are magnitudes of double precision, and rounding does not cross a
magnitude: the first rounding can at most move a number onto a halfway point.  That is harmless where
the second rounding takes the halfway point to the same magnitude, and it does not happen to a number
that is further from the halfway point than half a unit of double precision.
-/

namespace FieldGraph.Number.BinaryFormat

/-- A magnitude as the quotient that is rounded when its format is narrowed. -/
theorem value_eq_div (f : BinaryFormat) (code : ℕ) :
    f.value code = (((f.parts code).1 <<< (f.parts code).2.toNat : ℕ) : ℚ) /
      (1 <<< (-(f.parts code).2).toNat : ℕ) := by
  rw [value, zpow_eq_div, Nat.shiftLeft_eq, Nat.one_shiftLeft]
  push_cast
  ring

/-- Halfway points need one digit more than the magnitudes they lie between. -/
theorem exists_value_eq_mid {f g : BinaryFormat} (hdigits : 2 * f.half ≤ g.half)
    (hleast : g.leastExponent < f.leastExponent) (code : ℕ) : ∃ c, g.value c = f.mid code := by
  obtain ⟨k, n, rfl, hn, h⟩ := f.exists_encode code
  obtain ⟨j, hj⟩ : ∃ j : ℕ, f.leastExponent + k - 1 = g.leastExponent + j :=
    ⟨(f.leastExponent + k - 1 - g.leastExponent).toNat, by omega⟩
  obtain ⟨c, hc⟩ := g.exists_value_eq j (2 * n + 1) (by omega)
  refine ⟨c, ?_⟩
  rw [hc, mid, value, unit, parts_encode hn h, ← hj, zpow_sub_one₀ (by norm_num)]
  push_cast
  ring

theorem single_half : single.half = 2 ^ 23 := rfl

theorem double_half : double.half = 2 ^ 52 := rfl

/-- What decimals have to keep away from the halfway points on either side of a magnitude of single
precision. -/
def slack (code : ℕ) : ℚ := single.unit code / 2 ^ 30

/-- Up to the middle above a magnitude of single precision, the units of double precision are not
larger than twice the slack. -/
theorem double_unit_le {code k : ℕ} (h : double.value k ≤ single.mid code) :
    double.unit k ≤ 2 * slack code := by
  have hexp : (double.parts k).2 + 29 ≤ (single.parts code).2 := by
    rcases double.unit_le k with hk | hk
    · have hk' : (double.parts k).2 = -1074 :=
        zpow_right_injective₀ two_pos (by norm_num) (unit_eq_zpow double k ▸ hk)
      have hleast : (-149 : ℤ) ≤ (single.parts code).2 := single.leastExponent_le code
      omega
    · have hmid : single.mid code ≤ 2 ^ 24 * single.unit code - single.unit code / 2 := by
        have hle : ((single.parts code).1 : ℚ) + 1 ≤ 2 ^ 24 := by
          obtain ⟨j, n, rfl, hn, h⟩ := single.exists_encode code
          rw [parts_encode hn h]
          rw [single_half] at hn
          exact_mod_cast hn
        have hunit := single.unit_pos code
        rw [mid, value, ← unit_eq_zpow]
        nlinarith only [hle, hunit]
      have hlt : (2 : ℚ) ^ ((double.parts k).2 + 52) < 2 ^ ((single.parts code).2 + 24) := by
        rw [zpow_add₀ two_ne_zero, zpow_add₀ two_ne_zero, ← unit_eq_zpow, ← unit_eq_zpow]
        have hunit := single.unit_pos code
        rw [double_half] at hk
        push_cast at hk
        calc double.unit k * 2 ^ (52 : ℤ) ≤ double.value k := by exact_mod_cast hk
          _ ≤ single.mid code := h
          _ ≤ 2 ^ 24 * single.unit code - single.unit code / 2 := hmid
          _ < single.unit code * 2 ^ (24 : ℤ) := by
              norm_num
              linarith
      have := (zpow_lt_zpow_iff_right₀ one_lt_two).1 hlt
      omega
  calc double.unit k ≤ 2 ^ ((single.parts code).2 - 29) :=
        zpow_le_zpow_right₀ one_le_two (by omega)
    _ = 2 * slack code := by
        rw [slack, unit_eq_zpow, zpow_sub₀ two_ne_zero]
        norm_num
        ring

/-- Halfway points between finite magnitudes of single precision are in its range. -/
theorem single_mid_lt {code : ℕ} (h : code < single.infinity) : single.mid code < 2 ^ (128 : ℤ) := by
  have hparts : single.parts single.infinity = (2 ^ 23, 105) := by decide
  calc single.mid code < single.value (code + 1) := single.mid_lt_value_succ code
    _ ≤ single.value single.infinity := single.strictMono_value.monotone h
    _ = 2 ^ (128 : ℤ) := by
        rw [value, hparts]
        norm_num

/-- Magnitudes of double precision up to a halfway point of single precision are finite. -/
theorem lt_double_infinity {code k : ℕ} (hcode : code < single.infinity)
    (h : double.value k ≤ single.mid code) : k < double.infinity := by
  have hparts : double.parts double.infinity = (2 ^ 52, 972) := by decide
  refine double.strictMono_value.lt_iff_lt.1 (h.trans_lt ?_)
  calc single.mid code < 2 ^ (128 : ℤ) := single_mid_lt hcode
    _ < 2 ^ (1024 : ℤ) := zpow_lt_zpow_right₀ one_lt_two (by norm_num)
    _ = double.value double.infinity := by
        rw [value, hparts, show (1024 : ℤ) = (52 : ℕ) + 972 by rfl, zpow_add₀ two_ne_zero,
          zpow_natCast, Nat.cast_pow, Nat.cast_ofNat]

section First

variable {num den : ℕ} (hn : 0 < num) (hd : 0 < den) {c : ℕ} (hc : c < single.infinity) {odd : Prop}
include hn hd hc

/-- The first rounding does not go below a halfway point, and not onto it from further away. -/
theorem mid_lt_or_eq_value_nearest
    (h : single.mid c + slack c < num / den ∨ (single.mid c ≤ num / den ∧ odd)) :
    single.mid c < double.value (double.nearest num den) ∨
      (single.mid c = double.value (double.nearest num den) ∧ odd) := by
  have hp : 2 ≤ double.precision := by decide
  obtain ⟨k, hk⟩ := exists_value_eq_mid (f := single) (g := double) (by decide) (by decide) c
  have hfinite := lt_double_infinity hc hk.le
  rw [← hk, double.strictMono_value.lt_iff_lt, double.strictMono_value.injective.eq_iff]
  rcases h with h | ⟨h, hodd⟩
  · refine .inl (lt_nearest hp hn hd hfinite ?_)
    have := double_unit_le hk.le
    rw [mid, hk]
    linarith
  · rcases (le_nearest hp hn hd hfinite.le (hk.trans_le h)).lt_or_eq with hlt | heq
    · exact .inl hlt
    · exact .inr ⟨heq, hodd⟩

omit hc in
/-- The first rounding does not go above a halfway point, and not onto it from further away. -/
theorem value_nearest_lt_or_eq_mid
    (h : (num / den : ℚ) < single.mid c - slack c ∨ ((num / den : ℚ) ≤ single.mid c ∧ odd)) :
    double.value (double.nearest num den) < single.mid c ∨
      (double.value (double.nearest num den) = single.mid c ∧ odd) := by
  have hp : 2 ≤ double.precision := by decide
  obtain ⟨k, hk⟩ := exists_value_eq_mid (f := single) (g := double) (by decide) (by decide) c
  rw [← hk, double.strictMono_value.lt_iff_lt, double.strictMono_value.injective.eq_iff]
  rcases h with h | ⟨h, hodd⟩
  · obtain ⟨j, rfl⟩ : ∃ j, k = j + 1 := by
      refine Nat.exists_eq_succ_of_ne_zero (Nat.pos_iff_ne_zero.1 ?_)
      refine double.strictMono_value.lt_iff_lt.1 ?_
      rw [hk, value_zero]
      exact single.mid_pos c
    refine .inl (Nat.lt_succ_of_le (nearest_le_of_lt_mid hp hn hd ?_))
    have hj := double_unit_le ((double.strictMono_value j.lt_succ_self).le.trans hk.le)
    have hsucc := double.value_succ j
    rw [mid]
    linarith
  · rcases (nearest_le hp hn hd (h.trans hk.ge)).lt_or_eq with hlt | heq
    · exact .inl hlt
    · exact .inr ⟨heq, hodd⟩

end First

/-- The second rounding takes what lies between the halfway points to the magnitude between them. -/
theorem narrow_eq_of_between {r c : ℕ} (hc : c + 1 < single.infinity)
    (hlow : single.mid c < double.value r ∨ (single.mid c = double.value r ∧ c % 2 = 1))
    (hhigh : double.value r < single.mid (c + 1) ∨
      (double.value r = single.mid (c + 1) ∧ c % 2 = 1)) :
    double.narrow single r = c + 1 := by
  have hfinite : r < double.infinity := by
    refine lt_double_infinity hc ?_
    rcases hhigh with h | h
    exacts [h.le, h.1.le]
  have hpos : 0 < double.value r := by
    rcases hlow with h | h
    exacts [(single.mid_pos c).trans h, h.1 ▸ single.mid_pos c]
  rw [value_eq_div] at hlow hhigh hpos
  rw [narrow, if_neg (Nat.not_le.2 hfinite)]
  refine nearest_eq (by decide) ?_ (by rw [Nat.one_shiftLeft]; positivity) hc
    (hlow.imp_right fun h ↦ ⟨h.1.symm, h.2⟩) hhigh
  rw [Nat.one_shiftLeft] at hpos
  have hden : (0 : ℚ) < (2 ^ (-(double.parts r).2).toNat : ℕ) := by positivity
  exact_mod_cast (div_pos_iff_of_pos_right hden).1 hpos

/-- A number near a magnitude of single precision is rounded to it also by way of double precision,
if it keeps its distance from the halfway points or the magnitude is even. -/
theorem narrow_nearest {num den : ℕ} (hn : 0 < num) (hd : 0 < den) {c : ℕ}
    (hc : c + 1 < single.infinity)
    (hlow : single.mid c + slack c < num / den ∨ (single.mid c ≤ num / den ∧ c % 2 = 1))
    (hhigh : (num / den : ℚ) < single.mid (c + 1) - slack (c + 1) ∨
      ((num / den : ℚ) ≤ single.mid (c + 1) ∧ c % 2 = 1)) :
    double.narrow single (double.nearest num den) = c + 1 :=
  narrow_eq_of_between hc (mid_lt_or_eq_value_nearest hn hd (Nat.lt_of_succ_lt hc) hlow)
    (value_nearest_lt_or_eq_mid hn hd hhigh)

end FieldGraph.Number.BinaryFormat
