import FieldGraph.Proofs.Number.Candidates
import FieldGraph.Proofs.Number.DoubleRounding

/-!
# The shortest decimals of single precision

The search for the shortest decimal of a finite magnitude finds one, within the interval that rounds to
the magnitude.  Its digits and its power of ten are small: either it stands on the first grid that is
searched, or the grid before has no candidate and so is not much finer than the interval.
-/

namespace FieldGraph.Number

/-! ## Powers of ten between powers of two -/

theorem ten_zpow_le {e k : ℤ} (h : 0 ≤ e → 4 * e ≤ k) (h' : e ≤ 0 → 3 * e ≤ k) :
    (10 : ℚ) ^ e ≤ 2 ^ k := by
  rcases le_total 0 e with he | he
  · obtain ⟨n, rfl⟩ := Int.eq_ofNat_of_zero_le he
    calc (10 : ℚ) ^ (n : ℤ) ≤ (2 ^ (4 : ℤ)) ^ (n : ℤ) := by
          rw [zpow_natCast, zpow_natCast]
          gcongr
          norm_num
      _ = 2 ^ (4 * (n : ℤ)) := (zpow_mul _ _ _).symm
      _ ≤ 2 ^ k := zpow_le_zpow_right₀ one_le_two (h he)
  · obtain ⟨n, rfl⟩ : ∃ n : ℕ, e = -n := ⟨(-e).toNat, by omega⟩
    calc (10 : ℚ) ^ (-(n : ℤ)) ≤ (2 ^ (3 : ℤ)) ^ (-(n : ℤ)) := by
          rw [zpow_neg, zpow_neg, zpow_natCast, zpow_natCast]
          gcongr
          norm_num
      _ = 2 ^ (3 * -(n : ℤ)) := (zpow_mul _ _ _).symm
      _ ≤ 2 ^ k := zpow_le_zpow_right₀ one_le_two (h' he)

theorem le_ten_zpow {e k : ℤ} (h : 0 ≤ e → k ≤ 3 * e) (h' : e ≤ 0 → k ≤ 4 * e) :
    (2 : ℚ) ^ k ≤ 10 ^ e := by
  have hle := ten_zpow_le (e := -e) (k := -k) (fun he ↦ by have := h' (by omega); omega)
    fun he ↦ by have := h (by omega); omega
  rw [zpow_neg, zpow_neg] at hle
  exact (inv_le_inv₀ (zpow_pos (by norm_num) _) (zpow_pos two_pos _)).1 hle

namespace BinaryFormat

/-! ## Magnitudes of single precision -/

/-- The significands and exponents of finite magnitudes of single precision. -/
theorem parts_single {code : ℕ} (h : code < single.infinity) :
    (single.parts code).1 < 2 ^ 24 ∧ -149 ≤ (single.parts code).2 ∧ (single.parts code).2 ≤ 104 := by
  obtain ⟨k, n, rfl, hn, hk⟩ := single.exists_encode code
  rw [parts_encode hn hk]
  rw [single_half] at hn hk h
  have hinf : single.infinity = 0x7f800000 := rfl
  have hleast : single.leastExponent = -149 := rfl
  refine ⟨hn, ?_, ?_⟩ <;> omega

/-- A halfway point as a multiple of half a unit. -/
theorem mid_eq (f : BinaryFormat) (code : ℕ) :
    f.mid code = (2 * (f.parts code).1 + 1 : ℕ) * 2 ^ ((f.parts code).2 - 1) := by
  rw [mid, value, unit_eq_zpow, zpow_sub_one₀ two_ne_zero]
  push_cast
  ring

theorem unit_eq_two_mul (f : BinaryFormat) (code : ℕ) :
    f.unit code = 2 * 2 ^ ((f.parts code).2 - 1) := by
  rw [unit_eq_zpow, zpow_sub_one₀ two_ne_zero]
  ring

/-! ## What the search finds -/

section Size

variable {c : ℕ} (hc : c < single.infinity) {d : Decimal} (hle : d.value ≤ single.mid c)
include hc hle

theorem exponent_lt_of_le_mid (hd : 0 < d.digits) : d.exponent < 40 := by
  obtain ⟨hm, -, hq⟩ := parts_single hc
  have hstep : (0 : ℚ) < 10 ^ d.exponent := zpow_pos (by norm_num) _
  rw [Decimal.value, mid_eq] at hle
  have hlt : (10 : ℚ) ^ d.exponent < 10 ^ (40 : ℤ) := by
    calc (10 : ℚ) ^ d.exponent ≤ d.digits * 10 ^ d.exponent :=
          le_mul_of_one_le_left hstep.le (by exact_mod_cast hd)
      _ ≤ (2 * (single.parts c).1 + 1 : ℕ) * 2 ^ ((single.parts c).2 - 1) := hle
      _ ≤ (2 ^ 25 : ℕ) * 2 ^ (103 : ℤ) := by
          gcongr
          · omega
          · exact one_le_two
          · omega
      _ < 10 ^ (40 : ℤ) := by norm_num
  exact (zpow_lt_zpow_iff_right₀ (by norm_num)).1 hlt

/-- The search starts at a power of ten that is hardly below the magnitude. -/
theorem bounds_of_start (hpos : 0 < (single.parts c).1) (hstart : d.exponent =
      Decimal.orderBound (single.interval c).mid (single.interval c).unit) :
    d.digits < 2 ^ 29 ∧ -46 ≤ d.exponent := by
  obtain ⟨hm, hq, hq'⟩ := parts_single hc
  have hstep : (0 : ℚ) < 10 ^ d.exponent := zpow_pos (by norm_num) _
  have hunit : (0 : ℚ) < 2 ^ ((single.parts c).2 - 1) := zpow_pos two_pos _
  have hlog : (4 * (single.parts c).1).log2 ≤ 25 :=
    Nat.lt_succ_iff.1 ((Nat.log2_lt (by omega)).2 (by omega))
  have hsize : (2 * (single.parts c).1 + 1 : ℕ) < (2 : ℚ) ^ ((4 * (single.parts c).1).log2 + 1) := by
    have := Nat.lt_log2_self (n := 4 * (single.parts c).1)
    exact_mod_cast (by omega : 2 * (single.parts c).1 + 1 < _)
  rw [show (single.interval c).mid = 4 * (single.parts c).1 from rfl,
    show (single.interval c).unit = (single.parts c).2 - 2 from rfl, Decimal.orderBound] at hstart
  rw [Decimal.value, mid_eq] at hle
  have hlt : (d.digits : ℚ) * 10 ^ d.exponent < 10 ^ (8 : ℤ) * 10 ^ d.exponent := by
    calc (d.digits : ℚ) * 10 ^ d.exponent
        ≤ (2 * (single.parts c).1 + 1 : ℕ) * 2 ^ ((single.parts c).2 - 1) := hle
      _ < 2 ^ ((4 * (single.parts c).1).log2 + 1) * 2 ^ ((single.parts c).2 - 1) :=
          mul_lt_mul_of_pos_right hsize hunit
      _ = 2 ^ (((4 * (single.parts c).1).log2 + 1 : ℕ) + ((single.parts c).2 - 1)) := by
          rw [zpow_add₀ two_ne_zero, zpow_natCast]
      _ ≤ 10 ^ (8 + d.exponent) := by
          apply le_ten_zpow <;> intro h <;> split at hstart <;> omega
      _ = 10 ^ (8 : ℤ) * 10 ^ d.exponent := zpow_add₀ (by norm_num) _ _
  have hlt' : d.digits < 10 ^ 8 := by exact_mod_cast lt_of_mul_lt_mul_right hlt hstep.le
  refine ⟨by omega, ?_⟩
  split at hstart <;> omega

/-- A grid without a candidate is not much finer than half a unit, and so is the next grid. -/
theorem bounds_of_coarse (hcoarse : (2 : ℚ) ^ ((single.parts c).2 - 1) ≤ 10 ^ (d.exponent + 1)) :
    d.digits < 2 ^ 29 ∧ -46 ≤ d.exponent := by
  obtain ⟨hm, hq, -⟩ := parts_single hc
  have hstep : (0 : ℚ) < 10 ^ d.exponent := zpow_pos (by norm_num) _
  rw [Decimal.value, mid_eq] at hle
  constructor
  · rw [zpow_add_one₀ (by norm_num)] at hcoarse
    have hmul : (d.digits : ℚ) * 10 ^ d.exponent ≤ (2 ^ 25 * 10 : ℕ) * 10 ^ d.exponent := by
      calc (d.digits : ℚ) * 10 ^ d.exponent
          ≤ (2 * (single.parts c).1 + 1 : ℕ) * 2 ^ ((single.parts c).2 - 1) := hle
        _ ≤ (2 ^ 25 : ℕ) * 2 ^ ((single.parts c).2 - 1) := by
            gcongr
            omega
        _ ≤ (2 ^ 25 : ℕ) * (10 ^ d.exponent * 10) := by gcongr
        _ = (2 ^ 25 * 10 : ℕ) * 10 ^ d.exponent := by
            push_cast
            ring
    have hdigits : d.digits ≤ 2 ^ 25 * 10 := by exact_mod_cast le_of_mul_le_mul_right hmul hstep
    omega
  · have hlt : (10 : ℚ) ^ (-46 : ℤ) < 10 ^ (d.exponent + 1) := by
      calc (10 : ℚ) ^ (-46 : ℤ) < 2 ^ (-150 : ℤ) := by norm_num
        _ ≤ 2 ^ ((single.parts c).2 - 1) := zpow_le_zpow_right₀ one_le_two (by omega)
        _ ≤ 10 ^ (d.exponent + 1) := hcoarse
    have := (zpow_lt_zpow_iff_right₀ (by norm_num)).1 hlt
    omega

end Size

section Shortest

variable (tie : Tie) {c : ℕ} (hc : c + 1 < single.infinity)
include hc

/-- The search for the shortest decimal of a finite magnitude finds one. -/
theorem exists_candidate?_eq_shortest :
    ∃ e, Decimal.candidate? tie (single.interval (c + 1)) e = some (single.shortest tie (c + 1)) ∧
      (e = Decimal.orderBound (single.interval (c + 1)).mid (single.interval (c + 1)).unit ∨
        Decimal.candidate? tie (single.interval (c + 1)) (e + 1) = none) := by
  obtain ⟨hm, hq, hq'⟩ := parts_single hc
  have hpos : 0 < (single.parts (c + 1)).1 := parts_pos (single.value_pos c.succ_pos)
  have hmid : (single.interval (c + 1)).mid = 4 * (single.parts (c + 1)).1 := rfl
  have hunit : (single.interval (c + 1)).unit = (single.parts (c + 1)).2 - 2 := rfl
  have hlog : (4 * (single.parts (c + 1)).1).log2 ≤ 25 :=
    Nat.lt_succ_iff.1 ((Nat.log2_lt (by omega)).2 (by omega))
  rw [shortest, if_neg c.succ_ne_zero]
  refine Decimal.exists_candidate?_eq_search (j := 23) (by norm_num)
    (candidate?_ne_none_of_lt (by decide) ?_)
  -- the grid after 23 refinements is finer than half a unit
  obtain ⟨e, he⟩ : ∃ e, e = Decimal.orderBound (4 * (single.parts (c + 1)).1)
    ((single.parts (c + 1)).2 - 2) - (23 : ℕ) := ⟨_, rfl⟩
  rw [hmid, hunit, ← he, unit_eq_two_mul, mul_div_cancel_left₀ _ two_ne_zero]
  rw [Decimal.orderBound] at he
  calc (10 : ℚ) ^ e ≤ 2 ^ ((single.parts (c + 1)).2 - 2) := by
        apply ten_zpow_le <;> intro h <;> split at he <;> omega
    _ < 2 ^ ((single.parts (c + 1)).2 - 1) := zpow_lt_zpow_right₀ one_lt_two (by omega)

theorem shortest_between :
    (single.mid c < (single.shortest tie (c + 1)).value ∧
      (single.shortest tie (c + 1)).value < single.mid (c + 1)) ∨
    (c % 2 = 1 ∧ ((single.shortest tie (c + 1)).value = single.mid c ∨
      (single.shortest tie (c + 1)).value = single.mid (c + 1))) := by
  obtain ⟨e, he, -⟩ := exists_candidate?_eq_shortest tie hc
  exact (within_interval (by decide) _ c).1 (Decimal.candidate?_eq_some he).1

theorem mid_le_shortest : single.mid c ≤ (single.shortest tie (c + 1)).value := by
  have hmids := (single.mid_lt_value_succ c).trans (single.value_lt_mid (c + 1))
  rcases shortest_between tie hc with ⟨h, -⟩ | ⟨-, h | h⟩ <;> linarith

theorem shortest_le_mid : (single.shortest tie (c + 1)).value ≤ single.mid (c + 1) := by
  have hmids := (single.mid_lt_value_succ c).trans (single.value_lt_mid (c + 1))
  rcases shortest_between tie hc with ⟨-, h⟩ | ⟨-, h | h⟩ <;> linarith

theorem digits_shortest_pos : 0 < (single.shortest tie (c + 1)).digits := by
  have hpos := (single.mid_pos c).trans_le (mid_le_shortest tie hc)
  rw [Decimal.value] at hpos
  exact_mod_cast (pos_iff_pos_of_mul_pos hpos).2 (zpow_pos (by norm_num) _)

/-- Nine digits are enough, and a moderate power of ten. -/
theorem shortest_bounds : (single.shortest tie (c + 1)).digits < 2 ^ 29 ∧
    -46 ≤ (single.shortest tie (c + 1)).exponent ∧ (single.shortest tie (c + 1)).exponent < 40 := by
  have hle := shortest_le_mid tie hc
  have hupper := exponent_lt_of_le_mid hc hle (digits_shortest_pos tie hc)
  obtain ⟨e, he, hfirst⟩ := exists_candidate?_eq_shortest tie hc
  obtain rfl := Decimal.exponent_of_candidate? he
  rw [← and_assoc]
  refine ⟨?_, hupper⟩
  rcases hfirst with hstart | hnone
  · exact bounds_of_start hc hle (parts_pos (single.value_pos c.succ_pos)) hstart
  · refine bounds_of_coarse hc hle (not_lt.1 fun hlt ↦ ?_)
    refine candidate?_ne_none_of_lt (by decide) ?_ hnone
    rwa [unit_eq_two_mul, mul_div_cancel_left₀ _ two_ne_zero]

end Shortest

end BinaryFormat

end FieldGraph.Number
