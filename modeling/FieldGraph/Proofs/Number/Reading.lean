import FieldGraph.Proofs.Number.Nearest

/-!
# Reading decimals in double precision

What is read of a decimal is the double nearest to its digits times or over a power of ten.  The
digits are few enough to be exact and so are the small powers; the others are off by a small part of
themselves, and so is then what is rounded.
-/

namespace FieldGraph.Number

namespace BinaryFormat

variable {f : BinaryFormat}

/-- A magnitude is rounded to itself. -/
theorem nearest_eq_of_value (hf : 2 ≤ f.precision) {num den c : ℕ} (hn : 0 < num) (hd : 0 < den)
    (hc : c ≤ f.infinity) (h : (num / den : ℚ) = f.value c) : f.nearest num den = c :=
  le_antisymm (nearest_le hf hn hd h.le) (le_nearest hf hn hd hc h.ge)

section Operations

variable {a b : ℕ} (ha : 0 < f.value a) (hb : 0 < f.value b)
include ha hb

theorem exists_mul_eq : ∃ num den : ℕ, 0 < num ∧ 0 < den ∧
    (num / den : ℚ) = f.value a * f.value b ∧ f.mul a b = f.nearest num den := by
  have hm := parts_pos ha
  have hn := parts_pos hb
  refine ⟨((f.parts a).1 * (f.parts b).1) <<< ((f.parts a).2 + (f.parts b).2).toNat,
    1 <<< (-((f.parts a).2 + (f.parts b).2)).toNat, ?_, ?_, ?_, rfl⟩
  · rw [Nat.shiftLeft_eq]
    positivity
  · rw [Nat.one_shiftLeft]
    positivity
  · rw [Nat.shiftLeft_eq, Nat.one_shiftLeft, value, value, mul_mul_mul_comm,
      ← zpow_add₀ two_ne_zero, zpow_eq_div]
    push_cast
    ring

theorem exists_div_eq : ∃ num den : ℕ, 0 < num ∧ 0 < den ∧
    (num / den : ℚ) = f.value a / f.value b ∧ f.div a b = f.nearest num den := by
  have hm := parts_pos ha
  have hn := parts_pos hb
  refine ⟨(f.parts a).1 <<< ((f.parts a).2 - (f.parts b).2).toNat,
    (f.parts b).1 <<< ((f.parts b).2 - (f.parts a).2).toNat, ?_, ?_, ?_, rfl⟩
  · rw [Nat.shiftLeft_eq]
    positivity
  · rw [Nat.shiftLeft_eq]
    positivity
  · have hn' : ((f.parts b).1 : ℚ) ≠ 0 := by exact_mod_cast hn.ne'
    rw [Nat.shiftLeft_eq, Nat.shiftLeft_eq, value, value, mul_div_mul_comm,
      ← zpow_sub₀ two_ne_zero, zpow_eq_div, neg_sub]
    push_cast
    field_simp

end Operations

end BinaryFormat

namespace Double

open BinaryFormat

/-- Integers with no more bits than a double are doubles. -/
theorem value_nearest {n : ℕ} (hn : 0 < n) (hn' : n < 2 ^ 53) :
    double.value (double.nearest n 1) = n := by
  obtain ⟨c, hc⟩ := double.exists_value_eq 1074 n hn'
  have hle : c ≤ double.infinity := by
    have hparts : double.parts double.infinity = (2 ^ 52, 972) := by decide
    refine (double.strictMono_value.lt_iff_lt.1 ?_).le
    rw [hc, value, hparts]
    calc (n : ℚ) * 2 ^ (double.leastExponent + (1074 : ℕ)) = n := by
          rw [show double.leastExponent + (1074 : ℕ) = 0 from rfl, zpow_zero, mul_one]
      _ < 2 ^ 53 := by exact_mod_cast hn'
      _ = (2 ^ 52 : ℕ) * 2 ^ (1 : ℤ) := by norm_num
      _ ≤ (2 ^ 52 : ℕ) * 2 ^ (972 : ℤ) :=
          mul_le_mul_of_nonneg_left (zpow_le_zpow_right₀ one_le_two (by norm_num)) (Nat.cast_nonneg _)
  have heq : ((n : ℕ) / (1 : ℕ) : ℚ) = double.value c := by
    rw [hc, show double.leastExponent + (1074 : ℕ) = 0 from rfl]
    simp
  rw [nearest_eq_of_value (by decide) hn one_pos hle heq, ← heq, Nat.cast_one, div_one]

/-- The powers of ten that matter for single precision, over a common denominator: the small ones are
exact and the others are off by half a unit in the last place at most. -/
theorem parts_power : ∀ k < 47,
    2 ^ 53 * (10 ^ k * 2 ^ (-(double.parts (power k)).2).toNat) ≤
        2 ^ 53 * ((double.parts (power k)).1 * 2 ^ (double.parts (power k)).2.toNat) +
          10 ^ k * 2 ^ (-(double.parts (power k)).2).toNat ∧
      2 ^ 53 * ((double.parts (power k)).1 * 2 ^ (double.parts (power k)).2.toNat) ≤
        2 ^ 53 * (10 ^ k * 2 ^ (-(double.parts (power k)).2).toNat) +
          10 ^ k * 2 ^ (-(double.parts (power k)).2).toNat ∧
      (k ≤ 22 → (double.parts (power k)).1 * 2 ^ (double.parts (power k)).2.toNat =
        10 ^ k * 2 ^ (-(double.parts (power k)).2).toNat) := by
  decide +kernel

theorem value_power_mul (k : ℕ) :
    double.value (power k) * 2 ^ (-(double.parts (power k)).2).toNat =
      (double.parts (power k)).1 * 2 ^ (double.parts (power k)).2.toNat := by
  rw [value, zpow_eq_div]
  field_simp

variable {k : ℕ}

theorem le_power (hk : k < 47) :
    (2 : ℚ) ^ 53 * 10 ^ k ≤ 2 ^ 53 * double.value (power k) + 10 ^ k := by
  refine le_of_mul_le_mul_right ?_ (pow_pos two_pos (-(double.parts (power k)).2).toNat)
  rw [add_mul, mul_assoc, mul_assoc, value_power_mul]
  exact_mod_cast (parts_power k hk).1

theorem power_le (hk : k < 47) :
    2 ^ 53 * double.value (power k) ≤ 2 ^ 53 * (10 : ℚ) ^ k + 10 ^ k := by
  refine le_of_mul_le_mul_right ?_ (pow_pos two_pos (-(double.parts (power k)).2).toNat)
  rw [add_mul, mul_assoc, mul_assoc, value_power_mul]
  exact_mod_cast (parts_power k hk).2.1

theorem value_power (hk : k ≤ 22) : double.value (power k) = 10 ^ k := by
  refine mul_right_cancel₀ (pow_pos two_pos (-(double.parts (power k)).2).toNat).ne' ?_
  rw [value_power_mul]
  exact_mod_cast (parts_power k (by omega)).2.2 hk

theorem value_power_pos (hk : k < 47) : 0 < double.value (power k) := by
  have hle := le_power hk
  have hpow : (0 : ℚ) < 10 ^ k := by positivity
  linarith

/-- What is read of a decimal is the double nearest to a number that is off by a small part of the
decimal, and not off at all if the power of ten is small. -/
structure ReadFrom (s : ℕ) (x : ℤ) (num den : ℕ) : Prop where
  num_pos : 0 < num
  den_pos : 0 < den
  ofDecimal_eq : ofDecimal s x = double.nearest num den
  close : |(num / den : ℚ) - s * 10 ^ x| ≤ 3 / 2 ^ 54 * (s * 10 ^ x)
  value_eq : x.natAbs ≤ 22 → (num / den : ℚ) = s * 10 ^ x

section ReadFrom

variable {s : ℕ} (hs : 0 < s) (hs' : s < 2 ^ 53)
include hs hs'

theorem exists_readFrom_neg (hk₀ : 0 < k) (hk : k < 47) : ∃ num den, ReadFrom s (-k) num den := by
  have hs₀ : (0 : ℚ) < s := by exact_mod_cast hs
  have hdigits := value_nearest hs hs'
  have hpow : (0 : ℚ) < 10 ^ k := by positivity
  have hpower := value_power_pos hk
  obtain ⟨num, den, hn, hd, heq, h⟩ := exists_div_eq (hdigits.symm ▸ hs₀) hpower
  rw [hdigits] at heq
  refine ⟨num, den, hn, hd, ?_, ?_, fun hsmall ↦ ?_⟩
  · have hk' : k ≤ largestPower := by
      rw [largestPower]
      omega
    rw [ofDecimal, if_pos (by omega), neg_neg, Int.toNat_natCast, lower, if_pos hk', h]
  · have hlow := le_power hk
    have hhigh := power_le hk
    have hle : s / double.value (power k) ≤ (1 + 3 / 2 ^ 54) * (s / 10 ^ k) := by
      rw [mul_div_assoc', div_le_div_iff₀ hpower hpow]
      have : 10 ^ k ≤ (1 + 3 / 2 ^ 54) * double.value (power k) := by linarith
      nlinarith only [this, hs₀]
    have hge : (1 - 3 / 2 ^ 54) * (s / 10 ^ k) ≤ s / double.value (power k) := by
      rw [mul_div_assoc', div_le_div_iff₀ hpow hpower]
      have : (1 - 3 / 2 ^ 54) * double.value (power k) ≤ 10 ^ k := by linarith
      nlinarith only [this, hs₀]
    rw [heq, zpow_neg, zpow_natCast, ← div_eq_mul_inv, abs_le]
    constructor <;> linarith
  · rw [heq, value_power (by omega), zpow_neg, zpow_natCast, div_eq_mul_inv]

theorem exists_readFrom_natCast (hk : k < 47) : ∃ num den, ReadFrom s k num den := by
  have hs₀ : (0 : ℚ) < s := by exact_mod_cast hs
  have hdigits := value_nearest hs hs'
  have hpow : (0 : ℚ) < 10 ^ k := by positivity
  obtain ⟨num, den, hn, hd, heq, h⟩ := exists_mul_eq (hdigits.symm ▸ hs₀) (value_power_pos hk)
  rw [hdigits] at heq
  refine ⟨num, den, hn, hd, ?_, ?_, fun hsmall ↦ ?_⟩
  · have hle : (k : ℤ) ≤ largestPower := by
      rw [largestPower]
      omega
    rw [ofDecimal, if_neg (by omega), if_pos hle, Int.toNat_natCast, h]
  · rw [heq, zpow_natCast, abs_le]
    have hlow := mul_le_mul_of_nonneg_left (le_power hk) hs₀.le
    have hhigh := mul_le_mul_of_nonneg_left (power_le hk) hs₀.le
    have hvalue := mul_pos hs₀ hpow
    constructor <;> linarith
  · rw [heq, value_power (by omega), zpow_natCast]

theorem exists_readFrom {x : ℤ} (hx : x.natAbs ≤ 46) : ∃ num den, ReadFrom s x num den := by
  rcases lt_or_ge x 0 with hneg | hnonneg
  · obtain ⟨k, rfl⟩ : ∃ k : ℕ, x = -k := ⟨(-x).toNat, by omega⟩
    exact exists_readFrom_neg hs hs' (by omega) (by omega)
  · obtain ⟨k, rfl⟩ := Int.eq_ofNat_of_zero_le hnonneg
    exact exists_readFrom_natCast hs hs' (by omega)

end ReadFrom

end Double

end FieldGraph.Number
