import FieldGraph.Proofs.Number.Magnitudes

/-!
# Rounding to the nearest magnitude

A positive number lies between two neighbouring magnitudes, of which rounding takes the nearer one
and, halfway between them, the one whose encoding is even.  So rounding gives a magnitude exactly to
what lies between its two halfway points.
-/

namespace FieldGraph.Number

/-- Comparing shifted numbers compares a quotient with a power of two. -/
theorem shiftLeft_le_iff {num den : ℕ} (hd : 0 < den) (k : ℤ) :
    den <<< k.toNat ≤ num <<< (-k).toNat ↔ (2 : ℚ) ^ k ≤ num / den := by
  have hd' : (0 : ℚ) < den := by exact_mod_cast hd
  rw [zpow_eq_div, div_le_div_iff₀ (by positivity) hd', Nat.shiftLeft_eq, Nat.shiftLeft_eq, mul_comm]
  exact_mod_cast Iff.rfl

theorem floorLog2_spec {num den : ℕ} (hn : 0 < num) (hd : 0 < den) :
    (2 : ℚ) ^ floorLog2 num den ≤ num / den ∧ (num / den : ℚ) < 2 ^ (floorLog2 num den + 1) := by
  have hd' : (0 : ℚ) < den := by exact_mod_cast hd
  have hnum : (2 : ℚ) ^ num.log2 ≤ num ∧ (num : ℚ) < 2 ^ (num.log2 + 1) :=
    ⟨by exact_mod_cast Nat.log2_self_le hn.ne', by exact_mod_cast Nat.lt_log2_self⟩
  have hden : (2 : ℚ) ^ den.log2 ≤ den ∧ (den : ℚ) < 2 ^ (den.log2 + 1) :=
    ⟨by exact_mod_cast Nat.log2_self_le hd.ne', by exact_mod_cast Nat.lt_log2_self⟩
  obtain ⟨k, hk⟩ : ∃ k : ℤ, k = num.log2 - den.log2 := ⟨_, rfl⟩
  -- the quotient of the leading powers is off by less than a factor of two either way
  have hlow : (2 : ℚ) ^ (k - 1) ≤ num / den := by
    rw [le_div_iff₀ hd', hk]
    calc (2 : ℚ) ^ ((num.log2 : ℤ) - den.log2 - 1) * den
        ≤ 2 ^ ((num.log2 : ℤ) - den.log2 - 1) * 2 ^ (den.log2 + 1) := by gcongr; exact hden.2.le
      _ = 2 ^ num.log2 := by
          rw [← zpow_natCast, ← zpow_natCast, ← zpow_add₀ (by norm_num)]
          congr 1
          push_cast
          ring
      _ ≤ num := hnum.1
  have hhigh : (num / den : ℚ) < 2 ^ (k + 1) := by
    rw [div_lt_iff₀ hd', hk]
    calc (num : ℚ) < 2 ^ (num.log2 + 1) := hnum.2
      _ = 2 ^ ((num.log2 : ℤ) - den.log2 + 1) * 2 ^ den.log2 := by
          rw [← zpow_natCast, ← zpow_natCast, ← zpow_add₀ (by norm_num)]
          congr 1
          push_cast
          ring
      _ ≤ 2 ^ ((num.log2 : ℤ) - den.log2 + 1) * den := by gcongr; exact hden.1
  rw [floorLog2, ← hk]
  split
  next h => exact ⟨(shiftLeft_le_iff hd k).1 h, hhigh⟩
  next h =>
    refine ⟨hlow, ?_⟩
    rw [sub_add_cancel]
    exact not_le.1 (mt (shiftLeft_le_iff hd k).2 h)

/-- Rounding a quotient goes by what is left over from half the denominator. -/
theorem divNearestEven_eq (num den : ℕ) :
    divNearestEven num den =
      if den < 2 * (num % den) ∨ (den = 2 * (num % den) ∧ num / den % 2 = 1) then num / den + 1
      else num / den := by
  rw [divNearestEven]
  simp only [Bool.or_eq_true, decide_eq_true_eq, Bool.and_eq_true, beq_iff_eq, eq_comm (a := den)]

namespace BinaryFormat

variable {f : BinaryFormat}

/-- The exponent in which a quotient is rounded. -/
def exponentOf (f : BinaryFormat) (num den : ℕ) : ℤ :=
  max (floorLog2 num den - (f.precision - 1 : ℕ)) f.leastExponent

theorem lt_of_exponentOf (hf : 2 ≤ f.precision) {num den : ℕ} (hn : 0 < num) (hd : 0 < den) :
    (num / den : ℚ) < 2 * f.half * 2 ^ f.exponentOf num den := by
  refine (floorLog2_spec hn hd).2.trans_le ?_
  have hexp : floorLog2 num den + 1 ≤ (f.precision : ℤ) + f.exponentOf num den := by
    rw [exponentOf]
    omega
  calc (2 : ℚ) ^ (floorLog2 num den + 1) ≤ 2 ^ ((f.precision : ℤ) + f.exponentOf num den) :=
        zpow_le_zpow_right₀ (by norm_num) hexp
    _ = 2 * f.half * 2 ^ f.exponentOf num den := by
        obtain ⟨p, hp⟩ := Nat.exists_eq_add_of_le hf
        rw [zpow_add₀ (by norm_num), zpow_natCast, half, hp, show 2 + p - 1 = p + 1 by omega]
        push_cast
        ring

theorem le_of_exponentOf {num den : ℕ} (hn : 0 < num) (hd : 0 < den)
    (h : f.exponentOf num den ≠ f.leastExponent) :
    f.half * (2 : ℚ) ^ f.exponentOf num den ≤ num / den := by
  refine le_trans (le_of_eq ?_) (floorLog2_spec hn hd).1
  have hexp : f.exponentOf num den = floorLog2 num den - (f.precision - 1 : ℕ) := by
    rw [exponentOf] at h ⊢
    omega
  rw [hexp, half, Nat.cast_pow, Nat.cast_ofNat, ← zpow_natCast, ← zpow_add₀ (by norm_num)]
  congr 1
  ring

/-- The quotient in units of an exponent. -/
theorem shifted_div (num : ℕ) {den : ℕ} (hd : 0 < den) (q : ℤ) :
    ((num <<< (-q).toNat : ℕ) : ℚ) / (den <<< q.toNat : ℕ) * 2 ^ q = num / den := by
  have hd' : (0 : ℚ) < den := by exact_mod_cast hd
  rw [zpow_eq_div, Nat.shiftLeft_eq, Nat.shiftLeft_eq]
  push_cast
  field_simp

/-- A whole part, whose digits the format has, with something left over from a denominator lies
between two magnitudes, and what is left over tells on which side of the middle. -/
theorem place_of_encode {k n b r : ℕ} (hn : n < 2 * f.half) (hk : k = 0 ∨ f.half ≤ n) (hr : r < b)
    {v : ℚ} (hv : v = (n + r / b) * 2 ^ (f.leastExponent + k)) :
    f.value (f.half * k + n) ≤ v ∧ v < f.value (f.half * k + n + 1) ∧
      (f.mid (f.half * k + n) < v ↔ b < 2 * r) ∧ (v = f.mid (f.half * k + n) ↔ b = 2 * r) := by
  have hb : (0 : ℚ) < b := by exact_mod_cast Nat.zero_lt_of_lt hr
  have hunit : (0 : ℚ) < 2 ^ (f.leastExponent + (k : ℤ)) := zpow_pos (by norm_num) _
  have hvalue : f.value (f.half * k + n) = n * 2 ^ (f.leastExponent + (k : ℤ)) := by
    rw [value, parts_encode hn hk]
  have hmid : f.mid (f.half * k + n) = (n + 1 / 2) * 2 ^ (f.leastExponent + (k : ℤ)) := by
    rw [mid, hvalue, unit, parts_encode hn hk]
    ring
  have hlt : (r : ℚ) / b < 1 := (div_lt_one hb).2 (by exact_mod_cast hr)
  refine ⟨?_, ?_, ?_, ?_⟩
  · rw [hvalue, hv, mul_le_mul_iff_left₀ hunit]
    exact le_add_of_nonneg_right (by positivity)
  · rw [value_succ, hvalue, unit, parts_encode hn hk, hv, ← add_one_mul, mul_lt_mul_iff_left₀ hunit]
    linarith
  · rw [hmid, hv, mul_lt_mul_iff_left₀ hunit, add_lt_add_iff_left, div_lt_div_iff₀ two_pos hb,
      one_mul, mul_comm]
    exact_mod_cast Iff.rfl
  · rw [hmid, hv, mul_left_inj' hunit.ne', add_right_inj, div_eq_div_iff hb.ne' two_ne_zero,
      one_mul, mul_comm, eq_comm]
    exact_mod_cast Iff.rfl

/-- Rounding takes the nearer of the two magnitudes around a number, and halfway the even one. -/
theorem exists_nearest (hf : 2 ≤ f.precision) {num den : ℕ} (hn : 0 < num) (hd : 0 < den) :
    ∃ c, f.value c ≤ num / den ∧ (num / den : ℚ) < f.value (c + 1) ∧
      f.nearest num den = min f.infinity
        (if f.mid c < num / den ∨ (num / den = f.mid c ∧ c % 2 = 1) then c + 1 else c) := by
  obtain ⟨q, hq⟩ : ∃ q, q = f.exponentOf num den := ⟨_, rfl⟩
  obtain ⟨a, ha⟩ : ∃ a, a = num <<< (-q).toNat := ⟨_, rfl⟩
  obtain ⟨b, hb⟩ : ∃ b, b = den <<< q.toNat := ⟨_, rfl⟩
  have hbpos : 0 < b := by
    rw [hb, Nat.shiftLeft_eq]
    positivity
  have hb' : (0 : ℚ) < b := by exact_mod_cast hbpos
  have hunit : (0 : ℚ) < 2 ^ q := zpow_pos (by norm_num) q
  have hv : (num / den : ℚ) = a / b * 2 ^ q := by rw [ha, hb, shifted_div num hd q]
  obtain ⟨k, hk⟩ : ∃ k : ℕ, q = f.leastExponent + k := by
    refine ⟨(q - f.leastExponent).toNat, ?_⟩
    have : f.leastExponent ≤ q := hq ▸ le_max_right _ _
    omega
  -- the whole part uses the digits of the format, and all of them above the least exponent
  have hlt : a / b < 2 * f.half := by
    have h := lt_of_exponentOf hf hn hd
    rw [← hq, hv, mul_lt_mul_iff_left₀ hunit, div_lt_iff₀ hb'] at h
    rw [Nat.div_lt_iff_lt_mul hbpos]
    exact_mod_cast h
  have hge : k = 0 ∨ f.half ≤ a / b := by
    by_cases h : f.exponentOf num den = f.leastExponent
    · exact .inl (by omega)
    · have h := le_of_exponentOf hn hd h
      rw [← hq, hv, mul_le_mul_iff_left₀ hunit, le_div_iff₀ hb'] at h
      rw [Nat.le_div_iff_mul_le hbpos]
      exact .inr (by exact_mod_cast h)
  have hdiv : (num / den : ℚ) = ((a / b : ℕ) + (a % b : ℕ) / b) * 2 ^ (f.leastExponent + (k : ℤ)) := by
    rw [hv, ← hk, mul_left_inj' hunit.ne', div_eq_iff hb'.ne', add_mul, div_mul_cancel₀ _ hb'.ne']
    exact_mod_cast (Nat.div_add_mod' a b).symm
  obtain ⟨hlow, hhigh, hcmp, htie⟩ := place_of_encode hlt hge (Nat.mod_lt a hbpos) hdiv
  refine ⟨_, hlow, hhigh, ?_⟩
  have hshift : (q - f.leastExponent).toNat <<< (f.precision - 1) = f.half * k := by
    rw [Nat.shiftLeft_eq, half, Nat.mul_comm, hk]
    simp
  have hround : f.nearest num den = min f.infinity (f.half * k + divNearestEven a b) := by
    rw [nearest, if_neg hn.ne', ha, hb, ← hshift, hq]
    rfl
  have hodd : (f.half * k + a / b) % 2 = a / b % 2 := by
    rw [Nat.add_mod, Nat.mul_mod, half_mod_two hf]
    simp
  rw [hround, divNearestEven_eq]
  simp only [hcmp, htie, hodd]
  split <;> rfl

section Place

variable (hf : 2 ≤ f.precision) {num den : ℕ} (hn : 0 < num) (hd : 0 < den)
include hf hn hd

theorem nearest_of_place {c : ℕ} (hlow : f.value c ≤ num / den)
    (hhigh : (num / den : ℚ) < f.value (c + 1)) :
    f.nearest num den = min f.infinity
      (if f.mid c < num / den ∨ (num / den = f.mid c ∧ c % 2 = 1) then c + 1 else c) := by
  obtain ⟨c', hlow', hhigh', h⟩ := exists_nearest hf hn hd
  obtain rfl := eq_of_value_le hlow' hhigh' hlow hhigh
  exact h

/-- What is past the middle is rounded up. -/
theorem lt_nearest {c : ℕ} (hc : c < f.infinity) (h : f.mid c < num / den) :
    c < f.nearest num den := by
  obtain ⟨c', hlow, hhigh, hround⟩ := exists_nearest hf hn hd
  have hle := f.strictMono_value.lt_iff_lt.1 (((f.value_lt_mid c).trans h).trans hhigh)
  rw [hround, lt_min_iff]
  refine ⟨hc, ?_⟩
  by_cases heq : c = c'
  · rw [if_pos (.inl (heq ▸ h))]
    omega
  · split <;> omega

/-- What is before the middle is not rounded past it. -/
theorem nearest_le_of_lt_mid {c : ℕ} (h : (num / den : ℚ) < f.mid c) : f.nearest num den ≤ c := by
  obtain ⟨c', hlow, hhigh, hround⟩ := exists_nearest hf hn hd
  have hle := f.strictMono_value.lt_iff_lt.1 ((hlow.trans_lt h).trans (f.mid_lt_value_succ c))
  rw [hround]
  refine (min_le_right _ _).trans ?_
  by_cases heq : c' = c
  · subst heq
    rw [if_neg (by rintro (hlt | ⟨htie, -⟩) <;> linarith)]
  · split <;> omega

/-- Rounding does not cross a magnitude. -/
theorem le_nearest {c : ℕ} (hc : c ≤ f.infinity) (h : f.value c ≤ num / den) :
    c ≤ f.nearest num den := by
  obtain ⟨c', hlow, hhigh, hround⟩ := exists_nearest hf hn hd
  have hle := f.strictMono_value.lt_iff_lt.1 (h.trans_lt hhigh)
  rw [hround, le_min_iff]
  refine ⟨hc, ?_⟩
  split <;> omega

theorem nearest_le {c : ℕ} (h : (num / den : ℚ) ≤ f.value c) : f.nearest num den ≤ c :=
  nearest_le_of_lt_mid hf hn hd (h.trans_lt (f.value_lt_mid c))

/-- A number between the middles on either side of a magnitude is rounded to it, and a middle itself
if the magnitude is even. -/
theorem nearest_eq {c : ℕ} (hc : c + 1 < f.infinity)
    (hlow : f.mid c < num / den ∨ (num / den = f.mid c ∧ c % 2 = 1))
    (hhigh : (num / den : ℚ) < f.mid (c + 1) ∨ (num / den = f.mid (c + 1) ∧ c % 2 = 1)) :
    f.nearest num den = c + 1 := by
  rcases hlow with hlow | ⟨hlow, hodd⟩
  · rcases hhigh with hhigh | ⟨hhigh, hodd⟩
    · have hlt := lt_nearest hf hn hd (by omega) hlow
      have hle := nearest_le_of_lt_mid hf hn hd hhigh
      omega
    · rw [nearest_of_place hf hn hd (c := c + 1) (hhigh ▸ (f.value_lt_mid _).le)
        (hhigh ▸ f.mid_lt_value_succ _), if_neg ?_, min_eq_right hc.le]
      rintro (h | ⟨-, h⟩)
      · exact absurd hhigh h.ne'
      · omega
  · rw [nearest_of_place hf hn hd (c := c) (hlow ▸ (f.value_lt_mid _).le)
      (hlow ▸ f.mid_lt_value_succ _), if_pos (.inr ⟨hlow, hodd⟩), min_eq_right hc.le]

end Place

/-- Rounding depends on the number alone. -/
theorem nearest_congr (hf : 2 ≤ f.precision) {num den num' den' : ℕ} (hn : 0 < num) (hd : 0 < den)
    (hn' : 0 < num') (hd' : 0 < den') (h : (num / den : ℚ) = num' / den') :
    f.nearest num den = f.nearest num' den' := by
  obtain ⟨c, hlow, hhigh, hround⟩ := exists_nearest hf hn hd
  rw [h] at hlow hhigh hround
  rw [hround, nearest_of_place hf hn' hd' hlow hhigh]

/-- Every number with no more digits than the format has is one of its magnitudes. -/
theorem exists_value_eq (k n : ℕ) (hn : n < 2 * f.half) :
    ∃ c, f.value c = n * 2 ^ (f.leastExponent + k) := by
  induction k generalizing n with
  | zero => exact ⟨f.half * 0 + n, by rw [value, parts_encode hn (.inl rfl)]⟩
  | succ k ih =>
      by_cases hlt : n < f.half
      · obtain ⟨c, hc⟩ := ih (2 * n) (by omega)
        refine ⟨c, hc.trans ?_⟩
        push_cast
        rw [← add_assoc, zpow_add_one₀ (by norm_num)]
        ring
      · exact ⟨f.half * (k + 1) + n, by rw [value, parts_encode hn (.inr (Nat.not_lt.1 hlt))]⟩

end BinaryFormat

end FieldGraph.Number
