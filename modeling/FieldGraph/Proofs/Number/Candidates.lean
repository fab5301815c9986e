import FieldGraph.Proofs.Number.Nearest
import Mathlib.Data.Nat.Cast.Order.Field
import Mathlib.Order.Compare

/-!
# Shortest decimals

A decimal that is chosen for a magnitude lies in the interval that rounds to the magnitude.  What is
more, it is the nearer one of its grid wherever there is a choice, so that a decimal close to the end
of the interval belongs to a grid nearly as wide as the interval itself.
-/

namespace FieldGraph.Number

theorem compare_div_div (a b : ℕ) {c : ℕ} (hc : 0 < c) :
    compare (a / c : ℚ) (b / c) = compare a b := by
  have hc' : (0 : ℚ) < c := by exact_mod_cast hc
  rcases lt_trichotomy a b with h | rfl | h
  · rw [compare_lt_iff_lt.2 h, compare_lt_iff_lt, div_lt_div_iff_of_pos_right hc']
    exact_mod_cast h
  · rw [compare_eq_iff_eq.2 (rfl : a = a), compare_eq_iff_eq]
  · rw [compare_gt_iff_gt.2 h, compare_gt_iff_gt]
    exact (div_lt_div_iff_of_pos_right hc').2 (by exact_mod_cast h)

theorem tenPow_pos (k : ℕ) : 0 < tenPow k := Nat.pow_pos (by norm_num)

namespace Decimal

/-- A decimal as a number. -/
def value (d : Decimal) : ℚ := d.digits * 10 ^ d.exponent

theorem value_next (d : Decimal) : d.next.value = d.value + 10 ^ d.exponent := by
  rw [value, value, next, Nat.cast_succ, add_one_mul]

theorem value_eq_div (d : Decimal) :
    d.value = (d.digits * tenPow d.exponent.toNat : ℕ) / (tenPow (-d.exponent).toNat : ℕ) := by
  rw [value, zpow_eq_div]
  simp only [tenPow, Nat.pow_eq]
  push_cast
  ring

/-- The comparison of a decimal with a binary number is that of their values. -/
theorem cmp_eq (d : Decimal) (n : ℕ) (unit : ℤ) :
    d.cmp n unit = compare d.value (n * 2 ^ unit) := by
  obtain ⟨c, hc⟩ : ∃ c, c = tenPow (-d.exponent).toNat * 2 ^ (-unit).toNat := ⟨_, rfl⟩
  have hten : (tenPow (-d.exponent).toNat : ℚ) ≠ 0 := by exact_mod_cast (tenPow_pos _).ne'
  have hpos : 0 < c := by
    rw [hc]
    exact Nat.mul_pos (tenPow_pos _) (Nat.two_pow_pos _)
  have hleft : d.value = ((d.align n unit).1 : ℚ) / c := by
    rw [value_eq_div, align, hc, Nat.shiftLeft_eq, Nat.cast_mul _ (2 ^ _), Nat.cast_mul (tenPow _),
      mul_div_mul_right _ _ (by positivity)]
  have hright : (n : ℚ) * 2 ^ unit = ((d.align n unit).2 : ℚ) / c := by
    rw [zpow_eq_div, align, hc]
    simp only [Nat.shiftLeft_eq]
    push_cast
    field_simp
  rw [hleft, hright, compare_div_div _ _ hpos, cmp]

/-- The decimal lies between the ends of the interval, or on one that belongs to it. -/
theorem within_iff (d : Decimal) (i : RoundingInterval) (h : i.low < i.high) :
    d.within i = true ↔
      (i.low * 2 ^ i.unit < d.value ∧ d.value < i.high * 2 ^ i.unit) ∨
        (i.closed = true ∧ (d.value = i.low * 2 ^ i.unit ∨ d.value = i.high * 2 ^ i.unit)) := by
  have hlt : (i.low : ℚ) * 2 ^ i.unit < i.high * 2 ^ i.unit :=
    mul_lt_mul_of_pos_right (by exact_mod_cast h) (zpow_pos two_pos _)
  rw [within, cmp_eq, cmp_eq]
  rcases lt_trichotomy d.value (i.low * 2 ^ i.unit) with hl | hl | hl
  · have hh := hl.trans hlt
    simp [compare_lt_iff_lt.2 hl, compare_lt_iff_lt.2 hh, hl.ne, hh.ne, hl.not_gt]
  · simp [hl]
  · rw [compare_gt_iff_gt.2 hl]
    rcases lt_trichotomy d.value (i.high * 2 ^ i.unit) with hh | hh | hh
    · simp [compare_lt_iff_lt.2 hh, hl, hh]
    · simp [hh]
    · simp [compare_gt_iff_gt.2 hh, hl.ne', hh.ne', hh.not_gt]

/-! ## Neighbours on a grid -/

/-- A binary number in steps of a decimal grid. -/
theorem steps_eq (n : ℕ) (unit exponent : ℤ) :
    (n : ℚ) * 2 ^ unit =
      (((n <<< unit.toNat) * tenPow (-exponent).toNat : ℕ) : ℚ) /
        (tenPow exponent.toNat <<< (-unit).toNat : ℕ) * 10 ^ exponent := by
  rw [zpow_eq_div 2, zpow_eq_div 10, Nat.shiftLeft_eq, Nat.shiftLeft_eq]
  simp only [tenPow, Nat.pow_eq]
  push_cast
  field_simp

theorem floorAt_le (n : ℕ) (unit exponent : ℤ) :
    (floorAt n unit exponent).value ≤ n * 2 ^ unit := by
  rw [steps_eq n unit exponent, value, floorAt]
  exact mul_le_mul_of_nonneg_right Nat.cast_div_le (zpow_nonneg (by norm_num) _)

theorem lt_next_floorAt (n : ℕ) (unit exponent : ℤ) :
    (n : ℚ) * 2 ^ unit < (floorAt n unit exponent).next.value := by
  have hpos : 0 < tenPow exponent.toNat <<< (-unit).toNat := by
    rw [Nat.shiftLeft_eq]
    exact Nat.mul_pos (tenPow_pos _) (Nat.two_pow_pos _)
  rw [steps_eq n unit exponent, value, next, floorAt]
  refine mul_lt_mul_of_pos_right ?_ (zpow_pos (by norm_num) _)
  rw [div_lt_iff₀ (by exact_mod_cast hpos)]
  exact_mod_cast Nat.lt_mul_of_div_lt (Nat.lt_succ_self _) hpos

theorem value_next_floorAt (n : ℕ) (unit exponent : ℤ) :
    (floorAt n unit exponent).next.value = (floorAt n unit exponent).value + 10 ^ exponent :=
  value_next _

/-- A decimal that is preferred to its successor is at most half a step below the middle. -/
theorem middle_le_of_nearer {tie : Tie} {i : RoundingInterval} {d : Decimal}
    (h : nearer tie i d = d) : i.mid * 2 ^ i.unit ≤ d.value + 10 ^ d.exponent / 2 := by
  have hne : d.next ≠ d := fun h ↦ Nat.succ_ne_self _ (congrArg Decimal.digits h)
  have hcmp := cmp_eq ⟨2 * d.digits + 1, d.exponent⟩ (2 * i.mid) i.unit
  rw [nearer] at h
  split at h
  next hgt =>
    rw [hgt, eq_comm, compare_gt_iff_gt, value] at hcmp
    push_cast at hcmp
    rw [value]
    linarith
  next => exact absurd h hne
  next heq =>
    rw [heq, eq_comm, compare_eq_iff_eq, value] at hcmp
    push_cast at hcmp
    rw [value]
    linarith

/-- A decimal that is given up for its successor is at least half a step below the middle. -/
theorem le_middle_of_nearer {tie : Tie} {i : RoundingInterval} {d : Decimal}
    (h : nearer tie i d = d.next) : d.value + 10 ^ d.exponent / 2 ≤ i.mid * 2 ^ i.unit := by
  have hne : d ≠ d.next := fun h ↦ Nat.succ_ne_self _ (congrArg Decimal.digits h).symm
  have hcmp := cmp_eq ⟨2 * d.digits + 1, d.exponent⟩ (2 * i.mid) i.unit
  rw [nearer] at h
  split at h
  next => exact absurd h hne
  next hlt =>
    rw [hlt, eq_comm, compare_lt_iff_lt, value] at hcmp
    push_cast at hcmp
    rw [value]
    linarith
  next heq =>
    rw [heq, eq_comm, compare_eq_iff_eq, value] at hcmp
    push_cast at hcmp
    rw [value]
    linarith

theorem nearer_eq_or (tie : Tie) (i : RoundingInterval) (d : Decimal) :
    nearer tie i d = d ∨ nearer tie i d = d.next := by
  rw [nearer]
  split
  · exact .inl rfl
  · exact .inr rfl
  · split
    exacts [.inl rfl, .inr rfl]

/-- A candidate lies in the interval, next to the middle of it; if its neighbour on the other side
of the middle lies in the interval too, that one is not nearer. -/
theorem candidate?_eq_some {tie : Tie} {i : RoundingInterval} {e : ℤ} {d : Decimal}
    (h : candidate? tie i e = some d) :
    d.within i = true ∧
      ((d = floorAt i.mid i.unit e ∧
        (d.next.within i = true → i.mid * 2 ^ i.unit ≤ d.value + 10 ^ e / 2)) ∨
      (d = (floorAt i.mid i.unit e).next ∧
        ((floorAt i.mid i.unit e).within i = true →
          (floorAt i.mid i.unit e).value + 10 ^ e / 2 ≤ i.mid * 2 ^ i.unit))) := by
  obtain ⟨f, hf⟩ : ∃ f, f = floorAt i.mid i.unit e := ⟨_, rfl⟩
  have hexp : f.exponent = e := by rw [hf, floorAt]
  rw [candidate?, ← hf] at h
  rw [← hf, ← hexp]
  split at h
  next hin hnext =>
    obtain rfl := Option.some.inj h
    rcases nearer_eq_or tie i f with heq | heq
    · exact ⟨heq.symm ▸ hin, .inl ⟨heq, fun _ ↦ heq.symm ▸ middle_le_of_nearer heq⟩⟩
    · exact ⟨heq.symm ▸ hnext, .inr ⟨heq, fun _ ↦ le_middle_of_nearer heq⟩⟩
  next hin hnext =>
    obtain rfl := Option.some.inj h
    exact ⟨hin, .inl ⟨rfl, fun h ↦ absurd (h.symm.trans hnext) Bool.true_eq_false.mp⟩⟩
  next hin hnext =>
    obtain rfl := Option.some.inj h
    exact ⟨hnext, .inr ⟨rfl, fun h ↦ absurd (h.symm.trans hin) Bool.true_eq_false.mp⟩⟩
  next => exact absurd h (Option.some_ne_none _).symm

theorem exponent_of_candidate? {tie : Tie} {i : RoundingInterval} {e : ℤ} {d : Decimal}
    (h : candidate? tie i e = some d) : d.exponent = e := by
  obtain ⟨-, ⟨rfl, -⟩ | ⟨rfl, -⟩⟩ := candidate?_eq_some h <;> rfl

theorem candidate?_ne_none {tie : Tie} {i : RoundingInterval} {e : ℤ}
    (h : (floorAt i.mid i.unit e).next.within i = true) : candidate? tie i e ≠ none := by
  rw [candidate?]
  simp only [h]
  split <;> simp_all

/-- If one of the grids that are searched has a candidate, the candidate of the first such grid is
found. -/
theorem exists_candidate?_eq_search {tie : Tie} {i : RoundingInterval} {budget j : ℕ} {e : ℤ}
    (hj : j < budget) (h : candidate? tie i (e - j) ≠ none) :
    ∃ e', candidate? tie i e' = some (search tie i budget e) ∧
      (e' = e ∨ candidate? tie i (e' + 1) = none) := by
  induction budget generalizing e j with
  | zero => exact absurd hj (Nat.not_lt_zero _)
  | succ budget ih =>
      rw [search]
      split
      next d hd => exact ⟨e, hd, .inl rfl⟩
      next hnone =>
        cases j with
        | zero =>
            rw [Nat.cast_zero, sub_zero] at h
            exact absurd hnone h
        | succ j =>
            rw [Nat.cast_succ, add_comm, ← sub_sub] at h
            obtain ⟨e', he', hfirst⟩ := ih (Nat.lt_of_succ_lt_succ hj) h
            refine ⟨e', he', .inr ?_⟩
            rcases hfirst with rfl | hfirst
            · rwa [sub_add_cancel]
            · exact hfirst

end Decimal

/-! ## The interval around a magnitude -/

namespace BinaryFormat

open Decimal

variable {f : BinaryFormat}

/-- The unit of the next magnitude is the same or, from a power of two on, twice as large. -/
theorem parts_succ (f : BinaryFormat) (c : ℕ) :
    f.parts (c + 1) = ((f.parts c).1 + 1, (f.parts c).2) ∨
      ((f.parts c).1 + 1 = 2 * f.half ∧ f.parts (c + 1) = (f.half, (f.parts c).2 + 1)) := by
  obtain ⟨k, n, rfl, hn, h⟩ := f.exists_encode c
  rw [parts_encode hn h]
  by_cases hlt : n + 1 < 2 * f.half
  · rw [Nat.add_assoc, parts_encode hlt (h.imp_right Nat.le_succ_of_le)]
    exact .inl rfl
  · have hpos := f.half_pos
    have hnext : f.half * k + n + 1 = f.half * (k + 1) + f.half := by
      rw [Nat.mul_succ]
      omega
    rw [hnext, parts_encode (by omega) (.inr le_rfl), Nat.cast_succ, add_assoc]
    exact .inr ⟨by omega, rfl⟩

theorem unit_succ (f : BinaryFormat) (c : ℕ) :
    f.unit (c + 1) = f.unit c ∨
      (f.unit (c + 1) = 2 * f.unit c ∧ (f.parts (c + 1)).1 = f.half) := by
  rcases f.parts_succ c with h | ⟨-, h⟩
  · rw [unit, unit, h]
    exact .inl rfl
  · rw [unit, unit, h, zpow_add_one₀ two_ne_zero, mul_comm]
    exact .inr ⟨rfl, rfl⟩

/-- The ends of the interval around a magnitude are the halfway points to its neighbours. -/
theorem interval_succ (f : BinaryFormat) (c : ℕ) :
    (f.interval (c + 1)).low * 2 ^ (f.interval (c + 1)).unit = f.mid c ∧
      (f.interval (c + 1)).mid * 2 ^ (f.interval (c + 1)).unit = f.value (c + 1) ∧
      (f.interval (c + 1)).high * 2 ^ (f.interval (c + 1)).unit = f.mid (c + 1) := by
  have hq : ∀ q : ℤ, (2 : ℚ) ^ q = 4 * 2 ^ (q - 2) := fun q ↦ by
    rw [zpow_sub₀ two_ne_zero]
    norm_num
    ring
  have hmid : f.mid c = (f.parts c).1 * f.unit c + f.unit c / 2 := rfl
  have hmid' : f.mid (c + 1) = (f.parts (c + 1)).1 * f.unit (c + 1) + f.unit (c + 1) / 2 := rfl
  have hvalue : f.value (c + 1) = (f.parts (c + 1)).1 * f.unit (c + 1) := rfl
  have hhalf := f.half_pos
  rw [hmid, hmid', hvalue, interval]
  simp only [Nat.one_shiftLeft]
  rw [show 2 ^ (f.precision - 1) = f.half from rfl]
  rcases f.parts_succ c with h | ⟨hlast, h⟩
  · have hbelow : ¬((f.parts c).1 + 1 = f.half ∧ f.leastExponent < (f.parts c).2) := by
      obtain ⟨k, n, rfl, hn, hk⟩ := f.exists_encode c
      rw [parts_encode hn hk]
      omega
    rw [unit, unit, h]
    dsimp only
    rw [if_neg hbelow, hq (f.parts c).2, Nat.cast_sub (by omega)]
    push_cast
    refine ⟨?_, ?_, ?_⟩ <;> ring
  · have hbelow : f.half = f.half ∧ f.leastExponent < (f.parts c).2 + 1 :=
      ⟨rfl, Int.lt_add_one_of_le (leastExponent_le f c)⟩
    have hlast' : ((f.parts c).1 : ℚ) = 2 * f.half - 1 := by
      rw [eq_sub_iff_add_eq]
      exact_mod_cast hlast
    rw [unit, unit, h]
    dsimp only
    rw [if_pos hbelow, hlast', zpow_add_one₀ two_ne_zero, hq (f.parts c).2,
      show (f.parts c).2 + 1 - 2 = (f.parts c).2 - 2 + 1 by ring, zpow_add_one₀ two_ne_zero,
      Nat.cast_sub (by omega)]
    push_cast
    refine ⟨?_, ?_, ?_⟩ <;> ring

theorem interval_low_lt_high (f : BinaryFormat) (code : ℕ) :
    (f.interval code).low < (f.interval code).high := by
  rw [interval]
  dsimp only
  omega

/-- The ends of the interval belong to it if the magnitude is even. -/
theorem interval_closed (hf : 2 ≤ f.precision) (c : ℕ) :
    (f.interval (c + 1)).closed = true ↔ c % 2 = 1 := by
  obtain ⟨k, n, hc, hn, hk⟩ := f.exists_encode (c + 1)
  have hodd : (f.half * k + n) % 2 = n % 2 := by
    rw [Nat.add_mod, Nat.mul_mod, half_mod_two hf]
    simp
  rw [interval, hc, parts_encode hn hk]
  simp only [beq_iff_eq]
  omega

theorem within_interval (hf : 2 ≤ f.precision) (d : Decimal) (c : ℕ) :
    d.within (f.interval (c + 1)) = true ↔
      (f.mid c < d.value ∧ d.value < f.mid (c + 1)) ∨
        (c % 2 = 1 ∧ (d.value = f.mid c ∨ d.value = f.mid (c + 1))) := by
  obtain ⟨hlow, -, hhigh⟩ := f.interval_succ c
  rw [within_iff _ _ (f.interval_low_lt_high _), hlow, hhigh, interval_closed hf]

section Candidate

variable (hf : 2 ≤ f.precision) {tie : Tie} {c : ℕ} {e : ℤ}
include hf

/-- A grid that is finer than half a unit has a candidate. -/
theorem candidate?_ne_none_of_lt (h : (10 : ℚ) ^ e < f.unit (c + 1) / 2) :
    candidate? tie (f.interval (c + 1)) e ≠ none := by
  obtain ⟨-, hmiddle, -⟩ := f.interval_succ c
  have hle := floorAt_le (f.interval (c + 1)).mid (f.interval (c + 1)).unit e
  have hlt := lt_next_floorAt (f.interval (c + 1)).mid (f.interval (c + 1)).unit e
  have hnext := value_next_floorAt (f.interval (c + 1)).mid (f.interval (c + 1)).unit e
  rw [hmiddle] at hle hlt
  refine candidate?_ne_none ((within_interval hf _ _).2 (.inl ⟨?_, ?_⟩))
  · exact (f.mid_lt_value_succ c).trans hlt
  · rw [mid]
    linarith

variable {d : Decimal} (h : candidate? tie (f.interval (c + 1)) e = some d) {t : ℚ} (ht : 0 ≤ t)
include h ht

/-- A candidate just above the lower end of the interval belongs to a grid about as wide as the unit
below the magnitude. -/
theorem unit_le_of_candidate (hlt : 2 * t < f.unit c) (hd : d.value ≤ f.mid c + t) :
    f.unit c - 2 * t ≤ 10 ^ e := by
  obtain ⟨-, hmiddle, -⟩ := f.interval_succ c
  have hvalue := f.value_succ c
  have hunit : f.unit c ≤ f.unit (c + 1) := by
    have := f.unit_pos c
    rcases f.unit_succ c with h | ⟨h, -⟩ <;> linarith
  have hcandidate := candidate?_eq_some h
  have habove := lt_next_floorAt (f.interval (c + 1)).mid (f.interval (c + 1)).unit e
  have hnext := value_next_floorAt (f.interval (c + 1)).mid (f.interval (c + 1)).unit e
  obtain ⟨g, hg⟩ : ∃ g, g = floorAt (f.interval (c + 1)).mid (f.interval (c + 1)).unit e := ⟨_, rfl⟩
  rw [hmiddle, ← hg] at hcandidate habove
  rw [← hg] at hnext
  rw [mid] at hd
  obtain ⟨-, ⟨rfl, hnear⟩ | ⟨rfl, -⟩⟩ := hcandidate
  · -- the neighbour beyond the middle is outside the interval, or further from the middle
    by_cases hin : d.next.value < f.mid (c + 1)
    · have := hnear ((within_interval hf _ _).2 (.inl ⟨(f.mid_lt_value_succ c).trans habove, hin⟩))
      linarith
    · rw [mid] at hin
      linarith
  · linarith

/-- A candidate just below the upper end of the interval belongs to a grid about as wide as the unit
of the magnitude, or three quarters of it if the magnitude is a power of two. -/
theorem unit_le_or_of_candidate (hlt : 2 * t < f.unit (c + 1)) (hd : f.mid (c + 1) - t ≤ d.value) :
    f.unit (c + 1) - 2 * t ≤ 10 ^ e ∨
      ((f.parts (c + 1)).1 = f.half ∧ 3 / 4 * f.unit (c + 1) - t ≤ 10 ^ e) := by
  obtain ⟨-, hmiddle, -⟩ := f.interval_succ c
  have hvalue := f.value_succ c
  have hcandidate := candidate?_eq_some h
  have hbelow := floorAt_le (f.interval (c + 1)).mid (f.interval (c + 1)).unit e
  have hnext := value_next_floorAt (f.interval (c + 1)).mid (f.interval (c + 1)).unit e
  obtain ⟨g, hg⟩ : ∃ g, g = floorAt (f.interval (c + 1)).mid (f.interval (c + 1)).unit e := ⟨_, rfl⟩
  rw [hmiddle, ← hg] at hcandidate hbelow
  rw [← hg] at hnext
  rw [mid] at hd
  obtain ⟨-, ⟨rfl, -⟩ | ⟨rfl, hnear⟩⟩ := hcandidate
  · linarith
  · by_cases hin : f.mid c < g.value
    · have := hnear ((within_interval hf _ _).2 (.inl ⟨hin, hbelow.trans_lt (f.value_lt_mid _)⟩))
      exact .inl (by linarith)
    · rw [mid] at hin
      rcases f.unit_succ c with h | ⟨h, hpower⟩
      · exact .inl (by linarith)
      · exact .inr ⟨hpower, by linarith⟩

end Candidate

end BinaryFormat

end FieldGraph.Number
