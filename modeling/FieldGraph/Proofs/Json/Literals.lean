import FieldGraph.Json.Basic
import Mathlib.Data.List.Basic
import Mathlib.Tactic.Ring

/-!
# Literals

What the literals of numbers look like, and what they stand for.  A literal in scientific notation
keeps digits and exponent apart and so stands for the very decimal it was made from; in positional
notation the digits of a large number swallow its exponent.
-/

namespace FieldGraph

open Number

/-- At least one digit, and nothing but digits. -/
structure IsNumeral (cs : List Char) : Prop where
  ne_nil : cs ≠ []
  isDigit : ∀ c ∈ cs, c.isDigit = true

theorem isNumeral_natDigits (n : ℕ) : IsNumeral (natDigits n) :=
  ⟨Nat.toDigits_ne_nil, fun _ ↦ Nat.isDigit_of_mem_toDigits (by decide) (by decide)⟩

theorem isNumeral_zero : IsNumeral ['0'] := isNumeral_natDigits 0

namespace IsNumeral

variable {ds es : List Char}

theorem append (hd : IsNumeral ds) (he : ∀ c ∈ es, c.isDigit = true) : IsNumeral (ds ++ es) where
  ne_nil h := hd.ne_nil (List.append_eq_nil_iff.1 h).1
  isDigit c hc := (List.mem_append.1 hc).elim (hd.isDigit c) (he c)

theorem take (hd : IsNumeral ds) {n : ℕ} (hn : 0 < n) : IsNumeral (ds.take n) where
  ne_nil h := (List.take_eq_nil_iff.1 h).elim hn.ne' hd.ne_nil
  isDigit c hc := hd.isDigit c (List.mem_of_mem_take hc)

theorem drop (hd : IsNumeral ds) {n : ℕ} (hn : n < ds.length) : IsNumeral (ds.drop n) where
  ne_nil h := absurd (List.drop_eq_nil_iff.1 h) (Nat.not_le.2 hn)
  isDigit c hc := hd.isDigit c (List.mem_of_mem_drop hc)

end IsNumeral

theorem isDigit_of_mem_replicate {n : ℕ} : ∀ c ∈ List.replicate n '0', c.isDigit = true := by
  intro c hc
  rw [List.eq_of_mem_replicate hc]
  rfl

/-- The digits of a positive number do not start with a zero. -/
theorem head?_natDigits_ne {n : ℕ} (hn : n ≠ 0) : (natDigits n).head? ≠ some '0' := by
  rw [natDigits]
  induction n using Nat.base_induction 10 (by decide) with
  | single m hm =>
    rw [Nat.toDigits_of_lt_base hm]
    simpa using hn
  | digit m k hk hm ih =>
    rw [← Nat.toDigits_append_toDigits (by decide) hm hk,
      List.head?_append_of_ne_nil _ Nat.toDigits_ne_nil]
    exact ih hm.ne'

namespace NumberLiteral

/-! ## Digits -/

theorem digitsValue_eq (cs : List Char) : digitsValue cs = Nat.ofDigitChars 10 cs 0 := rfl

@[simp] theorem digitsValue_natDigits (n : ℕ) : digitsValue (natDigits n) = n :=
  Nat.ofDigitChars_ten_toDigits

theorem digitsValue_append_zeros (cs : List Char) (n : ℕ) :
    digitsValue (cs ++ List.replicate n '0') = digitsValue cs * 10 ^ n := by
  rw [digitsValue_eq, Nat.ofDigitChars_append, Nat.ofDigitChars_replicate_zero, mul_comm,
    digitsValue_eq]

theorem digitsValue_zeros_append (n : ℕ) (cs : List Char) :
    digitsValue (List.replicate n '0' ++ cs) = digitsValue cs := by
  rw [digitsValue_eq, Nat.ofDigitChars_append, Nat.ofDigitChars_replicate_zero, mul_zero,
    digitsValue_eq]

/-- A number only grows with further digits. -/
theorem le_ofDigitChars (n : ℕ) (cs : List Char) : n ≤ Nat.ofDigitChars 10 cs n := by
  rw [Nat.ofDigitChars_eq_ofDigitChars_zero]
  exact (Nat.le_mul_of_pos_left n (pow_pos (by decide) _)).trans (Nat.le_add_right _ _)

/-- All digits are taken of a number that fits in 64 bits. -/
theorem takeDigits_eq {n : ℕ} {cs : List Char} (h : Nat.ofDigitChars 10 cs n < UInt64.size) :
    takeDigits n cs = (Nat.ofDigitChars 10 cs n, []) := by
  induction cs generalizing n with
  | nil => rfl
  | cons c cs ih =>
    rw [Nat.ofDigitChars_cons] at h ⊢
    rw [takeDigits, if_pos ((le_ofDigitChars _ cs).trans_lt h), ih h]

/-- No digits are left out of a magnitude whose digits fit in 64 bits. -/
theorem leading_eq {n : NumberLiteral} (h : n.decimal.digits < UInt64.size) :
    n.leading = n.decimal := by
  rw [decimal, digitsValue_eq, Nat.ofDigitChars_append] at h
  have hwhole : Nat.ofDigitChars 10 n.whole 0 < UInt64.size := (le_ofDigitChars _ _).trans_lt h
  rw [leading, decimal, digitsValue_eq, Nat.ofDigitChars_append]
  simp only [takeDigits_eq hwhole, takeDigits_eq h, List.length_nil, Nat.sub_zero, Nat.cast_zero,
    add_zero]

/-! ## Notations -/

/-- A literal as texts have it: numerals throughout, and no zero before further digits. -/
structure WellFormed (n : NumberLiteral) : Prop where
  whole : IsNumeral n.whole
  leading_zero : n.whole.head? = some '0' → n.whole = ['0']
  fraction : ∀ ds ∈ n.fraction, IsNumeral ds
  exponent : ∀ e ∈ n.exponent, IsNumeral e.2

theorem wellFormed_ofNat (n : ℕ) : (ofNat n).WellFormed where
  whole := isNumeral_natDigits n
  leading_zero h := by
    rcases eq_or_ne n 0 with rfl | hn
    · rfl
    · exact absurd h (head?_natDigits_ne hn)
  fraction _ h := nomatch h
  exponent _ h := nomatch h

section Positional

variable {d : Decimal}

theorem positional_of_nonneg (h : 0 ≤ d.exponent) :
    d.positional = (natDigits d.digits ++ List.replicate d.exponent.toNat '0', []) := by
  rw [Decimal.positional]
  exact if_pos h

/-- What positional notation writes of a decimal with places: all of its digits, those of the places
after the point. -/
theorem positional_of_neg (h : d.exponent < 0) :
    IsNumeral d.positional.1 ∧ IsNumeral d.positional.2 ∧
      (d.positional.1.head? = some '0' → d.positional.1 = ['0']) ∧
      (d.positional.2.length : ℤ) = -d.exponent ∧
      digitsValue (d.positional.1 ++ d.positional.2) = d.digits := by
  have hnum := isNumeral_natDigits d.digits
  obtain ⟨places, hplaces⟩ : ∃ places, places = (-d.exponent).toNat := ⟨_, rfl⟩
  rw [Decimal.positional, if_neg (by omega), ← hplaces]
  dsimp only
  split
  next hlt =>
    rw [List.splitAt_eq]
    refine ⟨hnum.take (by omega), hnum.drop (by omega), fun hhead ↦ ?_, ?_, ?_⟩
    · rw [List.head?_take, if_neg (by omega)] at hhead
      have hzero : d.digits = 0 := by_contra fun hne ↦ head?_natDigits_ne hne hhead
      rw [hzero] at hlt
      exact absurd hlt (by change ¬ places < 1; omega)
    · rw [List.length_drop]
      omega
    · rw [List.take_append_drop, digitsValue_natDigits]
  next hle =>
    refine ⟨isNumeral_zero, ⟨by simp [hnum.ne_nil], ?_⟩, fun _ ↦ rfl, ?_, ?_⟩
    · intro c hc
      exact (List.mem_append.1 hc).elim (isDigit_of_mem_replicate c) (hnum.isDigit c)
    · rw [List.length_append, List.length_replicate]
      omega
    · rw [show ['0'] = List.replicate 1 '0' from rfl, ← List.append_assoc,
        List.replicate_append_replicate, digitsValue_zeros_append, digitsValue_natDigits]

end Positional

variable (negative : Bool) (d : Decimal)

theorem pointed_of_neg (h : d.exponent < 0) :
    pointed negative d = ⟨negative, d.positional.1, some d.positional.2, none⟩ := by
  have hne := (positional_of_neg h).2.1.ne_nil
  rw [pointed]
  split
  next heq => simp [heq] at hne
  next heq => rw [heq]

theorem pointed_of_nonneg (h : 0 ≤ d.exponent) :
    pointed negative d =
      ⟨negative, natDigits d.digits ++ List.replicate d.exponent.toNat '0', some ['0'], none⟩ := by
  rw [pointed, positional_of_nonneg h]

@[simp] theorem negative_pointed : (pointed negative d).negative = negative := by
  rw [pointed]
  split <;> rfl

theorem isInteger_pointed : (pointed negative d).isInteger = false := by
  rcases lt_or_ge d.exponent 0 with h | h
  · rw [pointed_of_neg negative d h]
    rfl
  · rw [pointed_of_nonneg negative d h]
    rfl

theorem wellFormed_pointed (hd : d.digits = 0 → d.exponent ≤ 0) :
    (pointed negative d).WellFormed := by
  have hnum := isNumeral_natDigits d.digits
  rcases lt_or_ge d.exponent 0 with h | h
  · obtain ⟨hwhole, hfraction, hhead, -⟩ := positional_of_neg h
    rw [pointed_of_neg negative d h]
    refine ⟨hwhole, hhead, ?_, fun _ h ↦ nomatch h⟩
    rintro _ ⟨⟩
    exact hfraction
  · rw [pointed_of_nonneg negative d h]
    refine ⟨hnum.append isDigit_of_mem_replicate, fun hhead ↦ ?_, ?_, fun _ h ↦ nomatch h⟩
    · rw [List.head?_append_of_ne_nil _ hnum.ne_nil] at hhead
      have hzero : d.digits = 0 := by_contra fun hne ↦ head?_natDigits_ne hne hhead
      dsimp only
      rw [hzero, le_antisymm (hd hzero) h]
      rfl
    · rintro _ ⟨⟩
      exact isNumeral_zero

/-- Positional notation with digits after the point stands for the decimal itself. -/
theorem decimal_pointed_of_neg (h : d.exponent < 0) : (pointed negative d).decimal = d := by
  obtain ⟨-, -, -, hlength, hvalue⟩ := positional_of_neg h
  rw [pointed_of_neg negative d h, decimal]
  simp only [Option.getD_some, hvalue, hlength, scale]
  rw [show (0 : ℤ) - -d.exponent = d.exponent by ring]

/-- Positional notation of an integer writes its zeros and one more after the point. -/
theorem decimal_pointed_of_nonneg (h : 0 ≤ d.exponent) :
    (pointed negative d).decimal = ⟨d.digits * 10 ^ (d.exponent.toNat + 1), -1⟩ := by
  rw [pointed_of_nonneg negative d h, decimal]
  simp only [Option.getD_some, scale, List.length_singleton]
  rw [show ['0'] = List.replicate 1 '0' from rfl, List.append_assoc,
    List.replicate_append_replicate, digitsValue_append_zeros, digitsValue_natDigits]
  rfl

theorem scientific_eq : ∃ c rest, natDigits d.digits = c :: rest ∧
    scientific negative d = ⟨negative, [c], if rest = [] then none else some rest,
      some (decide (d.order < 0), natDigits d.order.natAbs)⟩ := by
  obtain ⟨c, rest, h⟩ := List.exists_cons_of_ne_nil (isNumeral_natDigits d.digits).ne_nil
  refine ⟨c, rest, h, ?_⟩
  rw [scientific, h]
  cases rest <;> rfl

@[simp] theorem negative_scientific : (scientific negative d).negative = negative := by
  obtain ⟨c, rest, -, h⟩ := scientific_eq negative d
  rw [h]

theorem isInteger_scientific : (scientific negative d).isInteger = false := by
  obtain ⟨c, rest, -, h⟩ := scientific_eq negative d
  rw [h]
  exact Bool.and_false _

theorem wellFormed_scientific : (scientific negative d).WellFormed := by
  obtain ⟨c, rest, hdigits, h⟩ := scientific_eq negative d
  have hdigit := hdigits ▸ (isNumeral_natDigits d.digits).isDigit
  rw [h]
  refine ⟨⟨List.cons_ne_nil _ _, ?_⟩, fun hhead ↦ ?_, ?_, ?_⟩
  · intro c' hc'
    exact hdigit c' (List.mem_cons.2 (.inl (List.mem_singleton.1 hc')))
  · rw [Option.some.inj hhead]
  · intro ds hds
    dsimp only at hds
    split at hds
    · exact nomatch hds
    next hne =>
      obtain rfl := Option.some.inj hds
      exact ⟨hne, fun c' hc' ↦ hdigit c' (List.mem_cons_of_mem _ hc')⟩
  · rintro _ ⟨⟩
    exact isNumeral_natDigits _

/-- Scientific notation stands for the decimal itself. -/
theorem decimal_scientific : (scientific negative d).decimal = d := by
  obtain ⟨c, rest, hdigits, h⟩ := scientific_eq negative d
  have hfraction : (if rest = [] then none else some rest).getD [] = rest := by
    split
    next hnil => rw [hnil, Option.getD_none]
    next => exact Option.getD_some
  have hscale : (scientific negative d).scale = d.order := by
    rw [h, scale]
    simp only [digitsValue_natDigits, decide_eq_true_eq]
    split <;> omega
  have horder : d.order = rest.length + d.exponent := by
    rw [Decimal.order, hdigits, List.length_cons]
    push_cast
    ring
  rw [decimal, hscale, h]
  dsimp only
  rw [hfraction, List.singleton_append, ← hdigits, digitsValue_natDigits, horder,
    add_sub_cancel_left]

end NumberLiteral

end FieldGraph
