import FieldGraph.Json.Codec
import FieldGraph.Proofs.Json.Literals
import FieldGraph.Proofs.Number.Rereading
import FieldGraph.Proofs.Scalar

/-!
# Scalars as text

A finite scalar is written with the fewest digits that read back, and they do read back: in positional
notation, where an integer is written out with all its zeros, and in scientific notation.
-/

namespace FieldGraph.Json

open Number BinaryFormat

section Literals

variable {n : NumberLiteral} (hn : n.isInteger = false)
include hn

/-- A decimal that is read as a finite magnitude is read as a scalar. -/
theorem scalarOf?_eq_some {s : ℕ} {e : ℤ} (hdecimal : n.decimal = ⟨s, e⟩) (hs : s < 2 ^ 53)
    {code : ℕ} (hcode : code < single.infinity)
    (hread : double.narrow single (Double.ofDecimal s e) = code) :
    scalarOf? n = some (Scalar.ofMagnitude n.negative code) := by
  have hleading : n.leading = ⟨s, e⟩ := by
    rw [NumberLiteral.leading_eq, hdecimal]
    rw [hdecimal]
    exact hs.trans (by decide)
  rw [scalarOf?, hleading, hn, Bool.false_and, if_neg Bool.false_ne_true, if_pos, Scalar.ofDecimal,
    hread]
  by_contra hlt
  rw [narrow, if_pos (not_lt.1 hlt)] at hread
  exact hcode.ne hread.symm

variable {c : ℕ} (hc : c + 1 < single.infinity)
include hc

theorem scalarOf?_of_decimal_eq (h : n.decimal = single.shortest .even (c + 1)) :
    scalarOf? n = some (Scalar.ofMagnitude n.negative (c + 1)) := by
  have hs : (single.shortest .even (c + 1)).digits < 2 ^ 53 :=
    (shortest_bounds .even hc).1.trans (by decide)
  exact scalarOf?_eq_some hn h hs hc (narrow_ofDecimal .even hc rfl hs (.inr ⟨rfl, rfl⟩))

end Literals

/-- A number below a power of ten has no more digits than this power has zeros. -/
theorem mul_ten_pow_lt {d : Decimal} {k : ℕ} (horder : d.order < k) (he : 0 ≤ d.exponent) :
    d.digits * 10 ^ d.exponent.toNat < 10 ^ k := by
  rw [Decimal.order] at horder
  have hlt : d.digits < 10 ^ (natDigits d.digits).length :=
    (Nat.length_toDigits_le_iff (by decide) Nat.length_toDigits_pos).1 le_rfl
  calc d.digits * 10 ^ d.exponent.toNat
      < 10 ^ (natDigits d.digits).length * 10 ^ d.exponent.toNat := by gcongr
    _ = 10 ^ ((natDigits d.digits).length + d.exponent.toNat) := (pow_add _ _ _).symm
    _ ≤ 10 ^ k := Nat.pow_le_pow_right (by decide) (by omega)

/-- A magnitude that is an integer of few digits is read from all its digits. -/
theorem scalarOf?_pointed_of_nonneg {c : ℕ} (hc : c + 1 < single.infinity) (negative : Bool)
    (horder : (single.shortest .even (c + 1)).order < 13)
    (he : 0 ≤ (single.shortest .even (c + 1)).exponent) :
    scalarOf? (.pointed negative (single.shortest .even (c + 1))) =
      some (Scalar.ofMagnitude negative (c + 1)) := by
  obtain ⟨d, hd⟩ : ∃ d, d = single.shortest .even (c + 1) := ⟨_, rfl⟩
  rw [← hd] at horder he ⊢
  have hs : d.digits * 10 ^ (d.exponent.toNat + 1) < 2 ^ 53 := by
    calc d.digits * 10 ^ (d.exponent.toNat + 1)
        = d.digits * 10 ^ d.exponent.toNat * 10 := by rw [pow_succ, mul_assoc]
      _ < 10 ^ 13 * 10 := Nat.mul_lt_mul_of_pos_right (mul_ten_pow_lt horder he) (by decide)
      _ < 2 ^ 53 := by decide
  have hvalue : (d.digits * 10 ^ (d.exponent.toNat + 1) : ℕ) * 10 ^ (-1 : ℤ) =
      (single.shortest .even (c + 1)).value := by
    obtain ⟨e, he⟩ := Int.eq_ofNat_of_zero_le he
    rw [← hd, Decimal.value, he, Int.toNat_natCast, zpow_natCast]
    push_cast
    rw [pow_succ, zpow_neg_one]
    field_simp
  have hexponent : d.exponent.natAbs ≤ 22 := by
    have : 0 < (natDigits d.digits).length := Nat.length_toDigits_pos
    rw [Decimal.order] at horder
    omega
  rw [scalarOf?_eq_some (NumberLiteral.isInteger_pointed negative d)
    (NumberLiteral.decimal_pointed_of_nonneg negative d he) hs hc, NumberLiteral.negative_pointed]
  exact narrow_ofDecimal .even hc hvalue hs (.inl ⟨by decide, hd ▸ hexponent⟩)

variable {x : Scalar} (hx : x.isFinite = true)
include hx

theorem wellFormed_scalarLiteral : (scalarLiteral x).WellFormed := by
  have hlt := Scalar.magnitude_lt_of_isFinite hx
  rw [scalarLiteral]
  split
  next =>
    refine NumberLiteral.wellFormed_pointed _ _ fun hzero ↦ ?_
    cases hcode : x.magnitude with
    | zero => exact le_rfl
    | succ c =>
      rw [hcode] at hlt hzero
      exact absurd hzero (digits_shortest_pos .even hlt).ne'
  next => exact NumberLiteral.wellFormed_scientific _ _

/-- The literal of a finite scalar is read as this scalar. -/
theorem scalarOf?_scalarLiteral : scalarOf? (scalarLiteral x) = some x := by
  have hlt := Scalar.magnitude_lt_of_isFinite hx
  have hsome : scalarOf? (scalarLiteral x) = some (.ofMagnitude x.signBit x.magnitude) := by
    rw [scalarLiteral]
    cases hcode : x.magnitude with
    | zero =>
      have hread : double.narrow single (Double.ofDecimal 0 (-1)) = 0 := by decide +kernel
      rw [if_pos (.inl rfl), scalarOf?_eq_some (NumberLiteral.isInteger_pointed _ _)
        (NumberLiteral.decimal_pointed_of_nonneg _ (single.shortest .even 0) le_rfl) (by decide)
        (by decide) hread, NumberLiteral.negative_pointed]
    | succ c =>
      rw [hcode] at hlt
      split
      next h =>
        obtain ⟨-, horder⟩ := h.resolve_left (digits_shortest_pos .even hlt).ne'
        rcases lt_or_ge (single.shortest .even (c + 1)).exponent 0 with he | he
        · rw [scalarOf?_of_decimal_eq (NumberLiteral.isInteger_pointed _ _) hlt
            (NumberLiteral.decimal_pointed_of_neg _ _ he), NumberLiteral.negative_pointed]
        · exact scalarOf?_pointed_of_nonneg hlt _ horder he
      next =>
        rw [scalarOf?_of_decimal_eq (NumberLiteral.isInteger_scientific _ _) hlt
          (NumberLiteral.decimal_scientific _ _), NumberLiteral.negative_scientific]
  rw [hsome, Scalar.ofMagnitude_magnitude]

end FieldGraph.Json
