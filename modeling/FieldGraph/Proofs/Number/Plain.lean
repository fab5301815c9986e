import FieldGraph.Proofs.Json.Literals
import FieldGraph.Proofs.Number.Shortest

/-!
# Plain decimals

Positional notation tells decimals of different values apart, and the shortest decimals of different
magnitudes have different values: each lies in the interval that rounds to its magnitude, and an end
that two intervals share belongs to one of them.
-/

namespace FieldGraph.Number

namespace Decimal

variable {d d' : Decimal}

/-! ## Positional notation -/

theorem isNumeral_whole (d : Decimal) : IsNumeral d.positional.1 := by
  rcases lt_or_ge d.exponent 0 with h | h
  · exact (NumberLiteral.positional_of_neg h).1
  · rw [NumberLiteral.positional_of_nonneg h]
    exact (isNumeral_natDigits _).append isDigit_of_mem_replicate

theorem isDigit_of_mem_fraction (d : Decimal) : ∀ c ∈ d.positional.2, c.isDigit = true := by
  rcases lt_or_ge d.exponent 0 with h | h
  · exact (NumberLiteral.positional_of_neg h).2.1.isDigit
  · rw [NumberLiteral.positional_of_nonneg h]
    exact fun _ hc ↦ nomatch hc

/-- The digits of positional notation, and how many of them come after the point, are the value. -/
theorem value_eq_of_positional (d : Decimal) :
    d.value = NumberLiteral.digitsValue (d.positional.1 ++ d.positional.2) *
      10 ^ (-(d.positional.2.length : ℤ)) := by
  rcases lt_or_ge d.exponent 0 with h | h
  · obtain ⟨-, -, -, hlength, hdigits⟩ := NumberLiteral.positional_of_neg h
    rw [hlength, hdigits, neg_neg, value]
  · obtain ⟨e, he⟩ := Int.eq_ofNat_of_zero_le h
    rw [NumberLiteral.positional_of_nonneg h, value, he, List.append_nil,
      NumberLiteral.digitsValue_append_zeros, NumberLiteral.digitsValue_natDigits]
    simp

/-! ## Plain text -/

theorem plain_eq (d : Decimal) : d.plain =
    d.positional.1 ++ if d.positional.2 = [] then [] else '.' :: d.positional.2 := by
  rw [plain]
  split
  next heq => rw [heq, if_pos rfl, List.append_nil]
  next hne heq => rw [heq, if_neg hne]

/-- Plain text starts with a digit. -/
theorem exists_plain_eq_cons (d : Decimal) : ∃ c cs, d.plain = c :: cs ∧ c.isDigit = true := by
  obtain ⟨c, cs, hwhole⟩ := List.exists_cons_of_ne_nil d.isNumeral_whole.ne_nil
  rw [plain_eq, hwhole]
  exact ⟨c, _, rfl, d.isNumeral_whole.isDigit c (hwhole ▸ List.mem_cons_self)⟩

/-- Plain text has digits and points only. -/
theorem isDigit_or_eq_of_mem_plain {c : Char} (hc : c ∈ d.plain) : c.isDigit = true ∨ c = '.' := by
  rw [plain_eq, List.mem_append] at hc
  rcases hc with hc | hc
  · exact .inl (d.isNumeral_whole.isDigit c hc)
  · split at hc
    · cases hc
    · exact (List.mem_cons.1 hc).symm.imp_left (d.isDigit_of_mem_fraction c)

/-- The parts of plain text on either side of the point. -/
theorem splitOn_plain (d : Decimal) : d.plain.splitOn '.' =
    if d.positional.2 = [] then [d.positional.1] else [d.positional.1, d.positional.2] := by
  have hnot {cs : List Char} (h : ∀ c ∈ cs, c.isDigit = true) : '.' ∉ cs :=
    fun hmem ↦ absurd (h _ hmem) (by decide)
  have hwhole := hnot d.isNumeral_whole.isDigit
  have hfraction := hnot d.isDigit_of_mem_fraction
  have hplain : d.plain = ['.'].intercalate
      (if d.positional.2 = [] then [d.positional.1] else [d.positional.1, d.positional.2]) := by
    rw [plain_eq]
    split <;> simp [List.intercalate]
  rw [hplain]
  refine List.splitOn_intercalate '.' (fun l hl ↦ ?_) (by split <;> exact List.cons_ne_nil _ _)
  split at hl <;> simp only [List.mem_cons, List.not_mem_nil, or_false] at hl
  · exact hl ▸ hwhole
  · rcases hl with rfl | rfl
    · exact hwhole
    · exact hfraction

theorem positional_eq_of_plain (h : d.plain = d'.plain) : d.positional = d'.positional := by
  have hparts := congrArg (List.splitOn '.') h
  rw [splitOn_plain, splitOn_plain] at hparts
  refine Prod.ext ?_ ?_ <;> split at hparts <;> split at hparts <;> simp_all

/-- Decimals with the same plain text have the same value. -/
theorem value_eq_of_plain (h : d.plain = d'.plain) : d.value = d'.value := by
  rw [value_eq_of_positional, value_eq_of_positional, positional_eq_of_plain h]

end Decimal

namespace BinaryFormat

/-! ## Shortest decimals -/

theorem strictMono_mid (f : BinaryFormat) : StrictMono f.mid := fun c c' h ↦
  calc f.mid c < f.value (c + 1) := f.mid_lt_value_succ c
    _ ≤ f.value c' := f.strictMono_value.monotone h
    _ < f.mid c' := f.value_lt_mid c'

theorem value_shortest_zero (tie : Tie) : (single.shortest tie 0).value = 0 := by
  simp [shortest, Decimal.value]

/-- The shortest decimals of different magnitudes differ. -/
theorem value_shortest_lt (tie : Tie) {c c' : ℕ} (hc' : c' < single.infinity) (h : c < c') :
    (single.shortest tie c).value < (single.shortest tie c').value := by
  obtain ⟨b, rfl⟩ := Nat.exists_eq_add_one.2 (Nat.zero_lt_of_lt h)
  cases c with
  | zero =>
    rw [value_shortest_zero]
    exact (single.mid_pos b).trans_le (mid_le_shortest tie hc')
  | succ a =>
    have hc : a + 1 < single.infinity := h.trans hc'
    have hmid : single.mid (a + 1) ≤ single.mid b := single.strictMono_mid.monotone (by omega)
    refine lt_of_le_of_ne ((shortest_le_mid tie hc).trans (hmid.trans (mid_le_shortest tie hc')))
      fun heq ↦ ?_
    -- the end that both intervals share is even on one side and odd on the other
    have hle := shortest_le_mid tie hc
    have hle' := mid_le_shortest tie hc'
    have hab : a + 1 = b := single.strictMono_mid.injective (le_antisymm hmid (by linarith))
    have hlt := single.strictMono_mid a.lt_succ_self
    have hlt' := single.strictMono_mid b.lt_succ_self
    rcases shortest_between tie hc with ⟨-, h₁⟩ | ⟨hodd, -⟩
    · linarith
    · rcases shortest_between tie hc' with ⟨h₂, -⟩ | ⟨hodd', -⟩
      · linarith
      · omega

theorem eq_of_value_shortest_eq (tie : Tie) {c c' : ℕ} (hc : c < single.infinity)
    (hc' : c' < single.infinity)
    (h : (single.shortest tie c).value = (single.shortest tie c').value) : c = c' := by
  rcases lt_trichotomy c c' with hlt | heq | hlt
  · exact absurd h (value_shortest_lt tie hc' hlt).ne
  · exact heq
  · exact absurd h (value_shortest_lt tie hc hlt).ne'

end BinaryFormat

end FieldGraph.Number
