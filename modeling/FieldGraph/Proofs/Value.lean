import FieldGraph.Proofs.Number.Plain
import FieldGraph.Proofs.Scalar
import FieldGraph.Value

/-!
# Texts of values

A scalar that is a number, or infinite, is told from its text: the sign is written for zeros and
infinities too, and the digits are those of no other magnitude.  The components of a value are what
stands between its commas.
-/

namespace FieldGraph

open Number

namespace Scalar

open Float.Model Float.Model.UnpackedFloat

variable {x y : Scalar}

/-! ## Infinities -/

theorem isFinite_of_isInf_eq_false (hn : x.isNaN = false) (hi : x.isInf = false) :
    x.isFinite = true := by
  change (UnpackedFloat.unpack .binary32 x.toBits.toBitVec).isNaN = false at hn
  change (UnpackedFloat.unpack .binary32 x.toBits.toBitVec).isInf = false at hi
  change (UnpackedFloat.unpack .binary32 x.toBits.toBitVec).isFinite = true
  cases hx : UnpackedFloat.unpack .binary32 x.toBits.toBitVec with
  | infinity => rw [hx] at hi; cases hi
  | notANumber => rw [hx] at hn; cases hn
  | zero | finite => rfl

/-- There is one infinite magnitude. -/
theorem magnitude_of_isInf (h : x.isInf = true) : x.magnitude = single.infinity := by
  have hexponent := toNat_unpackExponent x
  have hfraction : (@unpackMantissa .binary32 x.toBits.toBitVec).toNat =
      x.toBits.toNat % 2 ^ 23 := by
    rw [unpackMantissa, BitVec.toNat_cast, BitVec.extractLsb_toNat, Nat.shiftRight_zero]
    rfl
  have hinf : (UnpackedFloat.unpack .binary32 x.toBits.toBitVec).isInf = true := h
  rw [UnpackedFloat.unpack] at hinf
  dsimp only at hinf
  split at hinf
  next hmax =>
    split at hinf
    next hzero =>
      have hexponent' : (@unpackExponent .binary32 x.toBits.toBitVec).toNat = 255 :=
        congrArg BitVec.toNat hmax
      have hfraction' : (@unpackMantissa .binary32 x.toBits.toBitVec).toNat = 0 :=
        congrArg BitVec.toNat hzero
      rw [magnitude, show single.infinity = 0x7f800000 from rfl]
      omega
    next => cases hinf
  next =>
    split at hinf
    · split at hinf <;> cases hinf
    · cases hinf

/-! ## Texts -/

/-- The text of a magnitude. -/
def unsigned (x : Scalar) : List Char :=
  if x.isInf then "inf".toList else (single.shortest .up x.magnitude).plain

theorem toList_text (hx : x.isNaN = false) :
    x.text.toList = if x.signBit then '-' :: x.unsigned else x.unsigned := by
  rw [text, hx, if_neg Bool.false_ne_true, unsigned]
  split <;> rw [signed, String.toList_ofList]

theorem exists_unsigned_eq_cons (x : Scalar) :
    ∃ c cs, x.unsigned = c :: cs ∧ (c = 'i' ∨ c.isDigit = true) := by
  rw [unsigned]
  split
  · exact ⟨'i', _, rfl, .inl rfl⟩
  · obtain ⟨c, cs, hplain, hc⟩ := (single.shortest .up x.magnitude).exists_plain_eq_cons
    exact ⟨c, cs, hplain, .inr hc⟩

theorem magnitude_eq_of_unsigned (hx : x.isNaN = false) (hy : y.isNaN = false)
    (h : x.unsigned = y.unsigned) : x.magnitude = y.magnitude := by
  have hword {d : Decimal} : "inf".toList ≠ d.plain := fun heq ↦ by
    obtain ⟨c, cs, hplain, hc⟩ := d.exists_plain_eq_cons
    rw [hplain] at heq
    cases (List.cons.inj heq).1
    cases hc
  rw [unsigned, unsigned] at h
  split at h <;> split at h
  next hi hi' => rw [magnitude_of_isInf hi, magnitude_of_isInf hi']
  next => exact absurd h hword
  next => exact absurd h.symm hword
  next hi hi' =>
    have hfinite := isFinite_of_isInf_eq_false hx (Bool.eq_false_iff.2 hi)
    have hfinite' := isFinite_of_isInf_eq_false hy (Bool.eq_false_iff.2 hi')
    exact BinaryFormat.eq_of_value_shortest_eq .up (magnitude_lt_of_isFinite hfinite)
      (magnitude_lt_of_isFinite hfinite') (Decimal.value_eq_of_plain h)

/-- Scalars that are not NaN have different texts. -/
theorem eq_of_text (hx : x.isNaN = false) (hy : y.isNaN = false) (h : x.text = y.text) : x = y := by
  have htext := congrArg String.toList h
  rw [toList_text hx, toList_text hy] at htext
  have hsign {z : Scalar} {cs : List Char} : z.unsigned ≠ '-' :: cs := fun heq ↦ by
    obtain ⟨c, cs', hz, hc⟩ := z.exists_unsigned_eq_cons
    rw [hz] at heq
    cases (List.cons.inj heq).1
    rcases hc with hc | hc <;> cases hc
  have hboth : x.signBit = y.signBit ∧ x.unsigned = y.unsigned := by
    cases hxs : x.signBit <;> cases hys : y.signBit <;>
      simp only [hxs, hys, if_true, Bool.false_eq_true, if_false] at htext
    · exact ⟨rfl, htext⟩
    · exact absurd htext hsign
    · exact absurd htext.symm hsign
    · exact ⟨rfl, (List.cons.inj htext).2⟩
  rw [← ofMagnitude_magnitude x, ← ofMagnitude_magnitude y, hboth.1,
    magnitude_eq_of_unsigned hx hy hboth.2]

/-- Besides digits, there are few characters in texts of scalars. -/
theorem not_mem_text {c : Char} (hdigit : c.isDigit = false) (hc : c ∉ "-.NaNinf".toList) :
    c ∉ x.text.toList := by
  intro hmem
  cases hx : x.isNaN with
  | true =>
    rw [text, hx, if_pos rfl] at hmem
    exact hc (List.mem_append_right "-.".toList (List.mem_append_left "inf".toList hmem))
  | false =>
    have hunsigned : c ∉ x.unsigned := fun hmem ↦ by
      rw [unsigned] at hmem
      split at hmem
      · exact hc (List.mem_append_right "-.NaN".toList hmem)
      · rcases Decimal.isDigit_or_eq_of_mem_plain hmem with h | rfl
        · exact Bool.false_ne_true (hdigit.symm.trans h)
        · exact hc (by decide)
    rw [toList_text hx] at hmem
    split at hmem
    · rcases List.mem_cons.1 hmem with rfl | hmem
      · exact hc (by decide)
      · exact hunsigned hmem
    · exact hunsigned hmem

end Scalar

namespace Value

variable {v w : Value}

/-- No component is NaN. -/
def IsNumber (v : Value) : Prop := ∀ x ∈ v.toList, x.isNaN = false

instance (v : Value) : Decidable v.IsNumber :=
  inferInstanceAs (Decidable (∀ x ∈ v.toList, x.isNaN = false))

theorem not_mem_text {c : Char} (hdigit : c.isDigit = false) (hc : c ∉ "-.NaNinf(, )".toList)
    (v : Value) : c ∉ v.text.toList := by
  have hscalar (x : Scalar) : c ∉ x.text.toList :=
    Scalar.not_mem_text hdigit fun h ↦ hc (List.mem_append_left "(, )".toList h)
  have hspacing : c ≠ '(' ∧ c ≠ ',' ∧ c ≠ ' ' ∧ c ≠ ')' := by
    refine ⟨?_, ?_, ?_, ?_⟩ <;> rintro rfl <;> exact hc (by decide)
  cases v <;> simp [text, toList, hscalar, hspacing]

/-- Brackets and blanks, which set components apart and belong to none. -/
def isSpacing (c : Char) : Bool := c = '(' || c = ')' || c = ' '

/-- Without its spacing, a value is its components with commas between them. -/
theorem filter_text (v : Value) : v.text.toList.filter (fun c ↦ !isSpacing c) =
    [','].intercalate (v.toList.map fun x ↦ x.text.toList) := by
  have hkeep (x : Scalar) : x.text.toList.filter (fun c ↦ !isSpacing c) = x.text.toList := by
    refine List.filter_eq_self.2 fun c hc ↦ ?_
    by_contra hspacing
    simp only [isSpacing, Bool.not_eq_true, Bool.not_eq_false', Bool.or_eq_true,
      decide_eq_true_eq] at hspacing
    rcases hspacing with (rfl | rfl) | rfl <;> exact Scalar.not_mem_text rfl (by decide) hc
  have hopen : isSpacing '(' = true := rfl
  have hclose : isSpacing ')' = true := rfl
  have hblank : isSpacing ' ' = true := rfl
  have hcomma : isSpacing ',' = false := rfl
  cases v <;>
    simp [text, toList, List.intercalate, hkeep, hopen, hclose, hblank, hcomma]

theorem splitOn_filter_text (v : Value) : (v.text.toList.filter fun c ↦ !isSpacing c).splitOn ',' =
    v.toList.map fun x ↦ x.text.toList := by
  rw [filter_text]
  refine List.splitOn_intercalate ',' (fun l hl ↦ ?_) ?_
  · obtain ⟨x, -, rfl⟩ := List.mem_map.1 hl
    exact Scalar.not_mem_text rfl (by decide)
  · cases v <;> exact List.cons_ne_nil _ _

/-- Values without NaN have different texts. -/
theorem eq_of_text (hv : v.IsNumber) (hw : w.IsNumber) (h : v.text = w.text) : v = w := by
  have hmap : (v.toList.map fun x ↦ x.text.toList) = w.toList.map fun x ↦ x.text.toList := by
    rw [← splitOn_filter_text, ← splitOn_filter_text, h]
  have hlist : v.toList = w.toList := by
    refine List.ext_getElem (by simpa using congrArg List.length hmap) fun i hi hi' ↦ ?_
    have hi₁ := congrArg (·[i]?) hmap
    simp only [List.getElem?_map, List.getElem?_eq_getElem hi, List.getElem?_eq_getElem hi',
      Option.map_some, Option.some.injEq] at hi₁
    exact Scalar.eq_of_text (hv _ (List.getElem_mem hi)) (hw _ (List.getElem_mem hi'))
      (String.toList_injective hi₁)
  have := ofList?_toList v
  rw [hlist, ofList?_toList] at this
  exact (Option.some.inj this).symm

end Value

end FieldGraph
