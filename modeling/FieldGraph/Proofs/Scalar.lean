import FieldGraph.Scalar
import Mathlib

/-!
# Finite scalars and their bits

A finite scalar is the same as a sign and the encoding of a finite magnitude.
-/

namespace FieldGraph.Scalar

open Float.Model Float.Model.UnpackedFloat

/-! ## Bits taken apart and put together -/

theorem toBitVec_ofBitVec (b : BitVec 1) : (Sign.ofBitVec b).toBitVec = b := by
  rw [Sign.ofBitVec]
  split
  next h => rw [h, Sign.toBitVec]
  next h =>
    rw [Sign.toBitVec]
    revert b
    decide

theorem packComponents_unpack {f : Format} (b : BitVec f.numBits) :
    packComponents f (Sign.ofBitVec (unpackSign b)) (unpackExponent b) (unpackMantissa b) = b := by
  rw [packComponents, toBitVec_ofBitVec]
  refine BitVec.eq_of_getLsbD_eq fun i hi ↦ ?_
  have hm := f.hm
  have he := f.he
  have hi' : i < 1 + f.exponentBits + f.mantissaBitsWithoutImplicit := hi
  simp only [BitVec.getLsbD_append, unpackSign, unpackExponent, unpackMantissa, BitVec.getLsbD_cast,
    BitVec.getLsbD_extractLsb]
  split
  · simp
    omega
  · split
    · rw [show f.mantissaBitsWithoutImplicit + (i - f.mantissaBitsWithoutImplicit) = i by omega]
      simp
      omega
    · rw [show f.mantissaBitsWithoutImplicit + f.exponentBits + (i - f.mantissaBitsWithoutImplicit -
        f.exponentBits) = i by omega]
      simp
      omega

theorem toNat_implicit {k : Nat} (m : BitVec k) : (1#1 ++ m).toNat = 2 ^ k + m.toNat := by
  rw [BitVec.toNat_append, ← Nat.shiftLeft_add_eq_or_of_lt m.isLt, BitVec.toNat_ofNat,
    Nat.shiftLeft_eq]
  simp

section Pack

open Format

theorem bias_add_mantissaBits :
    ((binary32.exponentBias : Int) + (binary32.mantissaBitsWithoutImplicit : Int)) = 150 := by
  decide

theorem mantissaBits_binary32 : binary32.mantissaBits = 24 := by
  decide

/-- A significand without the implicit digit is packed under the least exponent field. -/
theorem pack_subnormal (s : Sign) {m : BitVec 23} (hm : 0 < m.toNat) {x : Int} (hx : x = -149) :
    UnpackedFloat.pack binary32 (.finite s m.toNat x hm) = packComponents binary32 s 0#8 m := by
  have hlog : m.toNat.log2 < 23 := (Nat.log2_lt hm.ne').2 m.isLt
  subst hx
  rw [UnpackedFloat.pack]
  dsimp only
  rw [mantissaBits_binary32, if_neg (by decide), if_neg (by omega), BitVec.ofNat_toNat,
    BitVec.setWidth_eq]

/-- A significand with the implicit digit is packed under the field of its exponent. -/
theorem pack_normal (s : Sign) {e : BitVec 8} (he : e ≠ -1#8) (m : BitVec 23) {x : Int}
    (hx : x = e.toNat - 150) (hm : 0 < (1#1 ++ m).toNat) :
    UnpackedFloat.pack binary32 (.finite s (1#1 ++ m).toNat x hm) = packComponents binary32 s e m := by
  have hne : e.toNat ≠ 255 := fun h ↦ he (BitVec.eq_of_toNat_eq h)
  have helt := e.isLt
  have hlt := m.isLt
  have hm' := toNat_implicit m
  have hbias := bias_add_mantissaBits
  have hlog : (1#1 ++ m).toNat.log2 = 23 := by
    rw [Nat.log2_eq_iff (by omega)]
    omega
  have hstored : (x + binary32.exponentBias + binary32.mantissaBitsWithoutImplicit).toNat =
      e.toNat := by omega
  have hfraction : BitVec.ofNat 23 (1#1 ++ m).toNat = m := by
    refine BitVec.eq_of_toNat_eq ?_
    rw [BitVec.toNat_ofNat, hm']
    omega
  rw [UnpackedFloat.pack]
  dsimp only
  rw [hstored, mantissaBits_binary32, hlog, if_neg (by change ¬ 256 ≤ _; omega), if_pos rfl,
    BitVec.ofNat_toNat, BitVec.setWidth_eq]
  exact congrArg _ hfraction

/-- Bits that encode a number encode nothing else. -/
theorem pack_unpack {b : BitVec binary32.numBits} (hb : binary32.Valid b) :
    UnpackedFloat.pack binary32 (UnpackedFloat.unpack binary32 b) = b := by
  have hcomponents := packComponents_unpack b
  obtain ⟨e, he⟩ : ∃ e : BitVec 8, e = unpackExponent b := ⟨_, rfl⟩
  obtain ⟨m, hm⟩ : ∃ m : BitVec 23, m = unpackMantissa b := ⟨_, rfl⟩
  obtain ⟨s, hs⟩ : ∃ s, s = Sign.ofBitVec (unpackSign b) := ⟨_, rfl⟩
  have hnan := hb.eq_packedNaN
  have hbias := bias_add_mantissaBits
  rw [← he, ← hm] at hnan
  rw [← he, ← hm, ← hs] at hcomponents
  rw [UnpackedFloat.unpack]
  simp only [← he, ← hm, ← hs]
  split
  next hmax =>
    rw [hmax] at hcomponents
    split
    next hzero =>
      rw [hzero] at hcomponents
      exact hcomponents
    next hzero => exact (hnan hmax hzero).symm
  next hmax =>
    split
    next hleast =>
      rw [hleast] at hcomponents
      split
      next hzero =>
        rw [hzero] at hcomponents
        exact hcomponents
      next hzero =>
        rw [hleast]
        exact (pack_subnormal s _ (by rw [hbias]; rfl)).trans hcomponents
    next => exact (pack_normal s hmax m (by rw [hbias]) _).trans hcomponents

end Pack

theorem ofBits_toBits (x : Scalar) : Float32.ofBits x.toBits = x := by
  obtain ⟨bits, hvalid⟩ := x
  have hbits := pack_unpack hvalid
  simp only [Float32.ofBits, Float32.toBits, Float32.Model.ofBits, Float32.Model.pack, hbits]

/-! ## Signs and magnitudes -/

/-- A scalar is its sign and its magnitude. -/
theorem ofMagnitude_magnitude (x : Scalar) : ofMagnitude x.signBit x.magnitude = x := by
  have hlt := x.toBits.toNat_lt
  have hbits : x.magnitude + (if x.signBit then 0x80000000 else 0) = x.toBits.toNat := by
    rw [magnitude, signBit]
    have hsign : (0x80000000 : UInt32) ≤ x.toBits ↔ 0x80000000 ≤ x.toBits.toNat :=
      UInt32.le_iff_toNat_le
    simp only [hsign, decide_eq_true_eq]
    split <;> omega
  rw [ofMagnitude, hbits, UInt32.ofNat_toNat, ofBits_toBits]

/-- The exponent field is the part of the bits above the fraction. -/
theorem toNat_unpackExponent (x : Scalar) :
    (@unpackExponent .binary32 x.toBits.toBitVec).toNat = x.toBits.toNat / 2 ^ 23 % 256 := by
  rw [unpackExponent, BitVec.toNat_cast, BitVec.extractLsb_toNat, Nat.shiftRight_eq_div_pow]
  rfl

/-- The magnitudes of finite scalars are those below infinity. -/
theorem magnitude_lt_of_isFinite {x : Scalar} (h : x.isFinite = true) :
    x.magnitude < Number.single.infinity := by
  by_contra hge
  rw [magnitude, show Number.single.infinity = 0x7f800000 from rfl] at hge
  have hmax : @unpackExponent .binary32 x.toBits.toBitVec = -1#8 := by
    refine BitVec.eq_of_toNat_eq ?_
    rw [toNat_unpackExponent, show (-1#8 : BitVec 8).toNat = 255 from rfl]
    omega
  have hfinite : (UnpackedFloat.unpack .binary32 x.toBits.toBitVec).isFinite = true := h
  rw [UnpackedFloat.unpack] at hfinite
  simp only [hmax, if_true] at hfinite
  split at hfinite <;> exact absurd hfinite Bool.false_ne_true

end FieldGraph.Scalar
