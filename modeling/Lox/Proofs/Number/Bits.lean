import Mathlib
import Lox.Number.Magnitude

/-!
# Bit patterns of doubles

A double is determined by its bit pattern: a sign, an exponent and a mantissa. A finite double is
its magnitude or the number opposite to it, and its magnitude is canonical.
-/

set_option autoImplicit false

namespace Lox.Number

open Float.Model (Format)
open Float.Model.UnpackedFloat

theorem natPow_eq (b k : Nat) : Nat.pow b k = b ^ k := rfl

theorem infinityBits_eq : infinityBits = 2047 * 2 ^ 52 := rfl

theorem toNat_packComponents (s : Sign) (e : BitVec 11) (m : BitVec 52) :
    (packComponents .binary64 s e m).toNat =
      s.toBitVec.toNat * 2 ^ 63 + e.toNat * 2 ^ 52 + m.toNat := by
  simp only [packComponents, BitVec.toNat_append]
  rw [← Nat.shiftLeft_add_eq_or_of_lt e.isLt, ← Nat.shiftLeft_add_eq_or_of_lt m.isLt]
  simp only [Nat.shiftLeft_eq]
  omega

theorem exists_components (bits : UInt64) :
    ∃ (s : Sign) (e : BitVec 11) (m : BitVec 52),
      bits.toBitVec = packComponents .binary64 s e m ∧
      bits.toNat = s.toBitVec.toNat * 2 ^ 63 + e.toNat * 2 ^ 52 + m.toNat := by
  have hcomponents :=
    @packComponents_unpackSign_unpackExponent_unpackMantissa .binary64 bits.toBitVec
  refine ⟨_, _, _, hcomponents.symm, ?_⟩
  rw [← toNat_packComponents, hcomponents, UInt64.toNat_toBitVec]

/-- A pattern not above that of infinity is a number, so it is kept. -/
theorem pack_unpack_components (s : Sign) {e : BitVec 11} {m : BitVec 52}
    (h : e.toNat * 2 ^ 52 + m.toNat ≤ infinityBits) :
    pack .binary64 (unpack .binary64 (packComponents .binary64 s e m)) =
      packComponents .binary64 s e m := by
  have hnumber : isNaNBits (packComponents .binary64 s e m) = false := by
    rw [isNaNBits, decide_eq_false_iff_not]
    rintro ⟨he, hm⟩
    rw [unpackExponent_packComponents] at he
    rw [unpackMantissa_packComponents] at hm
    have he' : e.toNat = 2047 := congrArg BitVec.toNat he
    rw [he', infinityBits_eq] at h
    have hm' : m.toNat = 0 := by omega
    exact hm (BitVec.eq_of_toNat_eq hm')
  rw [pack_unpack, hnumber, if_neg Bool.false_ne_true]

theorem toBits_ofBits {bits : UInt64} (h : bits.toNat % 2 ^ 63 ≤ infinityBits) :
    (Float.ofBits bits).toBits = bits := by
  obtain ⟨s, e, m, hcomponents, hbits⟩ := exists_components bits
  have he := e.isLt
  have hm := m.isLt
  apply UInt64.toBitVec_inj.1
  change pack .binary64 (unpack .binary64 bits.toBitVec) = bits.toBitVec
  rw [hcomponents, pack_unpack_components s (by omega)]

/-- The opposite number has the opposite sign, and all else is the same. -/
theorem neg_unpack (s : Sign) (e : BitVec 11) (m : BitVec 52) :
    (unpack .binary64 (packComponents .binary64 s e m)).neg =
      unpack .binary64 (packComponents .binary64 (-s) e m) := by
  unfold unpack
  simp only [unpackMantissa_packComponents, unpackExponent_packComponents,
    unpackSign_packComponents, Sign.ofBitVec_toBitVec]
  split
  · split <;> rfl
  · split
    · split <;> rfl
    · rfl

/-- The number opposite to one whose sign bit is clear has it set. -/
theorem toNat_toBits_neg {x : Float} (h : x.toBits.toNat ≤ infinityBits) :
    (-x).toBits.toNat = x.toBits.toNat + 2 ^ 63 := by
  obtain ⟨s, e, m, hcomponents, hbits⟩ := exists_components x.toBits
  have hinfinity := infinityBits_eq
  have hnegative : Sign.negative.toBitVec.toNat = 1 := rfl
  have hpositive : Sign.positive.toBitVec.toNat = 0 := rfl
  obtain rfl : s = .positive := by
    cases s with
    | positive => rfl
    | negative => omega
  have hneg : (-x).toBits.toBitVec = packComponents .binary64 .negative e m := by
    change pack .binary64 (unpack .binary64 x.toBits.toBitVec).neg = _
    rw [hcomponents, neg_unpack]
    exact pack_unpack_components .negative (by omega)
  rw [← UInt64.toNat_toBitVec, hneg, toNat_packComponents]
  omega

/-! ## Magnitudes -/

/-- The magnitude of a finite double: the mantissa has at most 53 bits, and fewer only where the
exponent is the lowest one. -/
structure Magnitude.Canonical (m : Magnitude) : Prop where
  lt : m.mantissa < 2 ^ 53
  le : m.shift = 0 ∨ 2 ^ 52 ≤ m.mantissa
  finite : m.toBits < infinityBits

theorem Magnitude.canonical_ofBits {bits : Nat} (h : bits < infinityBits) :
    (ofBits bits).Canonical ∧ (ofBits bits).toBits = bits := by
  unfold ofBits
  split
  · refine ⟨⟨?_, .inl rfl, ?_⟩, ?_⟩ <;> simp only [toBits, natPow_eq] at * <;> omega
  · refine ⟨⟨?_, .inr ?_, ?_⟩, ?_⟩ <;> simp only [toBits, natPow_eq] at * <;> omega

theorem toNat_toBits_ofMagnitude (m : Magnitude) :
    (ofMagnitude m).toBits.toNat = min m.toBits infinityBits := by
  have hinfinity := infinityBits_eq
  have hbits : (UInt64.ofNat (min m.toBits infinityBits)).toNat = min m.toBits infinityBits := by
    rw [UInt64.toNat_ofNat_of_lt' (by rw [UInt64.size]; omega)]
  have hrange : (UInt64.ofNat (min m.toBits infinityBits)).toNat % 2 ^ 63 ≤ infinityBits := by
    rw [hbits]
    omega
  rw [ofMagnitude, toBits_ofBits hrange, hbits]

/-- The double of a magnitude has no sign. -/
theorem classify_ofMagnitude (m : Magnitude) : classify (ofMagnitude m) = .infinite false ∨
    ∃ size, classify (ofMagnitude m) = .finite false size := by
  have hinfinity := infinityBits_eq
  have hsize : min m.toBits infinityBits % 2 ^ 63 = min m.toBits infinityBits := by omega
  have hsign : (min m.toBits infinityBits / 2 ^ 63 == 1) = false := by
    rw [beq_eq_false_iff_ne]
    omega
  rw [classify, toNat_toBits_ofMagnitude]
  simp only [natPow_eq, hsize, hsign, if_neg (Nat.not_lt.2 (Nat.min_le_right _ _))]
  split
  · exact Or.inl rfl
  · exact Or.inr ⟨_, rfl⟩

theorem ofMagnitude_congr {m m' : Magnitude} (h : m.toBits = m'.toBits) :
    ofMagnitude m = ofMagnitude m' := by
  rw [ofMagnitude, h, ofMagnitude]

/-- A finite double is its magnitude or the number opposite to it. -/
theorem eq_of_classify {x : Float} {negative : Bool} {size : Magnitude}
    (h : classify x = .finite negative size) :
    size.Canonical ∧ x = if negative then -ofMagnitude size else ofMagnitude size := by
  have hinfinity := infinityBits_eq
  have hlt := x.toBits.toNat_lt
  unfold classify at h
  simp only [natPow_eq] at h
  split at h
  · cases h
  split at h
  · cases h
  obtain ⟨rfl, rfl⟩ := Class.finite.inj h
  obtain ⟨hcanonical, hbits⟩ :=
    @Magnitude.canonical_ofBits (x.toBits.toNat % 2 ^ 63) (by omega)
  have hsize := toNat_toBits_ofMagnitude (.ofBits (x.toBits.toNat % 2 ^ 63))
  rw [Nat.min_eq_left hcanonical.finite.le, hbits] at hsize
  refine ⟨hcanonical, Float.toBits_inj.1 (UInt64.toNat_inj.1 ?_)⟩
  split
  · rename_i hsign
    rw [beq_iff_eq] at hsign
    rw [toNat_toBits_neg (by omega), hsize]
    omega
  · rename_i hsign
    rw [beq_iff_eq] at hsign
    omega

end Lox.Number
