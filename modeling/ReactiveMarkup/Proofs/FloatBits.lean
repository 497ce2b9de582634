import Mathlib
import ReactiveMarkup.Number.Binary

/-! The bits of numbers without a sign. Packing such a number undoes unpacking it, so it has the
bits that it was made from, and it is equal to itself. -/

namespace ReactiveMarkup.Number

open Float.Model Float.Model.UnpackedFloat

theorem infiniteBits_eq : infiniteBits = 2047 * 2 ^ 52 := rfl

theorem toNat_packComponents (s : Sign) (e : BitVec 11) (m : BitVec 52) :
    (packComponents Format.binary64 s e m).toNat = s.toBitVec.toNat * 2 ^ 63 + e.toNat * 2 ^ 52 + m.toNat := by
  have he := e.isLt
  have hm := m.isLt
  show (s.toBitVec ++ e ++ m).toNat = _
  rw [BitVec.toNat_append, BitVec.toNat_append, ← Nat.shiftLeft_add_eq_or_of_lt hm, ← Nat.shiftLeft_add_eq_or_of_lt he,
    Nat.shiftLeft_eq, Nat.shiftLeft_eq]
  omega

theorem toNat_unpackMantissa (b : BitVec 64) : (@unpackMantissa Format.binary64 b).toNat = b.toNat % 2 ^ 52 := by
  simp [unpackMantissa]

theorem toNat_unpackExponent (b : BitVec 64) :
    (@unpackExponent Format.binary64 b).toNat = b.toNat / 2 ^ 52 % 2 ^ 11 := by
  simp [unpackExponent, Nat.shiftRight_eq_div_pow]

theorem unpackSign_eq (b : BitVec 64) (small : b.toNat < 2 ^ 63) : Sign.ofBitVec (@unpackSign Format.binary64 b) = .positive := by
  rw [Sign.ofBitVec, if_pos]
  apply BitVec.eq_of_toNat_eq
  simp [unpackSign, Nat.shiftRight_eq_div_pow]
  omega

theorem toNat_pack_finite {m field : Nat} (positive : 0 < m) (below : m < 2 ^ 53) (low : 1 ≤ field) (high : field ≤ 2046)
    (normal : 2 ^ 52 ≤ m ∨ field = 1) :
    (UnpackedFloat.pack Format.binary64 (.finite .positive m ((field : Int) - 1075) positive)).toNat =
      m + (field - 1) * 2 ^ 52 := by
  have biased : ((field : Int) - 1075 + Format.binary64.exponentBias + Format.binary64.mantissaBitsWithoutImplicit).toNat = field := by
    show ((field : Int) - 1075 + 1023 + 52).toNat = field
    omega
  simp only [UnpackedFloat.pack, biased]
  rw [if_neg (show ¬ 2 ^ 11 ≤ field + 1 by omega)]
  have width : Format.binary64.mantissaBits = 53 := rfl
  rw [width]
  by_cases large : 2 ^ 52 ≤ m
  · have bits : m.log2 = 52 := by
      rw [Nat.log2_eq_iff (by omega)]
      omega
    rw [if_pos (by omega), toNat_packComponents, BitVec.toNat_ofNat, BitVec.toNat_ofNat]
    show 0 * 2 ^ 63 + field % 2 ^ 11 * 2 ^ 52 + m % 2 ^ 52 = _
    omega
  · have bits : m.log2 < 52 := (Nat.log2_lt (by omega)).2 (by omega)
    have one := normal.resolve_left large
    rw [if_neg (by omega), toNat_packComponents, BitVec.toNat_ofNat, BitVec.toNat_ofNat]
    show 0 * 2 ^ 63 + 0 * 2 ^ 52 + m % 2 ^ 52 = _
    omega

/-- What sixty-four bits without a sign unpack to. -/
theorem unpack_eq (b : BitVec 64) (small : b.toNat ≤ infiniteBits) :
    (UnpackedFloat.unpack Format.binary64 b = .infinity .positive ∧ b.toNat = infiniteBits) ∨
    (UnpackedFloat.unpack Format.binary64 b = .zero .positive ∧ b.toNat = 0) ∨
    ∃ (m field : Nat) (positive : 0 < m), UnpackedFloat.unpack Format.binary64 b = .finite .positive m ((field : Int) - 1075) positive ∧
      m < 2 ^ 53 ∧ 1 ≤ field ∧ field ≤ 2046 ∧ (2 ^ 52 ≤ m ∨ field = 1) ∧ b.toNat = m + (field - 1) * 2 ^ 52 := by
  have top := infiniteBits_eq
  have mantissa := toNat_unpackMantissa b
  have exponent := toNat_unpackExponent b
  have sign := unpackSign_eq b (by omega)
  have bias : (((Format.binary64.exponentBias : Nat) : Int) + (Format.binary64.mantissaBitsWithoutImplicit : Nat)) = 1075 := by decide
  simp only [UnpackedFloat.unpack, sign, bias]
  split
  next inf =>
    have field : (@unpackExponent Format.binary64 b).toNat = 2047 := by rw [inf]; decide
    split
    next => exact .inl ⟨rfl, by omega⟩
    next other =>
      refine absurd (BitVec.eq_of_toNat_eq ?_) other
      show _ = 0
      omega
  next finite =>
    have below : (@unpackExponent Format.binary64 b).toNat ≠ 2047 := fun top =>
      finite (BitVec.eq_of_toNat_eq (by rw [top]; decide))
    split
    next subnormal =>
      have bottom : (@unpackExponent Format.binary64 b).toNat = 0 := by rw [subnormal]; decide
      split
      next zero =>
        have none : (@unpackMantissa Format.binary64 b).toNat = 0 := by rw [zero]; decide
        exact .inr (.inl ⟨rfl, by omega⟩)
      next other =>
        have low : (@unpackMantissa Format.binary64 b).toNat ≠ 0 := fun zero =>
          other (BitVec.eq_of_toNat_eq (by rw [zero]; rfl))
        refine .inr (.inr ⟨(@unpackMantissa Format.binary64 b).toNat, 1, Nat.pos_of_ne_zero low, ?_, ?_⟩)
        · rw [bottom]
          rfl
        · omega
    next normal =>
      have above : (@unpackExponent Format.binary64 b).toNat ≠ 0 := fun zero =>
        normal (BitVec.eq_of_toNat_eq (by rw [zero]; rfl))
      have significand : (1#1 ++ @unpackMantissa Format.binary64 b).toNat =
          2 ^ 52 + (@unpackMantissa Format.binary64 b).toNat := by
        rw [BitVec.toNat_append, ← Nat.shiftLeft_add_eq_or_of_lt (by omega)]
        rfl
      refine .inr (.inr ⟨(1#1 ++ @unpackMantissa Format.binary64 b).toNat, (@unpackExponent Format.binary64 b).toNat, ?_, rfl, ?_⟩)
      · omega
      · omega

theorem pack_unpack (b : BitVec 64) (small : b.toNat ≤ infiniteBits) :
    UnpackedFloat.pack Format.binary64 (UnpackedFloat.unpack Format.binary64 b) = b := by
  apply BitVec.eq_of_toNat_eq
  rcases unpack_eq b small with ⟨same, value⟩ | ⟨same, value⟩ | ⟨m, field, positive, same, below, low, high, normal, value⟩
  · rw [same, value]
    decide
  · rw [same, value]
    decide
  · rw [same, value, toNat_pack_finite positive below low high normal]

theorem toBits_ofBits (bits : Nat) (small : bits ≤ infiniteBits) :
    (Float.ofBits (UInt64.ofNat bits)).toBits.toNat = bits := by
  show (UInt64.ofBitVec (UnpackedFloat.pack Format.binary64 (UnpackedFloat.unpack Format.binary64 (UInt64.ofNat bits).toBitVec))).toNat = bits
  have top := infiniteBits_eq
  have same : (UInt64.ofNat bits).toBitVec.toNat = bits := by
    simp
    omega
  rw [pack_unpack _ (by omega)]
  exact same

theorem beq_self (bits : Nat) (small : bits ≤ infiniteBits) :
    (Float.ofBits (UInt64.ofNat bits) == Float.ofBits (UInt64.ofNat bits)) = true := by
  have top := infiniteBits_eq
  have same : (UInt64.ofNat bits).toBitVec.toNat = bits := by
    simp
    omega
  show UnpackedFloat.beq (UnpackedFloat.unpack Format.binary64 (UnpackedFloat.pack Format.binary64 _)) (UnpackedFloat.unpack Format.binary64 (UnpackedFloat.pack Format.binary64 _)) = true
  rw [pack_unpack _ (by omega)]
  rcases unpack_eq (UInt64.ofNat bits).toBitVec (by omega) with ⟨same, value⟩ | ⟨same, value⟩ | ⟨m, field, positive, same, below, low, high, normal, value⟩
  · rw [same]
    rfl
  · rw [same]
    rfl
  · rw [same]
    simp [UnpackedFloat.beq, UnpackedFloat.compare]

theorem parts_signed {bits : Nat} (small : bits ≤ infiniteBits) : parts (signed false bits) = .ofBits bits := by
  rw [parts, signed]
  exact congrArg Parts.ofBits (toBits_ofBits bits small)

theorem eq_of_toBits {a b : Float} (same : a.toBits = b.toBits) : a = b := by
  obtain ⟨⟨bits, valid⟩⟩ := a
  obtain ⟨⟨other, valid'⟩⟩ := b
  obtain rfl : bits = other := same
  rfl

theorem signed_toBits {value : Float} (small : value.toBits.toNat ≤ infiniteBits) : signed false value.toBits.toNat = value :=
  eq_of_toBits (UInt64.toNat_inj.1 (toBits_ofBits _ small))

/-- A finite number without a sign has smaller bits than infinity. -/
theorem toBits_lt_of_isFinite {value : Float} (finite : isFinite value = true) (unsigned : value.toBits.toNat < Nat.pow 2 63) :
    value.toBits.toNat < infiniteBits := by
  rw [infiniteBits_eq]
  refine Nat.lt_of_not_le fun large => ?_
  have top : value.toBits.toNat / Nat.pow 2 52 % Nat.pow 2 11 = 2047 := by
    simp only [Nat.pow_eq] at unsigned ⊢
    omega
  rw [isFinite, parts, Parts.ofBits, if_pos top] at finite
  split at finite
  next shape => split at shape <;> cases shape
  next => cases finite

theorem isFinite_signed {bits : Nat} (small : bits < infiniteBits) : isFinite (signed false bits) = true := by
  rw [isFinite, parts_signed (Nat.le_of_lt small), Parts.ofBits]
  rw [infiniteBits_eq] at small
  have field : bits / Nat.pow 2 52 % Nat.pow 2 11 ≠ 2047 := by
    simp only [Nat.pow_eq]
    omega
  simp only [if_neg field]
  by_cases subnormal : bits / Nat.pow 2 52 % Nat.pow 2 11 = 0
  · rw [if_pos subnormal]
  · rw [if_neg subnormal]

theorem signed_beq_self {bits : Nat} (small : bits ≤ infiniteBits) : (signed false bits == signed false bits) = true :=
  beq_self bits small

end ReactiveMarkup.Number
