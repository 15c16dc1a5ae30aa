/-
Doubles as bit patterns.  A pattern that is no NaN is kept by the double that it makes,
so the code of a double is the code it was made from.  Without signs and NaNs, doubles are
compared as their patterns are.
-/
import Formula.Number.Binary64
import Mathlib

namespace Formula.Binary64

open Float.Model (Format UnpackedFloat)
open Float.Model.UnpackedFloat (packComponents unpackExponent unpackMantissa unpackSign)

theorem toNat_unpackMantissa (bits : BitVec 64) :
    (@unpackMantissa Format.binary64 bits).toNat = bits.toNat % 2 ^ 52 := by
  simp [unpackMantissa]

theorem toNat_unpackExponent (bits : BitVec 64) :
    (@unpackExponent Format.binary64 bits).toNat = bits.toNat / 2 ^ 52 % 2 ^ 11 := by
  simp [unpackExponent, Nat.shiftRight_eq_div_pow]

theorem toNat_unpackSign (bits : BitVec 64) :
    (@unpackSign Format.binary64 bits).toNat = bits.toNat / 2 ^ 63 % 2 := by
  simp [unpackSign, Nat.shiftRight_eq_div_pow]

theorem toNat_packComponents (sign : UnpackedFloat.Sign) (exponent : BitVec 11)
    (mantissa : BitVec 52) :
    (packComponents Format.binary64 sign exponent mantissa).toNat =
      (sign.toBitVec.toNat * 2 ^ 11 + exponent.toNat) * 2 ^ 52 + mantissa.toNat := by
  change ((sign.toBitVec ++ exponent) ++ mantissa).toNat = _
  rw [BitVec.toNat_append, BitVec.toNat_append, ← Nat.shiftLeft_add_eq_or_of_lt mantissa.isLt,
    ← Nat.shiftLeft_add_eq_or_of_lt exponent.isLt, Nat.shiftLeft_eq, Nat.shiftLeft_eq]

theorem pack_subnormal {mantissa : BitVec 52} (hpos : 0 < mantissa.toNat) :
    UnpackedFloat.pack Format.binary64 (.finite .positive mantissa.toNat (-1074) hpos) =
      packComponents Format.binary64 .positive 0 mantissa := by
  have hlog : ¬ mantissa.toNat.log2 + 1 = Format.binary64.mantissaBits := by
    have hlt := (Nat.log2_lt (Nat.ne_of_gt hpos)).2 mantissa.isLt
    change ¬ _ = 53
    omega
  simp only [UnpackedFloat.pack]
  rw [if_neg (by decide), if_neg hlog, BitVec.ofNat_toNat]
  rfl

theorem pack_normal {exponent : BitVec 11} (hfinite : exponent ≠ -1)
    (mantissa : BitVec 52) (hpos : 0 < (1#1 ++ mantissa).toNat) :
    UnpackedFloat.pack Format.binary64
        (.finite .positive (1#1 ++ mantissa).toNat (exponent.toNat - 1075) hpos) =
      packComponents Format.binary64 .positive exponent mantissa := by
  have hmantissa : (1#1 ++ mantissa).toNat = 2 ^ 52 + mantissa.toNat := by
    rw [BitVec.toNat_append, ← Nat.shiftLeft_add_eq_or_of_lt mantissa.isLt]
    rfl
  have hlt : mantissa.toNat < 2 ^ 52 := mantissa.isLt
  have hlog : (1#1 ++ mantissa).toNat.log2 + 1 = Format.binary64.mantissaBits := by
    have hlog : (1#1 ++ mantissa).toNat.log2 = 52 :=
      (Nat.log2_eq_iff (Nat.ne_of_gt hpos)).2 (by omega)
    rw [hlog]
    rfl
  have hbias : ((exponent.toNat : Int) - 1075 + (Format.binary64.exponentBias : Int) +
      (52 : Nat)).toNat = exponent.toNat := by
    change ((exponent.toNat : Int) - 1075 + 1023 + 52).toNat = _
    omega
  have hsmall : ¬ 2 ^ 11 ≤ exponent.toNat + 1 := by
    have hne : exponent.toNat ≠ 2047 := fun heq => hfinite (BitVec.eq_of_toNat_eq heq)
    have hlt : exponent.toNat < 2 ^ 11 := exponent.isLt
    omega
  have hexponent : BitVec.ofNat 11 exponent.toNat = exponent := BitVec.ofNat_toNat _ _
  have hkept : BitVec.ofNat 52 (1#1 ++ mantissa).toNat = mantissa := by
    apply BitVec.eq_of_toNat_eq
    rw [BitVec.toNat_ofNat, hmantissa]
    omega
  simp only [UnpackedFloat.pack, hbias]
  rw [if_neg hsmall, if_pos hlog, hkept, hexponent]

/-- A pattern without a sign that is no NaN is packed again from what it unpacks to. -/
theorem pack_unpack {bits : BitVec 64} (h : bits.toNat ≤ infinity) :
    UnpackedFloat.pack Format.binary64 (UnpackedFloat.unpack Format.binary64 bits) = bits := by
  have hsign : UnpackedFloat.Sign.ofBitVec (@unpackSign Format.binary64 bits) = .positive := by
    apply if_pos
    apply BitVec.eq_of_toNat_eq
    rw [toNat_unpackSign]
    simp only [infinity, Nat.pow_eq, BitVec.toNat_ofNat] at h ⊢
    omega
  have hmantissa := toNat_unpackMantissa bits
  have hexponent := toNat_unpackExponent bits
  have hcomponents : packComponents Format.binary64 .positive (@unpackExponent Format.binary64 bits)
      (@unpackMantissa Format.binary64 bits) = bits := by
    apply BitVec.eq_of_toNat_eq
    rw [toNat_packComponents, hmantissa, hexponent]
    simp only [infinity, Nat.pow_eq, UnpackedFloat.Sign.toBitVec, BitVec.toNat_ofNat] at h ⊢
    omega
  simp only [UnpackedFloat.unpack, hsign]
  split_ifs with hinfinite hzero hsmall hnone
  · conv_rhs => rw [← hcomponents, hinfinite, hzero]
    rfl
  · exfalso
    have hall : (@unpackExponent Format.binary64 bits).toNat = 2047 := by rw [hinfinite]; rfl
    have hsome : (@unpackMantissa Format.binary64 bits).toNat ≠ 0 :=
      fun heq => hzero (BitVec.eq_of_toNat_eq heq)
    simp only [infinity, Nat.pow_eq] at h
    omega
  · conv_rhs => rw [← hcomponents, hsmall, hnone]
    rfl
  · conv_rhs => rw [← hcomponents, hsmall]
    rw [hsmall]
    exact pack_subnormal _
  · conv_rhs => rw [← hcomponents]
    exact pack_normal hinfinite _ _

theorem toNat_toBits_ofCode {magnitude : Nat} (h : magnitude ≤ infinity) :
    (ofCode false magnitude).toBits.toNat = magnitude := by
  have hsmall : magnitude < 2 ^ 64 := by
    simp only [infinity, Nat.pow_eq] at h
    omega
  have hbits : (UInt64.ofNat magnitude).toBitVec.toNat = magnitude :=
    Nat.mod_eq_of_lt hsmall
  have hpack : UnpackedFloat.pack Format.binary64
      (UnpackedFloat.unpack Format.binary64 (UInt64.ofNat magnitude).toBitVec) =
        (UInt64.ofNat magnitude).toBitVec := by
    apply pack_unpack
    rw [hbits]
    exact h
  change (UInt64.ofBitVec (UnpackedFloat.pack Format.binary64
    (UnpackedFloat.unpack Format.binary64 (UInt64.ofNat magnitude).toBitVec))).toNat = magnitude
  rw [hpack]
  exact hbits

theorem code_ofCode {magnitude : Nat} (h : magnitude ≤ infinity) :
    code (ofCode false magnitude) = magnitude := by
  rw [code, toNat_toBits_ofCode h, Nat.pow_eq]
  apply Nat.mod_eq_of_lt
  simp only [infinity, Nat.pow_eq] at h
  omega

theorem isNegative_ofCode {magnitude : Nat} (h : magnitude ≤ infinity) :
    isNegative (ofCode false magnitude) = false := by
  rw [isNegative, toNat_toBits_ofCode h, Nat.pow_eq]
  apply decide_eq_false
  simp only [infinity, Nat.pow_eq] at h
  omega

theorem toNat_packedNaN : (UnpackedFloat.packedNaN Format.binary64).toNat = infinity + 2 ^ 51 := by
  rfl

theorem toNat_packedZero : (UnpackedFloat.packedZero Format.binary64 .negative).toNat = 2 ^ 63 := by
  rfl

/-- Doubles without a sign that are no NaN are the same only if they are equal. -/
theorem beq_iff_eq_of_le {x y : Float} (hx : x.toBits.toNat ≤ infinity)
    (hy : y.toBits.toNat ≤ infinity) : (x == y) = true ↔ x = y := by
  have hnumber : ∀ {z : Float}, z.toBits.toNat ≤ infinity →
      z.toBits.toBitVec ≠ UnpackedFloat.packedNaN Format.binary64 := by
    intro z hz heq
    have hcode : z.toBits.toNat = infinity + 2 ^ 51 :=
      (congrArg BitVec.toNat heq).trans toNat_packedNaN
    omega
  have hsign : ∀ {z : Float}, z.toBits.toNat ≤ infinity →
      z.toBits.toBitVec ≠ UnpackedFloat.packedZero Format.binary64 .negative := by
    intro z hz heq
    have hcode : z.toBits.toNat = 2 ^ 63 := (congrArg BitVec.toNat heq).trans toNat_packedZero
    simp only [infinity, Nat.pow_eq] at hz
    omega
  have hsame : (x == y) = true ↔ _ :=
    UnpackedFloat.unpack_beq_unpack_iff x.toModel.valid y.toModel.valid
  rw [hsame]
  constructor
  · rintro ⟨_, _, heq | ⟨_, hnegative⟩ | ⟨hnegative, _⟩⟩
    · obtain ⟨⟨xbits, _⟩⟩ := x
      obtain ⟨⟨ybits, _⟩⟩ := y
      obtain rfl : xbits = ybits := UInt64.toBitVec_inj.1 heq
      rfl
    · exact absurd hnegative (hsign hy)
    · exact absurd hnegative (hsign hx)
  · rintro rfl
    exact ⟨hnumber hx, hnumber hx, .inl rfl⟩

end Formula.Binary64
