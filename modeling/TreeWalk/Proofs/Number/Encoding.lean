import Mathlib
import TreeWalk.Number.Binary64

/-!
Numbers and their encodings. A number has the bits it was made from, unless they are those of a NaN:
its sign and its code. The other sign makes its negative, and the finite numbers are those whose
code is below that of infinity.
-/

namespace TreeWalk.Number

open Float.Model Float.Model.UnpackedFloat

/-! ## Fields -/

section

variable (sign : Sign) (exponent : BitVec 11) (mantissa : BitVec 52)

theorem toNat_packComponents : (packComponents .binary64 sign exponent mantissa).toNat =
    sign.toBitVec.toNat * 2 ^ 63 + exponent.toNat * 2 ^ 52 + mantissa.toNat := by
  have hexponent := exponent.isLt
  have hmantissa := mantissa.isLt
  rw [packComponents, BitVec.toNat_append, BitVec.toNat_append,
    ← Nat.shiftLeft_add_eq_or_of_lt hexponent, ← Nat.shiftLeft_add_eq_or_of_lt hmantissa,
    Nat.shiftLeft_eq, Nat.shiftLeft_eq]
  omega

/-- Fields are a NaN only if the exponent has all its bits set. -/
theorem valid_packComponents (h : exponent = -1#11 → mantissa = 0#52) :
    Format.binary64.Valid (packComponents .binary64 sign exponent mantissa) where
  eq_packedNaN := by
    rw [unpackExponent_packComponents, unpackMantissa_packComponents]
    exact fun hmax hmantissa => absurd (h hmax) hmantissa

theorem neg_unpack : (unpack .binary64 (packComponents .binary64 sign exponent mantissa)).neg =
    unpack .binary64 (packComponents .binary64 (-sign) exponent mantissa) := by
  simp only [UnpackedFloat.unpack, unpackMantissa_packComponents, unpackExponent_packComponents,
    unpackSign_packComponents, Sign.ofBitVec_toBitVec]
  split <;> split <;> try rfl
  split <;> rfl

theorem isFinite_unpack :
    (unpack .binary64 (packComponents .binary64 sign exponent mantissa)).isFinite = true ↔
      exponent ≠ -1#11 := by
  simp only [UnpackedFloat.unpack, unpackMantissa_packComponents, unpackExponent_packComponents]
  by_cases hmax : exponent = -1#11
  · rw [if_pos hmax]
    split <;> exact ⟨nofun, fun h => (h hmax).elim⟩
  · rw [if_neg hmax]
    split
    · split <;> exact ⟨fun _ => hmax, fun _ => rfl⟩
    · exact ⟨fun _ => hmax, fun _ => rfl⟩

end

/-! ## Codes -/

/-- The bits of a sign and a code. -/
def encoding (negative : Bool) (code : Nat) : BitVec 64 :=
  packComponents .binary64 (if negative then .negative else .positive)
    (BitVec.ofNat 11 (code / 2 ^ 52)) (BitVec.ofNat 52 code)

section

variable (negative : Bool) {c : Nat}

theorem toNat_encoding (hc : c < 2 ^ 63) :
    (encoding negative c).toNat = if negative then 2 ^ 63 + c else c := by
  rw [encoding, toNat_packComponents, BitVec.toNat_ofNat, BitVec.toNat_ofNat]
  cases negative with
  | true =>
    change 1 * 2 ^ 63 + _ + _ = 2 ^ 63 + c
    omega
  | false =>
    change 0 * 2 ^ 63 + _ + _ = c
    omega

theorem infinityCode_eq : infinityCode = 2047 * 2 ^ 52 := rfl

/-- The exponent of a code has all its bits set from infinity on. -/
theorem exponent_eq_iff (hc : c < 2 ^ 63) :
    BitVec.ofNat 11 (c / 2 ^ 52) = -1#11 ↔ infinityCode ≤ c := by
  rw [← BitVec.toNat_inj, BitVec.toNat_ofNat, infinityCode_eq]
  change c / 2 ^ 52 % 2048 = 2047 ↔ _
  omega

theorem valid_encoding (hc : c ≤ infinityCode) : Format.binary64.Valid (encoding negative c) := by
  refine valid_packComponents _ _ _ fun hmax => ?_
  rw [infinityCode_eq] at hc
  have hinfinity : c = 2047 * 2 ^ 52 :=
    Nat.le_antisymm hc ((exponent_eq_iff (by omega)).1 hmax)
  rw [hinfinity]
  rfl

theorem neg_unpack_encoding (c : Nat) :
    (UnpackedFloat.unpack .binary64 (encoding negative c)).neg =
      UnpackedFloat.unpack .binary64 (encoding (!negative) c) := by
  cases negative <;> exact neg_unpack _ _ _

theorem toBitVec_ofNat (hc : c < 2 ^ 63) :
    (UInt64.ofNat (if negative then Nat.pow 2 63 + c else c)).toBitVec = encoding negative c := by
  apply BitVec.eq_of_toNat_eq
  rw [toNat_encoding negative hc]
  change (if negative then 2 ^ 63 + c else c) % 2 ^ 64 = _
  split <;> omega

theorem toBitVec_ofCode (hc : c ≤ infinityCode) :
    (ofCode negative c).toBits.toBitVec = encoding negative c := by
  have hlt : c < 2 ^ 63 := by
    rw [infinityCode_eq] at hc
    omega
  change UnpackedFloat.pack .binary64 (UnpackedFloat.unpack .binary64
    (UInt64.ofNat (if negative then Nat.pow 2 63 + c else c)).toBitVec) = _
  rw [toBitVec_ofNat negative hlt, pack_unpack_of_valid (valid_encoding negative hc)]

theorem toNat_toBits_ofCode (hc : c ≤ infinityCode) :
    (ofCode negative c).toBits.toNat = if negative then 2 ^ 63 + c else c := by
  rw [← UInt64.toNat_toBitVec, toBitVec_ofCode negative hc]
  rw [infinityCode_eq] at hc
  exact toNat_encoding negative (by omega)

theorem code_ofCode (hc : c ≤ infinityCode) : code (ofCode negative c) = c := by
  rw [code, toNat_toBits_ofCode negative hc]
  rw [infinityCode_eq] at hc
  change (if negative then 2 ^ 63 + c else c) % 2 ^ 63 = c
  split <;> omega

theorem isNegative_ofCode (hc : c ≤ infinityCode) : isNegative (ofCode negative c) = negative := by
  rw [isNegative, toNat_toBits_ofCode negative hc]
  rw [infinityCode_eq] at hc
  change decide (2 ^ 63 ≤ if negative then 2 ^ 63 + c else c) = negative
  cases negative with
  | true => simp
  | false =>
    simp only [Bool.false_eq_true, if_false, decide_eq_false_iff_not]
    omega

end

theorem neg_ofCode (negative : Bool) {c : Nat} (hc : c ≤ infinityCode) :
    -ofCode negative c = ofCode (!negative) c := by
  rw [← Float.toBits_inj, ← UInt64.toBitVec_inj, toBitVec_ofCode _ hc]
  change UnpackedFloat.pack .binary64
    (UnpackedFloat.unpack .binary64 (ofCode negative c).toBits.toBitVec).neg = _
  rw [toBitVec_ofCode negative hc, neg_unpack_encoding, pack_unpack_of_valid (valid_encoding _ hc)]

section

variable (x : Float)

theorem code_lt : code x < 2 ^ 63 := Nat.mod_lt _ (by decide)

theorem toBitVec_eq : x.toBits.toBitVec = encoding (isNegative x) (code x) := by
  have hlt := x.toBits.toNat_lt
  apply BitVec.eq_of_toNat_eq
  rw [toNat_encoding _ (code_lt x), isNegative, code, UInt64.toNat_toBitVec]
  change _ = if decide (2 ^ 63 ≤ x.toBits.toNat) = true then
    2 ^ 63 + x.toBits.toNat % 2 ^ 63 else x.toBits.toNat % 2 ^ 63
  simp only [decide_eq_true_eq]
  split <;> omega

/-- The finite numbers have the codes below that of infinity. -/
theorem isFinite_iff : x.isFinite = true ↔ code x < infinityCode := by
  change (UnpackedFloat.unpack .binary64 x.toBits.toBitVec).isFinite = true ↔ _
  rw [toBitVec_eq, encoding, isFinite_unpack, ne_eq,
    exponent_eq_iff (code_lt x), Nat.not_le]

/-- A number is made from its sign and code. -/
theorem ofCode_code : ofCode (isNegative x) (code x) = x := by
  have hbits : UInt64.ofNat (if isNegative x then Nat.pow 2 63 + code x else code x) =
      x.toBits := by
    rw [← UInt64.toBitVec_inj, toBitVec_ofNat _ (code_lt x), toBitVec_eq]
  rw [ofCode, hbits, Float.ofBits_toBits]

end

end TreeWalk.Number
