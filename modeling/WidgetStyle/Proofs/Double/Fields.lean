import WidgetStyle.Proofs.Double.Bits

/-!
# WidgetStyle.Proofs.Double.Fields — the bits of a double

A double is its 64 bits: the sign, and under it those of the magnitude.  They are taken apart and put
together again without loss (`ofSignBits_magnitude`).  What is no number has one form only
(`toNat_toBits_of_nan`), and the bits of a whole number below `2 ^ 53` stand for it
(`bitsValue_ofNat`).
-/

namespace WidgetStyle.Double

open Float.Model
open Float.Model.UnpackedFloat (Sign ExtendedMantissa packComponents packedNaN unpackMantissa
  unpackExponent unpackSign roundWithAccuracy decreaseExponent)

/-! ## Fields -/

theorem toNat_packComponents (s : Sign) (e : BitVec 11) (m : BitVec 52) :
    (packComponents Format.binary64 s e m).toNat =
      s.toBitVec.toNat * 2 ^ 63 + e.toNat * 2 ^ 52 + m.toNat := by
  rw [packComponents, BitVec.toNat_append, BitVec.toNat_append, ← Nat.shiftLeft_add_eq_or_of_lt m.isLt,
    ← Nat.shiftLeft_add_eq_or_of_lt e.isLt, Nat.shiftLeft_eq, Nat.shiftLeft_eq]
  ring

section Unpack

variable (b : BitVec Format.binary64.numBits)

theorem toNat_unpackMantissa : (unpackMantissa b).toNat = b.toNat % 2 ^ 52 := by
  rw [unpackMantissa, BitVec.toNat_cast, BitVec.extractLsb_toNat, Nat.shiftRight_zero]
  rfl

theorem toNat_unpackExponent : (unpackExponent b).toNat = b.toNat / 2 ^ 52 % 2 ^ 11 := by
  rw [unpackExponent, BitVec.toNat_cast, BitVec.extractLsb_toNat, Nat.shiftRight_eq_div_pow]
  rfl

theorem toNat_unpackSign : (unpackSign b).toNat = b.toNat / 2 ^ 63 % 2 := by
  rw [unpackSign, BitVec.toNat_cast, BitVec.extractLsb_toNat, Nat.shiftRight_eq_div_pow]
  rfl

theorem toBitVec_ofBitVec (b : BitVec 1) : (Sign.ofBitVec b).toBitVec = b := by
  rcases BitVec.eq_zero_or_eq_one b with rfl | rfl <;> rfl

theorem packComponents_unpack : packComponents Format.binary64 (.ofBitVec (unpackSign b))
    (unpackExponent b) (unpackMantissa b) = b := by
  have hb : b.toNat < 2 ^ 64 := b.isLt
  refine BitVec.eq_of_toNat_eq ?_
  rw [toNat_packComponents, toBitVec_ofBitVec, toNat_unpackSign, toNat_unpackExponent,
    toNat_unpackMantissa]
  omega

end Unpack

/-- The bits of a finite number: its sign, its unit and the number of units. -/
theorem toNat_pack_finite {s : Sign} {m : Nat} {e : Int} {hm : 0 < m}
    (h : Canonical (.finite s m e hm)) :
    (UnpackedFloat.pack Format.binary64 (.finite s m e hm)).toNat =
      s.toBitVec.toNat * 2 ^ 63 + ((e + 1074).toNat * 2 ^ 52 + m) := by
  obtain ⟨hmax, hmin, hroom, hfull⟩ := h
  have hbits : Format.binary64.mantissaBits = 53 := rfl
  have hbias : (e + Format.binary64.exponentBias + Format.binary64.mantissaBitsWithoutImplicit).toNat =
      (e + 1075).toNat := by
    change (e + 1023 + 52).toNat = _
    omega
  have hunit : ¬2 ^ Format.binary64.exponentBits ≤ (e + 1075).toNat + 1 := by
    change ¬2048 ≤ _
    omega
  rw [UnpackedFloat.pack, hbias, hbits]
  dsimp only
  rw [if_neg hunit]
  split
  · next hdigits =>
      -- the leading digit is left out, and the exponent field counts one more
      have hm52 : 2 ^ 52 ≤ m := (Nat.le_log2 hm.ne').mp (by omega)
      rw [toNat_packComponents, BitVec.toNat_ofNat, BitVec.toNat_ofNat]
      omega
  · next hdigits =>
      have hm52 : m < 2 ^ 52 := by
        refine (Nat.log2_lt hm.ne').mp ?_
        have := (Nat.log2_lt hm.ne').mpr hmax
        omega
      rw [toNat_packComponents, BitVec.toNat_ofNat, BitVec.toNat_ofNat]
      omega

/-- The bits come back from the parts. -/
theorem pack_unpack {b : BitVec Format.binary64.numBits} (h : Format.binary64.Valid b) :
    UnpackedFloat.pack Format.binary64 (UnpackedFloat.unpack Format.binary64 b) = b := by
  have hcanonical := canonical_unpack_bits b
  have hnan := h.eq_packedNaN
  obtain ⟨s, e, m, hb⟩ : ∃ s e m, b = packComponents Format.binary64 s e m :=
    ⟨_, _, _, (packComponents_unpack b).symm⟩
  rw [hb, unpack_packComponents] at hcanonical ⊢
  -- infinity, no number, zero, and the numbers without and with a leading digit
  split_ifs at hcanonical ⊢ with hones hzero hexp hzero
  · rw [hones, hzero]
    rfl
  · refine (hb ▸ hnan ?_ ?_).symm
    · rw [hb, UnpackedFloat.unpackExponent_packComponents, hones]
      rfl
    · rw [hb, UnpackedFloat.unpackMantissa_packComponents]
      exact hzero
  · rw [hexp, hzero]
    rfl
  · have he : e.toNat = 0 := congrArg BitVec.toNat hexp
    refine BitVec.eq_of_toNat_eq ?_
    rw [toNat_pack_finite hcanonical, toNat_packComponents]
    omega
  · have he := hcanonical.2.1
    refine BitVec.eq_of_toNat_eq ?_
    rw [toNat_pack_finite hcanonical, toNat_packComponents, toNat_leading_append]
    omega

theorem ofBits_toBits (x : Float) : Float.ofBits x.toBits = x := by
  obtain ⟨⟨bits, hvalid⟩⟩ := x
  change Float.ofModel (Float.Model.ofBits bits) = Float.ofModel ⟨bits, hvalid⟩
  rw [Float.ofModel.injEq, Float.Model.ofBits, Float.Model.pack, Float.Model.mk.injEq,
    pack_unpack hvalid]

/-! ## Sign and magnitude -/

section

variable (x : Float)

theorem toNat_toBits_eq :
    x.toBits.toNat = (if isNegative x then signBit else 0) + magnitude x := by
  have hbits : x.toBits.toNat < 2 ^ 64 := x.toBits.toNat_lt
  have hsign : signBit = 2 ^ 63 := rfl
  rw [isNegative, magnitude, hsign]
  simp only [decide_eq_true_eq]
  split <;> omega

/-- A double is made of its sign and its magnitude. -/
theorem ofSignBits_magnitude : ofSignBits (isNegative x) (magnitude x) = x := by
  have hbits : (if isNegative x then signBit + magnitude x else magnitude x) = x.toBits.toNat := by
    rw [toNat_toBits_eq]
    split <;> omega
  rw [ofSignBits, hbits, UInt64.ofNat_toNat, ofBits_toBits]

/-- What is no number has one form. -/
theorem toNat_toBits_of_nan (h : infinityBits < magnitude x) :
    x.toBits.toNat = infinityBits + 1 <<< 51 := by
  have hinf : infinityBits = 2047 * 2 ^ 52 := rfl
  have hsign : signBit = 2 ^ 63 := rfl
  rw [magnitude, hinf, hsign] at h
  have hbits : x.toModel.toBits.toBitVec.toNat = x.toBits.toNat := rfl
  have hnan : x.toModel.toBits.toBitVec = packedNaN Format.binary64 := by
    refine x.toModel.valid.eq_packedNaN (BitVec.eq_of_toNat_eq ?_) fun hzero => ?_
    · rw [toNat_unpackExponent, hbits]
      change _ = 2047
      omega
    · have := congrArg BitVec.toNat hzero
      rw [toNat_unpackMantissa, hbits] at this
      change _ = 0 at this
      omega
  rw [← hbits, hnan]
  rfl

end

/-! ## Whole numbers -/

/-- Parts that doubles have are kept when they are rounded, also from smaller units. -/
theorem roundWithAccuracy_shiftLeft {s : Sign} {m : Nat} {e : Int} {hm : 0 < m}
    (h : Canonical (.finite s m e hm)) (j : Nat) :
    roundWithAccuracy Format.binary64 s (m <<< j) (e - j) .exact = .finite s m e hm := by
  obtain ⟨hmax, hmin, -, hfull⟩ := h
  have hlog : m.log2 < 53 := (Nat.log2_lt hm.ne').mpr hmax
  have hfull : 52 ≤ m.log2 ∨ e = -1074 := hfull.imp_left (Nat.le_log2 hm.ne').mpr
  have hwhole : ((m <<< j : Nat) : ℚ) / 2 ^ j = m := by
    rw [Nat.shiftLeft_eq]
    push_cast
    exact mul_div_cancel_right₀ _ (by positivity)
  have hfit : Fits (ExtendedMantissa.ofMantissaAndAccuracy (m <<< j) .exact).accuracy
      ((m <<< j : Nat) - (ExtendedMantissa.ofMantissaAndAccuracy (m <<< j) .exact).mantissa) :=
    sub_self _
  have hnear := nearest_roundToNearestEven (fits_shiftRight hfit j)
  rw [hwhole] at hnear
  have hshift : (e - (e - j)).toNat = j := by omega
  rw [roundWithAccuracy_eq s (r := m) (t := e) (by rw [log2_shiftLeft hm]; omega) (by omega)
    (by rw [hshift]; exact hnear.unique (nearest_self m)) hmax.le, if_neg hmax.ne, dif_neg hm.ne']

/-- A whole number in the units that leave room for its digits. -/
theorem ofNat_unpacked {n : Nat} (hpos : 0 < n) (hn : n < 2 ^ 53) :
    ∃ (k : Nat) (hm : 0 < n <<< k), Canonical (.finite .positive (n <<< k) (-k) hm) ∧
      UnpackedFloat.ofNat Format.binary64 n = .finite .positive (n <<< k) (-k) hm := by
  have hlog : n.log2 < 53 := (Nat.log2_lt hpos.ne').mpr hn
  obtain ⟨k, hk⟩ : ∃ k, k = 52 - n.log2 := ⟨_, rfl⟩
  have hm : 0 < n <<< k := by
    rw [Nat.shiftLeft_eq]
    positivity
  have hdigits : (n <<< k).log2 = 52 := by
    rw [log2_shiftLeft hpos]
    omega
  have hcanonical : Canonical (.finite .positive (n <<< k) (-k) hm) :=
    ⟨(Nat.log2_lt hm.ne').mp (by omega), by omega, by omega,
      Or.inl ((Nat.le_log2 hm.ne').mp hdigits.ge)⟩
  refine ⟨k, hm, hcanonical, ?_⟩
  have hunit : max ((n.log2 : Int) + 0 - 52) (-1074) = -k := by omega
  have hround := roundWithAccuracy_shiftLeft hcanonical 0
  rw [Nat.shiftLeft_zero] at hround
  rw [UnpackedFloat.ofNat, UnpackedFloat.ofInt, UnpackedFloat.normalize,
    compare_gt_iff_gt.mpr (by exact_mod_cast hpos)]
  dsimp only
  rw [Int.toNat_natCast, UnpackedFloat.round, targetExponent_eq, hunit, decreaseExponent]
  dsimp only
  rw [show (0 - -(k : Int)).toNat = k by omega, show (0 : Int) - k = -k - (0 : Nat) by omega]
  exact hround

/-- Whole numbers are read as digits and multiplied by 1. -/
theorem ofNat_eq_mul {n : Nat} (hn : n < 2 ^ 53) :
    Float.ofNat n = n.toUInt64.toFloat * Float.ofBits 0x3FF0000000000000 := by
  change Float.ofScientific n false 0 = _
  rw [Float.ofScientific, dif_pos ⟨hn, by decide⟩]
  rfl

theorem toModel_ofNat {n : Nat} (hpos : 0 < n) (hn : n < 2 ^ 53) :
    ∃ (k : Nat) (hm : 0 < n <<< k), Canonical (.finite .positive (n <<< k) (-k) hm) ∧
      (Float.ofNat n).toModel = Float.Model.pack (.finite .positive (n <<< k) (-k) hm) := by
  obtain ⟨k, hm, hcanonical, hunpacked⟩ := ofNat_unpacked hpos hn
  refine ⟨k, hm, hcanonical, ?_⟩
  have hword : n.toUInt64.toNat = n := Nat.mod_eq_of_lt (hn.trans (by norm_num))
  have hfloat : n.toUInt64.toFloat.toModel.unpack = .finite .positive (n <<< k) (-k) hm := by
    change (Float.Model.pack (UnpackedFloat.ofNat Format.binary64 n.toUInt64.toNat)).unpack = _
    rw [hword, hunpacked, unpack_pack hcanonical]
  have hone : (Float.ofBits 0x3FF0000000000000).toModel.unpack =
      .finite .positive (2 ^ 52) (-52) (by decide) := rfl
  rw [ofNat_eq_mul hn]
  change Float.Model.pack (UnpackedFloat.mul Format.binary64 n.toUInt64.toFloat.toModel.unpack
    (Float.ofBits 0x3FF0000000000000).toModel.unpack) = _
  rw [hfloat, hone]
  -- the product has 52 more zeros at its end
  have hround := roundWithAccuracy_shiftLeft hcanonical 52
  rw [Nat.shiftLeft_eq _ 52] at hround
  exact congrArg Float.Model.pack hround

/-- The bits of a whole number stand for it. -/
theorem bitsValue_ofNat {n : Nat} (hpos : 0 < n) (hn : n < 2 ^ 53) :
    isNegative (Float.ofNat n) = false ∧ 0 < magnitude (Float.ofNat n) ∧
      magnitude (Float.ofNat n) < infinityBits ∧ bitsValue (magnitude (Float.ofNat n)) = n := by
  obtain ⟨k, hm, hcanonical, hmodel⟩ := toModel_ofNat hpos hn
  have hbits : (Float.ofNat n).toBits.toNat = (-(k : Int) + 1074).toNat * 2 ^ 52 + n <<< k := by
    change (Float.ofNat n).toModel.toBits.toBitVec.toNat = _
    rw [hmodel]
    refine (toNat_pack_finite hcanonical).trans ?_
    change 0 * 2 ^ 63 + _ = _
    omega
  have hsign : signBit = 2 ^ 63 := rfl
  have hinf : infinityBits = 2047 * 2 ^ 52 := rfl
  obtain ⟨hmax, hmin, -, hfull⟩ := hcanonical
  have hmagnitude : magnitude (Float.ofNat n) = (-(k : Int) + 1074).toNat * 2 ^ 52 + n <<< k := by
    rw [magnitude, hbits, hsign]
    omega
  refine ⟨?_, by omega, by omega, ?_⟩
  · rw [isNegative, hbits, hsign, decide_eq_false_iff_not]
    omega
  · have hfull : (-(k : Int) + 1074).toNat = 0 ∨ 2 ^ 52 ≤ n <<< k :=
      hfull.symm.imp_left fun h => by omega
    have hunit : (((-(k : Int) + 1074).toNat : Nat) : Int) - 1074 = 0 - k := by omega
    rw [hmagnitude, bitsValue_units hmax.le hfull, hunit, shiftLeft_mul_two_zpow, zpow_zero, mul_one]

end WidgetStyle.Double
