import Mathlib
import WidgetStyle.Double

/-!
# WidgetStyle.Proofs.Double.Values — what doubles stand for

Doubles are compared and subtracted through their parts: a sign, a whole number, and the power of
two that is its unit.  Here the parts are tied to the rational number they stand for, so that
orders and distances of doubles can be argued about as those of numbers:

* the parts of a double are `Canonical`, which leaves one way to write each number
  (`canonical_unpack`), and canonical parts come back from the bits unchanged (`unpack_pack`);
* comparing finite doubles is comparing their values (`lt_iff_value_lt`, `le_iff_value_le`).
-/

namespace WidgetStyle.Double

open Float.Model
open Float.Model.UnpackedFloat (Sign packComponents unpackMantissa_packComponents
  unpackExponent_packComponents unpackSign_packComponents)

/-! ## Parts -/

/-- The number that the parts stand for.  Infinities, and what is no number, count as zero. -/
def exact : UnpackedFloat → ℚ
  | .finite s m e _ => s.apply m * 2 ^ e
  | _ => 0

/-- The number that a finite double stands for. -/
def value (x : Float) : ℚ := exact x.toModel.unpack

/-- The parts as doubles have them: the whole number takes up all the 53 binary digits, unless the
unit is the smallest one. -/
def Canonical : UnpackedFloat → Prop
  | .finite _ m e _ => m < 2 ^ 53 ∧ -1074 ≤ e ∧ e ≤ 971 ∧ (2 ^ 52 ≤ m ∨ e = -1074)
  | _ => True

/-- The leading digit, which is not stored, is put in front of the others. -/
theorem toNat_leading_append (m : BitVec 52) : (1#1 ++ m).toNat = 2 ^ 52 + m.toNat := by
  rw [BitVec.toNat_append, ← Nat.shiftLeft_add_eq_or_of_lt m.isLt]
  rfl

theorem canonical_unpack_bits (b : BitVec Format.binary64.numBits) :
    Canonical (UnpackedFloat.unpack Format.binary64 b) := by
  fun_cases UnpackedFloat.unpack with
  | case1 | case2 | case3 => trivial
  | case4 mvec evec e svec s _ hevec hmvec =>
      have hm : mvec.toNat < 2 ^ 52 := mvec.isLt
      have hexp : e + 1 = -1074 := by simp only [e, hevec]; rfl
      exact ⟨lt_trans hm (by norm_num), hexp.ge, by omega, Or.inr hexp⟩
  | case5 mvec evec e svec s hones hzero =>
      have hm : mvec.toNat < 2 ^ 52 := mvec.isLt
      have he : evec.toNat < 2 ^ 11 := evec.isLt
      have hone : evec.toNat ≠ 0 := fun h => hzero (BitVec.eq_of_toNat_eq h)
      have hall : evec.toNat ≠ 2047 := fun h => hones (BitVec.eq_of_toNat_eq h)
      have hexp : e = evec.toNat - 1075 := rfl
      have hval : (1#1 ++ mvec).toNat = 2 ^ 52 + mvec.toNat := toNat_leading_append mvec
      refine ⟨?_, ?_, ?_, Or.inl ?_⟩
      · rw [hval]
        exact Nat.add_lt_add_left hm (2 ^ 52)
      · rw [hexp]
        omega
      · rw [hexp]
        omega
      · rw [hval]
        exact Nat.le_add_right _ _

/-- Doubles have canonical parts. -/
theorem canonical_unpack (x : Float) : Canonical x.toModel.unpack :=
  canonical_unpack_bits _

/-! ## Back from the bits -/

/-- The parts that stand in the three fields of the bits. -/
theorem unpack_packComponents (s : Sign) (e : BitVec 11) (m : BitVec 52) :
    UnpackedFloat.unpack Format.binary64 (packComponents Format.binary64 s e m) =
      if e = -1 then if m = 0 then .infinity s else .notANumber
      else if e = 0 then
        if h : m = 0 then .zero s
        else .finite s m.toNat (e.toNat - 1075 + 1)
          (by simpa [BitVec.toNat_pos, BitVec.pos_iff_ne_zero] using h)
      else .finite s (1#1 ++ m).toNat (e.toNat - 1075) (by rw [toNat_leading_append]; omega) := by
  rw [UnpackedFloat.unpack]
  simp only [unpackMantissa_packComponents, unpackExponent_packComponents,
    unpackSign_packComponents, Sign.ofBitVec_toBitVec]
  rfl

theorem unpack_pack {u : UnpackedFloat} (h : Canonical u) : (Float.Model.pack u).unpack = u := by
  change UnpackedFloat.unpack Format.binary64 (UnpackedFloat.pack Format.binary64 u) = u
  fun_cases UnpackedFloat.pack Format.binary64 u with
  | case1 => exact unpack_packComponents _ _ _
  | case2 s => exact unpack_packComponents s _ _
  | case3 s => exact unpack_packComponents s _ _
  | case4 s m e hm biased hbig =>
      -- a unit for which the exponent field has no room
      have hbiased : biased = (e + 1023 + 52).toNat := rfl
      have := h.2.2.1
      change 2048 ≤ biased + 1 at hbig
      omega
  | case5 s m e hm digits biased hfit hfull =>
      -- with all the digits used up, the leading one is left out, and the exponent tells so
      obtain ⟨hmax, hmin, -, -⟩ := h
      have hbiased : biased = (e + 1023 + 52).toNat := rfl
      have hfit : biased + 1 < 2048 := Nat.lt_of_not_le hfit
      have hlog : m.log2 = 52 := Nat.add_right_cancel (hfull.trans (by rfl : _ = 52 + 1))
      have hm52 := (Nat.le_log2 hm.ne').mp hlog.ge
      have hexp : (BitVec.ofNat 11 biased).toNat = biased := by
        rw [BitVec.toNat_ofNat, Nat.mod_eq_of_lt (by omega)]
      have hval : (1#1 ++ BitVec.ofNat 52 m).toNat = m := by
        rw [toNat_leading_append, BitVec.toNat_ofNat]
        omega
      refine (unpack_packComponents s (BitVec.ofNat 11 biased) (BitVec.ofNat 52 m)).trans ?_
      rw [if_neg fun h => ?_, if_neg fun h => ?_]
      · simp only [hexp, hval]
        congr 1
        omega
      · have : biased = 0 := hexp.symm.trans (by rw [h]; rfl)
        omega
      · have : biased = 2047 := hexp.symm.trans (by rw [h]; rfl)
        omega
  | case6 s m e hm digits biased hfit hfull =>
      -- with fewer digits the unit is the smallest one, for which the exponent field is zero
      obtain ⟨hmax, -, -, hmin⟩ := h
      have hlog : m.log2 ≠ 52 := fun h => hfull (by simp only [digits, h]; rfl)
      have hm52 : m < 2 ^ 52 := by
        refine (Nat.log2_lt hm.ne').mp (lt_of_le_of_ne ?_ hlog)
        exact Nat.lt_succ_iff.mp ((Nat.log2_lt hm.ne').mpr hmax)
      have hval : (BitVec.ofNat 52 m).toNat = m := by
        rw [BitVec.toNat_ofNat, Nat.mod_eq_of_lt hm52]
      refine (unpack_packComponents s 0 (BitVec.ofNat 52 m)).trans ?_
      rw [if_neg (by decide), if_pos rfl, dif_neg fun h => ?_]
      · simp only [hval]
        congr 1
        exact (hmin.resolve_left (Nat.not_le.mpr hm52)).symm
      · rw [h] at hval
        exact hm.ne hval

/-! ## Order -/

section Magnitudes

variable {s₁ s₂ : Sign} {m₁ m₂ : Nat} {e₁ e₂ : Int} {hm₁ : 0 < m₁} {hm₂ : 0 < m₂}

/-- A larger unit outweighs every whole number, as the digits in front of it are used up. -/
theorem magnitude_lt_of_unit_lt (h₁ : Canonical (.finite s₁ m₁ e₁ hm₁))
    (h₂ : Canonical (.finite s₂ m₂ e₂ hm₂)) (h : e₁ < e₂) :
    (m₁ : ℚ) * 2 ^ e₁ < m₂ * 2 ^ e₂ := by
  have hlow : (m₁ : ℚ) < 2 ^ 53 := by exact_mod_cast h₁.1
  have hhigh : (2 : ℚ) ^ 52 ≤ m₂ := by
    exact_mod_cast h₂.2.2.2.resolve_right (by have := h₁.2.1; omega)
  calc (m₁ : ℚ) * 2 ^ e₁ < 2 ^ 53 * 2 ^ e₁ := by gcongr
    _ = 2 ^ 52 * 2 ^ (e₁ + 1) := by rw [zpow_add_one₀ two_ne_zero]; ring
    _ ≤ m₂ * 2 ^ e₂ := by gcongr; exacts [one_le_two, h]

/-- The magnitudes of canonical parts compare as their units do, and then as the whole numbers. -/
theorem compare_magnitudes (h₁ : Canonical (.finite s₁ m₁ e₁ hm₁))
    (h₂ : Canonical (.finite s₂ m₂ e₂ hm₂)) :
    compare ((m₁ : ℚ) * 2 ^ e₁) (m₂ * 2 ^ e₂) = (compare e₁ e₂).then (compare m₁ m₂) := by
  rcases lt_trichotomy e₁ e₂ with h | rfl | h
  · rw [compare_lt_iff_lt.mpr h, compare_lt_iff_lt.mpr (magnitude_lt_of_unit_lt h₁ h₂ h)]
    rfl
  · have hunit : (0 : ℚ) < 2 ^ e₁ := by positivity
    rw [compare_eq_iff_eq.mpr (rfl : e₁ = e₁), Ordering.then]
    rcases lt_trichotomy m₁ m₂ with h | rfl | h
    · rw [compare_lt_iff_lt.mpr h, compare_lt_iff_lt]
      gcongr
    · rw [compare_eq_iff_eq.mpr rfl, compare_eq_iff_eq.mpr rfl]
    · rw [compare_gt_iff_gt.mpr h, compare_gt_iff_gt]
      gcongr
  · rw [compare_gt_iff_gt.mpr h, compare_gt_iff_gt.mpr (magnitude_lt_of_unit_lt h₂ h₁ h)]
    rfl

end Magnitudes

/-- The signs turn the order around. -/
theorem compare_neg_neg (x y : ℚ) : compare (-x) (-y) = (compare x y).swap := by
  rcases lt_trichotomy x y with h | rfl | h
  · rw [compare_lt_iff_lt.mpr h, compare_gt_iff_gt.mpr (neg_lt_neg h)]
    rfl
  · rw [compare_eq_iff_eq.mpr rfl, compare_eq_iff_eq.mpr rfl]
    rfl
  · rw [compare_gt_iff_gt.mpr h, compare_lt_iff_lt.mpr (neg_lt_neg h)]
    rfl

theorem magnitude_pos {m : Nat} (hm : 0 < m) (e : Int) : (0 : ℚ) < m * 2 ^ e := by positivity

@[simp]
theorem exact_zero (s : Sign) : exact (.zero s) = 0 := rfl

@[simp]
theorem exact_positive {m : Nat} {e : Int} {hm : 0 < m} :
    exact (.finite .positive m e hm) = m * 2 ^ e := by
  simp [exact, Sign.apply]

@[simp]
theorem exact_negative {m : Nat} {e : Int} {hm : 0 < m} :
    exact (.finite .negative m e hm) = -(m * 2 ^ e) := by
  simp [exact, Sign.apply]

/-- Comparing canonical parts is comparing the numbers that they stand for. -/
theorem compare_eq {a b : UnpackedFloat} (ha : Canonical a) (hb : Canonical b)
    (hfa : a.isFinite) (hfb : b.isFinite) : a.compare b = some (compare (exact a) (exact b)) := by
  rcases a with s₁ | _ | s₁ | ⟨s₁, m₁, e₁, hm₁⟩ <;> try contradiction
  all_goals rcases b with s₂ | _ | s₂ | ⟨s₂, m₂, e₂, hm₂⟩ <;> try contradiction
  · exact congrArg some (compare_eq_iff_eq.mpr rfl).symm
  · have h := magnitude_pos hm₂ e₂
    cases s₂ with
    | positive => exact congrArg some (compare_lt_iff_lt.mpr (by simpa using h)).symm
    | negative => exact congrArg some (compare_gt_iff_gt.mpr (by simpa using h)).symm
  · have h := magnitude_pos hm₁ e₁
    cases s₁ with
    | positive => exact congrArg some (compare_gt_iff_gt.mpr (by simpa using h)).symm
    | negative => exact congrArg some (compare_lt_iff_lt.mpr (by simpa using h)).symm
  · have h₁ := magnitude_pos hm₁ e₁
    have h₂ := magnitude_pos hm₂ e₂
    cases s₁ with
    | positive =>
        cases s₂ with
        | positive =>
            rw [exact_positive, exact_positive, compare_magnitudes ha hb]
            rfl
        | negative =>
            refine congrArg some (compare_gt_iff_gt.mpr ?_).symm
            rw [exact_positive, exact_negative]
            linarith
    | negative =>
        cases s₂ with
        | positive =>
            refine congrArg some (compare_lt_iff_lt.mpr ?_).symm
            rw [exact_positive, exact_negative]
            linarith
        | negative =>
            rw [exact_negative, exact_negative, compare_neg_neg, compare_magnitudes ha hb]
            rfl

theorem lt_iff_unpack {x y : Float} :
    x < y ↔ x.toModel.unpack.compare y.toModel.unpack = some .lt :=
  decide_eq_true_iff.trans beq_iff_eq

theorem le_iff_unpack {x y : Float} :
    x ≤ y ↔ (x.toModel.unpack.compare y.toModel.unpack).any (·.isLE) :=
  decide_eq_true_iff

theorem lt_iff_value_lt {x y : Float} (hx : x.isFinite) (hy : y.isFinite) :
    x < y ↔ value x < value y := by
  rw [lt_iff_unpack, compare_eq (canonical_unpack x) (canonical_unpack y) hx hy, Option.some_inj,
    compare_lt_iff_lt]
  rfl

theorem le_iff_value_le {x y : Float} (hx : x.isFinite) (hy : y.isFinite) :
    x ≤ y ↔ value x ≤ value y := by
  rw [le_iff_unpack, compare_eq (canonical_unpack x) (canonical_unpack y) hx hy, Option.any_some,
    Ordering.isLE_iff_ne_gt, ← Ne, compare_le_iff_le]
  rfl

/-! ## The numbers that the program writes -/

theorem unpack_zero : (0.0 : Float).toModel.unpack = .zero .positive := rfl

theorem unpack_one : (1.0 : Float).toModel.unpack = .finite .positive (2 ^ 52) (-52) (by decide) :=
  rfl

theorem unpack_hundred :
    (100.0 : Float).toModel.unpack = .finite .positive (100 * 2 ^ 46) (-46) (by decide) := rfl

@[simp]
theorem value_zero : value 0.0 = 0 := by
  rw [value, unpack_zero, exact_zero]

@[simp]
theorem value_one : value 1.0 = 1 := by
  rw [value, unpack_one, exact_positive]
  norm_num

@[simp]
theorem value_hundred : value 100.0 = 100 := by
  rw [value, unpack_hundred, exact_positive]
  norm_num

end WidgetStyle.Double
