import WidgetStyle.Proofs.Double.Rounding
import WidgetStyle.Timing.Bezier
import WidgetStyle.Timing.Duration

/-!
# WidgetStyle.Proofs.Double.Unit — doubles between 0 and 1

Keeping a number between 0 and 1 does so for everything that is a number (`inUnit_clampUnit`), and
of what is between 0 and 1 already, nothing is changed (`clampUnit_of_inUnit`).  A percentage from 0
to 100 is one (`inUnit_div_hundred`).

Differences of such numbers are rounded, so that two of them pass for the same within slightly less
than the distance between 1 and the next double (`abs_sub_lt_epsilon_iff`).
-/

namespace WidgetStyle.Double

open Float.Model
open Float.Model.UnpackedFloat (Sign)

/-- The double is a number from 0 to 1. -/
def InUnit (x : Float) : Prop := 0.0 ≤ x ∧ x ≤ 1.0

instance (x : Float) : Decidable (InUnit x) := inferInstanceAs (Decidable (_ ∧ _))

variable {x y : Float}

theorem isFinite_zero : (0.0 : Float).isFinite := rfl

theorem isFinite_one : (1.0 : Float).isFinite := rfl

theorem isFinite_hundred : (100.0 : Float).isFinite := rfl

theorem isFinite_epsilon : Duration.epsilon.isFinite := rfl

theorem unpack_epsilon :
    Duration.epsilon.toModel.unpack = .finite .positive (2 ^ 52) (-104) (by decide) := rfl

theorem value_epsilon : value Duration.epsilon = 2 ^ (-52 : Int) := by
  rw [value, unpack_epsilon, exact_positive]
  norm_num

theorem isNaN_iff : x.isNaN ↔ x.toModel.unpack = .notANumber :=
  UnpackedFloat.isNaN_iff

/-- A double is finite, or infinite, or no number. -/
theorem finite_or (x : Float) : x.isFinite ∨
    x.toModel.unpack = .infinity .positive ∨ x.toModel.unpack = .infinity .negative ∨
      x.toModel.unpack = .notANumber := by
  change x.toModel.unpack.isFinite ∨ _
  rcases x.toModel.unpack with s | _ | _ | _
  · cases s with
    | positive => exact Or.inr (Or.inl rfl)
    | negative => exact Or.inr (Or.inr (Or.inl rfl))
  · exact Or.inr (Or.inr (Or.inr rfl))
  · exact Or.inl rfl
  · exact Or.inl rfl

/-- What lies between 0 and a finite double is finite. -/
theorem isFinite_of_le (hy : y.isFinite) (h0 : 0.0 ≤ x) (h1 : x ≤ y) : x.isFinite := by
  rw [le_iff_unpack, unpack_zero] at h0
  rw [le_iff_unpack] at h1
  rcases finite_or x with hx | hx | hx | hx
  · exact hx
  · rw [hx] at h1
    change y.toModel.unpack.isFinite at hy
    generalize y.toModel.unpack = v at hy h1
    cases v with
    | infinity | notANumber => contradiction
    | zero | finite => exact Bool.noConfusion h1
  · rw [hx] at h0
    exact absurd h0 (by decide)
  · rw [hx] at h0
    exact absurd h0 (by decide)

theorem InUnit.isFinite (h : InUnit x) : x.isFinite := isFinite_of_le isFinite_one h.1 h.2

theorem inUnit_iff : InUnit x ↔ x.isFinite ∧ 0 ≤ value x ∧ value x ≤ 1 := by
  constructor
  · intro h
    have hx := h.isFinite
    obtain ⟨h0, h1⟩ := h
    rw [le_iff_value_le isFinite_zero hx, value_zero] at h0
    rw [le_iff_value_le hx isFinite_one, value_one] at h1
    exact ⟨hx, h0, h1⟩
  · rintro ⟨hx, h0, h1⟩
    rw [InUnit, le_iff_value_le isFinite_zero hx, le_iff_value_le hx isFinite_one, value_zero,
      value_one]
    exact ⟨h0, h1⟩

/-! ## Keeping a number between 0 and 1 -/

theorem inUnit_clampUnit (hx : x.isNaN = false) : InUnit (clampUnit x) := by
  rw [clampUnit]
  rcases finite_or x with hfin | hinf | hinf | hnan
  · by_cases hlow : x < 0.0
    · rw [if_pos hlow]
      decide
    · by_cases hhigh : 1.0 < x
      · rw [if_neg hlow, if_pos hhigh]
        decide
      · rw [if_neg hlow, if_neg hhigh, inUnit_iff]
        rw [lt_iff_value_lt hfin isFinite_zero, value_zero, not_lt] at hlow
        rw [lt_iff_value_lt isFinite_one hfin, value_one, not_lt] at hhigh
        exact ⟨hfin, hlow, hhigh⟩
  · have hlow : ¬x < 0.0 := by rw [lt_iff_unpack, hinf]; decide
    have hhigh : 1.0 < x := by rw [lt_iff_unpack, hinf, unpack_one]; rfl
    rw [if_neg hlow, if_pos hhigh]
    decide
  · have hlow : x < 0.0 := by rw [lt_iff_unpack, hinf, unpack_zero]; rfl
    rw [if_pos hlow]
    decide
  · exact absurd hx (by rw [isNaN_iff.mpr hnan]; decide)

theorem clampUnit_of_inUnit (hx : InUnit x) : clampUnit x = x := by
  obtain ⟨hfin, h0, h1⟩ := inUnit_iff.mp hx
  have hlow : ¬x < 0.0 := by rwa [lt_iff_value_lt hfin isFinite_zero, value_zero, not_lt]
  have hhigh : ¬1.0 < x := by rwa [lt_iff_value_lt isFinite_one hfin, value_one, not_lt]
  rw [clampUnit, if_neg hlow, if_neg hhigh]

theorem clampUnit_of_isNaN (hx : x.isNaN) : clampUnit x = x := by
  have hlow : ¬x < 0.0 := by rw [lt_iff_unpack, isNaN_iff.mp hx]; decide
  have hhigh : ¬1.0 < x := by rw [lt_iff_unpack, isNaN_iff.mp hx, unpack_one]; decide
  rw [clampUnit, if_neg hlow, if_neg hhigh]

/-! ## Percentages -/

theorem inUnit_div_hundred (h0 : 0.0 ≤ x) (h1 : x ≤ 100.0) : InUnit (x / 100.0) := by
  have hfin : x.toModel.unpack.isFinite := isFinite_of_le isFinite_hundred h0 h1
  rw [le_iff_value_le isFinite_zero hfin, value_zero, value] at h0
  rw [le_iff_value_le hfin isFinite_hundred, value_hundred, value] at h1
  -- the quotient, before it is packed
  have hdiv : (x / 100.0).toModel.unpack = (Float.Model.pack (UnpackedFloat.div Format.binary64
      x.toModel.unpack (.finite .positive (100 * 2 ^ 46) (-46) (by decide)))).unpack := rfl
  suffices ∀ u, u = UnpackedFloat.div Format.binary64 x.toModel.unpack
      (.finite .positive (100 * 2 ^ 46) (-46) (by decide)) →
      Canonical u ∧ u.isFinite ∧ 0 ≤ exact u ∧ exact u ≤ 1 by
    obtain ⟨hcanon, hbounds⟩ := this _ rfl
    rw [unpack_pack hcanon] at hdiv
    rw [inUnit_iff, value]
    change (x / 100.0).toModel.unpack.isFinite ∧ _
    rw [hdiv]
    exact hbounds
  rintro u rfl
  generalize x.toModel.unpack = v at *
  rcases v with s | _ | s | ⟨s, m, e, hm⟩ <;> try contradiction
  · exact ⟨trivial, rfl, le_rfl, zero_le_one⟩
  · cases s with
    | negative =>
        rw [exact_negative] at h0
        linarith [magnitude_pos hm e]
    | positive =>
        rw [exact_positive] at h1
        exact div_mem_unit hm (by decide) (h1.trans (by norm_num))

/-! ## Distances -/

theorem canonical_abs {u : UnpackedFloat} (h : Canonical u) : Canonical u.abs := by
  cases u <;> exact h

theorem exact_abs (u : UnpackedFloat) : exact u.abs = |exact u| := by
  cases u with
  | infinity | notANumber | zero => exact abs_zero.symm
  | finite s m e hm =>
      rw [UnpackedFloat.abs, exact_positive, exact, abs_apply, abs_of_pos (by positivity)]

theorem isFinite_abs (u : UnpackedFloat) : u.abs.isFinite = u.isFinite := by
  cases u <;> rfl

/-- The size of a difference is the size of the exact one, rounded. -/
theorem abs_sub_spec (hx : InUnit x) (hy : InUnit y) :
    (x - y).abs.isFinite ∧ (value x = value y → value (x - y).abs = 0) ∧
      (value x ≠ value y → IsRounded |value x - value y| (value (x - y).abs)) := by
  obtain ⟨hxf, hx0, hx1⟩ := inUnit_iff.mp hx
  obtain ⟨hyf, hy0, hy1⟩ := inUnit_iff.mp hy
  have hle : |value x - value y| ≤ 1 := by
    rw [abs_le]
    constructor <;> linarith
  have hround := roundsTo_sub (canonical_unpack x) (canonical_unpack y) hxf hyf hle
  have hsub : (x - y).toModel.unpack = UnpackedFloat.sub Format.binary64 _ _ :=
    unpack_pack hround.canonical
  have habs : (x - y).abs.toModel.unpack = (x - y).toModel.unpack.abs :=
    unpack_pack (canonical_abs (canonical_unpack (x - y)))
  rw [hsub] at habs
  change (x - y).abs.toModel.unpack.isFinite ∧ (_ → exact (x - y).abs.toModel.unpack = 0) ∧
    (_ → IsRounded _ (exact (x - y).abs.toModel.unpack))
  rw [habs, isFinite_abs, exact_abs]
  refine ⟨hround.isFinite, fun h => ?_, fun h => hround.rounded (sub_ne_zero.mpr h)⟩
  rw [hround.zero (sub_eq_zero.mpr h), abs_zero]

theorem abs_sub_lt_epsilon_iff (hx : InUnit x) (hy : InUnit y) :
    (x - y).abs < Duration.epsilon ↔ |value x - value y| < 2 ^ (-52 : Int) - 2 ^ (-106 : Int) := by
  obtain ⟨hfin, hsame, hother⟩ := abs_sub_spec hx hy
  rw [lt_iff_value_lt hfin isFinite_epsilon, value_epsilon]
  by_cases h : value x = value y
  · rw [hsame h, h, sub_self, abs_zero]
    norm_num
  · exact lt_iff_lt_of_le_iff_le (hother h).epsilon_le_iff

/-! ## What is no number -/

theorem not_lt_of_isNaN (hx : x.isNaN) : ¬x < y := by
  rw [lt_iff_unpack, isNaN_iff.mp hx]
  exact nofun

theorem isNaN_abs_sub (hy : y.isNaN) : (x - y).abs.isNaN := by
  have hsub :
      UnpackedFloat.sub Format.binary64 x.toModel.unpack y.toModel.unpack = .notANumber := by
    rw [isNaN_iff.mp hy]
    cases x.toModel.unpack <;> rfl
  have hbits : (x - y).toModel.unpack = (Float.Model.pack (UnpackedFloat.sub Format.binary64
      x.toModel.unpack y.toModel.unpack)).unpack := rfl
  have habs :
      (x - y).abs.toModel.unpack = (Float.Model.pack (x - y).toModel.unpack.abs).unpack := rfl
  rw [isNaN_iff, habs, hbits, hsub]
  rfl

theorem InUnit.isNaN_eq_false (hx : InUnit x) : x.isNaN = false := by
  have hfin : x.toModel.unpack.isFinite := hx.isFinite
  rw [Bool.eq_false_iff]
  intro hnan
  rw [isNaN_iff.mp hnan] at hfin
  exact absurd hfin (by decide)

end WidgetStyle.Double
