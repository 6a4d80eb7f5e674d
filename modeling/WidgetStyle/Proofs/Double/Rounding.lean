import WidgetStyle.Proofs.Double.Values

/-!
# WidgetStyle.Proofs.Double.Rounding — differences and quotients, rounded

Differences and quotients of doubles are worked out exactly and rounded once.  What is rounded is
a whole number of units together with two bits that tell where the exact number lies above it
(`Fits`); moving to a larger unit keeps them in step (`fits_shiftRight`), and what comes out is the
nearest whole number of units, the even one of two (`Nearest`).
-/

namespace WidgetStyle.Double

open Float.Model
open Float.Model.UnpackedFloat (Sign Accuracy ExtendedMantissa shiftToExponent
  shiftToTargetExponent roundWithAccuracy decreaseExponent divCore accuracyOfFraction)

/-! ## The part that is cut off -/

/-- Whether the part that was cut off is as the accuracy tells. -/
def Fits : Accuracy → ℚ → Prop
  | .exact, f => f = 0
  | .inexact .lt, f => 0 < f ∧ f < 1 / 2
  | .inexact .eq, f => f = 1 / 2
  | .inexact .gt, f => 1 / 2 < f ∧ f < 1

theorem Fits.bounds {a : Accuracy} {f : ℚ} (h : Fits a f) : 0 ≤ f ∧ f < 1 := by
  match a, h with
  | .exact, h => exact ⟨h.ge, by linarith [h.le]⟩
  | .inexact .lt, h => exact ⟨h.1.le, by linarith [h.2]⟩
  | .inexact .eq, h => constructor <;> linarith [h.le, h.ge]
  | .inexact .gt, h => exact ⟨by linarith [h.1], h.2⟩

theorem fits_shiftRightOne {em : ExtendedMantissa} {x : ℚ}
    (h : Fits em.accuracy (x - em.mantissa)) :
    Fits em.shiftRightOne.accuracy (x / 2 - em.shiftRightOne.mantissa) := by
  obtain ⟨m, r, s⟩ := em
  have hm : (m : ℚ) = 2 * (m / 2 : Nat) + (m % 2 : Nat) := by
    exact_mod_cast (Nat.div_add_mod m 2).symm
  rw [ExtendedMantissa.shiftRightOne]
  dsimp only at h ⊢
  generalize ((m / 2 : Nat) : ℚ) = half at hm ⊢
  rw [hm] at h
  -- the digit that is shifted out is 0 or 1, and below it there are the two bits
  have hone : ((1 : Nat) != 0) = true := rfl
  rcases Nat.mod_two_eq_zero_or_one m with hpar | hpar <;> rw [hpar] at h ⊢ <;> cases r <;>
    cases s <;> simp only [ExtendedMantissa.accuracy, Fits, Bool.or_true, Bool.or_false,
      Nat.cast_zero, Nat.cast_one, bne_self_eq_false, hone] at h ⊢ <;>
    first | linarith | constructor <;> linarith

theorem fits_shiftRight {em : ExtendedMantissa} {x : ℚ} (h : Fits em.accuracy (x - em.mantissa))
    (n : Nat) : Fits (em >>> n).accuracy (x / 2 ^ n - (em >>> n).mantissa) := by
  induction n with
  | zero =>
      rw [pow_zero, div_one]
      exact h
  | succ n ih =>
      have := fits_shiftRightOne ih
      rwa [div_div, ← pow_succ] at this

theorem shiftRight_mantissa (em : ExtendedMantissa) (n : Nat) :
    (em >>> n).mantissa = em.mantissa / 2 ^ n := by
  induction n with
  | zero => exact (Nat.div_one _).symm
  | succ n ih =>
      change (em >>> n).mantissa / 2 = _
      rw [ih, Nat.div_div_eq_div_mul, pow_succ]

theorem accuracy_ofMantissaAndAccuracy (m : Nat) (a : Accuracy) :
    (ExtendedMantissa.ofMantissaAndAccuracy m a).accuracy = a := by
  match a with
  | .exact | .inexact .lt | .inexact .eq | .inexact .gt => rfl

theorem mantissa_ofMantissaAndAccuracy (m : Nat) (a : Accuracy) :
    (ExtendedMantissa.ofMantissaAndAccuracy m a).mantissa = m := by
  match a with
  | .exact | .inexact .lt | .inexact .eq | .inexact .gt => rfl

/-! ## The nearest whole number -/

/-- The number is a whole number nearest to `x`, and the even one when there are two. -/
structure Nearest (r : Nat) (x : ℚ) : Prop where
  le : (r : ℚ) ≤ x + 1 / 2
  ge : x - 1 / 2 ≤ r
  even : (r : ℚ) = x + 1 / 2 ∨ (r : ℚ) = x - 1 / 2 → Even r

theorem nearest_self (r : Nat) : Nearest r r where
  le := by linarith
  ge := by linarith
  even h := by rcases h with h | h <;> linarith

theorem nearest_roundToNearestEven {a : Accuracy} {m : Nat} {x : ℚ} (h : Fits a (x - m)) :
    Nearest (a.roundToNearestEven m) x := by
  match a, h with
  | .exact, h =>
      obtain rfl : x = m := sub_eq_zero.mp h
      exact nearest_self m
  | .inexact .lt, h =>
      obtain ⟨h₁, h₂⟩ := h
      rw [Accuracy.roundToNearestEven]
      exact ⟨by linarith, by linarith, by rintro (h | h) <;> linarith⟩
  | .inexact .eq, h =>
      obtain rfl : x = m + 1 / 2 := by rw [← (h : x - m = 1 / 2)]; ring
      rw [Accuracy.roundToNearestEven]
      have heven : Even (m + m % 2) := Nat.even_iff.mpr (by omega)
      rcases Nat.mod_two_eq_zero_or_one m with hpar | hpar <;> rw [hpar] at heven ⊢
      · exact ⟨by push_cast; linarith, by push_cast; linarith, fun _ => heven⟩
      · exact ⟨by push_cast; linarith, by push_cast; linarith, fun _ => heven⟩
  | .inexact .gt, h =>
      obtain ⟨h₁, h₂⟩ := h
      rw [Accuracy.roundToNearestEven]
      exact ⟨by push_cast; linarith, by push_cast; linarith,
        by push_cast; rintro (h | h) <;> linarith⟩

namespace Nearest

variable {r : Nat} {x : ℚ} {K : Nat}

theorem le_of_le (h : Nearest r x) (hx : x ≤ K) : r ≤ K := by
  have : (r : ℚ) < K + 1 := by linarith [h.le]
  exact Nat.lt_succ_iff.mp (by exact_mod_cast this)

theorem ge_of_ge (h : Nearest r x) (hx : K ≤ x) : K ≤ r := by
  have : (K : ℚ) < r + 1 := by linarith [h.ge]
  exact Nat.lt_succ_iff.mp (by exact_mod_cast this)

/-- An even number is reached from half a unit below. -/
theorem even_le_iff (h : Nearest r x) (hK : Even K) : K ≤ r ↔ (K : ℚ) - 1 / 2 ≤ x := by
  constructor
  · intro hr
    have : (K : ℚ) ≤ r := by exact_mod_cast hr
    linarith [h.le]
  · intro hx
    by_contra hr
    have hr1 : r + 1 ≤ K := Nat.lt_of_not_le hr
    have hr1q : (r : ℚ) + 1 ≤ K := by exact_mod_cast hr1
    have heq : r + 1 = K := by
      have : (K : ℚ) ≤ r + 1 := by linarith [h.ge]
      exact le_antisymm hr1 (by exact_mod_cast this)
    have : Even r := h.even (Or.inr (by linarith [h.ge]))
    rw [← heq] at hK
    exact Nat.not_even_iff_odd.mpr this.add_one hK

end Nearest

/-! ## Rounding -/

/-- The unit to which a number with the whole part `m` of units `2 ^ e` is rounded. -/
theorem targetExponent_eq (m : Nat) (e : Int) :
    Format.binary64.targetExponent (totalExponent m e) = max (m.log2 + e - 52) (-1074) := by
  change max ((m.log2 : Int) + 1 + e - 53) (-1074) = _
  omega

theorem lt_two_pow_add {m n : Nat} (h : m.log2 ≤ 52 + n) : m / 2 ^ n < 2 ^ 53 := by
  rw [Nat.div_lt_iff_lt_mul (Nat.two_pow_pos n), ← pow_add]
  exact Nat.lt_log2_self.trans_le (Nat.pow_le_pow_right two_pos (by omega))

theorem two_pow_le_div {m n : Nat} (h : m.log2 = 52 + n) : 2 ^ 52 ≤ m / 2 ^ n := by
  have hm : m ≠ 0 := by
    rintro rfl
    rw [Nat.log2_zero] at h
    omega
  rw [Nat.le_div_iff_mul_le (Nat.two_pow_pos n), ← pow_add, ← h]
  exact Nat.log2_self_le hm

/-- Moving to the target unit. -/
theorem shiftToTargetExponent_eq {m : Nat} {e t : Int} {a : Accuracy}
    (ht : t = max (m.log2 + e - 52) (-1074)) (he : e ≤ t) :
    shiftToTargetExponent Format.binary64 m e a =
      (ExtendedMantissa.ofMantissaAndAccuracy m a >>> (t - e).toNat, t) := by
  rw [shiftToTargetExponent, targetExponent_eq, ← ht, shiftToExponent]
  refine Prod.ext rfl ?_
  change e + ((t - e).toNat : Int) = t
  omega

/-- A whole number that fits the digits stays as it is. -/
theorem shiftToTargetExponent_of_lt {r : Nat} {t : Int} (hr : r < 2 ^ 53) (ht : -1074 ≤ t) :
    shiftToTargetExponent Format.binary64 r t .exact = (⟨r, false, false⟩, t) := by
  have hlog : r.log2 ≤ 52 := by
    rcases r.eq_zero_or_pos with rfl | hpos
    · rw [Nat.log2_zero]
      exact Nat.zero_le _
    · exact Nat.lt_succ_iff.mp ((Nat.log2_lt hpos.ne').mpr hr)
  have hshift : (max ((r.log2 : Int) + t - 52) (-1074) - t).toNat = 0 := by omega
  rw [shiftToTargetExponent, targetExponent_eq, shiftToExponent, hshift]
  exact Prod.ext rfl (add_zero t)

/-- A carry into one more digit moves to the next unit. -/
theorem shiftToTargetExponent_carry {t : Int} (ht : -1074 ≤ t) :
    shiftToTargetExponent Format.binary64 (2 ^ 53) t .exact =
      (⟨2 ^ 52, false, false⟩, t + 1) := by
  have hshift : (max (((2 ^ 53 : Nat).log2 : Int) + t - 52) (-1074) - t).toNat = 1 := by
    rw [Nat.log2_two_pow]
    omega
  rw [shiftToTargetExponent, targetExponent_eq, shiftToExponent, hshift]
  rfl

/-- What rounding to a whole number `r` of the target units comes to. -/
theorem roundWithAccuracy_eq (s : Sign) {m r : Nat} {e t : Int} {a : Accuracy}
    (ht : t = max (m.log2 + e - 52) (-1074)) (he : e ≤ t)
    (hr : (ExtendedMantissa.ofMantissaAndAccuracy m a >>> (t - e).toNat).roundedMantissa = r)
    (hle : r ≤ 2 ^ 53) :
    roundWithAccuracy Format.binary64 s m e a =
      if r = 2 ^ 53 then .finite s (2 ^ 52) (t + 1) (by decide)
      else if h : r = 0 then .zero s
      else .finite s r t (Nat.pos_of_ne_zero h) := by
  have hlow : -1074 ≤ t := by omega
  rw [roundWithAccuracy, shiftToTargetExponent_eq ht he]
  dsimp only
  rw [hr]
  rcases hle.eq_or_lt with rfl | hlt
  · rw [shiftToTargetExponent_carry hlow]
    rfl
  · rw [shiftToTargetExponent_of_lt hlt hlow, if_neg hlt.ne]

/-- A number of units, whole up to the part that was cut off, is rounded to the nearest number of
target units, and the outcome is a double. -/
theorem roundWithAccuracy_spec (s : Sign) {m : Nat} {e t : Int} {a : Accuracy} {x : ℚ}
    (hfit : Fits a (x - m)) (ht : t = max (m.log2 + e - 52) (-1074)) (he : e ≤ t)
    (hmax : t ≤ 970) :
    Canonical (roundWithAccuracy Format.binary64 s m e a) ∧
      (roundWithAccuracy Format.binary64 s m e a).isFinite ∧
      ∃ r, Nearest r (x * 2 ^ (e - t)) ∧
        exact (roundWithAccuracy Format.binary64 s m e a) = s.apply r * 2 ^ t := by
  obtain ⟨n, hn⟩ := Int.eq_ofNat_of_zero_le (sub_nonneg.mpr he)
  have hx : x * 2 ^ (e - t) = x / 2 ^ n := by
    rw [show e - t = -(n : Int) by omega, zpow_neg, zpow_natCast, div_eq_mul_inv]
  -- the number of target units, with the part that is cut off now
  have hfit' : Fits (ExtendedMantissa.ofMantissaAndAccuracy m a).accuracy
      (x - (ExtendedMantissa.ofMantissaAndAccuracy m a).mantissa) := by
    rwa [accuracy_ofMantissaAndAccuracy, mantissa_ofMantissaAndAccuracy]
  have hcut := fits_shiftRight hfit' n
  have hbounds := hcut.bounds
  rw [shiftRight_mantissa, mantissa_ofMantissaAndAccuracy] at hbounds
  obtain ⟨r, hr⟩ : ∃ r, (ExtendedMantissa.ofMantissaAndAccuracy m a >>> n).roundedMantissa = r :=
    ⟨_, rfl⟩
  have hnear : Nearest r (x / 2 ^ n) := hr ▸ nearest_roundToNearestEven hcut
  -- the digits are used up, unless the unit is the smallest one, and at most one is carried
  have hle : r ≤ m / 2 ^ n + 1 := hnear.le_of_le (by push_cast; linarith)
  have hge : m / 2 ^ n ≤ r := hnear.ge_of_ge (by linarith)
  have hdigits : m / 2 ^ n < 2 ^ 53 := lt_two_pow_add (by omega)
  have hfull : 2 ^ 52 ≤ m / 2 ^ n ∨ t = -1074 := by
    by_cases hmin : t = -1074
    · exact Or.inr hmin
    · exact Or.inl (two_pow_le_div (by omega))
  rw [roundWithAccuracy_eq s ht he (by rw [hn]; exact hr) (hle.trans hdigits), hx]
  split_ifs with hcarry hzero
  · refine ⟨⟨by norm_num, by omega, by omega, Or.inl le_rfl⟩, rfl, r, hnear, ?_⟩
    rw [hcarry, exact, zpow_add_one₀ two_ne_zero]
    cases s <;> simp only [Sign.apply] <;> push_cast <;> ring
  · refine ⟨trivial, rfl, r, hnear, ?_⟩
    cases s <;> simp [hzero, Sign.apply]
  · exact ⟨⟨lt_of_le_of_ne (hle.trans hdigits) hcarry, by omega, by omega,
      hfull.imp_left hge.trans'⟩, rfl, r, hnear, rfl⟩

/-- A positive number and what it is rounded to: the nearest number of the units that leave room
for 53 digits, or of the smallest units. -/
def IsRounded (x y : ℚ) : Prop :=
  ∃ (l t : Int) (r : Nat), 2 ^ l ≤ x ∧ x < 2 ^ (l + 1) ∧ t = max (l - 52) (-1074) ∧
    Nearest r (x / 2 ^ t) ∧ y = r * 2 ^ t

/-- The parts of a number that was rounded: they are those of a finite double. -/
structure RoundsTo (u : UnpackedFloat) (x : ℚ) : Prop where
  canonical : Canonical u
  isFinite : u.isFinite
  zero : x = 0 → exact u = 0
  rounded : x ≠ 0 → IsRounded |x| |exact u|

theorem log2_bounds {m : Nat} (hm : 0 < m) (e : Int) :
    (2 : ℚ) ^ (m.log2 + e : Int) ≤ m * 2 ^ e ∧ (m : ℚ) * 2 ^ e < 2 ^ (m.log2 + e + 1 : Int) := by
  have hlow : (2 : ℚ) ^ m.log2 ≤ m := by exact_mod_cast Nat.log2_self_le hm.ne'
  have hhigh : (m : ℚ) < 2 ^ (m.log2 + 1) := by exact_mod_cast Nat.lt_log2_self
  constructor
  · rw [zpow_add₀ two_ne_zero, zpow_natCast]
    gcongr
  · rw [add_right_comm, zpow_add₀ two_ne_zero, ← Nat.cast_add_one, zpow_natCast]
    gcongr

/-- A number that doubles have is rounded to itself. -/
theorem isRounded_self {s : Sign} {m : Nat} {e : Int} {hm : 0 < m}
    (h : Canonical (.finite s m e hm)) : IsRounded (m * 2 ^ e) (m * 2 ^ e) := by
  obtain ⟨hmax, hmin, -, hfull⟩ := h
  have hlog : m.log2 < 53 := (Nat.log2_lt hm.ne').mpr hmax
  have hfull : 52 ≤ m.log2 ∨ e = -1074 := hfull.imp_left (Nat.le_log2 hm.ne').mpr
  refine ⟨m.log2 + e, e, m, (log2_bounds hm e).1, (log2_bounds hm e).2, by omega, ?_, rfl⟩
  rw [mul_div_cancel_right₀ _ (by positivity)]
  exact nearest_self m

theorem log2_add_nonpos {m : Nat} {e : Int} (hm : 0 < m) (h : (m : ℚ) * 2 ^ e ≤ 1) :
    m.log2 + e ≤ 0 := by
  have : (2 : ℚ) ^ (m.log2 + e : Int) ≤ 2 ^ (0 : Int) := (log2_bounds hm e).1.trans h
  exact (zpow_le_zpow_iff_right₀ one_lt_two).mp this

theorem abs_apply (s : Sign) (n : Nat) (q : ℚ) : |(s.apply n : ℚ) * q| = n * |q| := by
  cases s <;> simp [Sign.apply, abs_mul]

theorem log2_shiftLeft {m : Nat} (hm : 0 < m) (k : Nat) : (m <<< k).log2 = m.log2 + k := by
  rw [Nat.shiftLeft_eq, Nat.log2_eq_iff (by positivity), add_right_comm, pow_add, pow_add _ _ k]
  exact ⟨Nat.mul_le_mul_right _ (Nat.log2_self_le hm.ne'),
    Nat.mul_lt_mul_of_pos_right Nat.lt_log2_self (Nat.two_pow_pos k)⟩

/-- Smaller units, as many more of them. -/
theorem shiftLeft_mul_two_zpow (m k : Nat) (e : Int) :
    ((m <<< k : Nat) : ℚ) * 2 ^ (e - k) = m * 2 ^ e := by
  rw [Nat.shiftLeft_eq, Nat.cast_mul, Nat.cast_pow, Nat.cast_two, zpow_sub₀ two_ne_zero,
    zpow_natCast]
  field_simp

/-- Numbers below `2 ^ 1023` are rounded. -/
theorem roundsTo_round (s : Sign) {m : Nat} {e : Int} (hm : 0 < m) (hpow : m.log2 + e ≤ 1022) :
    RoundsTo (UnpackedFloat.round Format.binary64 s m e) (s.apply m * 2 ^ e) := by
  obtain ⟨t, ht⟩ : ∃ t : Int, t = max (m.log2 + e - 52) (-1074) := ⟨_, rfl⟩
  rw [UnpackedFloat.round, targetExponent_eq, ← ht, decreaseExponent]
  dsimp only
  -- the smaller of the given unit and the target unit, and the number of them
  obtain ⟨k, hk⟩ : ∃ k, (e - t).toNat = k := ⟨_, rfl⟩
  rw [hk]
  obtain ⟨hcanon, hfin, r, hnear, hexact⟩ := roundWithAccuracy_spec s (a := .exact) (m := m <<< k)
    (sub_self _) (by rw [log2_shiftLeft hm, ht]; push_cast; congr 2; ring)
    (show e - k ≤ t by omega) (by omega)
  have hunits : ((m <<< k : Nat) : ℚ) * 2 ^ (e - k - t) = m * 2 ^ e / 2 ^ t := by
    rw [zpow_sub₀ two_ne_zero, ← shiftLeft_mul_two_zpow m k e, mul_div_assoc]
  rw [hunits] at hnear
  have hpos := magnitude_pos hm e
  refine ⟨hcanon, hfin, fun h => ?_, fun _ => ?_⟩
  · rw [← abs_eq_zero, abs_apply] at h
    rw [abs_of_pos (by positivity)] at h
    exact absurd h hpos.ne'
  · rw [hexact, abs_apply, abs_apply, abs_of_pos (by positivity), abs_of_pos (by positivity)]
    exact ⟨m.log2 + e, t, r, (log2_bounds hm e).1, (log2_bounds hm e).2, ht, hnear, rfl⟩

theorem roundsTo_normalize {M e : Int} (s : Sign) (h : |(M : ℚ) * 2 ^ e| ≤ 1) :
    RoundsTo (UnpackedFloat.normalize Format.binary64 M e s) (M * 2 ^ e) := by
  rw [UnpackedFloat.normalize]
  rcases lt_trichotomy M 0 with hM | rfl | hM
  · obtain ⟨m, rfl⟩ : ∃ m : Nat, M = -m := ⟨M.natAbs, by omega⟩
    have hm : 0 < m := by omega
    have hpow := log2_add_nonpos hm (e := e) (by simpa [abs_mul] using h)
    have := roundsTo_round .negative hm (hpow.trans (by norm_num))
    rw [compare_lt_iff_lt.mpr hM, neg_neg, Int.toNat_natCast]
    exact this
  · rw [compare_eq_iff_eq.mpr rfl, Int.cast_zero, zero_mul]
    exact ⟨trivial, rfl, fun _ => rfl, fun h => absurd rfl h⟩
  · obtain ⟨m, rfl⟩ : ∃ m : Nat, M = m := ⟨M.natAbs, by omega⟩
    have hm : 0 < m := by omega
    have hpow := log2_add_nonpos hm (e := e) (by simpa [abs_mul] using h)
    have := roundsTo_round .positive hm (hpow.trans (by norm_num))
    rw [compare_gt_iff_gt.mpr hM, Int.toNat_natCast]
    exact this

/-- The numbers that doubles have are rounded to themselves. -/
theorem roundsTo_self {u : UnpackedFloat} (h : Canonical u) (hfin : u.isFinite) :
    RoundsTo u (exact u) := by
  refine ⟨h, hfin, id, fun h0 => ?_⟩
  rcases u with s | _ | s | ⟨s, m, e, hm⟩
  · exact absurd rfl h0
  · exact absurd rfl h0
  · exact absurd rfl h0
  · rw [exact, abs_apply, abs_of_pos (by positivity)]
    exact isRounded_self h

/-- The numbers in common units. -/
theorem apply_shiftLeft (s : Sign) {m : Nat} {e t : Int} (ht : t ≤ e) :
    (s.apply (m <<< (e - t).toNat : Nat) : ℚ) * 2 ^ t = s.apply m * 2 ^ e := by
  have := shiftLeft_mul_two_zpow m (e - t).toNat e
  rw [show e - ((e - t).toNat : Int) = t by omega] at this
  cases s <;> simp only [Sign.apply, Int.cast_neg, Int.cast_natCast, neg_mul, this]

/-- Differences of at most 1 are rounded. -/
theorem roundsTo_sub {a b : UnpackedFloat} (ha : Canonical a) (hb : Canonical b)
    (hfa : a.isFinite) (hfb : b.isFinite) (h : |exact a - exact b| ≤ 1) :
    RoundsTo (UnpackedFloat.sub Format.binary64 a b) (exact a - exact b) := by
  rcases a with s₁ | _ | s₁ | ⟨s₁, m₁, e₁, hm₁⟩ <;> try contradiction
  all_goals rcases b with s₂ | _ | s₂ | ⟨s₂, m₂, e₂, hm₂⟩ <;> try contradiction
  · rw [exact_zero, exact_zero, sub_zero]
    have : UnpackedFloat.sub Format.binary64 (.zero s₁) (.zero s₂) =
        if s₁ == -s₂ then .zero s₁ else .zero .positive := rfl
    rw [this]
    split_ifs <;> exact roundsTo_self trivial rfl
  · rw [exact_zero, zero_sub]
    have hneg : -exact (.finite s₂ m₂ e₂ hm₂) = exact (.finite (-s₂) m₂ e₂ hm₂) := by
      cases s₂ with
      | negative =>
          exact neg_eq_iff_eq_neg.mpr (exact_negative.trans (congrArg _ exact_positive.symm))
      | positive => exact (congrArg _ exact_positive).trans exact_negative.symm
    rw [hneg]
    exact roundsTo_self hb rfl
  · rw [exact_zero, sub_zero]
    exact roundsTo_self ha rfl
  · have hval : exact (.finite s₁ m₁ e₁ hm₁) - exact (.finite s₂ m₂ e₂ hm₂) =
        ((s₁.apply (m₁ <<< (e₁ - min e₁ e₂).toNat : Nat) -
          s₂.apply (m₂ <<< (e₂ - min e₁ e₂).toNat : Nat) : Int) : ℚ) * 2 ^ min e₁ e₂ := by
      rw [Int.cast_sub, sub_mul, apply_shiftLeft s₁ (min_le_left e₁ e₂),
        apply_shiftLeft s₂ (min_le_right e₁ e₂)]
      rfl
    rw [hval] at h ⊢
    exact roundsTo_normalize .positive h

/-! ## Where differences come out -/

namespace IsRounded

variable {x y : ℚ}

/-- Numbers come out as `2 ^ (-52)` or more from half a unit below. -/
theorem epsilon_le_iff (h : IsRounded x y) :
    2 ^ (-52 : Int) ≤ y ↔ 2 ^ (-52 : Int) - 2 ^ (-106 : Int) ≤ x := by
  obtain ⟨l, t, r, hl, hl', ht, hnear, rfl⟩ := h
  have hunit : (0 : ℚ) < 2 ^ t := by positivity
  rcases lt_trichotomy l (-53) with hlow | rfl | hhigh
  · -- far below, nothing is rounded to more than `2 ^ (-53)`
    have hx : x < 2 ^ (-53 : Int) := hl'.trans_le (zpow_le_zpow_right₀ one_le_two (by omega))
    have hr : r ≤ 2 ^ 53 := by
      refine hnear.le_of_le ((div_le_iff₀ hunit).mpr (hl'.le.trans ?_))
      rw [Nat.cast_pow, Nat.cast_two, ← zpow_natCast, ← zpow_add₀ two_ne_zero]
      exact zpow_le_zpow_right₀ one_le_two (by omega)
    have hy : (r : ℚ) * 2 ^ t ≤ 2 ^ 53 * 2 ^ (-106 : Int) :=
      mul_le_mul (by exact_mod_cast hr) (zpow_le_zpow_right₀ one_le_two (by omega)) hunit.le
        (by positivity)
    refine iff_of_false (not_le.mpr (hy.trans_lt (by norm_num))) (not_le.mpr (hx.trans_le ?_))
    norm_num
  · -- just below, the bound is the even number of `2 ^ 53` units
    obtain rfl : t = -105 := by omega
    have hbound : (2 : ℚ) ^ (-52 : Int) = (2 ^ 53 : Nat) * 2 ^ (-105 : Int) := by norm_num
    have hhalf : (2 : ℚ) ^ (-52 : Int) - 2 ^ (-106 : Int) =
        ((2 ^ 53 : Nat) - 1 / 2) * 2 ^ (-105 : Int) := by norm_num
    rw [hhalf, ← le_div_iff₀ hunit, ← hnear.even_le_iff (by decide), hbound,
      mul_le_mul_iff_of_pos_right hunit, Nat.cast_le]
  · -- above, neither the number nor what it is rounded to is less than `2 ^ (-52)`
    have hx : (2 : ℚ) ^ (-52 : Int) ≤ x := le_trans (zpow_le_zpow_right₀ one_le_two (by omega)) hl
    have hr : 2 ^ 52 ≤ r := by
      refine hnear.ge_of_ge ((le_div_iff₀ hunit).mpr (le_trans ?_ hl))
      rw [Nat.cast_pow, Nat.cast_two, ← zpow_natCast, ← zpow_add₀ two_ne_zero]
      exact zpow_le_zpow_right₀ one_le_two (by omega)
    have hy : (2 : ℚ) ^ 52 * 2 ^ (-104 : Int) ≤ r * 2 ^ t :=
      mul_le_mul (by exact_mod_cast hr) (zpow_le_zpow_right₀ one_le_two (by omega)) (by positivity)
        (by positivity)
    refine iff_of_true (le_trans (by norm_num) hy) (le_trans (by norm_num) hx)

end IsRounded

/-! ## Quotients up to 1 -/

/-- With units that divide 1, numbers up to 1 are not rounded beyond it. -/
theorem Nearest.mul_le_one {r : Nat} {x : ℚ} {t : Int} (h : Nearest r (x / 2 ^ t)) (ht : t ≤ 0)
    (hx : x ≤ 1) : (r : ℚ) * 2 ^ t ≤ 1 := by
  obtain ⟨n, rfl⟩ : ∃ n : Nat, t = -n := ⟨t.natAbs, by omega⟩
  rw [zpow_neg, zpow_natCast, div_inv_eq_mul] at h
  have hr : r ≤ 2 ^ n :=
    h.le_of_le (by push_cast; exact mul_le_of_le_one_left (by positivity) hx)
  rw [zpow_neg, zpow_natCast, ← div_eq_mul_inv, div_le_one (by positivity)]
  exact_mod_cast hr

/-- The remainder of a division is the part that is cut off. -/
theorem fits_accuracyOfFraction (n : Nat) {d : Nat} (hd : 0 < d) :
    Fits (accuracyOfFraction (n % d) d) ((n : ℚ) / d - (n / d : Nat)) := by
  have hdq : (0 : ℚ) < d := by exact_mod_cast hd
  have hcut : (n : ℚ) / d - (n / d : Nat) = (n % d : Nat) / d := by
    rw [div_sub' hdq.ne', div_left_inj' hdq.ne', sub_eq_iff_eq_add']
    exact_mod_cast (Nat.div_add_mod n d).symm
  have hlt : ((n % d : Nat) : ℚ) < d := by exact_mod_cast Nat.mod_lt n hd
  rw [hcut, accuracyOfFraction]
  split_ifs with hzero
  · rw [hzero, Nat.cast_zero, zero_div]
    rfl
  · have hpos : (0 : ℚ) < (n % d : Nat) := by exact_mod_cast Nat.pos_of_ne_zero hzero
    rcases lt_trichotomy (2 * (n % d)) d with h | h | h
    · rw [compare_lt_iff_lt.mpr h]
      have h : 2 * ((n % d : Nat) : ℚ) < d := by exact_mod_cast h
      exact ⟨by positivity, by rw [div_lt_iff₀ hdq]; linarith⟩
    · rw [compare_eq_iff_eq.mpr h]
      have h : 2 * ((n % d : Nat) : ℚ) = d := by exact_mod_cast h
      exact (div_eq_iff hdq.ne').mpr (by linarith)
    · rw [compare_gt_iff_gt.mpr h]
      have h : (d : ℚ) < 2 * (n % d : Nat) := by exact_mod_cast h
      exact ⟨by rw [lt_div_iff₀ hdq]; linarith, by rw [div_lt_one hdq]; exact hlt⟩

/-- The units of the quotient are small enough for it to take up the digits. -/
theorem le_log2_div {m₁ m₂ k : Nat} (hm₁ : 0 < m₁) (hm₂ : 0 < m₂)
    (hk : m₂.log2 + 53 ≤ m₁.log2 + k) : 52 ≤ (m₁ <<< k / m₂).log2 := by
  have hle : 2 ^ 52 * m₂ ≤ m₁ <<< k := by
    calc 2 ^ 52 * m₂ ≤ 2 ^ 52 * 2 ^ (m₂.log2 + 1) := Nat.mul_le_mul_left _ Nat.lt_log2_self.le
      _ = 2 ^ (m₂.log2 + 53) := by rw [← pow_add]; congr 1; omega
      _ ≤ 2 ^ (m₁.log2 + k) := Nat.pow_le_pow_right two_pos hk
      _ = 2 ^ (m₁ <<< k).log2 := by rw [log2_shiftLeft hm₁]
      _ ≤ m₁ <<< k := Nat.log2_self_le (by rw [Nat.shiftLeft_eq]; positivity)
  have hq : 2 ^ 52 ≤ m₁ <<< k / m₂ := (Nat.le_div_iff_mul_le hm₂).mpr hle
  exact (Nat.le_log2 (by omega)).mpr hq

/-- A quotient is worked out in units that are small enough for it to take up the digits, or no
larger than the smallest ones, and rounded. -/
theorem exists_div_eq_roundWithAccuracy {m₁ m₂ : Nat} (e₁ e₂ : Int) (hm₁ : 0 < m₁) (hm₂ : 0 < m₂) :
    ∃ k : Nat, (e₁ - k - e₂ ≤ -1074 ∨ 52 ≤ (m₁ <<< k / m₂).log2) ∧
      UnpackedFloat.div Format.binary64 (.finite .positive m₁ e₁ hm₁)
          (.finite .positive m₂ e₂ hm₂) =
        roundWithAccuracy Format.binary64 .positive (m₁ <<< k / m₂) (e₁ - k - e₂)
          (accuracyOfFraction (m₁ <<< k % m₂) m₂) := by
  obtain ⟨t, ht⟩ : ∃ t, t = min (e₁ - e₂) (Format.binary64.targetExponent
    (totalExponent m₁ e₁ - totalExponent m₂ e₂)) := ⟨_, rfl⟩
  obtain ⟨k, hk⟩ : ∃ k, (e₁ - e₂ - t).toNat = k := ⟨_, rfl⟩
  have hunit : e₁ - k - e₂ = t := by omega
  refine ⟨k, ?_, ?_⟩ <;> rw [hunit]
  · have htarget : Format.binary64.targetExponent (totalExponent m₁ e₁ - totalExponent m₂ e₂) =
        max (m₁.log2 + e₁ - (m₂.log2 + e₂) - 53) (-1074) := by
      change max ((m₁.log2 : Int) + 1 + e₁ - (m₂.log2 + 1 + e₂) - 53) (-1074) = _
      omega
    rw [htarget] at ht
    by_cases hmin : t ≤ -1074
    · exact Or.inl hmin
    · exact Or.inr (le_log2_div hm₁ hm₂ (by omega))
  · rw [UnpackedFloat.div, divCore, ← ht, hk]
    rfl

/-- A smaller double divided by a larger one comes out between 0 and 1. -/
theorem div_mem_unit {m₁ m₂ : Nat} {e₁ e₂ : Int} (hm₁ : 0 < m₁) (hm₂ : 0 < m₂)
    (h : (m₁ : ℚ) * 2 ^ e₁ ≤ m₂ * 2 ^ e₂) :
    let u := UnpackedFloat.div Format.binary64 (.finite .positive m₁ e₁ hm₁)
      (.finite .positive m₂ e₂ hm₂)
    Canonical u ∧ u.isFinite ∧ 0 ≤ exact u ∧ exact u ≤ 1 := by
  obtain ⟨k, hdigits, hdiv⟩ := exists_div_eq_roundWithAccuracy e₁ e₂ hm₁ hm₂
  have hquot : ((m₁ <<< k : Nat) : ℚ) / m₂ * 2 ^ (e₁ - k - e₂) ≤ 1 := by
    rw [zpow_sub₀ two_ne_zero, div_mul_div_comm, shiftLeft_mul_two_zpow]
    exact (div_le_one (magnitude_pos hm₂ e₂)).mpr h
  obtain ⟨t, ht⟩ : ∃ t, t = max ((m₁ <<< k / m₂).log2 + (e₁ - k - e₂) - 52) (-1074) := ⟨_, rfl⟩
  have hunits : t ≤ 0 := by
    rcases (m₁ <<< k / m₂).eq_zero_or_pos with hq | hq
    · rw [hq, Nat.log2_zero] at ht hdigits
      omega
    · have hle : ((m₁ <<< k / m₂ : Nat) : ℚ) * 2 ^ (e₁ - k - e₂) ≤ 1 :=
        le_trans (mul_le_mul_of_nonneg_right Nat.cast_div_le (by positivity)) hquot
      have := log2_add_nonpos hq hle
      omega
  obtain ⟨hcanon, hfin, r, hnear, hexact⟩ := roundWithAccuracy_spec .positive
    (fits_accuracyOfFraction (m₁ <<< k) hm₂) ht (by omega) (by omega)
  rw [zpow_sub₀ two_ne_zero, ← mul_div_assoc] at hnear
  intro u
  rw [show u = _ from hdiv]
  refine ⟨hcanon, hfin, ?_, ?_⟩ <;> rw [hexact] <;>
    simp only [Sign.apply, Int.cast_natCast]
  · positivity
  · exact hnear.mul_le_one hunits hquot

end WidgetStyle.Double
