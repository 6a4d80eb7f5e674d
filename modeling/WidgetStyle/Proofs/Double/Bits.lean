import WidgetStyle.Proofs.Double.Rounding

/-!
# WidgetStyle.Proofs.Double.Bits — the bits that a number is rounded to

Magnitude bits count units: with `k` for the unit and `m` for their number they are
`k * 2 ^ 52 + m`, and every number of bits is of this form in one way (`exists_units`,
`mantissa_units`).  A quotient is rounded to the nearest number of the units that leave room for 53
digits (`nearestBits_spec`), which there is one of (`RoundsAt.unique`).  So the bits that are found for
the quotient of a double are its own (`nearestBits_of_value`), and what other quotients have the same
bits is told by their rounding (`isRounded_of_nearestBits`).
-/

namespace WidgetStyle.Double

open Float.Model
open Float.Model.UnpackedFloat (Sign accuracyOfFraction)

/-! ## Units -/

/-- The number that finite magnitude bits stand for. -/
def bitsValue (bits : Nat) : ℚ := mantissa bits * 2 ^ unitPower bits

/-- Bits hold a number of units, which takes up all 53 digits unless the unit is the smallest one. -/
theorem exists_units (bits : Nat) :
    ∃ k m, bits = k * 2 ^ 52 + m ∧ m < 2 ^ 53 ∧ (k = 0 ∨ 2 ^ 52 ≤ m) := by
  by_cases h : bits < 2 ^ 52
  · exact ⟨0, bits, by omega, by omega, Or.inl rfl⟩
  · exact ⟨bits / 2 ^ 52 - 1, 2 ^ 52 + bits % 2 ^ 52, by omega, by omega, Or.inr (by omega)⟩

section Units

variable {k m : Nat}

theorem mantissa_units (hm : m < 2 ^ 53) (hfull : k = 0 ∨ 2 ^ 52 ≤ m) :
    mantissa (k * 2 ^ 52 + m) = m := by
  have hhidden : hiddenBit = 2 ^ 52 := rfl
  rw [mantissa, Nat.shiftRight_eq_div_pow, hhidden]
  split <;> omega

theorem unitPower_units (hm : m < 2 ^ 53) (hfull : k = 0 ∨ 2 ^ 52 ≤ m) :
    unitPower (k * 2 ^ 52 + m) = k - 1074 := by
  rw [unitPower, Nat.shiftRight_eq_div_pow]
  omega

/-- Bits stand for their number of units, also when one digit is carried over. -/
theorem bitsValue_units (hm : m ≤ 2 ^ 53) (hfull : k = 0 ∨ 2 ^ 52 ≤ m) :
    bitsValue (k * 2 ^ 52 + m) = m * 2 ^ ((k : Int) - 1074) := by
  rcases hm.lt_or_eq with hlt | rfl
  · rw [bitsValue, mantissa_units hlt hfull, unitPower_units hlt hfull]
  · have hcarry : k * 2 ^ 52 + 2 ^ 53 = (k + 1) * 2 ^ 52 + 2 ^ 52 := by ring
    have hunit : ((k + 1 : Nat) : Int) - 1074 = (k : Int) - 1074 + 1 := by omega
    rw [hcarry, bitsValue, mantissa_units (by norm_num) (Or.inr le_rfl),
      unitPower_units (by norm_num) (Or.inr le_rfl), hunit, zpow_add_one₀ two_ne_zero]
    push_cast
    ring

end Units

theorem bitsValue_pos {bits : Nat} (h : 0 < bits) : 0 < bitsValue bits := by
  obtain ⟨k, m, rfl, hm, hfull⟩ := exists_units bits
  rw [bitsValue_units hm.le hfull]
  exact magnitude_pos (by omega) _

/-! ## Where a number is rounded -/

/-- A positive number is rounded to `r` units `2 ^ t`. -/
structure RoundsAt (x : ℚ) (t : Int) (r : Nat) : Prop where
  unit : ∃ l : Int, 2 ^ l ≤ x ∧ x < 2 ^ (l + 1) ∧ t = max (l - 52) (-1074)
  nearest : Nearest r (x / 2 ^ t)

theorem isRounded_iff {x y : ℚ} : IsRounded x y ↔ ∃ t r, RoundsAt x t r ∧ y = r * 2 ^ t := by
  constructor
  · rintro ⟨l, t, r, hl, hl', ht, hnear, hy⟩
    exact ⟨t, r, ⟨⟨l, hl, hl', ht⟩, hnear⟩, hy⟩
  · rintro ⟨t, r, ⟨⟨l, hl, hl', ht⟩, hnear⟩, hy⟩
    exact ⟨l, t, r, hl, hl', ht, hnear, hy⟩

/-- Of two neighbours at the same distance one is even. -/
theorem Nearest.unique {r r' : Nat} {x : ℚ} (h : Nearest r x) (h' : Nearest r' x) : r = r' := by
  have hle : ∀ {a b : Nat}, Nearest a x → Nearest b x → a ≤ b := by
    intro a b ha hb
    by_contra hlt
    have hsucc : (b : ℚ) + 1 ≤ a := by exact_mod_cast Nat.lt_of_not_le hlt
    have heq : (a : ℚ) = b + 1 := by linarith [ha.le, hb.ge]
    have hodd : Even a := ha.even (Or.inl (by linarith [ha.le, hb.ge]))
    have heven : Even b := hb.even (Or.inr (by linarith [ha.le, hb.ge]))
    obtain rfl : a = b + 1 := by exact_mod_cast heq
    exact Nat.not_even_iff_odd.mpr heven.add_one hodd
  exact le_antisymm (hle h h') (hle h' h)

namespace RoundsAt

variable {x : ℚ} {t t' : Int} {r r' : Nat}

theorem unit_unique (h : RoundsAt x t r) (h' : RoundsAt x t' r') : t = t' := by
  -- both powers of two are the last one that is not above the number
  obtain ⟨l, hl, hl', rfl⟩ := h.unit
  obtain ⟨k, hk, hk', rfl⟩ := h'.unit
  have hlk : l < k + 1 := (zpow_lt_zpow_iff_right₀ one_lt_two).mp (hl.trans_lt hk')
  have hkl : k < l + 1 := (zpow_lt_zpow_iff_right₀ one_lt_two).mp (hk.trans_lt hl')
  rw [show l = k by omega]

theorem unique (h : RoundsAt x t r) (h' : RoundsAt x t' r') : t = t' ∧ r = r' := by
  obtain rfl := h.unit_unique h'
  exact ⟨rfl, h.nearest.unique h'.nearest⟩

theorem unit_ge (h : RoundsAt x t r) : -1074 ≤ t := by
  obtain ⟨l, -, -, rfl⟩ := h.unit
  exact le_max_right _ _

/-- There is room for 53 digits, and at most one is carried over. -/
theorem le (h : RoundsAt x t r) : r ≤ 2 ^ 53 := by
  obtain ⟨l, -, hl, ht⟩ := h.unit
  refine h.nearest.le_of_le ((div_le_iff₀ (by positivity)).mpr (hl.le.trans ?_))
  rw [Nat.cast_pow, Nat.cast_two, ← zpow_natCast, ← zpow_add₀ two_ne_zero]
  exact zpow_le_zpow_right₀ one_le_two (by omega)

/-- They are used up, unless the unit is the smallest one. -/
theorem full (h : RoundsAt x t r) : t = -1074 ∨ 2 ^ 52 ≤ r := by
  obtain ⟨l, hl, -, ht⟩ := h.unit
  by_cases hmin : t = -1074
  · exact Or.inl hmin
  · refine Or.inr (h.nearest.ge_of_ge ((le_div_iff₀ (by positivity)).mpr (le_trans ?_ hl)))
    rw [Nat.cast_pow, Nat.cast_two, ← zpow_natCast, ← zpow_add₀ two_ne_zero]
    exact zpow_le_zpow_right₀ one_le_two (by omega)

/-- What the bits of the units stand for. -/
theorem bitsValue_eq (h : RoundsAt x t r) :
    bitsValue ((t + 1074).toNat * 2 ^ 52 + r) = r * 2 ^ t := by
  have hge := h.unit_ge
  have hfull : (t + 1074).toNat = 0 ∨ 2 ^ 52 ≤ r := h.full.imp_left fun ht => by omega
  rw [bitsValue_units h.le hfull, show ((t + 1074).toNat : Int) - 1074 = t by omega]

/-- Numbers beyond the range of doubles are rounded to the bits of infinity or more. -/
theorem lt_of_lt_infinityBits (h : RoundsAt x t r)
    (hfin : (t + 1074).toNat * 2 ^ 52 + r < infinityBits) : x < 2 ^ (1024 : Int) := by
  have hinf : infinityBits = 2047 * 2 ^ 52 := rfl
  have hfull := h.full
  obtain ⟨l, -, hl, ht⟩ := h.unit
  exact hl.trans_le (zpow_le_zpow_right₀ one_le_two (by omega))

end RoundsAt

theorem IsRounded.unique {x y y' : ℚ} (h : IsRounded x y) (h' : IsRounded x y') : y = y' := by
  obtain ⟨t, r, hr, rfl⟩ := isRounded_iff.mp h
  obtain ⟨t', r', hr', rfl⟩ := isRounded_iff.mp h'
  obtain ⟨rfl, rfl⟩ := hr.unique hr'
  rfl

/-- A number of units that doubles can have is rounded to itself. -/
theorem roundsAt_units {k m : Nat} (hpos : 0 < m) (hm : m < 2 ^ 53) (hfull : k = 0 ∨ 2 ^ 52 ≤ m) :
    RoundsAt (m * 2 ^ ((k : Int) - 1074)) (k - 1074) m := by
  have hlog : m.log2 < 53 := (Nat.log2_lt hpos.ne').mpr hm
  have hfull : k = 0 ∨ 52 ≤ m.log2 := hfull.imp_right (Nat.le_log2 hpos.ne').mpr
  refine ⟨⟨m.log2 + (k - 1074), (log2_bounds hpos _).1, (log2_bounds hpos _).2, by omega⟩, ?_⟩
  rw [mul_div_cancel_right₀ _ (by positivity)]
  exact nearest_self m

/-- Below `2 ^ 53` no two whole numbers are rounded to the same. -/
theorem IsRounded.eq_of_natCast {N n : Nat} (h : IsRounded N n) (hn : n < 2 ^ 53) : N = n := by
  obtain ⟨t, r, hr, hvalue⟩ := isRounded_iff.mp h
  have hunit : (0 : ℚ) < 2 ^ t := by positivity
  rcases le_or_gt t 0 with hsmall | hlarge
  · -- with units that divide 1, the two are not as far as 1 from each other
    have hone : (2 : ℚ) ^ t ≤ 1 := zpow_le_one_of_nonpos₀ one_le_two hsmall
    have hle : (n : ℚ) ≤ N + 1 / 2 := by
      have := mul_le_mul_of_nonneg_right hr.nearest.le hunit.le
      rw [add_mul, div_mul_cancel₀ _ hunit.ne', ← hvalue] at this
      linarith
    have hge : (N : ℚ) - 1 / 2 ≤ n := by
      have := mul_le_mul_of_nonneg_right hr.nearest.ge hunit.le
      rw [sub_mul, div_mul_cancel₀ _ hunit.ne', ← hvalue] at this
      linarith
    have hlt : (n : ℚ) < N + 1 := by linarith
    have hlt' : (N : ℚ) < n + 1 := by linarith
    exact le_antisymm (Nat.lt_succ_iff.mp (by exact_mod_cast hlt'))
      (Nat.lt_succ_iff.mp (by exact_mod_cast hlt))
  · -- with larger units, the number is rounded to `2 ^ 53` or more
    have hfull : 2 ^ 52 ≤ r := hr.full.resolve_left (by omega)
    have htwo : (2 : ℚ) ≤ 2 ^ t := by
      calc (2 : ℚ) = 2 ^ (1 : Int) := (zpow_one 2).symm
        _ ≤ 2 ^ t := zpow_le_zpow_right₀ one_le_two hlarge
    have hfar : (2 : ℚ) ^ 53 ≤ n := by
      rw [hvalue, pow_succ]
      exact mul_le_mul (by exact_mod_cast hfull) htwo zero_le_two (by positivity)
    exact absurd hn (not_lt.mpr (by exact_mod_cast hfar))

/-! ## The nearest bits of a quotient -/

section Quotient

variable {num den : Nat}

theorem roundScaled_eq (num : Nat) (hden : 0 < den) (q : Int) :
    roundScaled num den q =
      (accuracyOfFraction (num <<< (-q).toNat % den <<< q.toNat) (den <<< q.toNat)).roundToNearestEven
        (num <<< (-q).toNat / den <<< q.toNat) := by
  have hd : 0 < den <<< q.toNat := by
    rw [Nat.shiftLeft_eq]
    positivity
  rw [roundScaled, accuracyOfFraction]
  generalize num <<< (-q).toNat = n
  generalize den <<< q.toNat = d at hd
  by_cases hzero : n % d = 0
  · rw [if_pos hzero, if_pos (by omega)]
    rfl
  · rw [if_neg hzero]
    rcases lt_trichotomy (2 * (n % d)) d with h | h | h
    · rw [compare_lt_iff_lt.mpr h, if_pos h]
      rfl
    · rw [compare_eq_iff_eq.mpr h, if_neg h.not_lt, if_neg h.symm.not_lt]
      rfl
    · rw [compare_gt_iff_gt.mpr h, if_neg h.not_gt, if_pos h]
      rfl

/-- The quotient in units `2 ^ q`. -/
theorem shiftLeft_div_shiftLeft (num den : Nat) (q : Int) :
    ((num <<< (-q).toNat : Nat) : ℚ) / (den <<< q.toNat : Nat) = num / den / 2 ^ q := by
  rw [Nat.shiftLeft_eq, Nat.shiftLeft_eq, Nat.cast_mul, Nat.cast_mul, Nat.cast_pow, Nat.cast_pow,
    Nat.cast_two, mul_div_mul_comm, div_eq_mul_inv _ ((2 : ℚ) ^ q), ← zpow_neg, ← zpow_natCast,
    ← zpow_natCast, ← zpow_sub₀ two_ne_zero]
  congr 2
  omega

theorem nearest_roundScaled (num : Nat) (hden : 0 < den) (q : Int) :
    Nearest (roundScaled num den q) (num / den / 2 ^ q) := by
  have hd : 0 < den <<< q.toNat := by
    rw [Nat.shiftLeft_eq]
    positivity
  rw [roundScaled_eq num hden, ← shiftLeft_div_shiftLeft]
  exact nearest_roundToNearestEven (fits_accuracyOfFraction _ hd)

/-- The powers of two around a quotient, but for one digit. -/
theorem log2_div_bounds (hnum : 0 < num) (hden : 0 < den) :
    (2 : ℚ) ^ ((num.log2 : Int) - den.log2 - 1) ≤ num / den ∧
      (num : ℚ) / den < 2 ^ ((num.log2 : Int) - den.log2 + 1) := by
  have hn := log2_bounds hnum 0
  have hd := log2_bounds hden 0
  simp only [zpow_zero, mul_one, add_zero] at hn hd
  have hdpos : (0 : ℚ) < den := by exact_mod_cast hden
  constructor
  · rw [le_div_iff₀ hdpos]
    calc (2 : ℚ) ^ ((num.log2 : Int) - den.log2 - 1) * den
        ≤ 2 ^ ((num.log2 : Int) - den.log2 - 1) * 2 ^ ((den.log2 : Int) + 1) := by
          gcongr
          exact hd.2.le
      _ = 2 ^ (num.log2 : Int) := by
          rw [← zpow_add₀ two_ne_zero]
          congr 1
          omega
      _ ≤ num := hn.1
  · rw [div_lt_iff₀ hdpos]
    calc (num : ℚ) < 2 ^ ((num.log2 : Int) + 1) := hn.2
      _ = 2 ^ ((num.log2 : Int) - den.log2 + 1) * 2 ^ (den.log2 : Int) := by
          rw [← zpow_add₀ two_ne_zero]
          congr 1
          omega
      _ ≤ 2 ^ ((num.log2 : Int) - den.log2 + 1) * den := by
          gcongr
          exact hd.1

theorem shiftLeft_lt_iff (num : Nat) (hden : 0 < den) (q : Int) :
    num <<< (-q).toNat < (den <<< q.toNat) <<< 52 ↔ (num : ℚ) / den < 2 ^ (q + 52) := by
  have hd : (0 : ℚ) < (den <<< q.toNat : Nat) := by
    rw [Nat.shiftLeft_eq]
    exact_mod_cast Nat.mul_pos hden (Nat.two_pow_pos _)
  rw [add_comm, zpow_add₀ two_ne_zero, ← div_lt_iff₀ (by positivity), ← shiftLeft_div_shiftLeft,
    div_lt_iff₀ hd, Nat.shiftLeft_eq _ 52, mul_comm, ← Nat.cast_lt (α := ℚ)]
  push_cast
  rfl

/-- The bits that are found are those of the number of units that the quotient is rounded to. -/
theorem nearestBits_spec (hnum : 0 < num) (hden : 0 < den) :
    ∃ t r, RoundsAt (num / den) t r ∧
      nearestBits num den = min infinityBits ((t + 1074).toNat * 2 ^ 52 + r) := by
  obtain ⟨guess, hguess⟩ : ∃ guess : Int, guess = (num.log2 : Int) - den.log2 - 52 := ⟨_, rfl⟩
  have hbounds := log2_div_bounds hnum hden
  have hbelow := shiftLeft_lt_iff num hden guess
  -- the comparison corrects the guess by the one digit that it can be wrong by
  have hdigits : ∃ l : Int, (2 : ℚ) ^ l ≤ num / den ∧ (num : ℚ) / den < 2 ^ (l + 1) ∧
      (if num <<< (-guess).toNat < (den <<< guess.toNat) <<< 52 then guess - 1 else guess) =
        l - 52 := by
    split
    · next h =>
        refine ⟨guess + 51, ?_, ?_, by omega⟩
        · rw [show guess + 51 = (num.log2 : Int) - den.log2 - 1 by omega]
          exact hbounds.1
        · rw [show guess + 51 + 1 = guess + 52 by omega]
          exact hbelow.mp h
    · next h =>
        refine ⟨guess + 52, not_lt.mp (mt hbelow.mpr h), ?_, by omega⟩
        rw [show guess + 52 + 1 = (num.log2 : Int) - den.log2 + 1 by omega]
        exact hbounds.2
  obtain ⟨l, hl, hl', hunit⟩ := hdigits
  have hzero : (num = 0 || den = 0) = false := by simp [hnum.ne', hden.ne']
  refine ⟨max (l - 52) (-1074), roundScaled num den (max (l - 52) (-1074)),
    ⟨⟨l, hl, hl', rfl⟩, nearest_roundScaled num hden _⟩, ?_⟩
  rw [nearestBits, hzero, if_neg Bool.false_ne_true]
  simp only [← hguess, decide_eq_true_eq, hunit]
  rw [Nat.shiftLeft_eq]

/-- A quotient is rounded to what its bits stand for. -/
theorem isRounded_of_nearestBits {bits : Nat} (hnum : 0 < num) (hden : 0 < den)
    (h : nearestBits num den = bits) (hfin : bits < infinityBits) :
    IsRounded (num / den) (bitsValue bits) := by
  obtain ⟨t, r, hr, hbits⟩ := nearestBits_spec hnum hden
  obtain rfl : bits = (t + 1074).toNat * 2 ^ 52 + r := by omega
  exact isRounded_iff.mpr ⟨t, r, hr, hr.bitsValue_eq⟩

theorem lt_of_nearestBits_lt (hnum : 0 < num) (hden : 0 < den)
    (h : nearestBits num den < infinityBits) : (num : ℚ) / den < 2 ^ (1024 : Int) := by
  obtain ⟨t, r, hr, hbits⟩ := nearestBits_spec hnum hden
  exact hr.lt_of_lt_infinityBits (by omega)

theorem num_pos_of_value {bits : Nat} (hden : 0 < den) (hpos : 0 < bits)
    (h : (num : ℚ) / den = bitsValue bits) : 0 < num := by
  have hquotient : (0 : ℚ) < num / den := h ▸ bitsValue_pos hpos
  exact_mod_cast (div_pos_iff_of_pos_right (by exact_mod_cast hden)).mp hquotient

/-- The bits that are found for the value of finite bits are these. -/
theorem nearestBits_of_value {bits : Nat} (hden : 0 < den) (hpos : 0 < bits)
    (hfin : bits < infinityBits) (h : (num : ℚ) / den = bitsValue bits) :
    nearestBits num den = bits := by
  have hnum := num_pos_of_value hden hpos h
  obtain ⟨k, m, rfl, hm, hfull⟩ := exists_units bits
  have hmpos : 0 < m := by omega
  rw [bitsValue_units hm.le hfull] at h
  obtain ⟨t, r, hr, hbits⟩ := nearestBits_spec hnum hden
  rw [h] at hr
  obtain ⟨rfl, rfl⟩ := hr.unique (roundsAt_units hmpos hm hfull)
  rw [hbits, show ((k : Int) - 1074 + 1074).toNat = k by omega]
  exact min_eq_right hfin.le

theorem exactQuotient_eq (bits : Nat) :
    ((exactQuotient bits).1 : ℚ) / (exactQuotient bits).2 = bitsValue bits := by
  have := shiftLeft_div_shiftLeft (mantissa bits) 1 (-unitPower bits)
  rw [neg_neg] at this
  rw [exactQuotient, this, bitsValue, Nat.cast_one, div_one, zpow_neg, div_inv_eq_mul]

end Quotient

end WidgetStyle.Double
