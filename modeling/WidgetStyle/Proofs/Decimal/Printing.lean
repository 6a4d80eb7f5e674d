import WidgetStyle.Decimal
import WidgetStyle.Proofs.Double.Fields

/-!
# WidgetStyle.Proofs.Decimal.Printing — printed numbers read back

A double is printed with the fewest digits that are found to have its bits, or else with all the digits
of its exact value; either way the digits with their power of ten have the bits of the double
(`scientificBits_shortest`).  Printed without an exponent they are read as they are, or with the zeros
that a power of ten puts behind them (`readScientific?_positionalDigits`), which changes nothing
(`scientificBits_mul_tenTo`).  So every double is read back from its text
(`readFloat?_positional`).

Of a whole number below `2 ^ 32` the text is made of digits alone and is read as a count
(`readNat?_positional_ofNat`): the search goes down to the grid of the whole numbers at least, and on it
no other number has these bits.
-/

namespace WidgetStyle.Decimal

open Double

/-! ## Digits -/

theorem tenTo_eq (n : Nat) : tenTo n = 10 ^ n := rfl

theorem tenTo_zero : tenTo 0 = 1 := rfl

theorem digitsValue_toDigits (n : Nat) : digitsValue (Nat.toDigits 10 n) = n :=
  Nat.ofDigitChars_ten_toDigits

theorem isDigit_of_mem_toDigits {c : Char} {n : Nat} (h : c ∈ Nat.toDigits 10 n) :
    isDigit c = true := by
  have := Nat.isDigit_of_mem_toDigits (by decide) (by decide) h
  simpa [isDigit, Char.isDigit, Char.le_def] using this

theorem isDigit_of_mem_zeros {c : Char} {k : Nat} (h : c ∈ List.replicate k '0') :
    isDigit c = true := by
  rw [List.eq_of_mem_replicate h]
  rfl

theorem digitsValue_zeros (k : Nat) : digitsValue (List.replicate k '0') = 0 := by
  induction k with
  | zero => rfl
  | succ k ih => exact ih

theorem digitsValue_zeros_append (k : Nat) (cs : List Char) :
    digitsValue (List.replicate k '0' ++ cs) = digitsValue cs := by
  rw [digitsValue_append, digitsValue_zeros, Nat.zero_mul, Nat.zero_add]

theorem digitsValue_append_zeros (cs : List Char) (k : Nat) :
    digitsValue (cs ++ List.replicate k '0') = digitsValue cs * tenTo k := by
  rw [digitsValue_append, digitsValue_zeros, List.length_replicate, Nat.add_zero]

/-! ## Reading decimals -/

section Reading

variable {whole fraction : List Char}

theorem takeWhile_digits (rest : List Char) (h : ∀ c ∈ whole, isDigit c = true)
    (hrest : ∀ c ∈ rest.head?, isDigit c = false) :
    (whole ++ rest).takeWhile isDigit = whole ∧ (whole ++ rest).dropWhile isDigit = rest := by
  rw [List.takeWhile_append_of_pos h, List.dropWhile_append_of_pos h]
  cases rest with
  | nil => simp
  | cons c rest => simp [hrest c rfl]

theorem readScientific?_whole (hne : whole ≠ []) (h : ∀ c ∈ whole, isDigit c = true) :
    readScientific? whole = some (digitsValue whole, 0) := by
  have hcut := takeWhile_digits [] h (by simp)
  rw [List.append_nil] at hcut
  rw [readScientific?, hcut.1, hcut.2]
  simp [hne, readDigits_eq]

theorem readScientific?_point (hne : whole ≠ []) (hwhole : ∀ c ∈ whole, isDigit c = true)
    (hfraction : ∀ c ∈ fraction, isDigit c = true) :
    readScientific? (whole ++ '.' :: fraction) =
      some (digitsValue (whole ++ fraction), -(fraction.length : Int)) := by
  have hcut := takeWhile_digits ('.' :: fraction) hwhole (by simp [isDigit])
  have hcut' := takeWhile_digits [] hfraction (by simp)
  rw [List.append_nil] at hcut'
  rw [readScientific?, hcut.1, hcut.2]
  simp only [hcut'.1, hcut'.2]
  simp [hne, readDigits_eq]

theorem readNat?_of_digits {bound : Nat} (hne : whole ≠ []) (h : ∀ c ∈ whole, isDigit c = true)
    (hbound : digitsValue whole < bound) : readNat? bound whole = some (digitsValue whole) := by
  have hall : whole.all isDigit = true := List.all_eq_true.mpr h
  rw [readNat?, readDigits_eq]
  · simp [hne, hall, hbound]
  · rintro more rfl
    exact absurd (h '+' List.mem_cons_self) (by decide)

theorem lt_of_readNat? {bound n : Nat} {cs : List Char} (h : readNat? bound cs = some n) :
    n < bound := by
  unfold readNat? at h
  obtain ⟨-, hread⟩ := Option.ite_none_left_eq_some.mp h
  obtain ⟨hlt, hn⟩ := Option.ite_none_right_eq_some.mp hread
  rwa [← Option.some_inj.mp hn]

end Reading

/-! ## Printed digits -/

section Positional

variable {digits : Nat} {power : Int}

theorem positionalDigits_of_nonneg (h : 0 ≤ power) :
    positionalDigits digits power = Nat.toDigits 10 digits ++ List.replicate power.toNat '0' := by
  rw [positionalDigits, if_pos h]

theorem positionalDigits_of_neg (digits : Nat) (h : power < 0) :
    ∃ whole fraction, positionalDigits digits power = whole ++ '.' :: fraction ∧ whole ≠ [] ∧
      (∀ c ∈ whole ++ fraction, isDigit c = true) ∧ (fraction.length : Int) = -power ∧
      digitsValue (whole ++ fraction) = digits := by
  obtain ⟨places, hplaces⟩ : ∃ places, (-power).toNat = places := ⟨_, rfl⟩
  obtain ⟨padded, hpadded⟩ : ∃ padded, padded =
      List.replicate (places + 1 - (Nat.toDigits 10 digits).length) '0' ++ Nat.toDigits 10 digits :=
    ⟨_, rfl⟩
  have hlength : places + 1 ≤ padded.length := by
    rw [hpadded, List.length_append, List.length_replicate]
    omega
  refine ⟨padded.take (padded.length - places), padded.drop (padded.length - places), ?_, ?_, ?_, ?_,
    ?_⟩
  · rw [positionalDigits, if_neg (by omega), hplaces]
    simp only [← hpadded]
  · refine List.ne_nil_of_length_pos ?_
    rw [List.length_take]
    omega
  · intro c hc
    rw [List.take_append_drop, hpadded] at hc
    rcases List.mem_append.mp hc with hc | hc
    · exact isDigit_of_mem_zeros hc
    · exact isDigit_of_mem_toDigits hc
  · rw [List.length_drop]
    omega
  · rw [List.take_append_drop, hpadded, digitsValue_zeros_append, digitsValue_toDigits]

theorem isDigit_of_mem_whole (h : 0 ≤ power) {c : Char} (hc : c ∈ positionalDigits digits power) :
    isDigit c = true := by
  rw [positionalDigits_of_nonneg h] at hc
  rcases List.mem_append.mp hc with hc | hc
  · exact isDigit_of_mem_toDigits hc
  · exact isDigit_of_mem_zeros hc

theorem digitsValue_positionalDigits (h : 0 ≤ power) :
    digitsValue (positionalDigits digits power) = digits * tenTo power.toNat := by
  rw [positionalDigits_of_nonneg h, digitsValue_append_zeros, digitsValue_toDigits]

theorem positionalDigits_ne_nil (digits : Nat) (power : Int) : positionalDigits digits power ≠ [] := by
  by_cases h : 0 ≤ power
  · rw [positionalDigits_of_nonneg h]
    exact List.append_ne_nil_of_left_ne_nil Nat.toDigits_ne_nil _
  · obtain ⟨whole, fraction, hdigits, -⟩ := positionalDigits_of_neg digits (not_le.mp h)
    rw [hdigits]
    exact List.append_ne_nil_of_right_ne_nil _ (List.cons_ne_nil _ _)

/-- Printed digits are read as they are, or with the zeros behind them. -/
theorem readScientific?_positionalDigits (digits : Nat) (power : Int) :
    readScientific? (positionalDigits digits power) =
      some (if 0 ≤ power then (digits * tenTo power.toNat, 0) else (digits, power)) := by
  by_cases h : 0 ≤ power
  · rw [if_pos h, readScientific?_whole (positionalDigits_ne_nil _ _) fun c => isDigit_of_mem_whole h,
      digitsValue_positionalDigits h]
  · obtain ⟨whole, fraction, hdigits, hne, hall, hlength, hvalue⟩ :=
      positionalDigits_of_neg digits (not_le.mp h)
    rw [if_neg h, hdigits, readScientific?_point hne (fun c hc => hall c (List.mem_append_left _ hc))
      (fun c hc => hall c (List.mem_append_right _ hc)), hvalue, hlength, neg_neg]

theorem exists_positionalDigits_cons (digits : Nat) (power : Int) :
    ∃ c cs, positionalDigits digits power = c :: cs ∧ isDigit c = true := by
  by_cases h : 0 ≤ power
  · obtain ⟨c, cs, hdigits⟩ := List.exists_cons_of_ne_nil (positionalDigits_ne_nil digits power)
    exact ⟨c, cs, hdigits, isDigit_of_mem_whole h (hdigits ▸ List.mem_cons_self)⟩
  · obtain ⟨whole, fraction, hdigits, hne, hall, -⟩ :=
      positionalDigits_of_neg digits (not_le.mp h)
    obtain ⟨c, cs, rfl⟩ := List.exists_cons_of_ne_nil hne
    exact ⟨c, cs ++ '.' :: fraction, hdigits, hall c List.mem_cons_self⟩

theorem isDigit_or_point_of_mem {c : Char} (hc : c ∈ positionalDigits digits power) :
    isDigit c = true ∨ c = '.' := by
  by_cases h : 0 ≤ power
  · exact Or.inl (isDigit_of_mem_whole h hc)
  · obtain ⟨whole, fraction, hdigits, -, hall, -⟩ :=
      positionalDigits_of_neg digits (not_le.mp h)
    rw [hdigits, List.mem_append, List.mem_cons] at hc
    rcases hc with hc | rfl | hc
    · exact Or.inl (hall c (List.mem_append_left _ hc))
    · exact Or.inr rfl
    · exact Or.inl (hall c (List.mem_append_right _ hc))

end Positional

/-! ## The bits of printed digits -/

section Shortest

variable {digits bits num den : Nat} {power : Int}

/-- What is cut short is out of the range of doubles. -/
theorem nearestBits_of_scientificBits (h : scientificBits digits power = bits) (hpos : 0 < bits)
    (hfin : bits < infinityBits) :
    0 < digits ∧ nearestBits (digits * tenTo power.toNat) (tenTo (-power).toNat) = bits := by
  rw [scientificBits] at h
  split at h
  · omega
  · next hdigits =>
      dsimp only at h
      split at h
      · omega
      · split at h
        · omega
        · exact ⟨Nat.pos_of_ne_zero hdigits, h⟩

theorem scientificBits_of_range (hdigits : 0 < digits)
    (hlow : -400 ≤ power + (Nat.log2 digits : Int) * 30103 / 100000)
    (hhigh : power + (Nat.log2 digits : Int) * 30103 / 100000 ≤ 400) :
    scientificBits digits power =
      nearestBits (digits * tenTo power.toNat) (tenTo (-power).toNat) := by
  rw [scientificBits, if_neg hdigits.ne', if_neg (by omega), if_neg (by omega)]

/-- A whole number that doubles have is not cut short. -/
theorem scientificBits_zero (hdigits : 0 < digits) (h : nearestBits digits 1 < infinityBits) :
    scientificBits digits 0 = nearestBits digits 1 := by
  have hlt := lt_of_nearestBits_lt hdigits one_pos h
  rw [Nat.cast_one, div_one] at hlt
  have hlog : digits.log2 < 1024 := (Nat.log2_lt hdigits.ne').mpr (by exact_mod_cast hlt)
  rw [scientificBits_of_range hdigits (by omega) (by omega)]
  simp [tenTo_zero]

/-- With the zeros behind them the digits are a whole number that has the bits. -/
theorem nearestBits_mul_tenTo (hpower : 0 ≤ power) (h : scientificBits digits power = bits)
    (hpos : 0 < bits) (hfin : bits < infinityBits) :
    0 < digits * tenTo power.toNat ∧ nearestBits (digits * tenTo power.toNat) 1 = bits := by
  obtain ⟨hdigits, hbits⟩ := nearestBits_of_scientificBits h hpos hfin
  rw [show (-power).toNat = 0 by omega, tenTo_zero] at hbits
  exact ⟨Nat.mul_pos hdigits (Nat.pow_pos (by decide)), hbits⟩

/-- The zeros behind the digits stand for the power of ten. -/
theorem scientificBits_mul_tenTo (hpower : 0 ≤ power) (h : scientificBits digits power = bits)
    (hpos : 0 < bits) (hfin : bits < infinityBits) :
    scientificBits (digits * tenTo power.toNat) 0 = bits := by
  obtain ⟨hproduct, hbits⟩ := nearestBits_mul_tenTo hpower h hpos hfin
  rw [scientificBits_zero hproduct (hbits ▸ hfin), hbits]

/-! ### The search -/

theorem scientificBits_of_onGrid? (h : onGrid? bits num den power = some digits) :
    scientificBits digits power = bits := by
  rw [onGrid?] at h
  split at h
  · next hlow =>
      obtain rfl := Option.some_inj.mp h
      simp only [Bool.and_eq_true, decide_eq_true_eq] at hlow
      exact hlow.1
  · split at h
    · next hhigh =>
        obtain rfl := Option.some_inj.mp h
        exact hhigh
    · exact absurd h (Option.some_ne_none _).symm

theorem scientificBits_of_firstGrid? {steps : Nat} {top : Int}
    (h : firstGrid? bits num den steps top = some (digits, power)) :
    scientificBits digits power = bits := by
  induction steps generalizing top with
  | zero => exact absurd h (Option.some_ne_none _).symm
  | succ steps ih =>
      rw [firstGrid?] at h
      split at h
      · next found hfound =>
          obtain ⟨rfl, rfl⟩ := Prod.mk.inj (Option.some_inj.mp h)
          exact scientificBits_of_onGrid? hfound
      · exact ih h

/-- The search ends at the first grid that has a number with the bits. -/
theorem exists_firstGrid? (steps : Nat) {top : Int} (h : (onGrid? bits num den power).isSome)
    (hle : power ≤ top) (hlt : top < power + steps) :
    ∃ digits found, firstGrid? bits num den steps top = some (digits, found) ∧ power ≤ found := by
  induction steps generalizing top with
  | zero => omega
  | succ steps ih =>
      rw [firstGrid?]
      cases htop : onGrid? bits num den top with
      | some digits => exact ⟨digits, top, rfl, hle⟩
      | none =>
          -- the grid that has a number is still below
          have hne : power ≠ top := by
            rintro rfl
            rw [htop] at h
            exact Bool.false_ne_true h
          exact ih (by omega) (by push_cast at hlt; omega)

end Shortest

/-! ### The exact value -/

/-- Five to some power lies between these powers of two. -/
theorem pow_five_bounds (n : Nat) : 2 ^ (23 * (n / 10)) ≤ 5 ^ n ∧ 5 ^ n ≤ 2 ^ (7 * (n / 3 + 1)) := by
  constructor
  · calc 2 ^ (23 * (n / 10)) = (2 ^ 23) ^ (n / 10) := pow_mul 2 23 _
      _ ≤ (5 ^ 10) ^ (n / 10) := Nat.pow_le_pow_left (by norm_num) _
      _ = 5 ^ (10 * (n / 10)) := (pow_mul 5 10 _).symm
      _ ≤ 5 ^ n := Nat.pow_le_pow_right (by decide) (by omega)
  · calc 5 ^ n ≤ 5 ^ (3 * (n / 3 + 1)) := Nat.pow_le_pow_right (by decide) (by omega)
      _ = (5 ^ 3) ^ (n / 3 + 1) := pow_mul 5 3 _
      _ ≤ (2 ^ 7) ^ (n / 3 + 1) := Nat.pow_le_pow_left (by norm_num) _
      _ = 2 ^ (7 * (n / 3 + 1)) := (pow_mul 2 7 _).symm

theorem log2_exactQuotient_snd (bits : Nat) :
    (exactQuotient bits).2 = 2 ^ (exactQuotient bits).2.log2 ∧
      (exactQuotient bits).2.log2 ≤ 1074 := by
  have hden : (exactQuotient bits).2 = 2 ^ (-unitPower bits).toNat := by
    rw [exactQuotient, Nat.one_shiftLeft]
  rw [hden, Nat.log2_two_pow]
  refine ⟨rfl, ?_⟩
  rw [unitPower]
  omega

/-- All the digits of the exact value have the bits. -/
theorem scientificBits_exact {bits : Nat} (hpos : 0 < bits) (hfin : bits < infinityBits) :
    scientificBits ((exactQuotient bits).1 * Nat.pow 5 (exactQuotient bits).2.log2)
      (-((exactQuotient bits).2.log2 : Int)) = bits := by
  obtain ⟨hden, hplaces⟩ := log2_exactQuotient_snd bits
  have hvalue := exactQuotient_eq bits
  generalize (exactQuotient bits).1 = num at *
  generalize (exactQuotient bits).2.log2 = places at *
  rw [hden] at hvalue
  have hdenpos : 0 < 2 ^ places := Nat.two_pow_pos places
  have hnum : 0 < num := num_pos_of_value hdenpos hpos hvalue
  have hbits : nearestBits num (2 ^ places) = bits :=
    nearestBits_of_value hdenpos hpos hfin hvalue
  have hlt : num < 2 ^ (1024 + places) := by
    have := lt_of_nearestBits_lt hnum hdenpos (hbits ▸ hfin)
    rw [Nat.cast_pow, Nat.cast_two, div_lt_iff₀ (by positivity)] at this
    rw [pow_add]
    exact_mod_cast this
  -- the logarithm of the digits is known well enough to see that reading does not cut them short:
  -- there are at least as many as 5 to the places has, and the number is in the range of doubles
  obtain ⟨hlow, hhigh⟩ := pow_five_bounds places
  have hdigits : 0 < num * Nat.pow 5 places := Nat.mul_pos hnum (Nat.pow_pos (by decide))
  have hlog : 23 * (places / 10) ≤ (num * Nat.pow 5 places).log2 := by
    refine (Nat.le_log2 hdigits.ne').mpr ?_
    exact hlow.trans (Nat.le_mul_of_pos_left _ hnum)
  have hlog' : (num * Nat.pow 5 places).log2 < 1024 + places + 7 * (places / 3 + 1) := by
    refine (Nat.log2_lt hdigits.ne').mpr ?_
    rw [pow_add]
    exact Nat.mul_lt_mul_of_lt_of_le hlt hhigh (Nat.pow_pos (by decide))
  rw [scientificBits_of_range hdigits (by omega) (by omega)]
  refine nearestBits_of_value (Nat.pow_pos (by decide)) hpos hfin ?_
  rw [← hvalue, neg_neg, Int.toNat_natCast, Int.toNat_neg_natCast, tenTo_zero, tenTo_eq, mul_one]
  rw [Nat.pow_eq, show 10 = 2 * 5 from rfl, Nat.mul_pow, Nat.cast_mul, Nat.cast_mul,
    mul_div_mul_right _ _ (by positivity)]

/-- The power of ten from which the search goes down. -/
def topPower (bits : Nat) : Int :=
  (((exactQuotient bits).1.log2 : Int) - ((exactQuotient bits).2.log2 : Int)) * 30103 / 100000 + 2

theorem shortest_eq (bits : Nat) : shortest bits =
    (firstGrid? bits (exactQuotient bits).1 (exactQuotient bits).2 24 (topPower bits)).getD
      ((exactQuotient bits).1 * Nat.pow 5 (exactQuotient bits).2.log2,
        -((exactQuotient bits).2.log2 : Int)) := rfl

/-- The digits that are printed have the bits of the double. -/
theorem scientificBits_shortest {bits : Nat} (hpos : 0 < bits) (hfin : bits < infinityBits) :
    scientificBits (shortest bits).1 (shortest bits).2 = bits := by
  rw [shortest_eq]
  cases hgrid : firstGrid? bits (exactQuotient bits).1 (exactQuotient bits).2 24 (topPower bits) with
  | none => exact scientificBits_exact hpos hfin
  | some found => exact scientificBits_of_firstGrid? hgrid

/-- They still have them when they are read from the text. -/
theorem exists_readScientific?_shortest {bits : Nat} (hpos : 0 < bits) (hfin : bits < infinityBits) :
    ∃ found, readScientific? (positionalDigits (shortest bits).1 (shortest bits).2) = some found ∧
      scientificBits found.1 found.2 = bits := by
  have hbits := scientificBits_shortest hpos hfin
  refine ⟨_, readScientific?_positionalDigits _ _, ?_⟩
  split
  · next hpower => exact scientificBits_mul_tenTo hpower hbits hpos hfin
  · exact hbits

/-! ## Printed doubles -/

/-- What a double is printed as, but for the sign. -/
def body (bits : Nat) : List Char :=
  if bits = infinityBits then ['i', 'n', 'f']
  else if bits = 0 then ['0']
  else positionalDigits (shortest bits).1 (shortest bits).2

theorem body_infinity : body infinityBits = ['i', 'n', 'f'] := if_pos rfl

theorem body_zero : body 0 = ['0'] := rfl

theorem body_finite {bits : Nat} (hpos : 0 < bits) (hfin : bits < infinityBits) :
    body bits = positionalDigits (shortest bits).1 (shortest bits).2 := by
  rw [body, if_neg hfin.ne, if_neg hpos.ne']

theorem toList_positional_of_nan {x : Float} (h : infinityBits < magnitude x) :
    (positional x).toList = ['N', 'a', 'N'] := by
  rw [positional, if_pos h]
  rfl

theorem toList_positional {x : Float} (h : magnitude x ≤ infinityBits) :
    (positional x).toList =
      if isNegative x then '-' :: body (magnitude x) else body (magnitude x) := by
  rw [positional, if_neg (not_lt.mpr h), String.toList_ofList]
  rfl

theorem takeSign_of_ne {c : Char} {cs : List Char} (hminus : c ≠ '-') (hplus : c ≠ '+') :
    takeSign (c :: cs) = (false, c :: cs) := by
  rw [takeSign]
  · rintro _ ⟨rfl⟩
    exact hminus rfl
  · rintro _ ⟨rfl⟩
    exact hplus rfl

theorem toLower_of_isDigit {c : Char} (h : isDigit c = true) : c.toLower = c := by
  -- the digits stand before the capitals
  have hupper : ¬(c.val ≥ 'A'.val ∧ c.val ≤ 'Z'.val) := by
    rintro ⟨hlow, -⟩
    have hhigh := (Bool.and_eq_true_iff.mp h).2
    exact absurd (le_trans hlow (of_decide_eq_true hhigh)) (by decide)
  exact dif_neg hupper

/-- A text of digits is read with its sign. -/
theorem readFloat?_of_isDigit (negative : Bool) {c : Char} {cs : List Char} (h : isDigit c = true) :
    readFloat? (if negative then '-' :: c :: cs else c :: cs) =
      (readScientific? (c :: cs)).map fun (digits, power) => nearest negative digits power := by
  have hne : ∀ d : Char, isDigit d = false → c ≠ d := by
    rintro d hd rfl
    exact absurd h (by rw [hd]; exact Bool.false_ne_true)
  have hsign : takeSign (if negative then '-' :: c :: cs else c :: cs) = (negative, c :: cs) := by
    cases negative with
    | true => rfl
    | false => exact takeSign_of_ne (hne '-' (by decide)) (hne '+' (by decide))
  rw [readFloat?, hsign]
  simp [toLower_of_isDigit h, hne 'i' (by decide), hne 'n' (by decide)]

/-- The body is read with its sign. -/
theorem readFloat?_body (negative : Bool) {bits : Nat} (h : bits ≤ infinityBits) :
    readFloat? (if negative then '-' :: body bits else body bits) =
      some (ofSignBits negative bits) := by
  rcases h.eq_or_lt with rfl | hfin
  · rw [body_infinity]
    cases negative <;> rfl
  · rcases bits.eq_zero_or_pos with rfl | hpos
    · rw [body_zero, readFloat?_of_isDigit negative (by decide)]
      rfl
    · obtain ⟨found, hread, hbits⟩ := exists_readScientific?_shortest hpos hfin
      obtain ⟨c, cs, hdigits, hc⟩ :=
        exists_positionalDigits_cons (shortest bits).1 (shortest bits).2
      rw [body_finite hpos hfin, hdigits, readFloat?_of_isDigit negative hc, ← hdigits, hread,
        Option.map_some]
      exact congrArg some (congrArg (ofSignBits negative) hbits)

theorem ofSignBits_of_nan {x : Float} (h : infinityBits < magnitude x) :
    ofSignBits false (infinityBits + 1 <<< 51) = x := by
  rw [ofSignBits, if_neg Bool.false_ne_true, ← toNat_toBits_of_nan x h, UInt64.ofNat_toNat,
    ofBits_toBits]

/-- **Printing loses nothing.**  Every double is read back from its text, the infinities, the negative
zero and what is no number included. -/
theorem readFloat?_positional (x : Float) : readFloat? (positional x).toList = some x := by
  by_cases hnan : infinityBits < magnitude x
  · rw [toList_positional_of_nan hnan]
    exact congrArg some (ofSignBits_of_nan hnan)
  · rw [toList_positional (not_lt.mp hnan), readFloat?_body _ (not_lt.mp hnan), ofSignBits_magnitude]

theorem positional_ne_nil (x : Float) : (positional x).toList ≠ [] := by
  intro hnil
  have hread := readFloat?_positional x
  rw [hnil] at hread
  exact absurd hread (Option.some_ne_none x).symm

/-! ### The characters of a printed double -/

theorem mem_body {bits : Nat} {c : Char} (h : c ∈ body bits) :
    isDigit c = true ∨ c ∈ ['.', 'i', 'n', 'f'] := by
  rw [body] at h
  split at h
  · exact Or.inr (List.mem_cons_of_mem _ h)
  · split at h
    · rw [List.mem_singleton.mp h]
      exact Or.inl rfl
    · rcases isDigit_or_point_of_mem h with h | rfl
      · exact Or.inl h
      · exact Or.inr List.mem_cons_self

theorem mem_positional {x : Float} (hx : magnitude x ≤ infinityBits) {c : Char}
    (h : c ∈ (positional x).toList) : isDigit c = true ∨ c ∈ ['-', '.', 'i', 'n', 'f'] := by
  rw [toList_positional hx] at h
  split at h
  · rcases List.mem_cons.mp h with rfl | h
    · exact Or.inr List.mem_cons_self
    · exact (mem_body h).imp_right (List.mem_cons_of_mem _)
  · exact (mem_body h).imp_right (List.mem_cons_of_mem _)

theorem map_toLower_positional {x : Float} (hx : magnitude x ≤ infinityBits) :
    (positional x).toList.map Char.toLower = (positional x).toList := by
  refine (List.map_congr_left fun c hc => ?_).trans (List.map_id _)
  rcases mem_positional hx hc with h | h
  · exact toLower_of_isDigit h
  · fin_cases h <;> rfl

/-- The only capitals are those of the word for what is no number. -/
theorem readFloat?_lower_positional (x : Float) :
    readFloat? ((positional x).toList.map Char.toLower) = some x := by
  by_cases hnan : infinityBits < magnitude x
  · rw [toList_positional_of_nan hnan]
    exact congrArg some (ofSignBits_of_nan hnan)
  · rw [map_toLower_positional (not_lt.mp hnan), readFloat?_positional]

/-! ## Printed counts -/

section Counts

variable {n bits : Nat}

theorem exactQuotient_fst_of_value (h : bitsValue bits = n) :
    0 < (exactQuotient bits).2 ∧ (exactQuotient bits).1 = n * (exactQuotient bits).2 := by
  have hden : 0 < (exactQuotient bits).2 := by
    rw [(log2_exactQuotient_snd bits).1]
    exact Nat.two_pow_pos _
  refine ⟨hden, ?_⟩
  have hvalue := (exactQuotient_eq bits).trans h
  rw [div_eq_iff (by exact_mod_cast hden.ne')] at hvalue
  exact_mod_cast hvalue

/-- The search starts above the grid of the whole numbers, and near enough. -/
theorem topPower_bounds (hpos : 0 < n) (hn : n < 2 ^ 32) (h : bitsValue bits = n) :
    0 ≤ topPower bits ∧ topPower bits < 24 := by
  obtain ⟨-, hnum⟩ := exactQuotient_fst_of_value h
  obtain ⟨hden, -⟩ := log2_exactQuotient_snd bits
  -- the denominator is a power of two, so the estimate is that of the count
  have hlog : (exactQuotient bits).1.log2 = n.log2 + (exactQuotient bits).2.log2 := by
    rw [hnum, hden, ← Nat.shiftLeft_eq, log2_shiftLeft hpos, Nat.log2_two_pow]
  have hsmall : n.log2 < 32 := (Nat.log2_lt hpos.ne').mpr hn
  rw [topPower, hlog]
  omega

/-- On the grid of the whole numbers the count itself has the bits. -/
theorem onGrid?_zero (hpos : 0 < n) (hbits : 0 < bits) (hfin : bits < infinityBits)
    (h : bitsValue bits = n) :
    onGrid? bits (exactQuotient bits).1 (exactQuotient bits).2 0 = some n := by
  obtain ⟨hden, hnum⟩ := exactQuotient_fst_of_value h
  have hnearest : nearestBits n 1 = bits :=
    nearestBits_of_value one_pos hbits hfin (by rw [Nat.cast_one, div_one, h])
  have hreads : scientificBits n 0 = bits := by
    rw [scientificBits_zero hpos (hnearest ▸ hfin), hnearest]
  rw [onGrid?, hnum]
  simp [tenTo_zero, Nat.mul_div_cancel _ hden, hreads, hden]

/-- The digits of a count are printed without a point. -/
theorem shortest_of_count (hpos : 0 < n) (hn : n < 2 ^ 32) (hbits : 0 < bits)
    (hfin : bits < infinityBits) (h : bitsValue bits = n) :
    0 ≤ (shortest bits).2 ∧ (shortest bits).1 * tenTo (shortest bits).2.toNat = n := by
  have hreads := scientificBits_shortest hbits hfin
  obtain ⟨htop, htop'⟩ := topPower_bounds hpos hn h
  obtain ⟨digits, power, hgrid, hpower⟩ :=
    exists_firstGrid? 24 (by rw [onGrid?_zero hpos hbits hfin h]; rfl) htop (by omega)
  have hshortest : shortest bits = (digits, power) := by
    rw [shortest_eq, hgrid, Option.getD_some]
  rw [hshortest] at hreads ⊢
  refine ⟨hpower, ?_⟩
  -- the digits with their zeros are a whole number that has the bits of the count, so they are it
  obtain ⟨hproduct, hnearest⟩ := nearestBits_mul_tenTo hpower hreads hbits hfin
  have hround := isRounded_of_nearestBits hproduct one_pos hnearest hfin
  rw [h, Nat.cast_one, div_one] at hround
  exact hround.eq_of_natCast (hn.trans (by norm_num))

/-- **Counts are printed as counts.**  The text of a whole number below `2 ^ 32` is made of digits, and
they are read as the number. -/
theorem positional_ofNat (hpos : 0 < n) (hn : n < 2 ^ 32) :
    (positional (Float.ofNat n)).toList ≠ [] ∧
      (∀ c ∈ (positional (Float.ofNat n)).toList, isDigit c = true) ∧
      digitsValue (positional (Float.ofNat n)).toList = n := by
  obtain ⟨hsign, hbits, hfin, hvalue⟩ := bitsValue_ofNat hpos (hn.trans (by norm_num))
  obtain ⟨hpower, hdigits⟩ := shortest_of_count hpos hn hbits hfin hvalue
  rw [toList_positional hfin.le, hsign, if_neg Bool.false_ne_true, body_finite hbits hfin]
  exact ⟨positionalDigits_ne_nil _ _, fun c => isDigit_of_mem_whole hpower,
    (digitsValue_positionalDigits hpower).trans hdigits⟩

theorem readNat?_positional_ofNat {bound : Nat} (hpos : 0 < n) (hn : n < 2 ^ 32) (hbound : n < bound) :
    readNat? bound (positional (Float.ofNat n)).toList = some n := by
  obtain ⟨hne, hall, hvalue⟩ := positional_ofNat hpos hn
  rw [readNat?_of_digits hne hall (hvalue.trans_lt hbound), hvalue]

end Counts

end WidgetStyle.Decimal
