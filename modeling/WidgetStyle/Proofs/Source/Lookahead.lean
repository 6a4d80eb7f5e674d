import WidgetStyle.Source.Lexeme

/-!
# WidgetStyle.Proofs.Source.Lookahead — what reading sees of the end of a text

Reading a lexeme looks ahead: an escape looks for the blank behind its digits, a number for an
exponent, a sign for a name behind it.  A semicolon or a closing curly bracket behind a text is seen as
if the text ended there, since no such run goes on in one of them.

For runs of characters this is a property of their extent (`Plain`), and numbers are put together of
such runs (`plain_numberExtent`).  Only a backslash at the end of a text tells the difference, as it
escapes the character that follows.
-/

namespace WidgetStyle.Source

open Text

/-! ## Stops -/

/-- How many characters the blank behind the digits of an escape has. -/
def blankAfterDigits : List Char → Nat
  | '\r' :: '\n' :: _ => 2
  | c :: _ => if isAsciiBlank c then 1 else 0
  | [] => 0

theorem escapeExtent_cons (c : Char) (cs : List Char) :
    escapeExtent (c :: cs) =
      if (escapeDigits (c :: cs)).length = 0 then 1
      else (escapeDigits (c :: cs)).length +
        blankAfterDigits ((c :: cs).drop (escapeDigits (c :: cs)).length) := by
  rw [escapeExtent]
  refine ite_congr rfl (fun _ => rfl) fun _ => ?_
  generalize (escapeDigits (c :: cs)).length = d
  split
  · next heq => rw [heq]; rfl
  · next hpair heq =>
      rw [heq, blankAfterDigits]
      · split <;> rfl
      · exact hpair
  · next heq => rw [heq]; rfl

/-- The characters that are lexemes wherever they are not inside of one, and end every name and
number. -/
def IsStop (c : Char) : Prop := c = ';' ∨ c = '}'

instance : DecidablePred IsStop := fun c => inferInstanceAs (Decidable (c = ';' ∨ c = '}'))

/-- A stop is no character of a class that has neither of them. -/
theorem IsStop.test_eq_false {s : Char} (hs : IsStop s) {test : Char → Bool}
    (hsemicolon : test ';' = false) (hcurly : test '}' = false) : test s = false := by
  rcases hs with rfl | rfl
  · exact hsemicolon
  · exact hcurly

/-! ## Looking ahead -/

theorem takeWhile_take_append {test : Char → Bool} {s : Char} (hs : test s = false)
    (m : Nat) (u v : List Char) :
    ((u ++ s :: v).take m).takeWhile test = (u.take m).takeWhile test := by
  induction u generalizing m with
  | nil => cases m <;> simp [hs]
  | cons c u ih => cases m <;> simp [List.takeWhile_cons, ih]

section

variable {s : Char} (hs : IsStop s)
include hs

theorem startsLine_append_stop (u v : List Char) : startsLine (u ++ s :: v) = startsLine u := by
  cases u with
  | nil => rcases hs with rfl | rfl <;> rfl
  | cons c u => rfl

theorem startsUnsigned_append_stop (u v : List Char) :
    startsUnsigned (u ++ s :: v) = startsUnsigned u := by
  cases u with
  | nil => rcases hs with rfl | rfl <;> rfl
  | cons c u =>
      by_cases hc : c = '.'
      · subst hc
        cases u with
        | nil => rcases hs with rfl | rfl <;> rfl
        | cons d u => rfl
      · simp [startsUnsigned, hc]

theorem startsNumber_append_stop (u v : List Char) :
    startsNumber (u ++ s :: v) = startsNumber u := by
  cases u with
  | nil => rcases hs with rfl | rfl <;> rfl
  | cons c u =>
      have hall := startsUnsigned_append_stop hs (c :: u) v
      rw [List.cons_append] at hall ⊢
      rw [startsNumber, startsNumber, startsUnsigned_append_stop hs, hall]

theorem startsName_append_stop (u v : List Char) : startsName (u ++ s :: v) = startsName u := by
  cases u with
  | nil => rcases hs with rfl | rfl <;> rfl
  | cons c u =>
      simp only [List.cons_append, startsName, startsLine_append_stop hs]
      cases u with
      | nil => rcases hs with rfl | rfl <;> rfl
      | cons d u => rfl

/-- A mark without stops stands in front of both texts or of none. -/
theorem isPrefixOf_append_stop {mark : List Char} (hmark : ∀ c ∈ mark, ¬IsStop c)
    (u v : List Char) : mark.isPrefixOf (u ++ s :: v) = mark.isPrefixOf u := by
  induction u generalizing mark with
  | nil =>
      cases mark with
      | nil => rfl
      | cons c mark =>
          have hc : (c == s) = false :=
            beq_eq_false_iff_ne.mpr fun hc => hmark c List.mem_cons_self (hc ▸ hs)
          simp [List.isPrefixOf, hc]
  | cons d u ih =>
      cases mark with
      | nil => rfl
      | cons c mark =>
          rw [List.cons_append, List.isPrefixOf, List.isPrefixOf,
            ih fun c hc => hmark c (List.mem_cons_of_mem _ hc)]

theorem head?_append_stop {c : Char} (hc : ¬IsStop c) (u v : List Char) :
    (u ++ s :: v).head? = some c ↔ u.head? = some c := by
  cases u with
  | nil =>
      refine iff_of_false (fun heq => hc ?_) (Option.some_ne_none c).symm
      rw [← Option.some.inj heq]
      exact hs
  | cons d u => rfl

/-- A character of a class that has no stops stands in front of both texts or of none. -/
theorem any_head?_append_stop {test : Char → Bool} (hsemicolon : test ';' = false)
    (hcurly : test '}' = false) (u v : List Char) :
    (u ++ s :: v).head?.any test = u.head?.any test := by
  cases u with
  | nil => exact hs.test_eq_false hsemicolon hcurly
  | cons c u => rfl

theorem escapeDigits_append_stop (u v : List Char) :
    escapeDigits (u ++ s :: v) = escapeDigits u :=
  takeWhile_take_append (hs.test_eq_false (by decide) (by decide)) 6 u v

theorem blankAfterDigits_append_stop (u v : List Char) :
    blankAfterDigits (u ++ s :: v) = blankAfterDigits u := by
  cases u with
  | nil => rcases hs with rfl | rfl <;> rfl
  | cons c u =>
      by_cases hc : c = '\r'
      · subst hc
        cases u with
        | nil => rcases hs with rfl | rfl <;> rfl
        | cons d u => by_cases hd : d = '\n' <;> simp [blankAfterDigits, hd]
      · simp [blankAfterDigits, hc]

theorem escapeExtent_append_stop {u : List Char} (hu : u ≠ []) (v : List Char) :
    escapeExtent (u ++ s :: v) = escapeExtent u := by
  obtain ⟨c, cs, rfl⟩ := List.exists_cons_of_ne_nil hu
  have hdigits := escapeDigits_append_stop hs (c :: cs) v
  have hle : (escapeDigits (c :: cs)).length ≤ (c :: cs).length :=
    ((List.takeWhile_sublist _).trans (List.take_sublist _ _)).length_le
  rw [List.cons_append] at hdigits ⊢
  rw [escapeExtent_cons, escapeExtent_cons, hdigits, ← List.cons_append,
    List.drop_append_of_le_length hle, blankAfterDigits_append_stop hs]

theorem newlineExtent_append_stop {u : List Char} (hu : u ≠ []) (v : List Char) :
    newlineExtent (u ++ s :: v) = newlineExtent u := by
  obtain ⟨c, cs, rfl⟩ := List.exists_cons_of_ne_nil hu
  by_cases hc : c = '\r'
  · subst hc
    cases cs with
    | nil => rcases hs with rfl | rfl <;> rfl
    | cons d cs => by_cases hd : d = '\n' <;> simp [newlineExtent, hd]
  · simp [newlineExtent, hc]

end

/-! ## Runs without a backslash -/

/-- What ends in front of a stop in any case, and has no backslash. -/
structure Plain (f : List Char → Nat) : Prop where
  le_length : ∀ u : List Char, f u ≤ u.length
  same : ∀ {s : Char}, IsStop s → ∀ u v : List Char, f (u ++ s :: v) = f u
  ne_backslash : ∀ u : List Char, ∀ c ∈ u.take (f u), c ≠ '\\'

/-- One after the other. -/
theorem Plain.seq {f g : List Char → Nat} (hf : Plain f) (hg : Plain g) :
    Plain fun u => f u + g (u.drop (f u)) where
  le_length u := by
    have hfirst := hf.le_length u
    have hsecond := hg.le_length (u.drop (f u))
    rw [List.length_drop] at hsecond
    show f u + g (u.drop (f u)) ≤ u.length
    omega
  same {s} hs u v := by
    show f (u ++ s :: v) + g ((u ++ s :: v).drop (f (u ++ s :: v))) = f u + g (u.drop (f u))
    rw [hf.same hs, List.drop_append_of_le_length (hf.le_length u), hg.same hs]
  ne_backslash u c hc := by
    have hmem : c ∈ u.take (f u + g (u.drop (f u))) := hc
    rw [List.take_add, List.mem_append] at hmem
    rcases hmem with hmem | hmem
    · exact hf.ne_backslash u c hmem
    · exact hg.ne_backslash _ c hmem

/-- A run of characters that stops and a backslash are not. -/
theorem plain_whileChar {test : Char → Bool} (hsemicolon : test ';' = false)
    (hcurly : test '}' = false) (hback : test '\\' = false) :
    Plain (extent (whileChar test) 0) where
  le_length := extent_le_length _ 0
  same {s} hs u v := by
    have htest : test s = false := hs.test_eq_false hsemicolon hcurly
    induction u with
    | nil => simp [extent, whileChar, htest]
    | cons c u ih =>
        rw [List.cons_append, extent, extent, whileChar, whileChar]
        cases test c with
        | false => rfl
        | true => exact congrArg (· + 1) ih
  ne_backslash u := by
    induction u with
    | nil => simp
    | cons c u ih =>
        rw [extent, whileChar]
        cases hc : test c with
        | false => simp
        | true =>
            have hne : c ≠ '\\' := by
              rintro rfl
              exact absurd (hback.symm.trans hc) Bool.false_ne_true
            exact List.forall_mem_cons.mpr ⟨hne, ih⟩

theorem plain_digitExtent : Plain digitExtent :=
  plain_whileChar (by decide) (by decide) (by decide)

/-- The blanks at the front of a text. -/
def blankExtent (cs : List Char) : Nat := extent (whileChar isAsciiBlank) 0 cs

theorem plain_blankExtent : Plain blankExtent :=
  plain_whileChar (by decide) (by decide) (by decide)

/-! ## Numbers -/

/-- The sign at the front of a text. -/
def signExtent : List Char → Nat
  | c :: _ => if c = '+' || c = '-' then 1 else 0
  | [] => 0

/-- The point and the digits behind it at the front of a text. -/
def fractionExtent : List Char → Nat
  | '.' :: more => if digitExtent more = 0 then 0 else 1 + digitExtent more
  | _ => 0

theorem plain_signExtent : Plain signExtent where
  le_length u := by
    cases u with
    | nil => exact Nat.le_refl _
    | cons c u => rw [signExtent]; split <;> simp
  same {s} hs u v := by
    cases u with
    | nil => rcases hs with rfl | rfl <;> rfl
    | cons c u => rfl
  ne_backslash u := by
    cases u with
    | nil => simp
    | cons c u =>
        rw [signExtent]
        split
        · next hc => rcases (by simpa using hc : c = '+' ∨ c = '-') with rfl | rfl <;> simp
        · simp

/-- A mark that is no backslash, and the digits behind it. -/
theorem ne_backslash_of_mem_take_digits {mark : Char} (hmark : mark ≠ '\\') (u : List Char) :
    ∀ c ∈ (mark :: u).take (1 + digitExtent u), c ≠ '\\' := by
  rw [Nat.add_comm, List.take_succ_cons]
  exact List.forall_mem_cons.mpr ⟨hmark, plain_digitExtent.ne_backslash u⟩

theorem plain_fractionExtent : Plain fractionExtent where
  le_length u := by
    have hdigits := plain_digitExtent.le_length
    unfold fractionExtent
    split
    · next more =>
        have := hdigits more
        rw [List.length_cons]
        split <;> omega
    · exact Nat.zero_le _
  same {s} hs u v := by
    cases u with
    | nil => rcases hs with rfl | rfl <;> rfl
    | cons c u =>
        by_cases hc : c = '.'
        · subst hc
          rw [List.cons_append, fractionExtent, fractionExtent, plain_digitExtent.same hs]
        · simp [fractionExtent, hc]
  ne_backslash u := by
    unfold fractionExtent
    split
    · split
      · simp
      · exact ne_backslash_of_mem_take_digits (by decide) _
    · simp

theorem plain_exponentExtent : Plain exponentExtent where
  le_length u := by
    unfold exponentExtent
    split
    · split
      · split
        · next c more =>
            have hall := plain_digitExtent.le_length (c :: more)
            have hmore := plain_digitExtent.le_length more
            simp only [List.length_cons] at hall ⊢
            split
            · omega
            · split <;> omega
        · exact Nat.zero_le _
      · exact Nat.zero_le _
    · exact Nat.zero_le _
  same {s} hs u v := by
    cases u with
    | nil => rcases hs with rfl | rfl <;> rfl
    | cons mark u =>
        cases u with
        | nil => rcases hs with rfl | rfl <;> simp [exponentExtent, isDecimalDigit]
        | cons c u =>
            have hall := plain_digitExtent.same hs (c :: u) v
            rw [List.cons_append] at hall
            simp only [List.cons_append, exponentExtent, hall, plain_digitExtent.same hs]
  ne_backslash u := by
    unfold exponentExtent
    split
    · next mark cs =>
        split
        · next hmark =>
            have hmark' : mark ≠ '\\' := by
              rintro rfl
              exact absurd hmark (by simp)
            split
            · next c more =>
                split
                · exact ne_backslash_of_mem_take_digits hmark' _
                · split
                  · next hsign =>
                      have hc : c ≠ '\\' := by
                        rintro rfl
                        exact absurd hsign (by simp)
                      have hdigits := ne_backslash_of_mem_take_digits hc more
                      rw [show 2 + digitExtent more = 1 + digitExtent more + 1 by omega,
                        List.take_succ_cons]
                      exact List.forall_mem_cons.mpr ⟨hmark', hdigits⟩
                  · simp
            · simp
        · simp
    · simp

theorem plain_numberExtent : Plain numberExtent :=
  ((plain_signExtent.seq plain_digitExtent).seq plain_fractionExtent).seq plain_exponentExtent

end WidgetStyle.Source
