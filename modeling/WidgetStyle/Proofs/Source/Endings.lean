import Mathlib.Data.List.TakeWhile
import WidgetStyle.Proofs.Source.Leading

/-!
# WidgetStyle.Proofs.Source.Endings — a stop behind a text

A text can end inside a lexeme: in a comment or a string that is not closed, in an address without
its parenthesis, behind a backslash.  What is put behind such a text goes into that lexeme.  For all
other texts a semicolon or a closing curly bracket that follows is a lexeme of its own and changes none
of theirs (`lexemes_append_stop`).

Reading looks ahead, so this is to be shown of every lexeme of the text and not only of the last: no
run of characters tells the end of the text from a stop, except where a backslash looks for the
character that it escapes.
-/

namespace WidgetStyle.Source

open Text

/-! ## What is open at the end of a text -/

/-- Whether a text ends in a backslash that escapes nothing, when each backslash takes the character
behind it. -/
def endsInEscape : List Char → Bool
  | [] => false
  | c :: cs =>
    if c = '\\' then
      match cs with
      | [] => true
      | _ :: more => endsInEscape more
    else endsInEscape cs

/-- The characters of an unquoted address with the blanks behind it. -/
def paddedExtent (cs : List Char) : Nat :=
  extent addressStep 0 cs + blankExtent (cs.drop (extent addressStep 0 cs))

/-- Whether an unquoted address goes on to the end of the text without its parenthesis. -/
def unquotedIsOpen (cs : List Char) : Bool :=
  match cs.drop (paddedExtent cs) with
  | [] => true
  | c :: broken => c ≠ ')' && extent brokenAddressStep 0 broken = broken.length

/-- Whether a lexeme at the end of a text is still open there: a comment, a string or an address that
is not closed, or anything else that ends in the beginning of an escape. -/
def Lexeme.isOpen (x : Lexeme) : Bool :=
  match x.kind with
  | .comment => extent commentStep 0 (x.text.drop 2) = (x.text.drop 2).length
  | .string =>
    match x.text with
    | quote :: cs => extent (stringStep quote) 0 cs = cs.length
    | [] => false
  | .address | .brokenAddress =>
    let address := x.text.drop (nameExtent x.text + 1)
    unquotedIsOpen (address.drop (blankExtent address))
  | _ => endsInEscape x.text

/-! ## Escapes -/

theorem endsInEscape_cons {c : Char} (hc : c ≠ '\\') (cs : List Char) :
    endsInEscape (c :: cs) = endsInEscape cs := by
  cases cs <;> simp [endsInEscape, hc]

theorem endsInEscape_backslash (c : Char) (cs : List Char) :
    endsInEscape ('\\' :: c :: cs) = endsInEscape cs := by
  rw [endsInEscape, if_pos rfl]

/-- Characters that are no backslash can be dropped. -/
theorem endsInEscape_drop {n : Nat} {cs : List Char} (h : ∀ c ∈ cs.take n, c ≠ '\\') :
    endsInEscape (cs.drop n) = endsInEscape cs := by
  induction cs generalizing n with
  | nil => rw [List.drop_nil]
  | cons c cs ih =>
      cases n with
      | zero => rfl
      | succ n =>
          rw [List.take_succ_cons, List.forall_mem_cons] at h
          rw [List.drop_succ_cons, ih h.2, endsInEscape_cons h.1]

section

variable {c s : Char} {u : List Char}

/-! ## Runs -/

/-- A step that tells the end of the text from a stop at a backslash only, and there only by how far it
goes. -/
structure Steady (step : Char → List Char → Option Nat) : Prop where
  same : ∀ {s}, IsStop s → ∀ {c u}, (u = [] → c ≠ '\\') → ∀ v, step c (u ++ s :: v) = step c u
  stops : ∀ {s}, IsStop s → ∀ {c}, step c [] = none → ∀ v, step c (s :: v) = none

theorem steady_nameStep : Steady nameStep where
  same {s} hs {c u} h v := by
    rw [nameStep, nameStep, startsLine_append_stop hs]
    refine ite_congr rfl (fun _ => rfl) fun _ => ite_congr rfl (fun hc => ?_) fun _ => rfl
    have hback : c = '\\' := by
      rw [Bool.and_eq_true, decide_eq_true_iff] at hc
      exact hc.1
    rw [escapeExtent_append_stop hs (fun hu => h hu hback)]
  stops {s} hs {c} h v := by
    simp only [nameStep] at h ⊢
    split at h
    · cases h
    · split at h
      · cases h
      · next hname hback =>
          rw [← startsLine_append_stop hs [] v] at hback
          rw [if_neg hname]
          exact if_neg hback

theorem steady_stringStep (quote : Char) : Steady (stringStep quote) where
  same {s} hs {c u} h v := by
    rw [stringStep, stringStep, startsLine_append_stop hs]
    refine ite_congr rfl (fun _ => rfl) fun _ => ite_congr rfl (fun hc => ?_) fun _ => rfl
    have hu : u ≠ [] := fun hu => h hu hc
    rw [escapeExtent_append_stop hs hu, newlineExtent_append_stop hs hu]
  stops {s} hs {c} h v := by
    simp only [stringStep] at h ⊢
    split at h
    · next hend => rw [if_pos hend]
    · split at h <;> cases h

theorem steady_commentStep : Steady commentStep where
  same {s} hs {c u} _ v := by
    cases u with
    | nil => rcases hs with rfl | rfl <;> simp [commentStep]
    | cons d u => rfl
  stops {s} hs {c} h v := by
    simp [commentStep] at h

theorem steady_addressStep : Steady addressStep where
  same {s} hs {c u} h v := by
    rw [addressStep, addressStep, startsLine_append_stop hs]
    refine ite_congr rfl (fun _ => rfl) fun _ => ite_congr rfl (fun hc => ?_) fun _ => rfl
    rw [escapeExtent_append_stop hs (fun hu => h hu hc)]
  stops {s} hs {c} h v := by
    simp only [addressStep] at h ⊢
    split at h
    · next hend => rw [if_pos hend]
    · split at h <;> cases h

theorem steady_brokenAddressStep : Steady brokenAddressStep where
  same {s} hs {c u} _ v := by
    cases u with
    | nil => rcases hs with rfl | rfl <;> simp [brokenAddressStep]
    | cons d u => rfl
  stops {s} hs {c} h v := by
    simp only [brokenAddressStep] at h ⊢
    split at h
    · next hend => rw [if_pos hend]
    · split at h <;> cases h

/-- A run that ends inside the text ends at the same place when a stop follows the text. -/
theorem Steady.extent_append {step : Char → List Char → Option Nat} (h : Steady step)
    (hs : IsStop s) {k : Nat} (hlt : extent step k u < u.length) (v : List Char) :
    extent step k (u ++ s :: v) = extent step k u := by
  induction u generalizing k with
  | nil => exact absurd hlt (Nat.not_lt_zero _)
  | cons c u ih =>
      cases k with
      | succ k =>
          rw [extent, List.length_cons] at hlt
          rw [List.cons_append, extent, extent, ih (by omega)]
      | zero =>
          rw [extent] at hlt
          rw [List.cons_append, extent, extent]
          cases hstep : step c u with
          | none =>
              have hnone : step c (u ++ s :: v) = none := by
                by_cases hu : u = []
                · subst hu
                  exact h.stops hs hstep v
                · rw [h.same hs (fun hnil => absurd hnil hu), hstep]
              rw [hnone]
          | some k =>
              rw [hstep, List.length_cons] at hlt
              have hlt' : extent step k u < u.length := by simpa using hlt
              have hu : u ≠ [] := by
                rintro rfl
                exact absurd hlt' (Nat.not_lt_zero _)
              rw [h.same hs (fun hnil => absurd hnil hu), hstep]
              exact congrArg (· + 1) (ih hlt')

/-- Where a run ends inside the text, its step stops. -/
theorem exists_drop_extent_of_lt {step : Char → List Char → Option Nat} {k : Nat}
    (hlt : extent step k u < u.length) :
    ∃ c cs, u.drop (extent step k u) = c :: cs ∧ step c cs = none := by
  induction u generalizing k with
  | nil => exact absurd hlt (Nat.not_lt_zero _)
  | cons c u ih =>
      cases k with
      | succ k =>
          rw [extent, List.length_cons] at hlt
          exact ih (Nat.lt_of_succ_lt_succ hlt)
      | zero =>
          rw [extent] at hlt ⊢
          cases hstep : step c u with
          | none => exact ⟨c, u, rfl, hstep⟩
          | some k =>
              rw [hstep, List.length_cons] at hlt
              exact ih (Nat.lt_of_succ_lt_succ hlt)

/-- Characters that are promised to a run are a part of it. -/
theorem extent_eq_add {step : Char → List Char → Option Nat} {k : Nat} (hk : k ≤ u.length) :
    extent step k u = k + extent step 0 (u.drop k) := by
  induction u generalizing k with
  | nil =>
      obtain rfl := Nat.le_zero.mp hk
      simp [extent]
  | cons c u ih =>
      cases k with
      | zero => simp
      | succ k =>
          rw [extent, ih (Nat.le_of_succ_le_succ hk), List.drop_succ_cons]
          omega

/-- How many characters the blank behind the digits of an escape has at most, and what they are. -/
theorem isAsciiBlank_of_mem_take_blankAfterDigits {cs : List Char} :
    ∀ c ∈ cs.take (blankAfterDigits cs), isAsciiBlank c = true := by
  unfold blankAfterDigits
  split
  · intro c hc
    simp only [List.take_succ_cons, List.take_zero, List.mem_cons, List.not_mem_nil, or_false] at hc
    rcases hc with rfl | rfl <;> decide
  · split
    · next hblank =>
        intro c hc
        rw [List.take_succ_cons, List.take_zero, List.mem_singleton] at hc
        rw [hc]
        exact hblank
    · intro c hc
      exact absurd hc List.not_mem_nil
  · intro c hc
    exact absurd hc List.not_mem_nil

/-- The characters of an escape with digits are hexadecimal digits and blanks. -/
theorem isHexDigit_or_isAsciiBlank_of_mem_escape {cs : List Char}
    (hdigits : (escapeDigits cs).length ≠ 0) :
    ∀ d ∈ cs.take (escapeExtent cs), isHexDigit d = true ∨ isAsciiBlank d = true := by
  cases cs with
  | nil => exact fun d hd => absurd hd List.not_mem_nil
  | cons c cs =>
      have hprefix : escapeDigits (c :: cs) <+: c :: cs :=
        (List.takeWhile_prefix _).trans (List.take_prefix _ _)
      rw [escapeExtent_cons, if_neg hdigits, List.take_add, ← List.prefix_iff_eq_take.mp hprefix]
      intro d hd
      rcases List.mem_append.mp hd with hd | hd
      · exact Or.inl (List.mem_takeWhile_imp hd)
      · exact Or.inr (isAsciiBlank_of_mem_take_blankAfterDigits d hd)

theorem escapeExtent_pos (c : Char) (cs : List Char) : 0 < escapeExtent (c :: cs) := by
  rw [escapeExtent_cons]
  split
  · exact Nat.one_pos
  · omega

/-- The characters of an escape behind its first one are no backslashes. -/
theorem ne_backslash_of_mem_take_escapeExtent (c : Char) (cs : List Char) :
    ∀ d ∈ cs.take (escapeExtent (c :: cs) - 1), d ≠ '\\' := by
  intro d hd
  by_cases hdigits : (escapeDigits (c :: cs)).length = 0
  · rw [escapeExtent_cons, if_pos hdigits] at hd
    exact absurd hd List.not_mem_nil
  · have hmem : d ∈ (c :: cs).take (escapeExtent (c :: cs)) := by
      rw [← Nat.succ_pred_eq_of_pos (escapeExtent_pos c cs), List.take_succ_cons]
      exact List.mem_cons_of_mem _ hd
    rintro rfl
    rcases isHexDigit_or_isAsciiBlank_of_mem_escape hdigits _ hmem with hhex | hblank
    · exact absurd hhex (by decide)
    · exact absurd hblank (by decide)

/-! ## Names -/

theorem escapeExtent_le_length (cs : List Char) : escapeExtent cs ≤ cs.length := by
  cases cs with
  | nil => exact Nat.le_refl _
  | cons c cs =>
      have hdigits : (escapeDigits (c :: cs)).length ≤ (c :: cs).length :=
        ((List.takeWhile_sublist _).trans (List.take_sublist _ _)).length_le
      have hblank : ∀ more, blankAfterDigits more ≤ more.length := by
        intro more
        unfold blankAfterDigits
        split
        · simp
        · split <;> simp
        · exact Nat.le_refl _
      have hmore := hblank ((c :: cs).drop (escapeDigits (c :: cs)).length)
      rw [List.length_drop] at hmore
      rw [escapeExtent_cons]
      split
      · simp
      · omega

/-- What follows an escape ends in an escape if the text does. -/
theorem endsInEscape_drop_escapeExtent {c : Char} {cs : List Char} :
    endsInEscape ((c :: cs).drop (escapeExtent (c :: cs))) = endsInEscape ('\\' :: c :: cs) := by
  obtain ⟨n, hn⟩ := Nat.exists_eq_succ_of_ne_zero (escapeExtent_pos c cs).ne'
  have hplain := ne_backslash_of_mem_take_escapeExtent c cs
  rw [hn, Nat.succ_sub_one] at hplain
  rw [hn, List.drop_succ_cons, endsInEscape_drop hplain, endsInEscape_backslash]

/-- A step inside a name ends within the text, and leaves no escape open that was not. -/
theorem endsInEscape_drop_nameStep {c : Char} {k : Nat} (hstep : nameStep c u = some k)
    (h : endsInEscape (c :: u) = false) : k ≤ u.length ∧ endsInEscape (u.drop k) = false := by
  simp only [nameStep] at hstep
  split at hstep
  · next hname =>
      obtain rfl := Option.some.inj hstep
      have hc : c ≠ '\\' := by
        rintro rfl
        exact absurd hname (by decide)
      exact ⟨Nat.zero_le _, (endsInEscape_cons hc u).symm.trans h⟩
  · split at hstep
    · next hback =>
        obtain rfl := Option.some.inj hstep
        rw [Bool.and_eq_true, decide_eq_true_iff] at hback
        rw [hback.1] at h
        cases u with
        | nil => exact absurd h (by decide)
        | cons d u => exact ⟨escapeExtent_le_length _, endsInEscape_drop_escapeExtent.trans h⟩
    · cases hstep

/-- A name that is not open at the end of the text stays when a stop follows. -/
theorem nameExtent_append_stop (hs : IsStop s) (h : endsInEscape u = false) (v : List Char) :
    nameExtent (u ++ s :: v) = nameExtent u := by
  induction hn : u.length using Nat.strongRecOn generalizing u with
  | ind n ih =>
      subst hn
      cases u with
      | nil => rcases hs with rfl | rfl <;> rfl
      | cons c u =>
          have hsame : nameStep c (u ++ s :: v) = nameStep c u := by
            refine steady_nameStep.same hs (fun hu => ?_) v
            rintro rfl
            rw [hu] at h
            exact absurd h (by decide)
          rw [nameExtent, nameExtent, List.cons_append, extent, extent, hsame]
          cases hstep : nameStep c u with
          | none => rfl
          | some k =>
              have hk := endsInEscape_drop_nameStep hstep h
              have hshorter : (u.drop k).length < (c :: u).length := by
                rw [List.length_drop, List.length_cons]
                omega
              have hrest := ih (u.drop k).length hshorter hk.2 rfl
              have hle : k ≤ (u ++ s :: v).length := by
                rw [List.length_append]
                omega
              show extent nameStep k (u ++ s :: v) + 1 = extent nameStep k u + 1
              rw [extent_eq_add hle, extent_eq_add hk.1, List.drop_append_of_le_length hk.1]
              exact congrArg (k + · + 1) hrest

/-! ## Lexemes of more than one character -/

/-- The lexeme `x` at the front of the text `w` is the lexeme `x'` as well, if it ends in front of
the end of the text or is not open there. -/
def Kept (w : List Char) (x x' : Kind × Nat) : Prop :=
  x.2 < w.length ∨ Lexeme.isOpen ⟨x.1, w⟩ = false → x' = x ∧ x.2 ≤ w.length

/-- What is kept in every case is kept. -/
theorem ite_kept {test : Prop} [Decidable test] {w : List Char} {x x' y y' : Kind × Nat}
    (hx : test → Kept w x x') (hy : Kept w y y') :
    Kept w (if test then x else y) (if test then x' else y') := by
  split
  · next htest => exact hx htest
  · exact hy

/-- A name behind some characters without a backslash. -/
theorem kept_nameExtent (kind : Kind) (hkind : ∀ w, Lexeme.isOpen ⟨kind, w⟩ = endsInEscape w)
    {front : List Char} (hfront : ∀ c ∈ front, c ≠ '\\') (hs : IsStop s) (u v : List Char) :
    Kept (front ++ u) (kind, front.length + nameExtent u)
      (kind, front.length + nameExtent (u ++ s :: v)) := by
  intro h
  have hle : nameExtent u ≤ u.length := extent_le_length _ _ _
  have hname : nameExtent (u ++ s :: v) = nameExtent u := by
    rcases h with hlt | hopen
    · rw [List.length_append] at hlt
      exact steady_nameStep.extent_append hs (Nat.lt_of_add_lt_add_left hlt) v
    · refine nameExtent_append_stop hs ?_ v
      rw [hkind, ← endsInEscape_drop (n := front.length) (by simpa using hfront)] at hopen
      simpa using hopen
  refine ⟨by rw [hname], ?_⟩
  rw [List.length_append]
  exact Nat.add_le_add_left hle _

theorem kept_numberLexeme (hs : IsStop s) (w v : List Char) :
    Kept w (numberLexeme w) (numberLexeme (w ++ s :: v)) := by
  have hnumber := plain_numberExtent.le_length w
  rw [numberLexeme_eq_unit, numberLexeme_eq_unit, plain_numberExtent.same hs,
    List.drop_append_of_le_length hnumber]
  have hfront := plain_numberExtent.ne_backslash w
  have hw : w = w.take (numberExtent w) ++ w.drop (numberExtent w) :=
    (List.take_append_drop _ _).symm
  have hlength : (w.take (numberExtent w)).length = numberExtent w := List.length_take_of_le hnumber
  generalize w.take (numberExtent w) = front at hfront hw hlength
  generalize w.drop (numberExtent w) = u at hw ⊢
  rw [← hlength, hw, unitExtent, unitExtent, startsName_append_stop hs]
  simp only [head?_append_stop hs (show ¬IsStop '%' by decide)]
  split
  · next hpercent =>
      obtain ⟨more, rfl⟩ := List.head?_eq_some_iff.mp hpercent
      exact fun _ => ⟨rfl, by simp⟩
  · split
    · exact kept_nameExtent .number (fun _ => rfl) hfront hs u v
    · exact fun _ => ⟨rfl, by simp⟩

theorem kept_stringLexeme (quote : Char) (hs : IsStop s) (u v : List Char) :
    Kept (quote :: u) (stringLexeme quote u) (stringLexeme quote (u ++ s :: v)) := by
  intro h
  have hle : extent (stringStep quote) 0 u ≤ u.length := extent_le_length _ _ _
  have hlt : extent (stringStep quote) 0 u < u.length := by
    refine Nat.lt_of_le_of_ne hle fun hall => ?_
    -- A string that goes on to the end of the text is open.
    rw [stringLexeme, hall, List.drop_length] at h
    rcases h with h | h
    · exact absurd h (Nat.lt_irrefl _)
    · simp [Lexeme.isOpen, hall] at h
  rw [stringLexeme, stringLexeme, (steady_stringStep quote).extent_append hs hlt,
    List.drop_append_of_le_length hle, List.drop_eq_getElem_cons hlt, List.cons_append]
  refine ⟨rfl, ?_⟩
  simp only [List.length_cons]
  split <;> simp only <;> omega

theorem kept_comment (hs : IsStop s) (u v : List Char) :
    Kept ('/' :: '*' :: u) (.comment, 2 + extent commentStep 0 u + 2)
      (.comment, 2 + extent commentStep 0 (u ++ s :: v) + 2) := by
  intro h
  have hle : extent commentStep 0 u ≤ u.length := extent_le_length _ _ _
  have hlt : extent commentStep 0 u < u.length := by
    refine Nat.lt_of_le_of_ne hle fun hall => ?_
    rcases h with h | h
    · simp only [List.length_cons] at h
      omega
    · simp [Lexeme.isOpen, hall] at h
  refine ⟨by rw [steady_commentStep.extent_append hs hlt], ?_⟩
  -- Behind the end of the run stands `*/`.
  obtain ⟨c, cs, hdrop, hstep⟩ := exists_drop_extent_of_lt hlt
  have hslash : cs.head? = some '/' := by
    rw [commentStep] at hstep
    split at hstep
    · next hend => exact (by simpa using hend : c = '*' ∧ cs.head? = some '/').2
    · cases hstep
  obtain ⟨more, rfl⟩ := List.head?_eq_some_iff.mp hslash
  have hlength := congrArg List.length hdrop
  simp only [List.length_drop, List.length_cons] at hlength ⊢
  omega

/-! ## Addresses -/

theorem unquotedExtent_eq_padded (u : List Char) :
    unquotedExtent u =
      match u.drop (paddedExtent u) with
      | [] => (true, paddedExtent u)
      | d :: more =>
        if d = ')' then (true, paddedExtent u + 1)
        else (false, paddedExtent u + 1 + brokenAddressExtent more) := rfl

theorem paddedExtent_le_length (u : List Char) : paddedExtent u ≤ u.length := by
  have hbody : extent addressStep 0 u ≤ u.length := extent_le_length _ _ _
  have hgap := plain_blankExtent.le_length (u.drop (extent addressStep 0 u))
  rw [List.length_drop] at hgap
  rw [paddedExtent]
  omega

theorem paddedExtent_append_stop (hs : IsStop s) (hlt : paddedExtent u < u.length) (v : List Char) :
    paddedExtent (u ++ s :: v) = paddedExtent u := by
  have hbody : extent addressStep 0 u < u.length := Nat.lt_of_le_of_lt (Nat.le_add_right _ _) hlt
  rw [paddedExtent, paddedExtent, steady_addressStep.extent_append hs hbody,
    List.drop_append_of_le_length (Nat.le_of_lt hbody), plain_blankExtent.same hs]

theorem brokenAddressExtent_le_length (u : List Char) : brokenAddressExtent u ≤ u.length := by
  have hle : extent brokenAddressStep 0 u ≤ u.length := extent_le_length _ _ _
  rw [brokenAddressExtent]
  split
  · exact hle
  · next hrest =>
      rw [List.isEmpty_iff, List.drop_eq_nil_iff] at hrest
      omega

theorem brokenAddressExtent_append_stop (hs : IsStop s)
    (hlt : extent brokenAddressStep 0 u < u.length) (v : List Char) :
    brokenAddressExtent (u ++ s :: v) = brokenAddressExtent u := by
  rw [brokenAddressExtent, brokenAddressExtent, steady_brokenAddressStep.extent_append hs hlt,
    List.drop_append_of_le_length (Nat.le_of_lt hlt), List.drop_eq_getElem_cons hlt]
  rfl

/-- An unquoted address that is not open stays when a stop follows; one that is open goes on to
the end of the text. -/
theorem unquotedExtent_append_stop (hs : IsStop s) (u v : List Char) :
    if unquotedIsOpen u then (unquotedExtent u).2 = u.length
    else unquotedExtent (u ++ s :: v) = unquotedExtent u ∧ (unquotedExtent u).2 ≤ u.length := by
  have hle := paddedExtent_le_length u
  rw [unquotedIsOpen, unquotedExtent_eq_padded, unquotedExtent_eq_padded]
  cases hrest : u.drop (paddedExtent u) with
  | nil =>
      have hall := List.drop_eq_nil_iff.mp hrest
      exact Nat.le_antisymm hle hall
  | cons d more =>
      have hlength := congrArg List.length hrest
      rw [List.length_drop, List.length_cons] at hlength
      rw [paddedExtent_append_stop hs (by omega), List.drop_append_of_le_length hle, hrest,
        List.cons_append]
      by_cases hd : d = ')'
      · subst hd
        exact ⟨rfl, by simp only [if_true]; omega⟩
      · have hbroken := brokenAddressExtent_le_length more
        have hrun : extent brokenAddressStep 0 more ≤ more.length := extent_le_length _ _ _
        by_cases hall : extent brokenAddressStep 0 more = more.length
        · have hend : brokenAddressExtent more = more.length := by
            rw [brokenAddressExtent, hall, List.drop_length]
            rfl
          simp only [hd, hall, ne_eq, not_false_eq_true, decide_true, Bool.and_self, if_true,
            if_false, hend]
          omega
        · simp only [hd, hall, decide_false, Bool.and_false, Bool.false_eq_true, if_false,
            brokenAddressExtent_append_stop hs (Nat.lt_of_le_of_ne hrun hall), true_and]
          omega

/-- An address, or a function with a quoted one, after the name and the parenthesis. -/
theorem kept_addressExtent? (hs : IsStop s) {w u : List Char}
    (hw : w.drop (nameExtent w) = '(' :: u) (v : List Char) :
    Kept w
      (match addressExtent? u with
        | some (wellFormed, k) =>
          (if wellFormed then .address else .brokenAddress, nameExtent w + 1 + k)
        | none => (.function, nameExtent w + 1))
      (match addressExtent? (u ++ s :: v) with
        | some (wellFormed, k) =>
          (if wellFormed then .address else .brokenAddress, nameExtent w + 1 + k)
        | none => (.function, nameExtent w + 1)) := by
  have hlength := congrArg List.length hw
  rw [List.length_drop, List.length_cons] at hlength
  have hblank := plain_blankExtent.le_length u
  have haddress : w.drop (nameExtent w + 1) = u := by
    rw [← List.drop_drop, hw]
    rfl
  have hlength' : (u.drop (blankExtent u)).length = u.length - blankExtent u := List.length_drop
  rw [addressExtent?_eq_unquoted, addressExtent?_eq_unquoted, plain_blankExtent.same hs,
    List.drop_append_of_le_length hblank, any_head?_append_stop hs (by decide) (by decide)]
  cases hquote : (u.drop (blankExtent u)).head?.any isQuote with
  | true => exact fun _ => ⟨rfl, show nameExtent w + 1 ≤ w.length by omega⟩
  | false =>
      have haddress' := unquotedExtent_append_stop hs (u.drop (blankExtent u)) v
      intro h
      simp only [Bool.false_eq_true, if_false] at h ⊢
      cases hopen : unquotedIsOpen (u.drop (blankExtent u)) with
      | true =>
          rw [hopen, if_pos rfl] at haddress'
          have hkind : ∀ b : Bool, Lexeme.isOpen ⟨if b then .address else .brokenAddress, w⟩ = true :=
            fun b => by cases b <;> simp [Lexeme.isOpen, haddress, hopen]
          rcases h with h | h
          · omega
          · rw [hkind] at h
            exact absurd h.symm Bool.false_ne_true
      | false =>
          rw [hopen, if_neg Bool.false_ne_true] at haddress'
          rw [haddress'.1]
          exact ⟨rfl, by omega⟩

theorem kept_nameLexeme (hs : IsStop s) (w v : List Char) :
    Kept w (nameLexeme w) (nameLexeme (w ++ s :: v)) := by
  have hle : nameExtent w ≤ w.length := extent_le_length _ _ _
  cases hrest : w.drop (nameExtent w) with
  | nil =>
      have hall : nameExtent w = w.length := Nat.le_antisymm hle (List.drop_eq_nil_iff.mp hrest)
      have hname : nameLexeme w = (.name, nameExtent w) := by rw [nameLexeme, hrest]
      have hkept := kept_nameExtent .name (fun _ => rfl) (List.forall_mem_nil _) hs w v
      rw [List.nil_append, List.length_nil, Nat.zero_add, Nat.zero_add, ← hname] at hkept
      intro h
      obtain ⟨heq, hkept⟩ := hkept h
      have hextent : nameExtent (w ++ s :: v) = w.length := by
        rw [hname, hall] at heq
        exact (Prod.mk.inj heq).2
      refine ⟨?_, hkept⟩
      rw [hname, hall, nameLexeme, hextent, List.drop_left]
      rcases hs with rfl | rfl <;> rfl
  | cons d more =>
      have hlength := congrArg List.length hrest
      rw [List.length_drop, List.length_cons] at hlength
      have hlt : extent nameStep 0 w < w.length := by
        change nameExtent w < w.length
        omega
      have hextent : nameExtent (w ++ s :: v) = nameExtent w := steady_nameStep.extent_append hs hlt v
      rw [nameLexeme, nameLexeme, hextent, List.drop_append_of_le_length hle, hrest, List.cons_append,
        List.take_append_of_le_length hle]
      by_cases hd : d = '('
      · subst hd
        exact ite_kept (fun _ => kept_addressExtent? hs hrest v) fun _ => ⟨rfl, hlt⟩
      · intro _
        simp [hd, hle]

/-- **One lexeme.**  A lexeme that ends in front of the end of the text, or is not open there, stays
when a stop follows the text. -/
theorem kept_measure (c : Char) (hs : IsStop s) (u v : List Char) :
    Kept (c :: u) (measure c u) (measure c (u ++ s :: v)) := by
  have hnumber : startsNumber (c :: (u ++ s :: v)) = startsNumber (c :: u) :=
    startsNumber_append_stop hs (c :: u) v
  have hname : startsName (c :: (u ++ s :: v)) = startsName (c :: u) :=
    startsName_append_stop hs (c :: u) v
  have hclose : ['-', '>'].isPrefixOf (u ++ s :: v) = ['-', '>'].isPrefixOf u :=
    isPrefixOf_append_stop hs (by simp [IsStop]) u v
  have hopen : ['!', '-', '-'].isPrefixOf (u ++ s :: v) = ['!', '-', '-'].isPrefixOf u :=
    isPrefixOf_append_stop hs (by simp [IsStop]) u v
  have hhash : ((u ++ s :: v).head?.any fun d => isDecimalDigit d || d == '-') =
      u.head?.any fun d => isDecimalDigit d || d == '-' :=
    any_head?_append_stop hs (by decide) (by decide) u v
  have hcomment := head?_append_stop hs (show ¬IsStop '*' by decide) u v
  have hmark : ∀ {kind : Kind} {mark : Char}, (∀ w, Lexeme.isOpen ⟨kind, w⟩ = endsInEscape w) →
      mark ≠ '\\' →
      Kept (mark :: u) (kind, 1 + nameExtent u) (kind, 1 + nameExtent (u ++ s :: v)) :=
    fun hkind hback => kept_nameExtent _ hkind (List.forall_mem_singleton.mpr hback) hs u v
  rw [measure, measure, hnumber, hname, hclose, hopen, hhash, startsName_append_stop hs]
  simp only [hcomment]
  refine ite_kept (fun _ _ => ?blank) (ite_kept (fun _ => kept_stringLexeme c hs u v) (ite_kept
    (fun _ => kept_numberLexeme hs (c :: u) v) (ite_kept (fun hc _ => ⟨rfl, ?markupClose⟩) (ite_kept
    (fun _ => kept_nameLexeme hs (c :: u) v) (ite_kept (fun hc => ?hash) (ite_kept (fun hc => ?hash')
    (ite_kept (fun hc => ?comment) (ite_kept (fun hc => ?atName) (ite_kept
    (fun hc _ => ⟨rfl, ?markupOpen⟩) fun _ => ⟨rfl, Nat.succ_pos _⟩)))))))))
  case blank =>
    have hblank := plain_blankExtent.le_length u
    refine ⟨congrArg (fun k => (Kind.blank, 1 + k)) (plain_blankExtent.same hs u v), ?_⟩
    show 1 + blankExtent u ≤ u.length + 1
    omega
  case hash | hash' =>
    obtain ⟨rfl, -⟩ := (by simpa using hc : c = '#' ∧ _)
    exact hmark (fun _ => rfl) (by decide)
  case atName =>
    obtain ⟨rfl, -⟩ := (by simpa using hc : c = '@' ∧ _)
    exact hmark (fun _ => rfl) (by decide)
  case comment =>
    obtain ⟨rfl, hstar⟩ := (by simpa using hc : c = '/' ∧ u.head? = some '*')
    obtain ⟨more, rfl⟩ := List.head?_eq_some_iff.mp hstar
    exact kept_comment hs more v
  case markupClose =>
    have hlength := (by simpa using hc : c = '-' ∧ ['-', '>'] <+: u).2.length_le
    simpa using hlength
  case markupOpen =>
    have hlength := (by simpa using hc : c = '<' ∧ ['!', '-', '-'] <+: u).2.length_le
    simpa using hlength

/-! ## All lexemes -/

/-- The lexeme at the front of a text stays when a stop follows the text, unless it is the last
and open. -/
theorem firstLexeme_append_stop (hs : IsStop s)
    (h : ∀ x ∈ (lexemes (c :: u)).getLast?, x.isOpen = false) (v : List Char) :
    firstLexeme c (u ++ s :: v) = firstLexeme c u := by
  have hends : (measure c u).2 < (c :: u).length ∨
      Lexeme.isOpen ⟨(measure c u).1, c :: u⟩ = false := by
    by_cases hlt : (measure c u).2 < (c :: u).length
    · exact Or.inl hlt
    · -- A lexeme that goes on to the end of the text is the last.
      have hfirst : firstLexeme c u = ⟨(measure c u).1, c :: u⟩ := by
        rw [List.length_cons] at hlt
        simp only [firstLexeme, List.take_of_length_le (show u.length ≤ (measure c u).2 - 1 by omega)]
      rw [lexemes_cons, hfirst] at h
      simp only [List.length_cons, Nat.add_sub_cancel, List.drop_length] at h
      exact Or.inr (h _ rfl)
  obtain ⟨hmeasure, hle⟩ := kept_measure c hs u v hends
  rw [List.length_cons] at hle
  simp only [firstLexeme, hmeasure,
    List.take_append_of_le_length (show (measure c u).2 - 1 ≤ u.length by omega)]

/-- **A stop behind a text** whose last lexeme is not open is a lexeme of its own, and changes none of
the others. -/
theorem lexemes_append_stop (hs : IsStop s) (h : ∀ x ∈ (lexemes u).getLast?, x.isOpen = false)
    (v : List Char) :
    lexemes (u ++ s :: v) = lexemes u ++ ⟨singleKind s, [s]⟩ :: lexemes v := by
  induction hn : u.length using Nat.strongRecOn generalizing u with
  | ind n ih =>
      subst hn
      cases u with
      | nil => exact leads_stop hs v
      | cons c u =>
          have hfirst := firstLexeme_append_stop hs h v
          have hle : (firstLexeme c u).text.length - 1 ≤ u.length := by
            have htext := congrArg List.length (firstLexeme_text_append c u)
            simp only [List.length_append, List.length_cons] at htext
            omega
          have hlast : ∀ x ∈ (lexemes (u.drop ((firstLexeme c u).text.length - 1))).getLast?,
              x.isOpen = false := by
            intro x hx
            refine h x ?_
            rw [lexemes_cons, List.getLast?_cons, Option.mem_def.mp hx]
            rfl
          rw [List.cons_append, lexemes_cons, lexemes_cons, hfirst,
            List.drop_append_of_le_length hle, ih _ ?_ hlast rfl, List.cons_append]
          simp only [List.length_drop, List.length_cons]
          omega

end

end WidgetStyle.Source
