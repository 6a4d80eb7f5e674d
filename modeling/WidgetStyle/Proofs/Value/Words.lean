import WidgetStyle.Proofs.Value.Pieces

/-!
# WidgetStyle.Proofs.Value.Words — texts made of words

A text is made of words when these stand in it one after the other, with ASCII blanks between and
around them (`Spaced`).  The words are balanced: each closes the quotations and brackets that it
opens, and blanks stand in it only inside of these (`BalancedWord`).  Splitting such a text gives just
the words (`splitWords_of_spaced`).
-/

namespace WidgetStyle.Value

open Text

/-- A word that closes the quotations and brackets which it opens, and has blanks only inside of
them. -/
structure BalancedWord (word : List Char) : Prop where
  ne_nil : word ≠ []
  uncut : Uncut isAsciiBlank {} word
  closed : Nesting.after {} word = {}

theorem balancedWord_iff {word : List Char} :
    BalancedWord word ↔ word ≠ [] ∧ cut isAsciiBlank word = [word] ∧ Nesting.after {} word = {} := by
  constructor
  · rintro ⟨hne, huncut, hclosed⟩
    exact ⟨hne, cutFrom_of_uncut huncut, hclosed⟩
  · rintro ⟨hne, hcut, hclosed⟩
    have huncut := (pieces_cut isAsciiBlank word).uncut_of_mem.1 word (by rw [hcut]; rfl)
    exact ⟨hne, huncut, hclosed⟩

instance (word : List Char) : Decidable (BalancedWord word) := decidable_of_iff _ balancedWord_iff.symm

/-- The text is the words in their order, with blanks between and around them. -/
inductive Spaced : List (List Char) → List Char → Prop
  | nil : Spaced [] []
  | single {word : List Char} (hword : BalancedWord word) : Spaced [word] word
  | blank {words : List (List Char)} {c : Char} {text : List Char} (hc : isAsciiBlank c = true)
      (h : Spaced words text) : Spaced words (c :: text)
  | word {words : List (List Char)} {word text : List Char} {c : Char} (hword : BalancedWord word)
      (hc : isAsciiBlank c = true) (h : Spaced words text) :
      Spaced (word :: words) (word ++ c :: text)

/-! ## Splitting -/

theorem cuts_of_isAsciiBlank {c : Char} (h : isAsciiBlank c = true) :
    Nesting.cuts isAsciiBlank {} c = true := by
  simp only [isAsciiBlank, Bool.or_eq_true, beq_iff_eq] at h
  rcases h with (((rfl | rfl) | rfl) | rfl) | rfl <;> decide

/-- Cutting goes on afresh behind the first separator that cuts. -/
theorem cutFrom_append_cons {separates : Char → Bool} {st : Nesting} {front rest : List Char}
    {c : Char} (huncut : Uncut separates st front) (hc : (st.after front).cuts separates c = true) :
    cutFrom separates st (front ++ c :: rest) = front :: cut separates rest := by
  induction front generalizing st with
  | nil =>
      obtain rfl : st = {} := Nesting.eq_of_cuts hc
      rw [List.nil_append, cutFrom]
      exact if_pos hc
  | cons d front ih =>
      obtain ⟨hd, hfront⟩ := uncut_cons_iff.mp huncut
      rw [List.cons_append, cutFrom, hd, if_neg Bool.false_ne_true, ih hfront hc]
      rfl

theorem splitWords_blank_cons {c : Char} {cs : List Char} (h : isAsciiBlank c = true) :
    splitWords (c :: cs) = splitWords cs := by
  have hcut : cut isAsciiBlank (c :: cs) = [] :: cut isAsciiBlank cs :=
    cutFrom_append_cons uncut_nil (cuts_of_isAsciiBlank h)
  rw [splitWords, hcut]
  rfl

namespace BalancedWord

variable {word : List Char} (h : BalancedWord word)
include h

theorem isEmpty_eq_false : (!word.isEmpty) = true := by
  rw [List.isEmpty_eq_false_iff.mpr h.ne_nil]
  rfl

theorem splitWords : splitWords word = [word] := by
  rw [Value.splitWords, cut, cutFrom_of_uncut h.uncut]
  exact List.filter_cons_of_pos h.isEmpty_eq_false

theorem splitWords_append {c : Char} (hc : isAsciiBlank c = true) (rest : List Char) :
    Value.splitWords (word ++ c :: rest) = word :: Value.splitWords rest := by
  have hcuts : (Nesting.after {} word).cuts isAsciiBlank c = true := by
    rw [h.closed]
    exact cuts_of_isAsciiBlank hc
  rw [Value.splitWords, cut, cutFrom_append_cons h.uncut hcuts]
  exact List.filter_cons_of_pos h.isEmpty_eq_false

end BalancedWord

/-- Splitting gives the words that a text is made of. -/
theorem splitWords_of_spaced {words : List (List Char)} {text : List Char} (h : Spaced words text) :
    splitWords text = words := by
  induction h with
  | nil => rfl
  | single hword => exact hword.splitWords
  | blank hc _ ih => rw [splitWords_blank_cons hc, ih]
  | word hword hc _ ih => rw [hword.splitWords_append hc, ih]

end WidgetStyle.Value
