import WidgetStyle.Proofs.Selector.NormalText

/-!
# WidgetStyle.Proofs.Selector.Spacing — selector texts that differ in their blanks only

A text is made of words, with runs of blanks between them and blanks around them (`Spelled`), and there
is just one way to take it apart (`spelled_iff`).  Two texts are equal up to blanks when they are made of
the same words (`SameUpToBlanks`).

Reading a selector begins with the normal form of its text, and this form has the same words again
(`words_collapseBlanks`).  So the normal form, which a selector shows as its text, stands for the selector:
texts are read as the same selector exactly when they are equal up to blanks (`parse_eq_parse_iff`), and
the text of a selector is read as that selector (`parse_text`).
-/

namespace WidgetStyle.Selector

open Text

/-! ## Words and blanks -/

/-- A word is not empty, and no blank stands in it. -/
structure IsWord (word : List Char) : Prop where
  ne_nil : word ≠ []
  no_blank : ∀ c ∈ word, isBlank c = false

/-- The text is the words in their order, with runs of blanks between them and blanks around them. -/
inductive Spelled : List (List Char) → List Char → Prop
  | nil : Spelled [] []
  | single {word : List Char} (hword : IsWord word) : Spelled [word] word
  | blank {ws : List (List Char)} {c : Char} {text : List Char} (hc : isBlank c = true)
      (h : Spelled ws text) : Spelled ws (c :: text)
  | word {ws : List (List Char)} {word text : List Char} {c : Char} (hword : IsWord word)
      (hc : isBlank c = true) (h : Spelled ws text) : Spelled (word :: ws) (word ++ c :: text)

/-- Two texts are equal up to the blanks that stand in them: they are made of the same words. -/
def SameUpToBlanks (a b : String) : Prop := ∃ ws, Spelled ws a.toList ∧ Spelled ws b.toList

theorem wordsFrom_found (cs word : List Char) (found : List (List Char)) :
    wordsFrom cs word found = found.reverse ++ wordsFrom cs word [] := by
  induction cs generalizing word found with
  | nil => cases word <;> simp [wordsFrom]
  | cons c cs ih =>
      rw [wordsFrom, wordsFrom]
      cases isBlank c with
      | false => exact ih (c :: word) found
      | true =>
          cases word with
          | nil => exact ih [] found
          | cons d word =>
              have hsome : ¬(d :: word).isEmpty = true := Bool.false_ne_true
              rw [if_pos rfl, if_pos rfl, if_neg hsome, if_neg hsome, ih [] (_ :: found), ih [] [_],
                List.reverse_cons, List.append_assoc, List.reverse_singleton]

namespace IsWord

variable {word : List Char} (h : IsWord word)
include h

theorem words_append_blank {c : Char} (hc : isBlank c = true) (cs : List Char) :
    words (word ++ c :: cs) = word :: words cs := by
  have hsome : ¬word.reverse.isEmpty = true := by simp [h.ne_nil]
  rw [words, wordsFrom_of_no_blank h.no_blank, List.append_nil, wordsFrom, if_pos hc, if_neg hsome,
    wordsFrom_found, List.reverse_reverse]
  rfl

theorem words_eq : words word = [word] := by
  have hblank : ∀ c ∈ [' '], isBlank c = true := List.forall_mem_singleton.mpr rfl
  rw [← words_append_blanks hblank word, h.words_append_blank rfl]
  rfl

end IsWord

/-- Behind what has been read of a word, the rest of the text is walked through to the words. -/
theorem spelled_wordsFrom {word : List Char} (hword : ∀ c ∈ word, isBlank c = false) (cs : List Char) :
    Spelled (wordsFrom cs word []) (word.reverse ++ cs) := by
  induction cs generalizing word with
  | nil =>
      cases word with
      | nil => exact .nil
      | cons d word =>
          have hlast : IsWord (d :: word).reverse :=
            ⟨by simp, fun c hc => hword c (List.mem_reverse.mp hc)⟩
          rw [List.append_nil]
          exact .single hlast
  | cons c cs ih =>
      rw [wordsFrom]
      cases hc : isBlank c with
      | false =>
          have hmore : ∀ d ∈ c :: word, isBlank d = false := List.forall_mem_cons.mpr ⟨hc, hword⟩
          have h := ih hmore
          rw [List.reverse_cons, List.append_assoc] at h
          exact h
      | true =>
          have hrest : Spelled (words cs) cs := ih (List.forall_mem_nil _)
          cases word with
          | nil => exact .blank hc hrest
          | cons d word =>
              have hended : IsWord (d :: word).reverse :=
                ⟨by simp, fun c hc => hword c (List.mem_reverse.mp hc)⟩
              rw [if_pos rfl, wordsFrom_found]
              exact .word hended hc hrest

/-- A text is made of its words and of no others. -/
theorem spelled_iff {ws : List (List Char)} {cs : List Char} : Spelled ws cs ↔ words cs = ws := by
  constructor
  · intro h
    induction h with
    | nil => rfl
    | single hword => exact hword.words_eq
    | @blank _ c text hc _ ih =>
        have hblank : ∀ d ∈ [c], isBlank d = true := by simpa using hc
        rw [← ih]
        exact words_blanks_append hblank text
    | word hword hc _ ih => rw [hword.words_append_blank hc, ih]
  · rintro rfl
    exact spelled_wordsFrom (List.forall_mem_nil _) cs

theorem Spelled.isWord {ws : List (List Char)} {cs : List Char} (h : Spelled ws cs) :
    ∀ word ∈ ws, IsWord word := by
  induction h with
  | nil => exact List.forall_mem_nil _
  | single hword => exact List.forall_mem_singleton.mpr hword
  | blank _ _ ih => exact ih
  | word hword _ _ ih => exact List.forall_mem_cons.mpr ⟨hword, ih⟩

theorem spelled_intercalate {ws : List (List Char)} (h : ∀ word ∈ ws, IsWord word) :
    Spelled ws ([' '].intercalate ws) := by
  induction ws with
  | nil => exact .nil
  | cons word ws ih =>
      obtain ⟨hword, hmore⟩ := List.forall_mem_cons.mp h
      cases ws with
      | nil =>
          rw [List.intercalate_singleton]
          exact .single hword
      | cons next ws =>
          rw [List.intercalate_cons_cons, List.append_assoc]
          exact .word hword rfl (ih hmore)

/-- Collapsing blanks keeps the words. -/
theorem words_collapseBlanks (cs : List Char) : words (collapseBlanks cs) = words cs := by
  have hwords : ∀ word ∈ words cs, IsWord word := (spelled_iff.mpr rfl).isWord
  exact spelled_iff.mp (spelled_intercalate hwords)

theorem collapseBlanks_collapseBlanks (cs : List Char) :
    collapseBlanks (collapseBlanks cs) = collapseBlanks cs := by
  rw [collapseBlanks, words_collapseBlanks, collapseBlanks]

/-! ## The text of a selector -/

variable {a b : String}

/-- Texts have one normal form exactly when they are equal up to blanks. -/
theorem normalText_eq_iff : normalText a = normalText b ↔ SameUpToBlanks a b := by
  rw [normalText, normalText, String.ofList_inj]
  constructor
  · intro h
    have hwords : words b.toList = words a.toList := by
      rw [← words_collapseBlanks, ← h, words_collapseBlanks]
    exact ⟨words a.toList, spelled_iff.mpr rfl, spelled_iff.mpr hwords⟩
  · rintro ⟨ws, ha, hb⟩
    rw [collapseBlanks, collapseBlanks, spelled_iff.mp ha, spelled_iff.mp hb]

theorem normalText_normalText (s : String) : normalText (normalText s) = normalText s := by
  rw [normalText, normalText, String.toList_ofList, collapseBlanks_collapseBlanks]

theorem text_finish (d : SelectorDraft) (text : String) : (d.finish text).text = text := by
  rw [SelectorDraft.finish]
  split <;> rfl

@[simp] theorem text_parse (s : String) : (parse s).text = normalText s := text_finish _ _

theorem parse_eq_of_normalText_eq (h : normalText a = normalText b) : parse a = parse b := by
  have hcollapsed : collapseBlanks a.toList = collapseBlanks b.toList := String.ofList_inj.mp h
  rw [parse, parse, hcollapsed]

/-- Texts are read as one selector exactly when they are equal up to blanks. -/
theorem parse_eq_parse_iff : parse a = parse b ↔ SameUpToBlanks a b := by
  rw [← normalText_eq_iff]
  constructor
  · intro h
    rw [← text_parse, ← text_parse, h]
  · exact parse_eq_of_normalText_eq

/-- The text of a selector is read as the selector. -/
theorem parse_text (s : String) : parse (parse s).text = parse s := by
  rw [text_parse]
  exact parse_eq_of_normalText_eq (normalText_normalText s)

end WidgetStyle.Selector
