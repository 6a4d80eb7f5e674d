import Mathlib.Data.List.Chain
import WidgetStyle.Proofs.Sheet.Headings

/-!
# WidgetStyle.Proofs.Selector.NormalText — texts with collapsed blanks

Collapsing blanks keeps the words of a text and puts single spaces between them.  How long a run of
blanks is makes no difference to the words, nor which blanks it consists of (`SameWords`).  A text
is tidy when its blanks are single spaces between words (`tidyFrom`); such a text is its own normal
form (`collapseBlanks_of_tidy`).
-/

namespace WidgetStyle

open Text

/-! ## Words -/

/-- Whether two texts add the same to the words, whatever stands before and behind them. -/
def SameWords (cs ds : List Char) : Prop :=
  ∀ rest word found, wordsFrom (cs ++ rest) word found = wordsFrom (ds ++ rest) word found

theorem wordsFrom_append_congr {cs ds : List Char}
    (h : ∀ word found, wordsFrom cs word found = wordsFrom ds word found) (front word : List Char)
    (found : List (List Char)) :
    wordsFrom (front ++ cs) word found = wordsFrom (front ++ ds) word found := by
  induction front generalizing word found with
  | nil => exact h word found
  | cons c front ih =>
      rw [List.cons_append, List.cons_append, wordsFrom, wordsFrom, ih, ih]

theorem SameWords.refl (cs : List Char) : SameWords cs cs := fun _ _ _ => rfl

theorem SameWords.append {cs ds cs' ds' : List Char} (h : SameWords cs ds) (h' : SameWords cs' ds') :
    SameWords (cs ++ cs') (ds ++ ds') := by
  intro rest word found
  rw [List.append_assoc, List.append_assoc, h]
  exact wordsFrom_append_congr (h' rest) ds word found

theorem SameWords.words_eq {cs ds : List Char} (h : SameWords cs ds) : words cs = words ds := by
  simpa [words] using h [] [] []

/-- What a run of blanks becomes between two words. -/
def squeezed (blanks : List Char) : List Char := if blanks.isEmpty then [] else [' ']

section Blanks

variable {blanks : List Char} (h : ∀ c ∈ blanks, isBlank c = true)
include h

/-- Behind the end of a word, blanks are passed by. -/
theorem wordsFrom_blanks (rest : List Char) (found : List (List Char)) :
    wordsFrom (blanks ++ rest) [] found = wordsFrom rest [] found := by
  induction blanks with
  | nil => rfl
  | cons c blanks ih =>
      rw [List.cons_append, wordsFrom, h c List.mem_cons_self, if_pos rfl]
      exact ih fun d hd => h d (List.mem_cons_of_mem _ hd)

theorem sameWords_squeezed : SameWords blanks (squeezed blanks) := by
  intro rest word found
  cases blanks with
  | nil => rfl
  | cons c blanks =>
      have hspace : isBlank ' ' = true := rfl
      rw [squeezed, List.isEmpty_cons, if_neg Bool.false_ne_true, List.cons_append,
        List.singleton_append, wordsFrom, wordsFrom, h c List.mem_cons_self, hspace, if_pos rfl,
        if_pos rfl, wordsFrom_blanks fun d hd => h d (List.mem_cons_of_mem _ hd)]

theorem words_blanks_append (cs : List Char) : words (blanks ++ cs) = words cs :=
  wordsFrom_blanks h cs []

theorem words_append_blanks (cs : List Char) : words (cs ++ blanks) = words cs := by
  have hend : ∀ word found, wordsFrom blanks word found = wordsFrom [] word found := by
    intro word found
    cases blanks with
    | nil => rfl
    | cons c blanks =>
        have hrest := wordsFrom_blanks (fun d hd => h d (List.mem_cons_of_mem c hd)) []
        rw [List.append_nil] at hrest
        conv_lhs => rw [wordsFrom, h c List.mem_cons_self, if_pos rfl, hrest]
        cases word <;> rfl
  rw [words, words, wordsFrom_append_congr hend, List.append_nil]

end Blanks

/-! ## Tidy texts -/

/-- Whether the blanks of a text are single spaces between words.  The flag says whether a word
stands right before the text. -/
def tidyFrom : Bool → List Char → Bool
  | afterWord, [] => afterWord
  | afterWord, c :: cs =>
    if isBlank c then c == ' ' && afterWord && tidyFrom false cs else tidyFrom true cs

/-- The words collected so far, with the one being read, when there is one. -/
def collected (word : List Char) (found : List (List Char)) : List (List Char) :=
  (if word.isEmpty then found else word.reverse :: found).reverse

theorem intercalate_append_singleton {ws : List (List Char)} (h : ws ≠ []) (w : List Char) :
    [' '].intercalate (ws ++ [w]) = [' '].intercalate ws ++ ' ' :: w := by
  induction ws with
  | nil => exact absurd rfl h
  | cons v ws ih =>
      cases ws with
      | nil => simp [List.intercalate]
      | cons u ws =>
          rw [List.cons_append, List.cons_append, List.intercalate_cons_cons,
            List.intercalate_cons_cons, ← List.cons_append, ih (List.cons_ne_nil _ _)]
          simp

/-- In a tidy text the words and the spaces between them are all there is. -/
theorem intercalate_wordsFrom {cs word : List Char} {found : List (List Char)}
    (h : tidyFrom (!word.isEmpty) cs = true) :
    [' '].intercalate (wordsFrom cs word found) =
      [' '].intercalate (collected word found) ++
        (if word.isEmpty && !found.isEmpty then ' ' :: cs else cs) := by
  induction cs generalizing word found with
  | nil =>
      cases word with
      | nil => simp [tidyFrom] at h
      | cons d word => simp [wordsFrom, collected]
  | cons c cs ih =>
      rw [tidyFrom] at h
      rw [wordsFrom]
      cases hblank : isBlank c with
      | true =>
          simp only [hblank, if_true, Bool.and_eq_true, beq_iff_eq, Bool.not_eq_true',
            List.isEmpty_eq_false_iff] at h
          obtain ⟨⟨rfl, hword⟩, htidy⟩ := h
          have hrest : tidyFrom (!([] : List Char).isEmpty) cs = true := htidy
          rw [if_pos rfl, ih hrest]
          simp [collected, hword]
      | false =>
          simp only [hblank, Bool.false_eq_true, if_false] at h ⊢
          rw [ih (by simpa using h)]
          cases word with
          | nil =>
              cases found with
              | nil => simp [collected, List.intercalate]
              | cons w found =>
                  simp only [collected, List.isEmpty_cons, List.isEmpty_nil, List.reverse_cons,
                    List.reverse_nil, List.nil_append, Bool.false_eq_true, if_false, if_true,
                    Bool.not_false, Bool.and_true]
                  rw [← List.reverse_cons, intercalate_append_singleton (by simp)]
                  simp
          | cons d word =>
              simp only [collected, List.isEmpty_cons, List.reverse_cons, Bool.false_eq_true, if_false,
                Bool.false_and]
              cases found with
              | nil => simp [List.intercalate]
              | cons w found =>
                  rw [intercalate_append_singleton (by simp), intercalate_append_singleton (by simp)]
                  simp

/-- A tidy text is its own normal form. -/
theorem collapseBlanks_of_tidy {cs : List Char} (h : tidyFrom false cs = true) :
    collapseBlanks cs = cs := by
  rw [collapseBlanks, words, intercalate_wordsFrom (by simpa using h)]
  simp [collected, List.intercalate]

/-- A text is solid when it begins and ends with words, and its blanks are single spaces: wherever it
is put, what follows it follows a word. -/
def IsSolid (cs : List Char) : Prop :=
  ∀ afterWord rest, tidyFrom afterWord (cs ++ rest) = tidyFrom true rest

theorem IsSolid.append {cs ds : List Char} (hcs : IsSolid cs) (hds : IsSolid ds) :
    IsSolid (cs ++ ds) := by
  intro afterWord rest
  rw [List.append_assoc, hcs, hds]

theorem isSolid_singleton {c : Char} (h : isBlank c = false) : IsSolid [c] := by
  intro afterWord rest
  rw [List.singleton_append, tidyFrom, h, if_neg Bool.false_ne_true]

theorem IsSolid.cons {c : Char} {cs : List Char} (h : isBlank c = false) (hcs : IsSolid cs) :
    IsSolid (c :: cs) :=
  (isSolid_singleton h).append hcs

/-- A word is solid. -/
theorem isSolid_of_no_blank {cs : List Char} (hne : cs ≠ []) (h : ∀ c ∈ cs, isBlank c = false) :
    IsSolid cs := by
  induction cs with
  | nil => exact absurd rfl hne
  | cons c cs ih =>
      cases cs with
      | nil => exact isSolid_singleton (h c List.mem_cons_self)
      | cons d cs =>
          exact .cons (h c List.mem_cons_self)
            (ih (List.cons_ne_nil _ _) fun e he => h e (List.mem_cons_of_mem _ he))

theorem tidyFrom_squeezed (blanks : List Char) {ds : List Char} (hds : IsSolid ds)
    (rest : List Char) : tidyFrom true (squeezed blanks ++ (ds ++ rest)) = tidyFrom true rest := by
  rw [squeezed]
  cases blanks with
  | nil => exact hds true rest
  | cons => exact hds false rest

/-- Single spaces inside, also at the ends, make no text untidy that ends with a word. -/
theorem tidyFrom_spaced {cs ds : List Char} (hblank : ∀ c ∈ cs, isBlank c = true → c = ' ')
    (hsingle : cs.IsChain fun c d => ¬ (c = ' ' ∧ d = ' ')) (hds : IsSolid ds) {afterWord : Bool}
    (hfirst : afterWord = false → cs.head? ≠ some ' ') (rest : List Char) :
    tidyFrom afterWord (cs ++ (ds ++ rest)) = tidyFrom true rest := by
  induction cs generalizing afterWord with
  | nil => exact hds afterWord rest
  | cons c cs ih =>
      have hmore : ∀ d ∈ cs, isBlank d = true → d = ' ' :=
        fun d hd => hblank d (List.mem_cons_of_mem _ hd)
      rw [List.cons_append, tidyFrom]
      cases hc : isBlank c with
      | false => exact ih hmore hsingle.tail nofun
      | true =>
          obtain rfl := hblank c List.mem_cons_self hc
          have hword : afterWord = true := by
            cases afterWord with
            | true => rfl
            | false => exact absurd rfl (hfirst rfl)
          have hnext : cs.head? ≠ some ' ' := by
            cases cs with
            | nil => nofun
            | cons d cs =>
                intro hd
                exact (List.isChain_cons_cons.mp hsingle).1 ⟨rfl, Option.some.inj hd⟩
          rw [hword, if_pos rfl]
          exact ih hmore hsingle.tail fun _ => hnext

/-- Single spaces between solid texts make a solid text. -/
theorem IsSolid.spaced {front cs back : List Char} (hfront : IsSolid front)
    (hblank : ∀ c ∈ cs, isBlank c = true → c = ' ')
    (hsingle : cs.IsChain fun c d => ¬ (c = ' ' ∧ d = ' ')) (hback : IsSolid back) :
    IsSolid (front ++ (cs ++ back)) := by
  intro afterWord rest
  rw [List.append_assoc, hfront, List.append_assoc]
  refine tidyFrom_spaced hblank hsingle hback ?_ rest
  exact nofun

/-! ## Single spaces -/

/-- The text with each run of blanks as one space, also at the ends. -/
def singleSpaced : List Char → List Char
  | [] => []
  | c :: cs =>
    if isBlank c then
      if cs.head?.any isBlank then singleSpaced cs else ' ' :: singleSpaced cs
    else c :: singleSpaced cs

section SingleSpaced

variable {c : Char} {cs : List Char}

theorem singleSpaced_cons_of_not_blank (h : isBlank c = false) (cs : List Char) :
    singleSpaced (c :: cs) = c :: singleSpaced cs := by
  rw [singleSpaced, h, if_neg Bool.false_ne_true]

theorem singleSpaced_cons_of_blank_blank (hc : isBlank c = true) (h : cs.head?.any isBlank = true) :
    singleSpaced (c :: cs) = singleSpaced cs := by
  rw [singleSpaced, hc, h, if_pos rfl, if_pos rfl]

theorem singleSpaced_cons_of_blank (hc : isBlank c = true) (h : cs.head?.any isBlank = false) :
    singleSpaced (c :: cs) = ' ' :: singleSpaced cs := by
  rw [singleSpaced, hc, h, if_pos rfl, if_neg Bool.false_ne_true]

/-- Induction along the runs of blanks: a character is no blank, or a blank in front of another one,
or the last blank of its run. -/
theorem singleSpaced_induction {motive : List Char → Prop} (nil : motive [])
    (solid : ∀ c cs, isBlank c = false → motive cs → motive (c :: cs))
    (inside : ∀ c cs, isBlank c = true → cs.head?.any isBlank = true → motive cs → motive (c :: cs))
    (last : ∀ c cs, isBlank c = true → cs.head?.any isBlank = false → motive cs → motive (c :: cs))
    (cs : List Char) : motive cs := by
  induction cs with
  | nil => exact nil
  | cons c cs ih =>
      cases hc : isBlank c with
      | false => exact solid c cs hc ih
      | true =>
          cases h : cs.head?.any isBlank with
          | true => exact inside c cs hc h ih
          | false => exact last c cs hc h ih

/-- No other characters come in than spaces. -/
theorem mem_singleSpaced (h : c ∈ singleSpaced cs) : c ∈ cs ∨ c = ' ' := by
  induction cs using singleSpaced_induction with
  | nil => exact .inl h
  | solid d cs hd ih =>
      rw [singleSpaced_cons_of_not_blank hd] at h
      rcases List.mem_cons.mp h with rfl | h
      · exact .inl List.mem_cons_self
      · exact (ih h).imp_left (List.mem_cons_of_mem d)
  | inside d cs hd hnext ih =>
      rw [singleSpaced_cons_of_blank_blank hd hnext] at h
      exact (ih h).imp_left (List.mem_cons_of_mem d)
  | last d cs hd hnext ih =>
      rw [singleSpaced_cons_of_blank hd hnext] at h
      rcases List.mem_cons.mp h with rfl | h
      · exact .inr rfl
      · exact (ih h).imp_left (List.mem_cons_of_mem d)

theorem eq_space_of_mem_singleSpaced (h : c ∈ singleSpaced cs) (hblank : isBlank c = true) :
    c = ' ' := by
  induction cs using singleSpaced_induction with
  | nil => cases h
  | solid d cs hd ih =>
      rw [singleSpaced_cons_of_not_blank hd] at h
      rcases List.mem_cons.mp h with rfl | h
      · exact absurd (hd.symm.trans hblank) Bool.false_ne_true
      · exact ih h
  | inside d cs hd hnext ih => exact ih (singleSpaced_cons_of_blank_blank hd hnext ▸ h)
  | last d cs hd hnext ih =>
      rw [singleSpaced_cons_of_blank hd hnext] at h
      exact (List.mem_cons.mp h).elim id ih

theorem head?_singleSpaced (h : cs.head?.any isBlank = false) :
    (singleSpaced cs).head? = cs.head? := by
  cases cs with
  | nil => rfl
  | cons d cs =>
      have hd : isBlank d = false := h
      rw [singleSpaced_cons_of_not_blank hd, List.head?_cons, List.head?_cons]

theorem isChain_singleSpaced (cs : List Char) :
    (singleSpaced cs).IsChain fun c d => ¬ (c = ' ' ∧ d = ' ') := by
  induction cs using singleSpaced_induction with
  | nil => exact List.isChain_nil
  | solid c cs hc ih =>
      rw [singleSpaced_cons_of_not_blank hc, List.isChain_cons]
      refine ⟨fun d _ hspaces => ?_, ih⟩
      rw [hspaces.1] at hc
      exact absurd hc (by decide)
  | inside c cs hc hnext ih => rwa [singleSpaced_cons_of_blank_blank hc hnext]
  | last c cs hc hnext ih =>
      rw [singleSpaced_cons_of_blank hc hnext, List.isChain_cons, head?_singleSpaced hnext]
      refine ⟨fun d hd hspaces => ?_, ih⟩
      rw [Option.mem_def.mp hd, hspaces.2] at hnext
      exact absurd hnext (by decide)

/-- Such texts are left as they are. -/
theorem singleSpaced_eq_self (hblank : ∀ c ∈ cs, isBlank c = true → c = ' ')
    (hsingle : cs.IsChain fun c d => ¬ (c = ' ' ∧ d = ' ')) : singleSpaced cs = cs := by
  induction cs with
  | nil => rfl
  | cons c cs ih =>
      have hmore := ih (fun d hd => hblank d (List.mem_cons_of_mem _ hd)) hsingle.tail
      cases hc : isBlank c with
      | false => rw [singleSpaced_cons_of_not_blank hc, hmore]
      | true =>
          obtain rfl := hblank c List.mem_cons_self hc
          have hnext : cs.head?.any isBlank = false := by
            cases cs with
            | nil => rfl
            | cons d cs =>
                rw [List.head?_cons, Option.any_some, Bool.eq_false_iff]
                intro hd
                exact (List.isChain_cons_cons.mp hsingle).1
                  ⟨rfl, hblank d (List.mem_cons_of_mem _ List.mem_cons_self) hd⟩
          rw [singleSpaced_cons_of_blank hc hnext, hmore]

theorem sameWords_singleSpaced (cs : List Char) : SameWords cs (singleSpaced cs) := by
  intro rest
  induction cs using singleSpaced_induction with
  | nil => exact fun _ _ => rfl
  | solid c cs hc ih =>
      intro word found
      rw [singleSpaced_cons_of_not_blank hc, List.cons_append, List.cons_append, wordsFrom, wordsFrom,
        hc, if_neg Bool.false_ne_true, if_neg Bool.false_ne_true, ih]
  | inside c cs hc hnext ih =>
      intro word found
      rw [singleSpaced_cons_of_blank_blank hc hnext, ← ih]
      -- The next blank ends the word just as well.
      cases cs with
      | nil => exact absurd hnext (by decide)
      | cons d cs =>
          have hd : isBlank d = true := hnext
          simp only [List.cons_append, wordsFrom, hc, hd, if_true, List.isEmpty_nil]
  | last c cs hc hnext ih =>
      intro word found
      have hspace : isBlank ' ' = true := rfl
      rw [singleSpaced_cons_of_blank hc hnext, List.cons_append, List.cons_append, wordsFrom, wordsFrom,
        hc, hspace, if_pos rfl, if_pos rfl, ih]

/-- Between solid texts any text is solid with single spaces. -/
theorem IsSolid.singleSpaced {front back : List Char} (hfront : IsSolid front) (hback : IsSolid back)
    (cs : List Char) : IsSolid (front ++ (singleSpaced cs ++ back)) :=
  hfront.spaced (fun _ hc => eq_space_of_mem_singleSpaced hc) (isChain_singleSpaced cs) hback

/-- There blanks are collapsed in this way, and blanks at the end are dropped. -/
theorem collapseBlanks_spaced {front back blanks : List Char} (hfront : IsSolid front)
    (hback : IsSolid back) (hblanks : ∀ c ∈ blanks, isBlank c = true) (cs : List Char) :
    collapseBlanks (front ++ (cs ++ (back ++ blanks))) = front ++ (singleSpaced cs ++ back) := by
  have hwords : words (front ++ (cs ++ (back ++ blanks))) =
      words (front ++ (singleSpaced cs ++ back)) := by
    have hsame : SameWords (front ++ (cs ++ back)) (front ++ (singleSpaced cs ++ back)) :=
      .append (.refl front) (.append (sameWords_singleSpaced cs) (.refl back))
    rw [← hsame.words_eq, ← words_append_blanks hblanks (front ++ (cs ++ back))]
    simp only [List.append_assoc]
  rw [collapseBlanks, hwords]
  refine collapseBlanks_of_tidy ?_
  have htidy := hfront.singleSpaced hback cs false []
  rwa [List.append_nil] at htidy

end SingleSpaced

/-- A text has blanks only, or there is a last character that is no blank. -/
theorem blank_or_last_word (cs : List Char) :
    (∀ c ∈ cs, isBlank c = true) ∨
      ∃ front c blanks, cs = front ++ c :: blanks ∧ isBlank c = false ∧
        ∀ d ∈ blanks, isBlank d = true := by
  induction cs with
  | nil => exact .inl nofun
  | cons d cs ih =>
      rcases ih with hblank | ⟨front, c, blanks, rfl, hc, hblanks⟩
      case inr => exact .inr ⟨d :: front, c, blanks, rfl, hc, hblanks⟩
      case inl =>
        cases hd : isBlank d with
        | true => exact .inl (List.forall_mem_cons.mpr ⟨hd, hblank⟩)
        | false => exact .inr ⟨[], d, cs, rfl, hd, hblank⟩

end WidgetStyle
