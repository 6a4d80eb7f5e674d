import Mathlib.Data.List.DropRight
import WidgetStyle.Proofs.Source.QuotedNames

/-!
# WidgetStyle.Proofs.Value.Cuts — where a list is cut

A walk over a text counts the brackets that are open, and a closing bracket too many is ignored.
What such a walk passes by is given by a grammar: a text is `Closed` when its quotations end and its
brackets match, and `AtTop` when it is made of such texts and closing brackets that close nothing.
The walk is outside of quotations and brackets just behind the texts of the second kind
(`atTop_iff`).

So a list is cut at a separator just in case the text before it is `AtTop` (`PiecesFrom.isCut_iff`).
Trimming takes away blanks only, and these leave the walk where it is, so a trimmed piece is cut no
further than the piece was (`Uncut.trim`).
-/

namespace WidgetStyle.Value

open Text

/-! ## Texts at whose end nothing is open -/

/-- The texts whose brackets match and whose quotations are closed.  Round and square brackets count
alike. -/
inductive Closed : List Char → Prop
  | nil : Closed []
  | plain {c : Char} {cs : List Char} (hquote : isQuote c = false) (hopen : opensBracket c = false)
      (hclose : closesBracket c = false) (h : Closed cs) : Closed (c :: cs)
  | quotation {quotation cs : List Char} (hquotation : isQuotation quotation = true)
      (h : Closed cs) : Closed (quotation ++ cs)
  | group {o c : Char} {inner cs : List Char} (hopen : opensBracket o = true)
      (hclose : closesBracket c = true) (hinner : Closed inner) (h : Closed cs) :
      Closed (o :: (inner ++ c :: cs))

/-- The texts at whose end no quotation and no bracket is open: closed texts, with closing brackets
between them that close nothing. -/
inductive AtTop : List Char → Prop
  | closed {cs : List Char} (h : Closed cs) : AtTop cs
  | stray {front cs : List Char} {c : Char} (hfront : Closed front)
      (hclose : closesBracket c = true) (h : AtTop cs) : AtTop (front ++ c :: cs)

section Walks

variable {st : Nesting} {depth : Nat} {c : Char} {cs : List Char}

/-- The state outside of quotations, with some brackets open. -/
abbrev Nesting.outside (depth : Nat) : Nesting := ⟨.outside, depth⟩

theorem Nesting.after_append (st : Nesting) (cs ds : List Char) :
    st.after (cs ++ ds) = (st.after cs).after ds := List.foldl_append

theorem Nesting.after_cons (st : Nesting) (c : Char) (cs : List Char) :
    st.after (c :: cs) = (st.step c).after cs := rfl

theorem eq_of_opensBracket (h : opensBracket c = true) : c = '(' ∨ c = '[' := by
  rwa [opensBracket, Bool.or_eq_true, beq_iff_eq, beq_iff_eq] at h

theorem eq_of_closesBracket (h : closesBracket c = true) : c = ')' ∨ c = ']' := by
  rwa [closesBracket, Bool.or_eq_true, beq_iff_eq, beq_iff_eq] at h

namespace Nesting

theorem step_plain (hquote : isQuote c = false) (hopen : opensBracket c = false)
    (hclose : closesBracket c = false) : (Nesting.outside depth).step c = .outside depth := by
  simp [step, step_outside_of_not_isQuote hquote, hopen, hclose]

theorem step_open (h : opensBracket c = true) :
    (Nesting.outside depth).step c = .outside (depth + 1) := by
  rcases eq_of_opensBracket h with rfl | rfl <;> rfl

theorem step_close (h : closesBracket c = true) :
    (Nesting.outside depth).step c = .outside (depth - 1) := by
  rcases eq_of_closesBracket h with rfl | rfl <;> rfl

theorem step_quote (h : isQuote c = true) :
    (Nesting.outside depth).step c = ⟨.inside c, depth⟩ := by
  rcases eq_of_isQuote h with rfl | rfl <;> rfl

/-- Blanks leave the walk where it is. -/
theorem step_blank (h : isBlank c = true) : (Nesting.outside depth).step c = .outside depth := by
  refine step_plain (not_isQuote_of_isBlank h) (Bool.eq_false_iff.mpr fun hopen => ?_)
    (Bool.eq_false_iff.mpr fun hclose => ?_)
  · rcases eq_of_opensBracket hopen with rfl | rfl <;> exact absurd h (by decide)
  · rcases eq_of_closesBracket hclose with rfl | rfl <;> exact absurd h (by decide)

/-- Inside a quotation brackets are not counted. -/
theorem step_of_mark? {quote : Char} (h : st.quoting.mark? = some quote) :
    st.step c = ⟨st.quoting.step c, st.depth⟩ := by
  rw [step, if_neg (ne_outside_of_mark? h)]

theorem after_of_closesAtEnd {quote : Char} (hmark : st.quoting.mark? = some quote)
    (h : closesAtEnd st.quoting cs = true) : st.after cs = .outside st.depth := by
  induction cs generalizing st with
  | nil => cases h
  | cons c cs ih =>
      rw [after_cons, step_of_mark? hmark]
      rw [closesAtEnd] at h
      split at h
      case isTrue hstep =>
        rw [List.isEmpty_iff.mp h, hstep]
        rfl
      case isFalse hstep => exact ih (mark?_step hmark hstep) h

theorem after_quotation (h : isQuotation cs = true) :
    (Nesting.outside depth).after cs = .outside depth := by
  cases cs with
  | nil => cases h
  | cons c cs =>
      obtain ⟨hquote, hcloses⟩ := Bool.and_eq_true_iff.mp h
      rw [after_cons, step_quote hquote]
      exact after_of_closesAtEnd rfl hcloses

/-- A walk inside a quotation that ends outside of quotations leaves the quotation. -/
theorem exists_closesAtEnd_of_after {quote : Char} (hmark : st.quoting.mark? = some quote)
    (h : st.after cs = {}) :
    ∃ front back, cs = front ++ back ∧ closesAtEnd st.quoting front = true ∧
      (Nesting.outside st.depth).after back = {} := by
  induction cs generalizing st with
  | nil =>
      have houtside : st.quoting = .outside := congrArg Nesting.quoting h
      exact absurd houtside (ne_outside_of_mark? hmark)
  | cons c cs ih =>
      rw [after_cons, step_of_mark? hmark] at h
      by_cases hstep : st.quoting.step c = .outside
      · rw [hstep] at h
        exact ⟨[c], cs, rfl, by rw [closesAtEnd, if_pos hstep]; rfl, h⟩
      · obtain ⟨front, back, rfl, hcloses, hback⟩ := ih (mark?_step hmark hstep) h
        exact ⟨c :: front, back, rfl, by rw [closesAtEnd, if_neg hstep, hcloses], hback⟩

end Nesting

/-- Closed texts leave the walk where it is, whatever is open around them. -/
theorem Closed.after_eq (h : Closed cs) (depth : Nat) :
    (Nesting.outside depth).after cs = .outside depth := by
  induction h generalizing depth with
  | nil => rfl
  | plain hquote hopen hclose _ ih =>
      rw [Nesting.after_cons, Nesting.step_plain hquote hopen hclose, ih]
  | quotation hquotation _ ih =>
      rw [Nesting.after_append, Nesting.after_quotation hquotation, ih]
  | group hopen hclose _ _ ihinner ih =>
      rw [Nesting.after_cons, Nesting.step_open hopen, Nesting.after_append, ihinner,
        Nesting.after_cons, Nesting.step_close hclose, Nat.add_sub_cancel, ih]

theorem AtTop.after_eq (h : AtTop cs) : Nesting.after {} cs = {} := by
  induction h with
  | closed h => exact h.after_eq 0
  | stray hfront hclose _ ih =>
      rw [Nesting.after_append, hfront.after_eq 0, Nesting.after_cons, Nesting.step_close hclose]
      exact ih

/-- What a walk that ends with nothing open tells of the text: it is at top itself, or it begins
with a closed text and the bracket that closes the innermost open one. -/
def Unwinds : Nat → List Char → Prop
  | 0, cs => AtTop cs
  | depth + 1, cs => ∃ inner c back, cs = inner ++ c :: back ∧ Closed inner ∧
      closesBracket c = true ∧ (Nesting.outside depth).after back = {}

theorem AtTop.append {front : List Char} (hfront : ∀ cs, Closed cs → Closed (front ++ cs))
    (h : AtTop cs) : AtTop (front ++ cs) := by
  cases h with
  | closed h => exact .closed (hfront cs h)
  | @stray inner back c hinner hclose h =>
      rw [← List.append_assoc]
      exact .stray (hfront inner hinner) hclose h

theorem Unwinds.append {front : List Char} (hfront : ∀ cs, Closed cs → Closed (front ++ cs))
    (h : Unwinds depth cs) : Unwinds depth (front ++ cs) := by
  cases depth with
  | zero => exact AtTop.append hfront h
  | succ depth =>
      obtain ⟨inner, c, back, rfl, hinner, hclose, hback⟩ := h
      exact ⟨front ++ inner, c, back, by rw [List.append_assoc], hfront inner hinner, hclose, hback⟩

theorem unwinds_of_after_eq (h : (Nesting.outside depth).after cs = {}) : Unwinds depth cs := by
  -- Behind a group the walk goes on from its end, not from the next character, so the induction is
  -- on the length.
  induction hlength : cs.length using Nat.strongRecOn generalizing cs depth with
  | ind n ih =>
      subst hlength
      cases cs with
      | nil =>
          obtain rfl : depth = 0 := congrArg Nesting.depth h
          exact .closed .nil
      | cons c cs =>
          rw [Nesting.after_cons] at h
          have hlt : cs.length < (c :: cs).length := Nat.lt_succ_self _
          cases hquote : isQuote c with
          | true =>
              rw [Nesting.step_quote hquote] at h
              obtain ⟨front, back, rfl, hcloses, hback⟩ := Nesting.exists_closesAtEnd_of_after rfl h
              have hlt : back.length < (c :: (front ++ back)).length := by
                simp only [List.length_cons, List.length_append]
                omega
              have hquotation : isQuotation (c :: front) = true :=
                Bool.and_eq_true_iff.mpr ⟨hquote, hcloses⟩
              exact (ih back.length hlt hback rfl).append fun _ => .quotation hquotation
          | false =>
              cases hclose : closesBracket c with
              | true =>
                  rw [Nesting.step_close hclose] at h
                  cases depth with
                  | zero => exact .stray .nil hclose (ih cs.length hlt h rfl)
                  | succ depth => exact ⟨[], c, cs, rfl, .nil, hclose, h⟩
              | false =>
                  cases hopen : opensBracket c with
                  | true =>
                      rw [Nesting.step_open hopen] at h
                      obtain ⟨inner, d, back, rfl, hinner, hd, hback⟩ := ih cs.length hlt h rfl
                      have hlt : back.length < (c :: (inner ++ d :: back)).length := by
                        simp only [List.length_cons, List.length_append]
                        omega
                      have hgroup : ∀ cs, Closed cs → Closed (c :: (inner ++ [d]) ++ cs) :=
                        fun cs hcs => by simpa using Closed.group hopen hd hinner hcs
                      simpa using (ih back.length hlt hback rfl).append hgroup
                  | false =>
                      rw [Nesting.step_plain hquote hopen hclose] at h
                      have hplain : ∀ cs, Closed cs → Closed ([c] ++ cs) :=
                        fun _ => .plain hquote hopen hclose
                      exact (ih cs.length hlt h rfl).append hplain

/-- The walk is outside of quotations and brackets just behind the texts that leave nothing open. -/
theorem atTop_iff : AtTop cs ↔ Nesting.after {} cs = {} :=
  ⟨AtTop.after_eq, fun h => (unwinds_of_after_eq h : Unwinds 0 cs)⟩

end Walks

/-! ## Cuts -/

/-- An ASCII character that is neither a quotation mark nor a bracket. -/
structure IsSeparator (c : Char) : Prop where
  ascii : c.toNat < 0x80
  quote : isQuote c = false
  opens : opensBracket c = false
  closes : closesBracket c = false

/-- Two of the pieces meet behind the text `front`: it is what the pieces up to there make up. -/
def IsCut (separator : Char) (pieces : List (List Char)) (front : List Char) : Prop :=
  ∃ before after, before ≠ [] ∧ after ≠ [] ∧ pieces = before ++ after ∧
    front = [separator].intercalate before

section Cuts

variable {separator : Char} {st : Nesting} {cs front : List Char} {pieces : List (List Char)}

theorem IsSeparator.cuts (h : IsSeparator separator) :
    Nesting.cuts (· == separator) {} separator = true := by
  simp [Nesting.cuts, h.quote, h.opens, h.closes]

theorem IsSeparator.step_eq (h : IsSeparator separator) : Nesting.step {} separator = {} :=
  Nesting.step_plain h.quote h.opens h.closes

theorem isCut_singleton : ¬IsCut separator [cs] front := by
  rintro ⟨before, after, hbefore, hafter, heq, -⟩
  rcases List.append_eq_singleton_iff.mp heq.symm with ⟨rfl, -⟩ | ⟨-, rfl⟩
  · exact hbefore rfl
  · exact hafter rfl

/-- The first cut is behind the first piece, and the others are those of the pieces that follow. -/
theorem isCut_cons_iff {piece : List Char} (hpieces : pieces ≠ []) :
    IsCut separator (piece :: pieces) front ↔ front = piece ∨
      ∃ front', front = piece ++ separator :: front' ∧ IsCut separator pieces front' := by
  constructor
  · rintro ⟨before, after, hbefore, hafter, heq, rfl⟩
    obtain ⟨piece', before, rfl⟩ := List.exists_cons_of_ne_nil hbefore
    obtain ⟨rfl, rfl⟩ := List.cons.inj heq
    cases before with
    | nil => exact .inl (by simp [List.intercalate])
    | cons next before =>
        refine .inr ⟨_, ?_, next :: before, after, List.cons_ne_nil _ _, hafter, rfl, rfl⟩
        rw [List.intercalate_cons_of_ne_nil (List.cons_ne_nil _ _)]
        simp
  · rintro (rfl | ⟨front', rfl, before, after, hbefore, hafter, rfl, rfl⟩)
    · exact ⟨[front], pieces, List.cons_ne_nil _ _, hpieces, rfl, by simp [List.intercalate]⟩
    · refine ⟨piece :: before, after, List.cons_ne_nil _ _, hafter, rfl, ?_⟩
      rw [List.intercalate_cons_of_ne_nil hbefore]
      simp

/-- A text is cut just at the separators that stand outside of quotations and brackets. -/
theorem PiecesFrom.isCut_iff (hseparator : IsSeparator separator)
    (h : PiecesFrom (· == separator) st cs pieces) (front : List Char) :
    IsCut separator pieces front ↔
      (∃ back, cs = front ++ separator :: back) ∧ st.after front = {} := by
  have hcuts {st : Nesting} {cs : List Char} (huncut : Uncut (· == separator) st cs)
      {front back : List Char} (heq : cs = front ++ separator :: back) : st.after front ≠ {} := by
    intro hafter
    have hfalse := huncut front separator back heq
    rw [hafter, hseparator.cuts] at hfalse
    cases hfalse
  induction h generalizing front with
  | last uncut =>
      refine iff_of_false isCut_singleton ?_
      rintro ⟨⟨back, heq⟩, hafter⟩
      exact hcuts uncut heq hafter
  | @cut st piece rest c pieces uncut cuts more ih =>
      obtain rfl : c = separator := by
        simp only [Nesting.cuts, Bool.and_eq_true, beq_iff_eq] at cuts
        exact cuts.2
      have hpiece : st.after piece = {} := Nesting.eq_of_cuts cuts
      have hafter (front' : List Char) :
          st.after (piece ++ c :: front') = Nesting.after {} front' := by
        rw [Nesting.after_append, hpiece, Nesting.after_cons, hseparator.step_eq]
      rw [isCut_cons_iff more.ne_nil]
      constructor
      · rintro (rfl | ⟨front', rfl, hcut⟩)
        · exact ⟨⟨rest, rfl⟩, hpiece⟩
        · obtain ⟨⟨back, rfl⟩, hfront'⟩ := (ih front').mp hcut
          exact ⟨⟨back, by rw [List.append_assoc]; rfl⟩, (hafter front').trans hfront'⟩
      · rintro ⟨⟨back, heq⟩, hfront⟩
        rcases List.append_eq_append_iff.mp heq with ⟨gap, rfl, hgap⟩ | ⟨gap, rfl, hgap⟩
        · cases gap with
          | nil => exact .inl (List.append_nil _)
          | cons d front' =>
              obtain ⟨rfl, rfl⟩ := List.cons.inj hgap
              rw [hafter] at hfront
              exact .inr ⟨front', rfl, (ih front').mpr ⟨⟨back, rfl⟩, hfront⟩⟩
        · cases gap with
          | nil => exact .inl (List.append_nil _).symm
          | cons d gap =>
              obtain ⟨rfl, -⟩ := List.cons.inj hgap
              exact absurd hfront (hcuts uncut rfl)

end Cuts

/-! ## Trimmed pieces -/

section Trimmed

variable {separates : Char → Bool} {st : Nesting} {cs ds : List Char}

theorem trim_trim (cs : List Char) : trim (trim cs) = trim cs := by
  have hstart : trimStart (trim cs) = trim cs := by
    rw [← Source.trimStart_trimEnd, trimStart, trimStart, List.dropWhile_idempotent]
  rw [trim, hstart, trim, trimEnd, trimEnd, List.reverse_reverse, List.dropWhile_idempotent]

theorem Uncut.of_append (h : Uncut separates st (cs ++ ds)) : Uncut separates st cs := by
  rintro front c back rfl
  exact h front c (back ++ ds) (by simp)

theorem Uncut.trimStart (h : Uncut separates {} cs) : Uncut separates {} (trimStart cs) := by
  induction cs with
  | nil => exact h
  | cons c cs ih =>
      rw [Text.trimStart]
      by_cases hc : isBlank c = true
      · have hmore := (uncut_cons_iff.mp h).2
        rw [Nesting.step_blank hc] at hmore
        rw [List.dropWhile_cons_of_pos hc]
        exact ih hmore
      · rwa [List.dropWhile_cons_of_neg hc]

/-- A piece without the blanks around it is cut no further. -/
theorem Uncut.trim (h : Uncut separates {} cs) : Uncut separates {} (trim cs) := by
  obtain ⟨back, hback⟩ := Source.trimEnd_isPrefix (Text.trimStart cs)
  have hstart := h.trimStart
  rw [← hback] at hstart
  exact hstart.of_append

end Trimmed

/-! ## Lists -/

theorem not_all_isBlank_trim {cs : List Char} (h : trim cs ≠ []) :
    (trim cs).all isBlank = false := by
  rw [Bool.eq_false_iff, Ne, List.all_eq_true]
  intro hall
  refine h ?_
  have hstart : trimStart (trim cs) = [] := List.dropWhile_eq_nil_iff.mpr hall
  rw [← trim_trim, trim, hstart]
  rfl

/-- Splitting a text that is not blank loses nothing of it.  The text is made of pieces with the
separator between them, and the items are the trimmed pieces.  The pieces meet just at the
separators before which nothing is open.  And an item that is not empty is a list of one item. -/
theorem splitList_loses_nothing {separator : Char} {cs : List Char}
    (hseparator : IsSeparator separator) (hcs : ∃ c ∈ cs, isBlank c = false) :
    ∃ pieces, [separator].intercalate pieces = cs ∧ splitList separator cs = pieces.map trim ∧
      (∀ front, IsCut separator pieces front ↔
        (∃ back, cs = front ++ separator :: back) ∧ AtTop front) ∧
      ∀ item ∈ splitList separator cs, item ≠ [] → splitList separator item = [item] := by
  have hsplit {cs : List Char} (h : cs.all isBlank = false) :
      splitList separator cs = (cut (· == separator) cs).map trim := by
    rw [splitList, h, if_neg Bool.false_ne_true, listPieces, if_pos hseparator.ascii]
  have hblank : cs.all isBlank = false := by
    obtain ⟨c, hc, hnot⟩ := hcs
    exact List.all_eq_false.mpr ⟨c, hc, by simp [hnot]⟩
  have hpieces := pieces_cut (· == separator) cs
  refine ⟨cut (· == separator) cs, hpieces.intercalate, hsplit hblank, fun front => ?_, ?_⟩
  · rw [hpieces.isCut_iff hseparator, atTop_iff]
  · intro item hitem hne
    rw [hsplit hblank] at hitem
    obtain ⟨piece, hpiece, rfl⟩ := List.mem_map.mp hitem
    have huncut : Uncut (· == separator) {} piece := uncut_of_mem_cut hpiece
    rw [hsplit (not_all_isBlank_trim hne), cut, cutFrom_of_uncut huncut.trim, List.map_singleton,
      trim_trim]

/-- The commas in the brackets and in the quotation do not cut. -/
theorem splitList_of_commas :
    IsSeparator ',' ∧ (∃ c ∈ "a, f[1, 2] ,\"b, c\"".toList, isBlank c = false) ∧
    splitList ',' "a, f[1, 2] ,\"b, c\"".toList =
      ["a".toList, "f[1, 2]".toList, "\"b, c\"".toList] ∧
    ∃ pieces, [','].intercalate pieces = "a, f[1, 2] ,\"b, c\"".toList ∧
      splitList ',' "a, f[1, 2] ,\"b, c\"".toList = pieces.map trim ∧
      (∀ front, IsCut ',' pieces front ↔
        (∃ back, "a, f[1, 2] ,\"b, c\"".toList = front ++ ',' :: back) ∧ AtTop front) ∧
      ∀ item ∈ splitList ',' "a, f[1, 2] ,\"b, c\"".toList, item ≠ [] →
        splitList ',' item = [item] :=
  have hcomma : IsSeparator ',' := ⟨by decide, rfl, rfl, rfl⟩
  have hsome : ∃ c ∈ "a, f[1, 2] ,\"b, c\"".toList, isBlank c = false := ⟨'a', by decide, by decide⟩
  ⟨hcomma, hsome, by decide, splitList_loses_nothing hcomma hsome⟩

end WidgetStyle.Value
