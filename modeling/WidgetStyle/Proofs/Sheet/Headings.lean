import WidgetStyle.Proofs.Selector.Tiers
import WidgetStyle.Sheet.Stylesheet

/-!
# WidgetStyle.Proofs.Sheet.Headings — headings of any length

Nothing bounds how much a selector can ask for.  This module follows a heading of ids in a row,
`#a#a…#a` (`idRun`), through all stages of reading: its lexemes (`lexemes_idRun`), the item it heads
(`items_idRun`), its selector (`parse_idRun`) and the specificity of that selector
(`specificity_idRun`).  The specificity counts all the ids, up to the highest count of a tier.

Each stage is passed by a lemma on the texts that it does not change: text without blanks is its own
normal form, text without slashes and quotation marks holds no comment, and so on.
-/

namespace WidgetStyle

open Text Value Source

/-! ## Texts that a stage leaves alone -/

section Plain

variable {cs : List Char}

theorem trimStart_eq_self (h : ∀ c ∈ cs, isBlank c = false) : trimStart cs = cs := by
  cases cs with
  | nil => rfl
  | cons c cs => simp [trimStart, h c List.mem_cons_self]

theorem trim_eq_self (h : ∀ c ∈ cs, isBlank c = false) : trim cs = cs := by
  have hreverse : trimStart cs.reverse = cs.reverse :=
    trimStart_eq_self fun c hc => h c (List.mem_reverse.mp hc)
  rw [trim, trimStart_eq_self h, trimEnd]
  exact (congrArg List.reverse hreverse).trans (List.reverse_reverse cs)

theorem wordsFrom_of_no_blank (h : ∀ c ∈ cs, isBlank c = false) (word rest : List Char)
    (found : List (List Char)) :
    wordsFrom (cs ++ rest) word found = wordsFrom rest (cs.reverse ++ word) found := by
  induction cs generalizing word with
  | nil => rfl
  | cons c cs ih =>
      rw [List.cons_append, wordsFrom, h c List.mem_cons_self, if_neg Bool.false_ne_true,
        ih fun d hd => h d (List.mem_cons_of_mem _ hd), List.reverse_cons, List.append_assoc,
        List.singleton_append]

theorem collapseBlanks_eq_self (h : ∀ c ∈ cs, isBlank c = false) : collapseBlanks cs = cs := by
  rw [collapseBlanks, words, ← List.append_nil cs, wordsFrom_of_no_blank h]
  cases cs with
  | nil => rfl
  | cons c cs => simp [wordsFrom, List.intercalate]

theorem blankComments_eq_self (h : ∀ c ∈ cs, c ≠ '/' ∧ isQuote c = false) :
    blankComments cs = cs := by
  rw [blankComments]
  induction cs with
  | nil => rfl
  | cons c cs ih =>
      obtain ⟨hslash, hquote⟩ := h c List.mem_cons_self
      rw [blankFrom, if_neg (by simp [hquote]), ih fun d hd => h d (List.mem_cons_of_mem _ hd)]
      intro _ heq
      exact absurd heq hslash

theorem splitAt_of_not_mem {separator : Char} (h : separator ∉ cs) (piece : List Char) :
    Text.splitAt separator cs piece = [piece.reverse ++ cs] := by
  induction cs generalizing piece with
  | nil => simp [Text.splitAt]
  | cons c cs ih =>
      have hc : (c == separator) = false := by
        rw [beq_eq_false_iff_ne]
        rintro rfl
        exact h List.mem_cons_self
      rw [Text.splitAt, hc, if_neg Bool.false_ne_true,
        ih fun hmem => h (List.mem_cons_of_mem _ hmem)]
      simp

end Plain

/-! ## Lexemes, components and items -/

/-- Lexemes that open no block are components by themselves. -/
theorem components_append {xs : List Lexeme} (h : ∀ x ∈ xs, x.opens = none) (ys : List Lexeme) :
    components (xs ++ ys) = (xs.map fun x => ⟨x, [], none⟩) ++ components ys := by
  induction xs with
  | nil => rfl
  | cons x xs ih =>
      have hfirst : firstComponent x (xs ++ ys) = ⟨x, [], none⟩ := by
        rw [firstComponent, h x List.mem_cons_self]
      rw [List.cons_append, components_cons, hfirst]
      change _ :: components (xs ++ ys) = _
      rw [ih fun y hy => h y (List.mem_cons_of_mem _ hy)]
      rfl

/-- A heading goes up to its body. -/
theorem itemsIn_heading {c body : Component} {cs more : List Component}
    (kind : c.head.kind = .hash) (noBody : ∀ x ∈ c :: cs, x.isBody = false)
    (hbody : body.isBody = true) :
    itemsIn (c :: cs ++ body :: more) = .rule (c :: cs) body.inside :: itemsIn more := by
  have hgap : c.isGap = false := by simp [Component.isGap, kind]
  have hvariable : startsVariable (c :: (cs ++ body :: more)) = false := by
    simp [startsVariable, hgap, kind]
  have honwards : onwards Component.isBody (c :: (cs ++ body :: more)) = body :: more := by
    rw [onwards, ← List.cons_append, List.dropWhile_append_of_pos fun x hx => by rw [noBody x hx]; rfl,
      List.dropWhile_cons_of_neg (by simp [hbody])]
  have hbefore : before Component.isBody (c :: (cs ++ body :: more)) = c :: cs := by
    rw [before, ← List.cons_append, List.takeWhile_append_of_pos fun x hx => by rw [noBody x hx]; rfl,
      List.takeWhile_cons_of_neg (by simp [hbody]), List.append_nil]
  rw [List.cons_append, itemsIn, honwards, hbefore, hvariable]
  simp [Component.isBetweenItems, hgap, kind]

/-! ## Ids in a row -/

/-- The id `#a`, written as many times as the argument says. -/
def idRun (n : Nat) : List Char := (List.replicate n ['#', 'a']).flatten

theorem mem_idRun {n : Nat} {c : Char} (h : c ∈ idRun n) : c = '#' ∨ c = 'a' := by
  obtain ⟨id, hid, hc⟩ := List.mem_flatten.mp h
  rw [List.eq_of_mem_replicate hid] at hc
  simpa using hc

theorem idRun_succ (n : Nat) : idRun (n + 1) = '#' :: 'a' :: idRun n := by
  simp [idRun, List.replicate_succ]

/-- The lexeme `#a`. -/
def idLexeme : Lexeme := ⟨.hash, ['#', 'a']⟩

theorem firstLexeme_id {rest : List Char} (h : nameExtent rest = 0) :
    firstLexeme '#' ('a' :: rest) = idLexeme := by
  have hextent : nameExtent ('a' :: rest) = 1 := congrArg (· + 1) h
  have hmeasure : measure '#' ('a' :: rest) = (.hash, 1 + nameExtent ('a' :: rest)) := rfl
  rw [firstLexeme, hmeasure, hextent]
  rfl

theorem lexemes_idRun (n : Nat) (rest : List Char) :
    lexemes (idRun n ++ '{' :: rest) = List.replicate n idLexeme ++ lexemes ('{' :: rest) := by
  induction n with
  | zero => rfl
  | succ n ih =>
      have hfirst : firstLexeme '#' ('a' :: (idRun n ++ '{' :: rest)) = idLexeme := by
        cases n <;> exact firstLexeme_id rfl
      rw [idRun_succ, List.cons_append, List.cons_append, lexemes_cons, hfirst, List.replicate_succ,
        List.cons_append, ← ih]
      rfl

/-- The component `#a`. -/
def idComponent : Component := ⟨idLexeme, [], none⟩

theorem sourceText_idRun (n : Nat) : sourceText (List.replicate n idComponent) = idRun n := by
  rw [sourceText, idRun, List.flatMap_replicate]
  rfl

theorem isBlank_idRun {n : Nat} : ∀ c ∈ idRun n, isBlank c = false := by
  intro c hc
  rcases mem_idRun hc with rfl | rfl <;> decide

theorem headingText_idRun (n : Nat) :
    headingText (List.replicate n idComponent) = String.ofList (idRun n) := by
  have hplain : ∀ c ∈ idRun n, c ≠ '/' ∧ isQuote c = false := by
    intro c hc
    rcases mem_idRun hc with rfl | rfl <;> decide
  rw [headingText, sourceText_idRun, blankComments_eq_self hplain, trim_eq_self isBlank_idRun]

/-- The item of a heading of ids: the ids, and whatever the body holds. -/
theorem items_idRun (n : Nat) {rest : List Char} {body : Component} (hbody : body.isBody = true)
    (h : components (lexemes ('{' :: rest)) = [body]) :
    items (lexemes (idRun (n + 1) ++ '{' :: rest)) =
      [.rule (List.replicate (n + 1) idComponent) body.inside] := by
  have hopens : ∀ x ∈ List.replicate (n + 1) idLexeme, x.opens = none := by
    intro x hx
    rw [List.eq_of_mem_replicate hx]
    rfl
  have hnoBody : ∀ x ∈ List.replicate (n + 1) idComponent, x.isBody = false := by
    intro x hx
    rw [List.eq_of_mem_replicate hx]
    rfl
  rw [items, lexemes_idRun, components_append hopens, h, List.map_replicate]
  rw [List.replicate_succ] at hnoBody ⊢
  change dropEncoding (itemsIn (idComponent :: List.replicate n idComponent ++ [body])) = _
  rw [itemsIn_heading rfl hnoBody hbody, itemsIn]
  rfl

/-! ## The selector -/

theorem first_id {rest : List Char} (h : SelectorMark.ident rest = []) :
    SelectorMark.first '#' ('a' :: rest) = (.simple (.hasId "a"), 1) := by
  have hident : SelectorMark.ident ('a' :: rest) = ['a'] := congrArg ('a' :: ·) h
  have hfirst : SelectorMark.first '#' ('a' :: rest) =
      (SelectorMark.named .hasId (SelectorMark.ident ('a' :: rest)),
        (SelectorMark.ident ('a' :: rest)).length) := rfl
  rw [hfirst, hident]
  rfl

theorem readFrom_idRun (n : Nat) (found : List SelectorMark) :
    SelectorMark.readFrom 0 (idRun n) found =
      found.reverse ++ List.replicate n (.simple (.hasId "a")) := by
  induction n generalizing found with
  | zero => exact (List.append_nil _).symm
  | succ n ih =>
      have hfirst : SelectorMark.first '#' ('a' :: idRun n) = (.simple (.hasId "a"), 1) := by
        cases n <;> exact first_id rfl
      rw [idRun_succ, SelectorMark.readFrom, hfirst]
      simp only [SelectorMark.readFrom]
      rw [ih, List.reverse_cons, List.append_assoc, List.replicate_succ]
      rfl

theorem foldl_step_idRun (n k : Nat) :
    (List.replicate n (SelectorMark.simple (.hasId "a"))).foldl SelectorDraft.step
      { simples := List.replicate k (.hasId "a") } =
      { simples := List.replicate (k + n) (.hasId "a") } := by
  induction n generalizing k with
  | zero => rfl
  | succ n ih =>
      have hstep : SelectorDraft.step { simples := List.replicate k (.hasId "a") }
          (.simple (.hasId "a")) = { simples := List.replicate (k + 1) (.hasId "a") } := by
        cases k <;> rfl
      rw [List.replicate_succ, List.foldl_cons, hstep, ih, Nat.add_assoc, Nat.add_comm 1 n]

/-- The selector of ids in a row asks for all of them. -/
theorem parse_idRun (n : Nat) :
    Selector.parse (String.ofList (idRun n)) =
      ⟨⟨List.replicate n (.hasId "a")⟩, [], String.ofList (idRun n)⟩ := by
  have hdraft : (List.replicate n (SelectorMark.simple (.hasId "a"))).foldl SelectorDraft.step {} =
      { simples := List.replicate n (.hasId "a") } :=
    (foldl_step_idRun n 0).trans (by rw [Nat.zero_add])
  rw [Selector.parse, String.toList_ofList, collapseBlanks_eq_self isBlank_idRun,
    SelectorMark.read, readFrom_idRun, List.reverse_nil, List.nil_append, hdraft]
  cases n with
  | zero => rfl
  | succ n =>
      rw [SelectorDraft.finish, SelectorDraft.close, if_neg (by simp)]
      simp

theorem specificity_idRun (n : Nat) :
    (Selector.parse (String.ofList (idRun n))).specificity = ⟨saturate n, 0, 0⟩ := by
  refine Specificity.ext_count fun tier => ?_
  have hsimples : (Selector.mk ⟨List.replicate n (.hasId "a")⟩ [] (String.ofList (idRun n))).simples =
      List.replicate n (.hasId "a") := List.append_nil _
  rw [parse_idRun, Selector.count_specificity, hsimples]
  cases tier <;>
    simp [tally, List.countP_replicate, SimpleSelector.tier?, Specificity.count, saturate]

theorem parseList_idRun (n : Nat) :
    Selector.parseList (String.ofList (idRun (n + 1))) =
      [.parse (String.ofList (idRun (n + 1)))] := by
  have hcomma : ',' ∉ idRun (n + 1) := by
    intro h
    rcases mem_idRun h with h | h <;> exact absurd h (by decide)
  have hsome : (Selector.parse (String.ofList (idRun (n + 1)))).isEmpty = false := by
    rw [parse_idRun]
    rfl
  rw [Selector.parseList, String.toList_ofList, splitAt_of_not_mem hcomma]
  simp [hsome]

/-- A text of ids and a body is read as one rule. -/
theorem parse_heading (r : Registry) (n : Nat) {rest : List Char} {body : Component}
    (hbody : body.isBody = true) (h : components (lexemes ('{' :: rest)) = [body]) :
    Stylesheet.parse r (String.ofList (idRun (n + 1) ++ '{' :: rest)) =
      Stylesheet.empty.append (StyleRule.ofDeclarations r
        (.parse (String.ofList (idRun (n + 1)))) (declarationsIn (components body.inside))) := by
  have hmark : dropByteOrderMark (idRun (n + 1) ++ '{' :: rest) = idRun (n + 1) ++ '{' :: rest := by
    rw [idRun_succ]
    rfl
  have hrule : (Item.rule (List.replicate (n + 1) idComponent) body.inside).rule? =
      some ⟨String.ofList (idRun (n + 1)), declarationsIn (components body.inside)⟩ := by
    rw [Item.rule?, headingText_idRun]
    refine if_neg fun hempty => ?_
    have hnil := congrArg String.toList hempty
    rw [String.toList_ofList, idRun_succ] at hnil
    exact List.cons_ne_nil _ _ hnil
  have hkeyframes : (Item.rule (List.replicate (n + 1) idComponent) body.inside).keyframes? = none :=
    rfl
  rw [Stylesheet.parse, Sheet.parse, String.toList_ofList, hmark, items_idRun n hbody h,
    Stylesheet.ofSource, Sheet.ofItems]
  simp only [List.filterMap_cons, hrule, hkeyframes, List.filterMap_nil, List.map_nil,
    List.flatMap_cons, List.flatMap_nil, Stylesheet.rulesOfSource, parseList_idRun]
  rfl

end WidgetStyle
