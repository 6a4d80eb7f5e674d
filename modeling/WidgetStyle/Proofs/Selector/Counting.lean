import WidgetStyle.Proofs.Selector.Grammar
import WidgetStyle.Proofs.Selector.Tiers

/-!
# WidgetStyle.Proofs.Selector.Counting — the specificity of a text

A selector has just the simple selectors that its text has marks for (`Selector.simples_parse`), so
the specificity of a text counts marks.  This module says what becomes of them when more is written
behind the text.  A mark that does not take the whole text stays as it is
(`SelectorMark.first_append`).  The last one may grow, but it goes on to count in the same tier, as
long as what is written behind it begins anew and does not continue a name
(`SelectorMark.tier?_first_append`).  So writing a simple selector or a compound behind a text never
makes its specificity lower (`Selector.within_parse_append`).

`Selector.specificity_counts` has this together with what a specificity counts.
-/

namespace WidgetStyle

open Text

/-! ## What is kept of a text -/

/-- The simple selector that a mark stands for, when it stands for one. -/
def SelectorMark.simple? : SelectorMark → Option SimpleSelector
  | .simple s => some s
  | .combinator _ | .gap | .skipped => none

namespace SelectorDraft

/-- All simple selectors that have been read. -/
def simplesRead (d : SelectorDraft) : List SimpleSelector :=
  (d.links.reverse.flatMap fun link => link.2.simples) ++ d.simples.reverse

theorem simplesRead_of_simples_eq_nil {d : SelectorDraft} (h : d.simples = []) :
    d.simplesRead = d.links.reverse.flatMap fun link => link.2.simples := by
  rw [simplesRead, h, List.reverse_nil, List.append_nil]

theorem simplesRead_close (d : SelectorDraft) : d.close.simplesRead = d.simplesRead := by
  rw [close]
  split
  · rfl
  · simp [simplesRead]

/-- A mark adds its simple selector and leaves the others as they are. -/
theorem simplesRead_step (d : SelectorDraft) (mark : SelectorMark) :
    (d.step mark).simplesRead = d.simplesRead ++ mark.simple?.toList := by
  cases mark with
  | combinator k =>
      have hpending : (d.step (.combinator k)).simplesRead = d.close.simplesRead := rfl
      rw [hpending, simplesRead_close]
      exact (List.append_nil _).symm
  | gap =>
      have hpending : (d.step .gap).simplesRead = d.close.simplesRead := by
        rw [step]
        split <;> rfl
      rw [hpending, simplesRead_close]
      exact (List.append_nil _).symm
  | simple s =>
      rw [step]
      split
      · next hnil =>
          rw [simplesRead_of_simples_eq_nil (List.isEmpty_iff.mp hnil)]
          rfl
      · simp [simplesRead, SelectorMark.simple?]
  | skipped => exact (List.append_nil _).symm

theorem simplesRead_foldl (marks : List SelectorMark) (d : SelectorDraft) :
    (marks.foldl step d).simplesRead = d.simplesRead ++ marks.filterMap SelectorMark.simple? := by
  induction marks generalizing d with
  | nil => exact (List.append_nil _).symm
  | cons mark marks ih =>
      rw [List.foldl_cons, ih, simplesRead_step, List.append_assoc, List.filterMap_cons]
      cases mark.simple? <;> rfl

theorem simples_finish (d : SelectorDraft) (text : String) :
    (d.finish text).simples = d.simplesRead := by
  have hclosed : d.simplesRead = d.close.links.reverse.flatMap fun link => link.2.simples := by
    rw [← simplesRead_close, simplesRead_of_simples_eq_nil (simples_close d)]
  rw [hclosed, finish]
  split
  · next hlinks =>
      rw [hlinks]
      rfl
  · next joint first rest hlinks =>
      rw [hlinks]
      simp [Selector.simples, Selector.compounds, List.flatMap_map]

end SelectorDraft

/-- A selector has just the simple selectors that stand in its text. -/
theorem Selector.simples_parse (text : String) :
    (parse text).simples =
      (SelectorMark.read (collapseBlanks text.toList)).filterMap SelectorMark.simple? := by
  rw [parse, SelectorDraft.simples_finish, SelectorDraft.simplesRead_foldl]
  rfl

/-! ## Marks of a text that goes on -/

namespace SelectorMark

section Front

variable {p : Char → Bool} {cs : List Char} (rest : List Char)

/-- A run that ends inside a text is the same when the text goes on. -/
theorem takeWhile_append_of_length_lt (h : (cs.takeWhile p).length < cs.length) :
    (cs ++ rest).takeWhile p = cs.takeWhile p := by
  rw [List.takeWhile_append, if_neg (Nat.ne_of_lt h)]

theorem takeWhile_drop_append_of_lt {n : Nat}
    (h : n + ((cs.drop n).takeWhile p).length < cs.length) :
    ((cs ++ rest).drop n).takeWhile p = (cs.drop n).takeWhile p := by
  have hshort : ((cs.drop n).takeWhile p).length < (cs.drop n).length := by
    rw [List.length_drop]
    omega
  rw [List.drop_append_of_le_length (by omega), takeWhile_append_of_length_lt rest hshort]

theorem exists_drop_eq_cons {n : Nat} (h : n < cs.length) :
    ∃ c more, cs.drop n = c :: more ∧ (cs ++ rest).drop n = c :: (more ++ rest) ∧
      n + 1 + more.length = cs.length := by
  have hmore : cs.drop n = cs[n] :: cs.drop (n + 1) := List.drop_eq_getElem_cons h
  refine ⟨cs[n], cs.drop (n + 1), hmore, ?_, ?_⟩
  · rw [List.drop_append_of_le_length (Nat.le_of_lt h), hmore, List.cons_append]
  · rw [List.length_drop]
    omega

end Front

variable {cs rest : List Char}

/-- A name ends where the text ends, when what follows it stops names. -/
theorem Stops.ident_eq (h : Stops rest) (cs : List Char) : ident (cs ++ rest) = ident cs := by
  have hrest : rest.takeWhile isIdentChar = [] := by
    cases rest with
    | nil => rfl
    | cons c rest => exact List.takeWhile_cons_of_neg (by simp [(h c rfl).1])
  rw [ident, ident, List.takeWhile_append, hrest]
  split
  · next hall =>
      rw [List.append_nil]
      exact ((List.takeWhile_sublist _).eq_of_length hall).symm
  · rfl

/-! ### Pseudo-classes -/

/-- A character closes the group, or it is passed by. -/
theorem groupExtent_cons (depth : Nat) (c : Char) :
    (∀ count cs, groupExtent depth count (c :: cs) = count + 1) ∨
      ∃ depth', ∀ count cs, groupExtent depth count (c :: cs) = groupExtent depth' (count + 1) cs := by
  by_cases hopen : c = '('
  · exact .inr ⟨depth + 1, fun count cs => by rw [groupExtent, if_pos hopen]⟩
  · by_cases hclose : c = ')'
    · by_cases hlast : depth ≤ 1
      · exact .inl fun count cs => by rw [groupExtent, if_neg hopen, if_pos hclose, if_pos hlast]
      · exact .inr ⟨depth - 1, fun count cs => by
          rw [groupExtent, if_neg hopen, if_pos hclose, if_neg hlast]⟩
    · exact .inr ⟨depth, fun count cs => by rw [groupExtent, if_neg hopen, if_neg hclose]⟩

theorem groupExtent_append {depth count : Nat} (h : groupExtent depth count cs < count + cs.length)
    (rest : List Char) : groupExtent depth count (cs ++ rest) = groupExtent depth count cs := by
  induction cs generalizing depth count with
  | nil => exact absurd h (Nat.lt_irrefl _)
  | cons c cs ih =>
      rw [List.cons_append]
      rcases groupExtent_cons depth c with hlast | ⟨depth', hpass⟩
      · rw [hlast, hlast]
      · rw [hpass, List.length_cons] at h
        rw [hpass, hpass, ih (by omega)]

/-- Where the name of a pseudo-class begins: behind a second colon, if there is one. -/
def pseudoStart (cs : List Char) : Nat := if cs.head? = some ':' then 1 else 0

/-- Where the name of a pseudo-class ends. -/
def pseudoEnd (cs : List Char) : Nat := pseudoStart cs + (ident (cs.drop (pseudoStart cs))).length

/-- The mark of a pseudo-class without arguments. -/
def pseudoMark (name : List Char) : SelectorMark :=
  match PseudoClass.ofName? (String.ofList name) with
  | some p => .simple (.pseudo p)
  | none => .skipped

theorem pseudo_eq (cs : List Char) : pseudo cs =
    if (cs.drop (pseudoEnd cs)).head? = some '(' then
      (.skipped, pseudoEnd cs + groupExtent 0 0 (cs.drop (pseudoEnd cs)))
    else (pseudoMark (ident (cs.drop (pseudoStart cs))), pseudoEnd cs) := by
  simp only [pseudo, pseudoMark, pseudoEnd, pseudoStart]
  generalize PseudoClass.ofName? _ = known
  cases known with
  | none => rfl
  | some p => rfl

theorem pseudoEnd_le (cs : List Char) : pseudoEnd cs ≤ (pseudo cs).2 := by
  rw [pseudo_eq]
  split
  · exact Nat.le_add_right _ _
  · exact Nat.le_refl _

theorem pseudoStart_append (hne : cs ≠ []) (rest : List Char) :
    pseudoStart (cs ++ rest) = pseudoStart cs := by
  rw [pseudoStart, pseudoStart, List.head?_append_of_ne_nil _ hne]

theorem pseudo_append (h : (pseudo cs).2 < cs.length) (rest : List Char) :
    pseudo (cs ++ rest) = pseudo cs := by
  have hend : pseudoEnd cs < cs.length := Nat.lt_of_le_of_lt (pseudoEnd_le cs) h
  have hne : cs ≠ [] := by
    rintro rfl
    exact absurd h (Nat.not_lt_zero _)
  have hname : ident ((cs ++ rest).drop (pseudoStart cs)) = ident (cs.drop (pseudoStart cs)) :=
    takeWhile_drop_append_of_lt rest hend
  have hends : pseudoEnd (cs ++ rest) = pseudoEnd cs := by
    rw [pseudoEnd, pseudoEnd, pseudoStart_append hne, hname]
  have hdrop : (cs ++ rest).drop (pseudoEnd cs) = cs.drop (pseudoEnd cs) ++ rest :=
    List.drop_append_of_le_length (Nat.le_of_lt hend)
  have hhead : ((cs ++ rest).drop (pseudoEnd cs)).head? = (cs.drop (pseudoEnd cs)).head? := by
    rw [hdrop, List.head?_append_of_ne_nil]
    rw [Ne, List.drop_eq_nil_iff]
    omega
  rw [pseudo_eq] at h
  rw [pseudo_eq, pseudo_eq, hends, hhead, pseudoStart_append hne, hname, hdrop]
  split
  · next hopen =>
      rw [if_pos hopen] at h
      have hlength : (cs.drop (pseudoEnd cs)).length = cs.length - pseudoEnd cs := List.length_drop
      simp only at h
      rw [groupExtent_append (by omega)]
  · rfl

/-! ### Attributes -/

theorem attributeValue_append (h : (attributeValue cs).2 < cs.length) (rest : List Char) :
    attributeValue (cs ++ rest) = attributeValue cs := by
  have hlead : (cs.takeWhile isAsciiBlank).length < cs.length := by
    simp only [attributeValue] at h
    split at h
    · exact h
    · split at h <;> simp only at h <;> omega
  obtain ⟨c, more, hdrop, hdrop', hlength⟩ := exists_drop_eq_cons rest hlead
  simp only [attributeValue, hdrop] at h
  simp only [attributeValue, takeWhile_append_of_length_lt rest hlead, hdrop, hdrop']
  split
  · next hquote =>
      rw [if_pos hquote] at h
      -- The closing mark is in the text: else the value would take all of it.
      have hvalue : (more.takeWhile (· != c)).length < more.length := by
        refine Nat.lt_of_le_of_ne (List.takeWhile_sublist _).length_le fun hall => ?_
        simp only [hall, List.drop_length, List.isEmpty_nil, if_true] at h
        omega
      obtain ⟨d, after, hmark, hmark', -⟩ := exists_drop_eq_cons rest hvalue
      rw [takeWhile_append_of_length_lt rest hvalue, hmark, hmark']
      rfl
  · next hquote =>
      rw [if_neg hquote] at h
      have hvalue : ((c :: more).takeWhile fun d => !isAsciiBlank d && d != ']').length <
          (c :: more).length := by
        simp only [List.length_cons] at h ⊢
        omega
      rw [← List.cons_append, takeWhile_append_of_length_lt rest hvalue]

/-- Where the name of an attribute begins. -/
def nameStart (cs : List Char) : Nat := (cs.takeWhile isAsciiBlank).length

/-- Where the name of an attribute ends. -/
def nameEnd (cs : List Char) : Nat := nameStart cs + (ident (cs.drop (nameStart cs))).length

/-- Where the sign of a value may stand. -/
def signPlace (cs : List Char) : Nat :=
  nameEnd cs + ((cs.drop (nameEnd cs)).takeWhile isAsciiBlank).length

/-- The value that is asked for, if there is a sign at that place, and where it ends. -/
def valueFrom (cs : List Char) (n : Nat) : Option (List Char) × Nat :=
  match cs.drop n with
  | '=' :: more => (some (attributeValue more).1, n + 1 + (attributeValue more).2)
  | _ => (none, n)

/-- The place behind the closing bracket, or the end of the text. -/
def behindBracket (cs : List Char) (n : Nat) : Nat :=
  n + ((cs.drop n).takeWhile (· != ']')).length +
    if (cs.drop (n + ((cs.drop n).takeWhile (· != ']')).length)).isEmpty then 0 else 1

/-- The mark of an attribute, with its value, if one is asked for. -/
def attributeMark (name : List Char) : Option (List Char) → SelectorMark
  | some value => named (fun name => .attributeIs name (String.ofList value)) (name.map Char.toLower)
  | none => named .hasAttribute (name.map Char.toLower)

theorem bracketed_eq (cs : List Char) : bracketed cs =
    (attributeMark (ident (cs.drop (nameStart cs))) (valueFrom cs (signPlace cs)).1,
      behindBracket cs (valueFrom cs (signPlace cs)).2) := by
  have hunfold : bracketed cs =
      match (valueFrom cs (signPlace cs)).1 with
      | some value => (attributeMark (ident (cs.drop (nameStart cs))) (some value),
          behindBracket cs (valueFrom cs (signPlace cs)).2)
      | none => (attributeMark (ident (cs.drop (nameStart cs))) none,
          behindBracket cs (valueFrom cs (signPlace cs)).2) := rfl
  rw [hunfold]
  cases (valueFrom cs (signPlace cs)).1 <;> rfl

theorem valueFrom_append {n : Nat} (hn : n < cs.length) (h : (valueFrom cs n).2 < cs.length)
    (rest : List Char) : valueFrom (cs ++ rest) n = valueFrom cs n := by
  obtain ⟨c, more, hdrop, hdrop', hlength⟩ := exists_drop_eq_cons rest hn
  rw [valueFrom, hdrop] at h
  rw [valueFrom, valueFrom, hdrop, hdrop']
  by_cases hsign : c = '='
  · subst hsign
    simp only at h
    simp only [attributeValue_append (by omega : (attributeValue more).2 < more.length) rest]
  · simp [hsign]

theorem behindBracket_append {n : Nat} (h : behindBracket cs n < cs.length) (rest : List Char) :
    behindBracket (cs ++ rest) n = behindBracket cs n := by
  have hjunk : n + ((cs.drop n).takeWhile (· != ']')).length < cs.length :=
    Nat.lt_of_le_of_lt (Nat.le_add_right _ _) h
  obtain ⟨c, more, hdrop, hdrop', -⟩ := exists_drop_eq_cons rest hjunk
  rw [behindBracket, behindBracket, takeWhile_drop_append_of_lt rest hjunk, hdrop, hdrop']
  rfl

theorem le_valueFrom (cs : List Char) (n : Nat) : n ≤ (valueFrom cs n).2 := by
  rw [valueFrom]
  split
  · simp only
    omega
  · exact Nat.le_refl n

theorem bracketed_append (h : (bracketed cs).2 < cs.length) (rest : List Char) :
    bracketed (cs ++ rest) = bracketed cs := by
  rw [bracketed_eq] at h
  have hvalue : (valueFrom cs (signPlace cs)).2 < cs.length :=
    Nat.lt_of_le_of_lt (Nat.le_trans (Nat.le_add_right _ _) (Nat.le_add_right _ _)) h
  have hsign : signPlace cs < cs.length := Nat.lt_of_le_of_lt (le_valueFrom cs _) hvalue
  have hend : nameEnd cs < cs.length := Nat.lt_of_le_of_lt (Nat.le_add_right _ _) hsign
  have hstart : nameStart cs < cs.length := Nat.lt_of_le_of_lt (Nat.le_add_right _ _) hend
  have hstarts : nameStart (cs ++ rest) = nameStart cs := by
    rw [nameStart, takeWhile_append_of_length_lt rest hstart, nameStart]
  have hname : ident ((cs ++ rest).drop (nameStart cs)) = ident (cs.drop (nameStart cs)) :=
    takeWhile_drop_append_of_lt rest hend
  have hends : nameEnd (cs ++ rest) = nameEnd cs := by
    rw [nameEnd, nameEnd, hstarts, hname]
  have hsigns : signPlace (cs ++ rest) = signPlace cs := by
    rw [signPlace, signPlace, hends, takeWhile_drop_append_of_lt rest hsign]
  rw [bracketed_eq, bracketed_eq, hstarts, hname, hsigns, valueFrom_append hsign hvalue,
    behindBracket_append h]

/-! ### All marks -/

/-- A mark is a single character, or goes on with a name, or is a bracket, or a pseudo-class. -/
theorem first_cases (c : Char) :
    (∃ mark, ∀ cs, first c cs = (mark, 0)) ∨
      (∃ mark : List Char → SelectorMark, ∀ cs, first c cs = (mark (ident cs), (ident cs).length)) ∨
      (∀ cs, first c cs = bracketed cs) ∨ ∀ cs, first c cs = pseudo cs := by
  by_cases hblank : isAsciiBlank c = true
  · exact .inl ⟨.gap, fun cs => by rw [first, if_pos hblank]⟩
  by_cases hany : c = '*'
  · exact .inl ⟨.simple .universal, fun cs => by rw [hany]; rfl⟩
  by_cases hclass : c = '.'
  · exact .inr (.inl ⟨named .hasClass, fun cs => by rw [hclass]; rfl⟩)
  by_cases hid : c = '#'
  · exact .inr (.inl ⟨named .hasId, fun cs => by rw [hid]; rfl⟩)
  by_cases hbracket : c = '['
  · exact .inr (.inr (.inl fun cs => by rw [hbracket]; rfl))
  by_cases hcolon : c = ':'
  · exact .inr (.inr (.inr fun cs => by rw [hcolon]; rfl))
  by_cases hchild : c = '>'
  · exact .inl ⟨.combinator .child, fun cs => by rw [hchild]; rfl⟩
  by_cases hadjacent : c = '+'
  · exact .inl ⟨.combinator .adjacentSibling, fun cs => by rw [hadjacent]; rfl⟩
  by_cases hgeneral : c = '~'
  · exact .inl ⟨.combinator .generalSibling, fun cs => by rw [hgeneral]; rfl⟩
  have hunfold (cs : List Char) : first c cs =
      if isIdentChar c then (named .hasTag ((c :: ident cs).map Char.toLower), (ident cs).length)
      else (.skipped, 0) := by
    rw [first, if_neg hblank, if_neg hany, if_neg hclass, if_neg hid, if_neg hbracket,
      if_neg hcolon, if_neg hchild, if_neg hadjacent, if_neg hgeneral]
  by_cases hident : isIdentChar c = true
  · exact .inr (.inl ⟨fun name => named .hasTag ((c :: name).map Char.toLower),
      fun cs => by rw [hunfold, if_pos hident]⟩)
  · exact .inl ⟨.skipped, fun cs => by rw [hunfold, if_neg hident]⟩

/-- A mark that does not take the whole text is the same when the text goes on. -/
theorem first_append {c : Char} (h : (first c cs).2 < cs.length) (rest : List Char) :
    first c (cs ++ rest) = first c cs := by
  rcases first_cases c with ⟨mark, hfirst⟩ | ⟨mark, hfirst⟩ | hfirst | hfirst
  · rw [hfirst, hfirst]
  · rw [hfirst] at h
    have hident : ident (cs ++ rest) = ident cs := takeWhile_append_of_length_lt rest h
    rw [hfirst, hfirst, hident]
  · rw [hfirst] at h
    rw [hfirst, hfirst, bracketed_append h]
  · rw [hfirst] at h
    rw [hfirst, hfirst, pseudo_append h]

/-- The tier that a mark counts in, when it counts. -/
def tier? (mark : SelectorMark) : Option Tier := mark.simple?.bind SimpleSelector.tier?

theorem tier?_named {build : String → SimpleSelector} {tier : Tier}
    (h : ∀ name, (build name).tier? = some tier) (name : List Char) :
    (named build name).tier? = if name.isEmpty then none else some tier := by
  rw [named]
  split
  · rfl
  · exact h _

theorem tier?_bracketed (cs : List Char) :
    (bracketed cs).1.tier? =
      if (ident (cs.drop (nameStart cs))).isEmpty then none else some .classes := by
  rw [bracketed_eq]
  cases (valueFrom cs (signPlace cs)).1 with
  | none => rw [attributeMark, tier?_named fun _ => rfl, List.isEmpty_map]
  | some value => rw [attributeMark, tier?_named fun _ => rfl, List.isEmpty_map]

theorem tier?_bracketed_append (hrest : Stops rest) (h : (bracketed cs).1.tier? ≠ none) :
    (bracketed (cs ++ rest)).1.tier? = (bracketed cs).1.tier? := by
  have hname : ¬(ident (cs.drop (nameStart cs))).isEmpty = true := by
    intro hempty
    rw [tier?_bracketed, if_pos hempty] at h
    exact h rfl
  have hstart : nameStart cs < cs.length := by
    by_contra hend
    rw [List.drop_eq_nil_iff.mpr (Nat.not_lt.mp hend)] at hname
    exact hname rfl
  have hstarts : nameStart (cs ++ rest) = nameStart cs := by
    rw [nameStart, takeWhile_append_of_length_lt rest hstart, nameStart]
  rw [tier?_bracketed, tier?_bracketed, hstarts,
    List.drop_append_of_le_length (Nat.le_of_lt hstart), hrest.ident_eq]

theorem tier?_pseudo_append (hrest : Stops rest) (h : (pseudo cs).1.tier? ≠ none) :
    (pseudo (cs ++ rest)).1.tier? = (pseudo cs).1.tier? := by
  have hne : cs ≠ [] := by
    rintro rfl
    exact h rfl
  have hstart : pseudoStart cs ≤ cs.length := by
    have hpos := List.length_pos_iff.mpr hne
    rw [pseudoStart]
    split <;> omega
  have hname : ident ((cs ++ rest).drop (pseudoStart cs)) = ident (cs.drop (pseudoStart cs)) := by
    rw [List.drop_append_of_le_length hstart, hrest.ident_eq]
  have hends : pseudoEnd (cs ++ rest) = pseudoEnd cs := by
    rw [pseudoEnd, pseudoEnd, pseudoStart_append hne, hname]
  have hend : pseudoEnd cs ≤ cs.length := by
    have hlength := (List.takeWhile_sublist isIdentChar (l := cs.drop (pseudoStart cs))).length_le
    rw [List.length_drop] at hlength
    rw [pseudoEnd, ident]
    omega
  have hopen : ((cs ++ rest).drop (pseudoEnd cs)).head? = some '(' ↔
      (cs.drop (pseudoEnd cs)).head? = some '(' := by
    rw [List.drop_append_of_le_length hend]
    cases cs.drop (pseudoEnd cs) with
    | nil => exact iff_of_false (fun hhead => (hrest '(' hhead).2 rfl) (by simp)
    | cons c more => rfl
  rw [pseudo_eq, pseudo_eq, hends, pseudoStart_append hne, hname]
  split
  · next hgroup => rw [if_pos (hopen.mp hgroup)]
  · next hgroup => rw [if_neg (mt hopen.mpr hgroup)]

/-- A mark that counts goes on to count in its tier, when what follows stops names. -/
theorem tier?_first_append (hrest : Stops rest) {c : Char} (h : (first c cs).1.tier? ≠ none) :
    (first c (cs ++ rest)).1.tier? = (first c cs).1.tier? := by
  rcases first_cases c with ⟨mark, hfirst⟩ | ⟨mark, hfirst⟩ | hfirst | hfirst
  · rw [hfirst, hfirst]
  · rw [hfirst, hfirst, hrest.ident_eq]
  · rw [hfirst] at h
    rw [hfirst, hfirst, tier?_bracketed_append hrest h]
  · rw [hfirst] at h
    rw [hfirst, hfirst, tier?_pseudo_append hrest h]

/-- The number of simple selectors of a tier that a text is read as. -/
def countIn (tier : Tier) (cs : List Char) : Nat := tally tier ((read cs).filterMap simple?)

theorem countIn_cons (tier : Tier) (c : Char) (cs : List Char) :
    countIn tier (c :: cs) =
      (if (first c cs).1.tier? = some tier then 1 else 0) + countIn tier (cs.drop (first c cs).2) := by
  rw [countIn, read_cons, List.filterMap_cons, countIn, tier?]
  cases (first c cs).1.simple? with
  | none => exact (Nat.zero_add _).symm
  | some s =>
      simp only [Option.bind_some]
      rw [tally_cons, tally, List.countP_singleton]
      simp only [decide_eq_true_eq]

/-- What is counted in a text is counted as well when more follows that stops names. -/
theorem countIn_le_append (hrest : Stops rest) (tier : Tier) (cs : List Char) :
    countIn tier cs ≤ countIn tier (cs ++ rest) := by
  induction hlength : cs.length using Nat.strongRecOn generalizing cs with
  | ind n ih =>
      cases cs with
      | nil => exact Nat.zero_le _
      | cons c cs =>
          rw [List.cons_append, countIn_cons, countIn_cons]
          by_cases hshort : (first c cs).2 < cs.length
          · have hmore : (cs.drop (first c cs).2).length < n := by
              rw [List.length_cons] at hlength
              rw [List.length_drop]
              omega
            rw [first_append hshort, List.drop_append_of_le_length (Nat.le_of_lt hshort)]
            exact Nat.add_le_add_left (ih _ hmore _ rfl) _
          · -- The mark takes the rest of the text, so it is the last one.
            have hlast : countIn tier (cs.drop (first c cs).2) = 0 := by
              rw [List.drop_eq_nil_iff.mpr (Nat.not_lt.mp hshort)]
              rfl
            rw [hlast, Nat.add_zero]
            split
            · next htier =>
                have hcounts : (first c cs).1.tier? ≠ none := by simp [htier]
                rw [tier?_first_append hrest hcounts, if_pos htier]
                exact Nat.le_add_right _ _
            · exact Nat.zero_le _

end SelectorMark

/-! ## Texts with more behind them -/

/-- Whether a text begins anew where it is written: it neither continues a name nor gives arguments.
-/
def BeginsAnew (cs : List Char) : Prop :=
  ∀ c ∈ cs.head?, isBlank c = true ∨ SelectorMark.isIdentChar c = false ∧ c ≠ '('

/-- The words behind a text are found from where the text leaves the walk. -/
theorem exists_wordsFrom_append (cs word : List Char) (found : List (List Char)) :
    ∃ word' found', wordsFrom cs word found = collected word' found' ∧
      ∀ rest, wordsFrom (cs ++ rest) word found = wordsFrom rest word' found' := by
  induction cs generalizing word found with
  | nil => exact ⟨word, found, rfl, fun _ => rfl⟩
  | cons c cs ih =>
      simp only [List.cons_append, wordsFrom]
      split
      · exact ih _ _
      · exact ih _ _

theorem intercalate_collected_cons {word : List Char} (hword : word ≠ []) (c : Char)
    (found : List (List Char)) :
    [' '].intercalate (collected (c :: word) found) =
      [' '].intercalate (collected word found) ++ [c] := by
  have hcollected {w : List Char} (hw : w ≠ []) : collected w found = found.reverse ++ [w.reverse] := by
    rw [collected, if_neg (by simp [hw]), List.reverse_cons]
  rw [hcollected hword, hcollected (List.cons_ne_nil c word), List.reverse_cons]
  cases hfound : found.reverse with
  | nil => simp [List.intercalate]
  | cons w ws =>
      have hne : w :: ws ≠ [] := List.cons_ne_nil w ws
      rw [intercalate_append_singleton hne, intercalate_append_singleton hne, List.append_assoc,
        List.cons_append]

/-- The text that has been collected stays, and more comes behind it: a space, or what continues the
last word. -/
theorem exists_intercalate_wordsFrom (cs word : List Char) (found : List (List Char))
    (h : collected word found ≠ []) :
    ∃ more, [' '].intercalate (wordsFrom cs word found) =
        [' '].intercalate (collected word found) ++ more ∧
      ∀ c ∈ more.head?, c = ' ' ∨ word ≠ [] ∧ isBlank c = false ∧ cs.head? = some c := by
  induction cs generalizing word found with
  | nil => exact ⟨[], (List.append_nil _).symm, nofun⟩
  | cons c cs ih =>
      rw [wordsFrom]
      cases hblank : isBlank c with
      | true =>
          have hsame : collected [] (if word.isEmpty then found else word.reverse :: found) =
              collected word found := rfl
          obtain ⟨more, heq, hmore⟩ := ih [] _ (hsame ▸ h)
          refine ⟨more, heq, fun d hd => .inl ?_⟩
          exact (hmore d hd).resolve_right fun hword => hword.1 rfl
      | false =>
          obtain ⟨more, heq, -⟩ := ih (c :: word) found (by simp [collected])
          cases word with
          | nil =>
              have hfound : found.reverse ≠ [] := h
              refine ⟨' ' :: c :: more, ?_, fun d hd => .inl (Option.some.inj hd).symm⟩
              have hcollected : collected [c] found = found.reverse ++ [[c]] := List.reverse_cons
              rw [if_neg Bool.false_ne_true, heq, hcollected, intercalate_append_singleton hfound,
                List.append_assoc]
              rfl
          | cons d word =>
              refine ⟨c :: more, ?_, ?_⟩
              · rw [if_neg Bool.false_ne_true, heq,
                  intercalate_collected_cons (List.cons_ne_nil d word), List.append_assoc]
                rfl
              · rintro e he
                obtain rfl := Option.some.inj he
                exact .inr ⟨List.cons_ne_nil _ _, hblank, rfl⟩

/-- Behind a text that holds words, a text that begins anew leaves the normal form as it is and puts
more behind it, which begins anew as well. -/
theorem exists_collapseBlanks_append {rest : List Char} (hrest : BeginsAnew rest) (cs : List Char) :
    collapseBlanks cs = [] ∨
      ∃ more, SelectorMark.Stops more ∧ collapseBlanks (cs ++ rest) = collapseBlanks cs ++ more := by
  obtain ⟨word, found, hcs, happend⟩ := exists_wordsFrom_append cs [] []
  by_cases hnone : collected word found = []
  · refine .inl ?_
    rw [collapseBlanks, words, hcs, hnone]
    rfl
  · obtain ⟨more, heq, hmore⟩ := exists_intercalate_wordsFrom rest word found hnone
    refine .inr ⟨more, fun c hc => ?_, ?_⟩
    · rcases hmore c hc with rfl | ⟨-, hblank, hhead⟩
      · exact ⟨by decide, by decide⟩
      · exact (hrest c hhead).resolve_left (by simp [hblank])
    · rw [collapseBlanks, words, happend, heq, collapseBlanks, words, hcs]

namespace Selector

variable (text : String)

theorem tally_parse (tier : Tier) :
    tally tier (parse text).simples =
      SelectorMark.countIn tier (collapseBlanks text.toList) := by
  rw [simples_parse, SelectorMark.countIn]

/-- Writing more behind a text never makes its specificity lower, as long as it begins anew. -/
theorem within_parse_append {more : List Char} (h : BeginsAnew more) :
    (parse text).specificity.Within (parse (text ++ String.ofList more)).specificity := by
  refine within_of_tally_le fun tier => ?_
  rw [tally_parse, tally_parse, String.toList_append, String.toList_ofList]
  rcases exists_collapseBlanks_append h text.toList with hnone | ⟨behind, hstops, heq⟩
  · rw [hnone]
    exact Nat.zero_le _
  · rw [heq]
    exact SelectorMark.countIn_le_append hstops tier _

end Selector

theorem SelectorGrammar.SpellsDetail.beginsAnew {s : SimpleSelector} {cs : List Char}
    (h : SelectorGrammar.SpellsDetail s cs) : BeginsAnew cs := by
  have hstops := h.stops []
  rw [List.append_nil] at hstops
  exact fun c hc => .inr (hstops c hc)

theorem SelectorGrammar.SpellsJoint.beginsAnew {k : Combinator} {cs : List Char}
    (h : SelectorGrammar.SpellsJoint k cs) (rest : List Char) : BeginsAnew (cs ++ rest) := by
  cases h with
  | descendant blanks hne hblank =>
      intro c hc
      rw [List.head?_append_of_ne_nil _ hne] at hc
      exact .inl (hblank c (List.mem_of_head? hc))
  | sign before after hsign hbefore hafter =>
      cases before with
      | nil => exact fun c hc => .inr (hsign.stops (after ++ rest) c hc)
      | cons d before =>
          intro c hc
          obtain rfl := Option.some.inj hc
          exact .inl (hbefore d List.mem_cons_self)

/-- A specificity counts the simple selectors of each tier over all compounds, up to 65535.  So a
selector that has more of them, wherever they stand, is never lower; neither is the selector of a
text that a simple selector, or a combinator with a compound, is written behind; and as long as
there are no more than 65535 ids, more ids make a higher specificity, whatever else is counted. -/
theorem Selector.specificity_counts (text : String) :
    (∀ tier, (parse text).specificity.count tier = min 65535 (tally tier (parse text).simples)) ∧
    (∀ longer : Selector, (parse text).simples.Sublist longer.simples →
      (parse text).specificity.Within longer.specificity) ∧
    (∀ s detail, SelectorGrammar.SpellsDetail s detail →
      (parse text).specificity.Within (parse (text ++ String.ofList detail)).specificity) ∧
    (∀ k joint compound cs, SelectorGrammar.SpellsJoint k joint →
      SelectorGrammar.SpellsCompound compound cs →
      (parse text).specificity.Within (parse (text ++ String.ofList (joint ++ cs))).specificity) ∧
    ∀ other, tally .ids (parse text).simples < tally .ids (parse other).simples →
      tally .ids (parse other).simples ≤ 65535 →
      compare (parse text).specificity (parse other).specificity = .lt := by
  refine ⟨fun tier => ?_, fun longer h => within_of_sublist h, fun s detail h => ?_,
    fun k joint compound cs hjoint _ => ?_, fun other => compare_eq_lt_of_ids⟩
  · rw [count_specificity, saturate, tierLimit, Nat.min_comm]
  · exact within_parse_append text h.beginsAnew
  · exact within_parse_append text (hjoint.beginsAnew cs)

end WidgetStyle
