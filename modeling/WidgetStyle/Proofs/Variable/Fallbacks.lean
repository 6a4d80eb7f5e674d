import Mathlib.Data.List.Induction
import Mathlib.Data.List.TakeWhile
import WidgetStyle.Proofs.Variable.Scanning

/-!
# WidgetStyle.Proofs.Variable.Fallbacks — references with a fallback

The arguments of `var(name, fallback)` are the name and the items of the fallback, each trimmed and
without the quotation marks around it (`parse?_referenceOr`).  Joined again, the items make up the
fallback with other blanks around its commas, and where it had no reference there is none after that
(`Segment.find?_joinItems`).  So a reference to a name that is not found stands for its fallback, as
long as no item is a quotation (`Resolver.expand_referenceOr`).
-/

namespace WidgetStyle

open Text Value

/-! ## Texts without references -/

namespace Segment

variable {quoting : Quoting} {previous : Option Char} {c : Char} {cs : List Char}

theorem startsReference_append (h : startsReference cs = true) (rest : List Char) :
    startsReference (cs ++ rest) = true := by
  rw [startsReference, List.take_append_of_le_length (length_of_startsReference h)]
  exact h

/-- Without a reference in a text there is none in what it begins with. -/
theorem findFrom_eq_none_of_append {rest : List Char}
    (h : findFrom quoting previous (cs ++ rest) = none) : findFrom quoting previous cs = none := by
  induction cs generalizing quoting previous with
  | nil => rfl
  | cons c cs ih =>
      rw [List.cons_append, findFrom] at h
      rw [findFrom]
      split at h
      case isTrue => cases h
      case isFalse hnot =>
        have hnot' : ¬ (quoting = .outside && !previous.any isWordChar &&
            startsReference (c :: cs)) = true := by
          intro hstarts
          rw [Bool.and_eq_true] at hstarts
          exact hnot (Bool.and_eq_true_iff.mpr ⟨hstarts.1, startsReference_append hstarts.2 rest⟩)
        rw [if_neg hnot', ih (Option.map_eq_none_iff.mp h), Option.map_none]

theorem findFrom_tail_eq_none (h : findFrom quoting previous (c :: cs) = none) :
    findFrom (quoting.step c) (some c) cs = none := by
  rw [findFrom] at h
  split at h
  · cases h
  · exact Option.map_eq_none_iff.mp h

/-- A character between names is passed by. -/
theorem findFrom_separator (hquote : isQuote c = false) (hword : isWordChar c = false)
    (hvar : inVar c = false) (previous : Option Char) (cs : List Char) :
    findFrom .outside previous (c :: cs) = (find? cs).map fun (head, tail) => (c :: head, tail) := by
  have hstarts : startsReference (c :: cs) = false := startsReference_append_cons hvar [] cs
  have hstep : Quoting.outside.step c = .outside := by
    rw [Quoting.step, hquote, if_neg Bool.false_ne_true]
  rw [findFrom, hstarts, if_neg (by simp), hstep, findFrom_some hword, ← find?]

end Segment

/-- Whether a text holds no reference and is outside quotations where it ends. -/
structure IsInert (cs : List Char) : Prop where
  find?_eq_none : Segment.find? cs = none
  after_eq_outside : Quoting.outside.after cs = .outside

/-! ### Trimming -/

theorem not_isWordChar_of_isBlank {c : Char} (h : isBlank c = true) : isWordChar c = false := by
  rw [Bool.eq_false_iff]
  intro hword
  exact absurd h (by simp [(IsPlain.of_isWordChar hword).blank])

theorem not_isQuote_of_isBlank {c : Char} (h : isBlank c = true) : isQuote c = false := by
  rw [Bool.eq_false_iff]
  intro hquote
  rcases eq_of_isQuote hquote with rfl | rfl <;> exact absurd h (by decide)

theorem step_of_isBlank {c : Char} (h : isBlank c = true) : Quoting.outside.step c = .outside := by
  rw [Quoting.step, not_isQuote_of_isBlank h, if_neg Bool.false_ne_true]

theorem IsInert.trimStart {cs : List Char} (h : IsInert cs) : IsInert (trimStart cs) := by
  induction cs with
  | nil => exact h
  | cons c cs ih =>
      rw [Text.trimStart]
      by_cases hc : isBlank c = true
      · have hfind := Segment.findFrom_tail_eq_none h.find?_eq_none
        have hafter : (Quoting.outside.step c).after cs = .outside := h.after_eq_outside
        rw [step_of_isBlank hc] at hfind hafter
        rw [Segment.findFrom_some (not_isWordChar_of_isBlank hc)] at hfind
        rw [List.dropWhile_cons_of_pos hc]
        exact ih ⟨hfind, hafter⟩
      · rwa [List.dropWhile_cons_of_neg hc]

/-- A walk that begins outside quotations is only ever inside those of quotation marks. -/
theorem isQuote_of_mark?_after {cs : List Char} {quote : Char}
    (h : (Quoting.outside.after cs).mark? = some quote) : isQuote quote = true := by
  induction cs using List.reverseRecOn with
  | nil => cases h
  | append_singleton cs c ih =>
      rw [Quoting.after_append] at h
      change ((Quoting.outside.after cs).step c).mark? = some quote at h
      generalize hst : Quoting.outside.after cs = st at h ih
      cases st with
      | outside =>
          rw [Quoting.step] at h
          split at h
          case isTrue hquote => exact Option.some.inj h ▸ hquote
          case isFalse => cases h
      | inside mark =>
          have hmark : (Quoting.inside mark).mark? = some mark := rfl
          by_cases hstep : (Quoting.inside mark).step c = .outside
          · rw [hstep] at h
            cases h
          · rw [mark?_step hmark hstep] at h
            exact ih h
      | escaped mark => exact ih h

/-- Trailing blanks are outside quotations only where the text before them is. -/
theorem after_of_append_blanks {cs blanks : List Char} (h : ∀ c ∈ blanks, isBlank c = true)
    (hafter : Quoting.outside.after (cs ++ blanks) = .outside) :
    Quoting.outside.after cs = .outside := by
  induction blanks using List.reverseRecOn with
  | nil => rwa [List.append_nil] at hafter
  | append_singleton blanks c ih =>
      refine ih (fun d hd => h d (List.mem_append_left _ hd)) ?_
      have hc : isBlank c = true := h c (by simp)
      rw [← List.append_assoc, Quoting.after_append] at hafter
      change (Quoting.outside.after (cs ++ blanks)).step c = .outside at hafter
      cases hmark : (Quoting.outside.after (cs ++ blanks)).mark? with
      | none =>
          cases hst : Quoting.outside.after (cs ++ blanks) with
          | outside => rfl
          | inside | escaped =>
              rw [hst] at hmark
              cases hmark
      | some quote =>
          obtain rfl := mark?_of_step_eq_outside hmark hafter
          exact absurd (isQuote_of_mark?_after hmark) (by simp [not_isQuote_of_isBlank hc])

theorem IsInert.trimEnd {cs : List Char} (h : IsInert cs) : IsInert (trimEnd cs) := by
  have hsplit : Text.trimEnd cs ++ (cs.reverse.takeWhile isBlank).reverse = cs := by
    rw [Text.trimEnd, ← List.reverse_append, List.takeWhile_append_dropWhile, List.reverse_reverse]
  have hblank : ∀ c ∈ (cs.reverse.takeWhile isBlank).reverse, isBlank c = true := by
    intro c hc
    exact List.mem_takeWhile_imp (List.mem_reverse.mp hc)
  rw [← hsplit] at h
  exact ⟨Segment.findFrom_eq_none_of_append h.find?_eq_none,
    after_of_append_blanks hblank h.after_eq_outside⟩

theorem IsInert.trim {cs : List Char} (h : IsInert cs) : IsInert (trim cs) := h.trimStart.trimEnd

/-! ### Items -/

theorem inVar_comma : Segment.inVar ',' = false := rfl

/-- The pieces of such a text between its commas are such texts. -/
theorem IsInert.of_pieces {st : Nesting} {cs : List Char} {pieces : List (List Char)}
    (hpieces : PiecesFrom (· == ',') st cs pieces) (hst : st = {}) (h : IsInert cs) :
    ∀ piece ∈ pieces, IsInert piece := by
  induction hpieces with
  | last uncut =>
      intro piece hpiece
      rwa [List.mem_singleton.mp hpiece]
  | @cut st front rest c pieces _ cuts _ ih =>
      subst hst
      obtain rfl : c = ',' := by
        simp only [Nesting.cuts, Bool.and_eq_true, beq_iff_eq] at cuts
        exact cuts.2
      have hfront : Quoting.outside.after front = .outside := by
        have hquoting := Nesting.quoting_after {} front
        rw [Nesting.eq_of_cuts cuts] at hquoting
        exact hquoting.symm
      have hfind := h.find?_eq_none
      have hafter := h.after_eq_outside
      rw [Segment.find?, Segment.findFrom_append_cons inVar_comma, hfront] at hfind
      rw [Quoting.after_append, hfront] at hafter
      cases hnone : Segment.findFrom .outside none front with
      | some found =>
          rw [hnone] at hfind
          cases hfind
      | none =>
          simp only [hnone, Segment.findFrom_separator (show isQuote ',' = false from rfl)
            (show isWordChar ',' = false from rfl) inVar_comma, Option.map_eq_none_iff] at hfind
          intro piece hpiece
          rcases List.mem_cons.mp hpiece with rfl | hpiece
          · exact ⟨hnone, hfront⟩
          · exact ih rfl ⟨hfind, hafter⟩ piece hpiece

/-- Such texts in a row, joined by a comma and a space, hold no reference. -/
theorem Segment.find?_joinItems {items : List (List Char)} (h : ∀ item ∈ items, IsInert item) :
    find? (joinItems items) = none := by
  induction items with
  | nil => rfl
  | cons item items ih =>
      have hitem := h item List.mem_cons_self
      cases items with
      | nil => exact hitem.find?_eq_none
      | cons next items =>
          have hmore := ih fun other hother => h other (List.mem_cons_of_mem _ hother)
          have hnone : findFrom .outside none item = none := hitem.find?_eq_none
          rw [joinItems, find?, findFrom_append_cons inVar_comma, hnone, hitem.after_eq_outside,
            findFrom_separator rfl rfl inVar_comma, find?, findFrom_separator rfl rfl rfl, hmore]
          rfl

/-! ## Calls with a fallback -/

/-- Whether a name can stand in a call as it is: it has no quotation marks, brackets and commas, and no
blanks at its ends. -/
structure IsBareName (name : String) : Prop where
  quote : ∀ c ∈ name.toList, isQuote c = false
  opens : ∀ c ∈ name.toList, opensBracket c = false
  closes : ∀ c ∈ name.toList, closesBracket c = false
  comma : ',' ∉ name.toList
  trim_eq : trim name.toList = name.toList

instance (name : String) : Decidable (IsBareName name) :=
  decidable_of_iff (name.toList.all (fun c => !isQuote c) = true ∧
      name.toList.all (fun c => !opensBracket c) = true ∧
      name.toList.all (fun c => !closesBracket c) = true ∧
      ',' ∉ name.toList ∧ trim name.toList = name.toList)
    ⟨fun h => ⟨by simpa using h.1, by simpa using h.2.1, by simpa using h.2.2.1, h.2.2.2.1, h.2.2.2.2⟩,
      fun h => ⟨by simpa using h.quote, by simpa using h.opens, by simpa using h.closes, h.comma,
        h.trim_eq⟩⟩

/-- The reference to a name with a fallback. -/
def referenceOr (name fallback : String) : String := "var(" ++ name ++ ", " ++ fallback ++ ")"

/-- What stands between the parentheses. -/
def argumentsText (name fallback : List Char) : List Char := name ++ ',' :: ' ' :: fallback

theorem toList_referenceOr (name fallback : String) : (referenceOr name fallback).toList =
    ['v', 'a', 'r'] ++ '(' :: (argumentsText name.toList fallback.toList ++ [')']) := by
  simp [referenceOr, argumentsText]

/-- The items of a fallback, between its commas. -/
def fallbackItems (fallback : String) : List (List Char) := cut (· == ',') fallback.toList

theorem fallbackItems_ne_nil (fallback : String) : fallbackItems fallback ≠ [] :=
  (pieces_cut _ fallback.toList).ne_nil

theorem ofPiece_eq {piece : List Char} (h : unquote? piece = none) :
    Argument.ofPiece piece = ⟨String.ofList piece, false⟩ := by
  rw [Argument.ofPiece, h]

section

variable {name fallback : String} (hname : IsBareName name)
include hname

theorem IsBareName.balancedFrom_append (rest : List Char) :
    balancedFrom .outside 0 (name.toList ++ rest) = balancedFrom .outside 0 rest := by
  have hbare : ∀ c ∈ name.toList, Passes .outside c ∧ Quoting.outside.step c = .outside := by
    intro c hc
    have hpasses : Passes .outside c := by
      refine fun _ => ⟨?_, ?_⟩ <;> rintro rfl
      · exact absurd (hname.opens _ hc) (by decide)
      · exact absurd (hname.closes _ hc) (by decide)
    exact ⟨hpasses, by rw [Quoting.step, hname.quote c hc, if_neg Bool.false_ne_true]⟩
  generalize name.toList = cs at hbare
  induction cs with
  | nil => rfl
  | cons c cs ih =>
      obtain ⟨hpasses, hstep⟩ := hbare c List.mem_cons_self
      rw [List.cons_append, balancedFrom_passes hpasses, hstep]
      exact ih fun d hd => hbare d (List.mem_cons_of_mem _ hd)

theorem IsBareName.cut_append_comma (rest : List Char) :
    cut (· == ',') (name.toList ++ ',' :: rest) = name.toList :: cut (· == ',') rest := by
  have hbare : ∀ c ∈ name.toList, Nesting.cuts (· == ',') {} c = false ∧ Nesting.step {} c = {} := by
    intro c hc
    have hcomma : (c == ',') = false := by
      rw [beq_eq_false_iff_ne]
      rintro rfl
      exact hname.comma hc
    have hstep : Quoting.outside.step c = .outside := by
      rw [Quoting.step, hname.quote c hc, if_neg Bool.false_ne_true]
    refine ⟨by simp [Nesting.cuts, hcomma], ?_⟩
    simp [Nesting.step, hstep, hname.opens c hc, hname.closes c hc]
  rw [cut, cut]
  generalize name.toList = cs at hbare
  induction cs with
  | nil => rfl
  | cons c cs ih =>
      obtain ⟨hcuts, hstep⟩ := hbare c List.mem_cons_self
      rw [List.cons_append, cutFrom, hcuts, if_neg Bool.false_ne_true, hstep,
        ih fun d hd => hbare d (List.mem_cons_of_mem _ hd)]
      rfl

theorem IsBareName.unquote?_eq_none : unquote? name.toList = none := by
  cases h : name.toList with
  | nil => rfl
  | cons c cs =>
      have hc := hname.quote c (h ▸ List.mem_cons_self)
      rw [unquote?, hc, Bool.false_and, if_neg Bool.false_ne_true]

theorem IsBareName.splitList_arguments :
    splitList ',' (argumentsText name.toList fallback.toList) =
      name.toList :: (fallbackItems fallback).map trim := by
  have hcomma : ',' ∈ argumentsText name.toList fallback.toList := by simp [argumentsText]
  have hnotblank : (argumentsText name.toList fallback.toList).all isBlank = false :=
    List.all_eq_false.mpr ⟨',', hcomma, by decide⟩
  have hspace : (cut (· == ',') (' ' :: fallback.toList)).map trim =
      (fallbackItems fallback).map trim := by
    have hcut : cut (· == ',') (' ' :: fallback.toList) = consFirst ' ' (fallbackItems fallback) := rfl
    rw [hcut]
    cases hitems : fallbackItems fallback with
    | nil => exact absurd hitems (fallbackItems_ne_nil fallback)
    | cons item items => rfl
  rw [splitList, hnotblank, if_neg Bool.false_ne_true, listPieces, if_pos (by decide), argumentsText,
    hname.cut_append_comma, List.map_cons, hname.trim_eq, hspace]

theorem IsBareName.balancedFrom_arguments (h : balancedFrom .outside 0 fallback.toList = true) :
    balancedFrom .outside 0 (argumentsText name.toList fallback.toList) = true := by
  rw [argumentsText, hname.balancedFrom_append]
  exact h

theorem splitCall?_referenceOr (h : balancedFrom .outside 0 fallback.toList = true) :
    Segment.splitCall? (referenceOr name fallback).toList =
      some ((referenceOr name fallback).toList, []) := by
  have hclose := Segment.closeFrom_of_balanced (hname.balancedFrom_arguments h) []
  have hletters : spellsVar ['v', 'a', 'r'] := rfl
  have hplain : ∀ c ∈ ['v', 'a', 'r'], IsPlain c := fun c hc =>
    .of_isWordChar (isWordChar_of_spellsVar hletters c hc)
  rw [toList_referenceOr, Segment.splitCall?, closeFrom_plain_append hplain, closeFrom_open, hclose]
  rfl

/-- The arguments of a reference with a fallback are the name and the items of the fallback. -/
theorem parse?_referenceOr (h : balancedFrom .outside 0 fallback.toList = true) :
    Call.parse? (referenceOr name fallback).toList =
      some ⟨"var", ⟨name, false⟩ ::
        (fallbackItems fallback).map fun item => Argument.ofPiece (trim item)⟩ := by
  have hbalanced := hname.balancedFrom_arguments h
  rw [toList_referenceOr, parse?_call (show spellsVar ['v', 'a', 'r'] from rfl)
      (staysOpen_of_balanced hbalanced), hname.splitList_arguments, List.map_cons,
    ofPiece_eq hname.unquote?_eq_none, String.ofList_toList, List.map_map]
  rfl

end

/-! ## Names that are not found -/

theorem after_of_balanced {quoting : Quoting} {depth : Nat} {cs : List Char}
    (h : balancedFrom quoting depth cs = true) : quoting.after cs = .outside := by
  induction cs generalizing quoting depth with
  | nil =>
      simp only [balancedFrom, Bool.and_eq_true, decide_eq_true_eq] at h
      exact h.1
  | cons c cs ih =>
      rcases parenthesis_cases quoting c with ⟨rfl, rfl⟩ | ⟨rfl, rfl⟩ | hpasses
      · exact ih (show balancedFrom .outside (depth + 1) cs = true from h)
      · have hrest : depth ≠ 0 ∧ balancedFrom .outside (depth - 1) cs = true := by
          simpa [balancedFrom] using h
        exact ih hrest.2
      · rw [balancedFrom_passes hpasses] at h
        exact ih h

/-- The items of a fallback without quotations around them, joined again. -/
theorem fallback?_referenceOr {name fallback : String}
    (hitems : ∀ item ∈ fallbackItems fallback, unquote? (trim item) = none) :
    Call.fallback? ⟨"var", ⟨name, false⟩ ::
        (fallbackItems fallback).map fun item => Argument.ofPiece (trim item)⟩ =
      some (joinItems ((fallbackItems fallback).map trim)) := by
  have hmap : ((fallbackItems fallback).map fun item => Argument.ofPiece (trim item)).map
      (fun a => a.text.toList) = (fallbackItems fallback).map trim := by
    rw [List.map_map]
    refine List.map_congr_left fun item hitem => ?_
    rw [Function.comp_apply, ofPiece_eq (hitems item hitem), String.toList_ofList]
  rw [Call.fallback?, List.drop_one, List.tail_cons]
  split
  case h_1 hnil => exact absurd (List.map_eq_nil_iff.mp hnil) (fallbackItems_ne_nil fallback)
  case h_2 => rw [hmap]

namespace Resolver

variable (r : Resolver) {name fallback : String}

/-- A reference to a name that is not found stands for its fallback, with other blanks around the
commas, as long as the fallback holds no reference and no item of it is a quotation. -/
theorem expand_referenceOr (hname : IsBareName name) (hlookup : r.lookup? name = none)
    (hbalanced : balancedFrom .outside 0 fallback.toList = true)
    (hfind : Segment.find? fallback.toList = none)
    (hitems : ∀ item ∈ fallbackItems fallback, unquote? (trim item) = none) :
    r.expand [] (referenceOr name fallback).toList =
      .ok (joinItems ((fallbackItems fallback).map trim)) := by
  have hinert : ∀ item ∈ (fallbackItems fallback).map trim, IsInert item := by
    have hpieces := IsInert.of_pieces (pieces_cut (· == ',') fallback.toList) rfl
      ⟨hfind, after_of_balanced hbalanced⟩
    intro item hitem
    obtain ⟨piece, hpiece, rfl⟩ := List.mem_map.mp hitem
    exact (hpieces piece hpiece).trim
  have hreferred : ∀ arguments, referredName ⟨"var", ⟨name, false⟩ :: arguments⟩ = name := by
    intro arguments
    change trimmed name = name
    rw [trimmed, hname.trim_eq, String.ofList_toList]
  have hstart : Segment.startsReference (referenceOr name fallback).toList = true := by
    rw [toList_referenceOr]
    rfl
  rw [expand_call r hstart (splitCall?_referenceOr hname hbalanced) (Nat.zero_le _), expandReference,
    parse?_referenceOr hname hbalanced]
  simp only [hreferred, List.not_mem_nil, if_false, hlookup, fallback?_referenceOr hitems]
  exact expand_of_find?_eq_none r (Segment.find?_joinItems hinert) (Nat.zero_le _)

end Resolver

end WidgetStyle
