import WidgetStyle.Assoc
import WidgetStyle.Proofs.Selector.Grammar
import WidgetStyle.Selector.Match

/-!
# WidgetStyle.Proofs.Selector.Attributes — what an attribute selector asks for

`[name]` and `[name="value"]` are meant to select the nodes that have the attribute, and those that
have it with just this value.  On the way to the node the text is cut at commas, its blanks are
collapsed and the name is put in lower case; none of this stops at quotation marks, and a node keeps
the name of an attribute as it was set.  So a selector means what it says for names in lower case and
for values without commas whose blanks are single spaces, and for no others
(`Selector.readsAs_attribute_iff`).

A value that is cut by a comma is read up to there, and any other value with each run of blanks as one
space (`singleSpaced`); the name is always read in lower case.
-/

namespace WidgetStyle

open Text

/-! ## Texts of one mark -/

theorem splitAt_append_cons {separator : Char} {cs : List Char} (h : separator ∉ cs)
    (rest piece : List Char) :
    Text.splitAt separator (cs ++ separator :: rest) piece =
      (piece.reverse ++ cs) :: Text.splitAt separator rest [] := by
  induction cs generalizing piece with
  | nil => simp [Text.splitAt]
  | cons c cs ih =>
      have hc : (c == separator) = false := beq_eq_false_iff_ne.mpr (List.ne_of_not_mem_cons h).symm
      rw [List.cons_append, Text.splitAt, hc, if_neg Bool.false_ne_true,
        ih (List.not_mem_of_not_mem_cons h), List.reverse_cons, List.append_assoc, List.singleton_append]

namespace Selector

/-- The selector that asks the node for one thing only. -/
def single (x : SimpleSelector) (text : String) : Selector := ⟨⟨[x]⟩, [], text⟩

@[simp] theorem isEmpty_single (x : SimpleSelector) (text : String) :
    (single x text).isEmpty = false := rfl

theorem selects_single (x : SimpleSelector) (text : String) (t : Tree) (mode : MatchMode)
    (n : NodeId) : (single x text).selects t mode n = t.satisfies mode n x := by
  simp [selects, single, subject, leftward, compounds, isEmpty, Tree.satisfiesAll,
    Tree.matchLeftward]

/-- A text whose normal form is one mark is the selector of that mark. -/
theorem parse_eq_single {s : String} {c : Char} {cs : List Char} {x : SimpleSelector}
    (hnormal : collapseBlanks s.toList = c :: cs)
    (hfirst : SelectorMark.first c cs = (.simple x, cs.length)) :
    parse s = single x (normalText s) := by
  have hread : SelectorMark.read (c :: cs) = [.simple x] := by
    rw [SelectorMark.read_cons, hfirst, List.drop_length]
    rfl
  have hparse : parse s = ((SelectorMark.read (collapseBlanks s.toList)).foldl SelectorDraft.step
      {}).finish (normalText s) := rfl
  rw [hparse, hnormal, hread]
  rfl

end Selector

/-! ## The texts of attribute selectors -/

namespace SelectorGrammar

/-- The text that asks for an attribute. -/
def attributeText (name : String) : String := "[" ++ name ++ "]"

/-- The text that asks for an attribute and its value. -/
def valueText (name value : String) : String := "[" ++ name ++ "=\"" ++ value ++ "\"]"

/-- What stands in front of the value. -/
def beforeValue (name : String) : List Char := '[' :: (name.toList ++ ['=', '"'])

theorem toList_attributeText (name : String) :
    (attributeText name).toList = '[' :: (name.toList ++ [']']) := by
  simp [attributeText]

theorem toList_valueText (name value : String) :
    (valueText name value).toList = beforeValue name ++ (value.toList ++ ['"', ']']) := by
  simp [valueText, beforeValue]

variable {name value : String} (hname : IsIdentifier name)
include hname

theorem IsIdentifier.comma_not_mem : ',' ∉ name.toList := fun h =>
  absurd (hname.isIdentChar ',' h) (by decide)

theorem IsIdentifier.isSolid_beforeValue : IsSolid (beforeValue name) :=
  (hname.isSolid.append ((isSolid_singleton rfl).cons rfl)).cons rfl

theorem parse_attributeText :
    Selector.parse (attributeText name) =
      .single (.hasAttribute (lower name)) (Selector.normalText (attributeText name)) := by
  have hsolid : IsSolid ('[' :: (name.toList ++ [']'])) :=
    (hname.isSolid.append (isSolid_singleton rfl)).cons rfl
  have hnormal : collapseBlanks (attributeText name).toList = '[' :: (name.toList ++ [']']) := by
    rw [toList_attributeText]
    refine collapseBlanks_of_tidy ?_
    have htidy := hsolid false []
    rwa [List.append_nil] at htidy
  refine Selector.parse_eq_single hnormal ?_
  rw [SelectorMark.first_hasAttribute hname]
  simp

/-- The value is read with single spaces. -/
theorem parse_valueText (hvalue : '"' ∉ value.toList) :
    Selector.parse (valueText name value) =
      .single (.attributeIs (lower name) (String.ofList (singleSpaced value.toList)))
        (Selector.normalText (valueText name value)) := by
  have hend : IsSolid ['"', ']'] := (isSolid_singleton rfl).cons rfl
  have hnone : ∀ c ∈ ([] : List Char), isBlank c = true := nofun
  have hnormal := collapseBlanks_spaced hname.isSolid_beforeValue hend hnone value.toList
  rw [List.append_nil, ← toList_valueText] at hnormal
  have hquote : '"' ∉ (String.ofList (singleSpaced value.toList)).toList := by
    rw [String.toList_ofList]
    exact fun h => (mem_singleSpaced h).elim hvalue (by decide)
  refine Selector.parse_eq_single (hnormal.trans (List.cons_append ..)) ?_
  have hfirst := SelectorMark.first_attributeIs hname hquote []
  rw [String.toList_ofList] at hfirst
  simp only [List.append_assoc, List.cons_append, List.nil_append]
  rw [hfirst]
  simp
  omega

/-- A value that is never closed goes on to the end of the text. -/
theorem first_openValue {cs : List Char} (hquote : '"' ∉ cs) :
    SelectorMark.first '[' (name.toList ++ '=' :: '"' :: cs) =
      (.simple (.attributeIs (lower name) (String.ofList cs)), (name.toList ++ '=' :: '"' :: cs).length) := by
  have hident : SelectorMark.ident (name.toList ++ '=' :: '"' :: cs) = name.toList :=
    SelectorMark.ident_append hname.isIdentChar
      (by rintro c hc; obtain rfl := Option.some.inj hc; decide)
  have hlead := SelectorMark.takeWhile_isAsciiBlank_append hname.nonempty hname.isIdentChar
    ('=' :: '"' :: cs)
  have hequals : ('=' :: '"' :: cs).takeWhile isAsciiBlank = [] := rfl
  have hvalue : SelectorMark.attributeValue ('"' :: cs) = (cs, cs.length + 1) := by
    have htake : (cs ++ []).takeWhile (· != '"') = cs :=
      (List.takeWhile_append_of_pos (by simpa using fun c hc => ne_of_mem_of_not_mem hc hquote)).trans
        (List.append_nil cs)
    rw [List.append_nil] at htake
    have hblank : ('"' :: cs).takeWhile isAsciiBlank = [] := rfl
    have hmark : isQuote '"' = true := rfl
    simp [SelectorMark.attributeValue, hblank, htake, hmark, Nat.add_comm 1]
  have hend : (name.toList ++ '=' :: '"' :: cs).drop (name.toList.length + 1 + (cs.length + 1)) = [] :=
    List.drop_of_length_le (by simp; omega)
  rw [SelectorMark.first_bracket, SelectorMark.bracketed]
  simp [hlead, hident, hequals, ← toList_lower, hvalue, hend,
    SelectorMark.named_toList (SelectorMark.toList_lower_ne_nil hname)]
  omega

theorem parse_openValue {s : String} {cs : List Char} (hquote : '"' ∉ cs)
    (hnormal : collapseBlanks s.toList = beforeValue name ++ cs) :
    Selector.parse s =
      .single (.attributeIs (lower name) (String.ofList cs)) (Selector.normalText s) := by
  refine Selector.parse_eq_single (hnormal.trans (List.cons_append ..)) ?_
  rw [List.append_assoc]
  exact first_openValue hname hquote

/-- So does a value that is cut off by a comma; no comma comes in. -/
theorem exists_parse_openValue {cs : List Char} (hquote : '"' ∉ cs) (hcomma : ',' ∉ cs) :
    ∃ value text, ',' ∉ value.toList ∧ Selector.parse (String.ofList (beforeValue name ++ cs)) =
      .single (.attributeIs (lower name) value) text := by
  have hsame : (String.ofList (beforeValue name ++ cs)).toList = beforeValue name ++ cs :=
    String.toList_ofList
  rcases blank_or_last_word cs with hblank | ⟨front, c, blanks, rfl, hc, hblanks⟩
  case inl =>
    have hstart : IsSolid ('[' :: (name.toList ++ ['='])) :=
      (hname.isSolid.append (isSolid_singleton rfl)).cons rfl
    have hnormal := collapseBlanks_spaced hstart (isSolid_singleton (c := '"') rfl) hblank []
    refine ⟨"", _, by decide, parse_openValue hname (List.not_mem_nil : '"' ∉ []) ?_⟩
    rw [hsame]
    simpa [beforeValue, singleSpaced] using hnormal
  case inr =>
    have hnormal := collapseBlanks_spaced hname.isSolid_beforeValue (isSolid_singleton hc) hblanks front
    have hkept : ∀ d, d ∉ front ++ c :: blanks → d ≠ ' ' → d ∉ singleSpaced front ++ [c] := by
      intro d hd hspace hmem
      rcases List.mem_append.mp hmem with hmem | hmem
      · exact (mem_singleSpaced hmem).elim (fun hmem => hd (List.mem_append_left _ hmem)) hspace
      · exact hd (by simp [List.mem_singleton.mp hmem])
    refine ⟨String.ofList (singleSpaced front ++ [c]), _, ?_,
      parse_openValue hname (hkept '"' hquote (by decide)) ?_⟩
    · rw [String.toList_ofList]
      exact hkept ',' hcomma (by decide)
    · rw [hsame]
      simpa using hnormal

end SelectorGrammar

/-! ## Attributes of nodes -/

namespace Tree

/-- Attributes are written as the entries of a map are. -/
theorem writeAttribute_eq (name value : String) (attributes : List (String × String)) :
    writeAttribute name value attributes = Assoc.write name value attributes := by
  induction attributes with
  | nil => rfl
  | cons a more ih => rw [writeAttribute, Assoc.write, ih]

/-- A node has the attribute that was set last under the name, and its other attributes. -/
theorem attribute?_setAttribute {t : Tree} {n : NodeId} (hn : n < t.size) (name value other : String) :
    (t.setAttribute n name value).attribute? n other =
      if other = name then some value else t.attribute? n other := by
  obtain ⟨x, hx⟩ : ∃ x, t.nodes[n]? = some x := ⟨_, Array.getElem?_eq_getElem hn⟩
  simp [attribute?, setAttribute, modify, node?, Array.getElem?_modify, hx, writeAttribute_eq,
    Assoc.lookup_write]

end Tree

/-! ## What the selectors mean -/

namespace Selector

/-- Whether a text is read as one selector, which selects just the nodes with a property. -/
def ReadsAs (text : String) (property : Tree → NodeId → Prop) : Prop :=
  ∃ s, parseList text = [s] ∧ ∀ t mode n, s.selects t mode n = true ↔ property t n

theorem parseList_of_comma_not_mem {text : String} (hcomma : ',' ∉ text.toList)
    (hne : (parse text).isEmpty = false) : parseList text = [parse text] := by
  rw [parseList, splitAt_of_not_mem hcomma]
  simp [hne]

/-- In front of a comma stands the first selector of the list. -/
theorem parseList_of_append_comma {text : String} {front back : List Char}
    (htext : text.toList = front ++ ',' :: back) (hcomma : ',' ∉ front)
    (hne : (parse (String.ofList front)).isEmpty = false) :
    ∃ more, parseList text = parse (String.ofList front) :: more := by
  rw [parseList, htext, splitAt_append_cons hcomma, List.reverse_nil, List.nil_append, List.map_cons,
    List.filter_cons, if_pos (by simp [hne])]
  exact ⟨_, rfl⟩

/-- One node with one attribute. -/
def alone (name value : String) : Tree := (Tree.empty.addRoot "").setAttribute 0 name value

theorem attribute?_alone (name value other : String) :
    (alone name value).attribute? 0 other = if other = name then some value else none :=
  Tree.attribute?_setAttribute (by decide) name value other

open SelectorGrammar

variable {name value : String}

theorem eq_of_selects_attributeIs {name' value' text : String}
    (h : ∀ t mode n, (single (.attributeIs name' value') text).selects t mode n = true ↔
      t.attribute? n name = some value) : name' = name ∧ value' = value := by
  have halone := (h (alone name value) .strict 0).mpr (by rw [attribute?_alone, if_pos rfl])
  rw [selects_single] at halone
  have hasked : (alone name value).attribute? 0 name' = some value' := of_decide_eq_true halone
  rw [attribute?_alone] at hasked
  split at hasked
  case isTrue hsame => exact ⟨hsame, (Option.some.inj hasked).symm⟩
  case isFalse => cases hasked

theorem eq_of_selects_hasAttribute {name' text : String}
    (h : ∀ t mode n, (single (.hasAttribute name') text).selects t mode n = true ↔
      ∃ value, t.attribute? n name = some value) : name' = name := by
  have halone := (h (alone name "") .strict 0).mpr ⟨"", by rw [attribute?_alone, if_pos rfl]⟩
  rw [selects_single] at halone
  have hasked : ((alone name "").attribute? 0 name').isSome = true := halone
  rw [attribute?_alone] at hasked
  split at hasked
  case isTrue hsame => exact hsame
  case isFalse => cases hasked

theorem readsAs_attributeText_iff (hname : IsIdentifier name) :
    ReadsAs (attributeText name) (fun t n => ∃ value, t.attribute? n name = some value) ↔
      IsLower name := by
  have hcomma : ',' ∉ (attributeText name).toList := by
    simpa [toList_attributeText] using hname.comma_not_mem
  have hparse := parse_attributeText hname
  have hlist := parseList_of_comma_not_mem hcomma (by rw [hparse, isEmpty_single])
  rw [hparse] at hlist
  constructor
  case mp =>
    rintro ⟨s, hs, hselects⟩
    obtain rfl := List.singleton_inj.mp (hlist.symm.trans hs)
    exact eq_of_selects_hasAttribute hselects
  case mpr =>
    intro hlower
    refine ⟨_, hlist, fun t mode n => ?_⟩
    rw [selects_single, Tree.satisfies, show lower name = name from hlower, Option.isSome_iff_exists]

theorem readsAs_valueText_iff (hname : IsIdentifier name) (hvalue : '"' ∉ value.toList) :
    ReadsAs (valueText name value) (fun t n => t.attribute? n name = some value) ↔
      IsLower name ∧ ',' ∉ value.toList ∧ IsQuotable value := by
  by_cases hcomma : ',' ∈ value.toList
  case pos =>
    refine iff_of_false ?_ fun h => h.2.1 hcomma
    rintro ⟨s, hs, hselects⟩
    obtain ⟨front, back, hcut, hfront⟩ := List.eq_append_cons_of_mem hcomma
    have hquote : '"' ∉ front := fun h => hvalue (hcut ▸ List.mem_append_left _ h)
    have htext : (valueText name value).toList =
        (beforeValue name ++ front) ++ ',' :: (back ++ ['"', ']']) := by
      simp [toList_valueText, hcut]
    have hbefore : ',' ∉ beforeValue name ++ front := by
      simpa [beforeValue, not_or] using ⟨hname.comma_not_mem, hfront⟩
    obtain ⟨value', text, hvalue', hparse⟩ := exists_parse_openValue hname hquote hfront
    obtain ⟨more, hlist⟩ := parseList_of_append_comma htext hbefore (by rw [hparse, isEmpty_single])
    rw [hs, hparse] at hlist
    obtain rfl := (List.cons.inj hlist).1
    exact hvalue' ((eq_of_selects_attributeIs hselects).2 ▸ hcomma)
  case neg =>
    have hnocomma : ',' ∉ (valueText name value).toList := by
      simpa [toList_valueText, beforeValue, not_or] using ⟨hname.comma_not_mem, hcomma⟩
    have hparse := parse_valueText hname hvalue
    have hlist := parseList_of_comma_not_mem hnocomma (by rw [hparse, isEmpty_single])
    rw [hparse] at hlist
    constructor
    case mp =>
      rintro ⟨s, hs, hselects⟩
      obtain rfl := List.singleton_inj.mp (hlist.symm.trans hs)
      obtain ⟨hlower, hspaced⟩ := eq_of_selects_attributeIs hselects
      have hspaced : singleSpaced value.toList = value.toList := by
        rw [← String.toList_ofList (l := singleSpaced value.toList), hspaced]
      refine ⟨hlower, hcomma, hvalue, fun c hc => ?_, hspaced ▸ isChain_singleSpaced value.toList⟩
      exact eq_space_of_mem_singleSpaced (hspaced.symm ▸ hc)
    case mpr =>
      rintro ⟨hlower, -, hquotable⟩
      refine ⟨_, hlist, fun t mode n => ?_⟩
      rw [selects_single, Tree.satisfies, show lower name = name from hlower,
        singleSpaced_eq_self hquotable.space_of_blank hquotable.isolated, String.ofList_toList,
        decide_eq_true_eq]

/-- For every name and every value without double quotes, `[name="value"]` is one selector, for the
nodes that have this value under the name, just in case the name is in lower case and the value has no
commas and no blanks but single spaces; and `[name]` asks for the attribute just in case the name is in
lower case.  What a node has under a name is what was set last under just this name. -/
theorem readsAs_attribute_iff (name value : String) (hname : IsIdentifier name)
    (hvalue : '"' ∉ value.toList) :
    (ReadsAs (valueText name value) (fun t n => t.attribute? n name = some value) ↔
      IsLower name ∧ ',' ∉ value.toList ∧ IsQuotable value) ∧
    (ReadsAs (attributeText name) (fun t n => ∃ value, t.attribute? n name = some value) ↔
      IsLower name) ∧
    ∀ (t : Tree) (n : NodeId) (name' value' : String), n < t.size →
      (t.setAttribute n name' value').attribute? n name =
        if name = name' then some value' else t.attribute? n name :=
  ⟨readsAs_valueText_iff hname hvalue, readsAs_attributeText_iff hname,
    fun _ _ name' value' hn => Tree.attribute?_setAttribute hn name' value' name⟩

/-- A title of two words. -/
theorem readsAs_attribute_iff_title :
    IsIdentifier "title" ∧ '"' ∉ "a b".toList ∧
      ReadsAs "[title=\"a b\"]" (fun t n => t.attribute? n "title" = some "a b") ∧
      ReadsAs "[title]" (fun t n => ∃ value, t.attribute? n "title" = some value) := by
  have hname : IsIdentifier "title" := by decide
  have hvalue : '"' ∉ "a b".toList := by decide
  obtain ⟨hvalueText, hattributeText, -⟩ := readsAs_attribute_iff "title" "a b" hname hvalue
  exact ⟨hname, hvalue, hvalueText.mpr (by decide), hattributeText.mpr (by decide)⟩

/-- A comma cuts a quoted value, two spaces become one, and a name that is not in lower case is not
found: none of the selectors selects the node that has the attribute. -/
theorem quoted_values_are_changed :
    (parseList "[title=\"a,b\"]").length = 2 ∧
    (alone "title" "a,b").attribute? 0 "title" = some "a,b" ∧
      matchesAny (parseList "[title=\"a,b\"]") (alone "title" "a,b") .strict 0 = false ∧
    (alone "title" "a  b").attribute? 0 "title" = some "a  b" ∧
      matchesAny (parseList "[title=\"a  b\"]") (alone "title" "a  b") .strict 0 = false ∧
    (alone "Title" "a").attribute? 0 "Title" = some "a" ∧
      matchesAny (parseList "[Title=\"a\"]") (alone "Title" "a") .strict 0 = false ∧
      matchesAny (parseList "[Title]") (alone "Title" "a") .strict 0 = false := by
  decide

end Selector

end WidgetStyle
