import WidgetStyle.Proofs.Sheet.Concatenation
import WidgetStyle.Proofs.Source.Importance
import WidgetStyle.Proofs.Value.Balance
import WidgetStyle.Proofs.Variable.Quotations

/-!
# WidgetStyle.Proofs.Source.QuotedNames — names that are written as strings

The heading of a keyframe set and the value of a declaration are read in two ways.  A string in a
heading is a lexeme, and what it stands for becomes the name of the set
(`Stylesheet.get?_keyframes_of_string`).  A string in a value is text: taking out comments, the mark
of importance, references and list items all keep it as it is, with its quotation marks
(`Source.read_quotation`, `Resolver.substitute_quotation`, `listItems_quotation`).  So every string
without escapes `ReadsTwoWays`.  A bare name is one item as well, and has no quotation marks to keep
(`IsBareName.listItems_eq`).
-/

namespace WidgetStyle

open Text Value

/-! ## Values that are a bare name -/

section BareName

variable {name : String} (h : IsBareName name)
include h

/-- A bare name is a list of one item. -/
theorem IsBareName.listItems_eq (hname : name ≠ "") : listItems name = [name] := by
  obtain ⟨c, hc, hblank⟩ : ∃ c ∈ name.toList, isBlank c = false := by
    by_contra hall
    have hstart : trimStart name.toList = [] :=
      List.dropWhile_eq_nil_iff.mpr fun c hc => by
        by_contra hblank
        exact hall ⟨c, hc, Bool.eq_false_iff.mpr hblank⟩
    refine hname (String.toList_inj.mp ?_)
    rw [← h.trim_eq, trim, hstart]
    rfl
  have hsome : name.toList.all isBlank = false := List.all_eq_false.mpr ⟨c, hc, by simp [hblank]⟩
  have huncut : ∀ st : Nesting, Uncut (· == ',') st name.toList := by
    rintro st front c back heq
    have hcomma : (c == ',') = false := by
      rw [beq_eq_false_iff_ne]
      rintro rfl
      exact h.comma (heq ▸ List.mem_append_right _ List.mem_cons_self)
    simp [Nesting.cuts, hcomma]
  have hpieces : listPieces ',' name.toList = [name.toList] := cutFrom_of_uncut (huncut {})
  have hne : name.toList.isEmpty = false := by
    rw [List.isEmpty_eq_false_iff]
    exact List.ne_nil_of_mem hc
  rw [listItems, splitList, hsome, if_neg Bool.false_ne_true, hpieces, List.map_singleton,
    h.trim_eq, List.filter_cons_of_pos (by simp [hne])]
  simp

/-- A bare name holds no reference. -/
theorem Resolver.substitute_bareName (r : Resolver) : r.substitute name = name := by
  refine substitute_of_not_mentionsVar r ?_
  have hopens : '(' ∉ name.toList := fun hmem => absurd (h.opens _ hmem) (by decide)
  generalize name.toList = cs at hopens
  induction cs with
  | nil => rfl
  | cons c cs ih =>
      rw [mentionsVar, ih fun hmem => hopens (List.mem_cons_of_mem _ hmem), Bool.or_false,
        Bool.eq_false_iff]
      intro hstarts
      exact hopens ((List.isPrefixOf_iff_prefix.mp hstarts).subset (by simp))

end BareName

/-! ## Values that are one quotation -/

section Quotation

variable {quoting : Quoting} {cs : List Char}

theorem isBlank_of_isQuote {c : Char} (h : isQuote c = true) : isBlank c = false := by
  rcases eq_of_isQuote h with rfl | rfl <;> decide

/-- Nothing cuts a text up to the end of a quotation. -/
theorem uncut_of_closesAtEnd {separates : Char → Bool} {quote : Char} {st : Nesting}
    (hmark : st.quoting.mark? = some quote) (h : closesAtEnd st.quoting cs = true) :
    Uncut separates st cs := by
  induction cs generalizing st with
  | nil => cases h
  | cons c cs ih =>
      have hquoting := ne_outside_of_mark? hmark
      refine uncut_cons_iff.mpr ⟨by simp [Nesting.cuts, hquoting], ?_⟩
      rw [closesAtEnd] at h
      split at h
      · obtain rfl := List.isEmpty_iff.mp h
        exact uncut_nil
      · next hstep => exact ih (mark?_step hmark hstep) h

/-- A quotation is a list of one item. -/
theorem listItems_quotation (h : isQuotation cs = true) :
    listItems (String.ofList cs) = [String.ofList cs] := by
  obtain ⟨quote, inside, hquote, rfl⟩ := enclosed_of_isQuotation h
  have hblank := isBlank_of_isQuote hquote
  have huncut : Uncut (· == ',') {} (quote :: (inside ++ [quote])) := by
    refine uncut_cons_iff.mpr ⟨by simp [Nesting.cuts, hquote], ?_⟩
    have hstep : (Nesting.step {} quote).quoting = .inside quote := if_pos hquote
    have hmark : (Nesting.step {} quote).quoting.mark? = some quote := by
      rw [hstep]
      rfl
    refine uncut_of_closesAtEnd hmark ?_
    rw [hstep]
    exact (Bool.and_eq_true_iff.mp h).2
  have hpieces : listPieces ',' (quote :: (inside ++ [quote])) = [quote :: (inside ++ [quote])] :=
    cutFrom_of_uncut huncut
  have hsome : (quote :: (inside ++ [quote])).all isBlank = false := by simp [hblank]
  rw [listItems, String.toList_ofList, splitList, hsome, if_neg Bool.false_ne_true, hpieces,
    List.map_singleton, trim_of_ends hblank hblank]
  rfl

/-- No reference is found in a quotation. -/
theorem Resolver.substitute_quotation (r : Resolver) (h : isQuotation cs = true) :
    r.substitute (String.ofList cs) = String.ofList cs := by
  have hfind : Segment.find? cs = none := by
    have hpass := Segment.findFrom_quotation_append h none []
    rwa [List.append_nil] at hpass
  cases hmentions : Resolver.mentionsVar (String.ofList cs).toList with
  | false => exact substitute_of_not_mentionsVar r hmentions
  | true =>
      rw [substitute_of_mentionsVar r hmentions, String.toList_ofList,
        expand_of_find?_eq_none r hfind (Nat.zero_le _)]
      rfl

/-- Comments are not looked for up to the end of a quotation. -/
theorem blankFrom_closesAtEnd_append {quote : Char} (hmark : quoting.mark? = some quote)
    (h : closesAtEnd quoting cs = true) (rest : List Char) :
    blankFrom quoting.mode (cs ++ rest) = cs ++ blankComments rest := by
  induction cs generalizing quoting with
  | nil => cases h
  | cons c cs ih =>
      have hcomment : ¬quoting.OpensComment c (cs ++ rest) := fun hopens =>
        ne_outside_of_mark? hmark hopens.1
      rw [List.cons_append, blankFrom_cons hcomment, List.cons_append]
      refine congrArg (c :: ·) ?_
      rw [closesAtEnd] at h
      split at h
      · next hstep =>
          obtain rfl := List.isEmpty_iff.mp h
          rw [hstep]
          rfl
      · next hstep => exact ih (mark?_step hmark hstep) h

/-- Blanks hold no comment. -/
theorem blankComments_blanks_append {blanks : List Char} (h : ∀ c ∈ blanks, isBlank c = true)
    (rest : List Char) : blankComments (blanks ++ rest) = blanks ++ blankComments rest := by
  induction blanks with
  | nil => rfl
  | cons c blanks ih =>
      have hc := h c List.mem_cons_self
      have hcomment : ¬Quoting.outside.OpensComment c (blanks ++ rest) := by
        rintro ⟨-, rfl, -⟩
        exact absurd hc (by decide)
      have hblank := blankFrom_cons hcomment
      rw [step_of_isBlank hc] at hblank
      rw [List.cons_append, blankComments]
      exact hblank.trans (congrArg (c :: ·) (ih fun d hd => h d (List.mem_cons_of_mem _ hd)))

theorem blankComments_quotation {front back : List Char} (h : isQuotation cs = true)
    (hfront : ∀ c ∈ front, isBlank c = true) (hback : ∀ c ∈ back, isBlank c = true) :
    blankComments (front ++ cs ++ back) = front ++ cs ++ back := by
  cases cs with
  | nil => cases h
  | cons quote inside =>
      obtain ⟨hquote, hcloses⟩ := Bool.and_eq_true_iff.mp h
      have hcomment : ¬Quoting.outside.OpensComment quote (inside ++ back) := by
        rintro ⟨-, rfl, -⟩
        exact absurd hquote (by decide)
      have hinside : blankComments (quote :: (inside ++ back)) =
          quote :: blankFrom (Quoting.inside quote).mode (inside ++ back) := by
        have hcons := blankFrom_cons hcomment
        rwa [step_outside_of_isQuote hquote] at hcons
      have hblanks : blankComments back = back := by
        have hend := blankComments_blanks_append hback []
        rwa [List.append_nil, show blankComments [] = [] from rfl, List.append_nil] at hend
      rw [List.append_assoc, blankComments_blanks_append hfront, List.cons_append, hinside,
        blankFrom_closesAtEnd_append rfl hcloses, hblanks]

end Quotation

namespace Source

theorem trim_blanks_append {front back inside : List Char} {c d : Char}
    (hc : isBlank c = false) (hd : isBlank d = false) (hfront : ∀ c ∈ front, isBlank c = true)
    (hback : ∀ c ∈ back, isBlank c = true) :
    trim (front ++ c :: (inside ++ [d]) ++ back) = c :: (inside ++ [d]) := by
  have hstart : trimStart front = [] := List.dropWhile_eq_nil_iff.mpr hfront
  have hend : trimEnd back = [] := by
    rw [trimEnd, List.reverse_eq_nil_iff, List.dropWhile_eq_nil_iff]
    exact fun e he => hback e (List.mem_reverse.mp he)
  have htext : front ++ c :: (inside ++ [d]) ++ back = front ++ c :: (inside ++ d :: back) := by
    simp
  rw [htext, trim_append_cons hc, hstart, trimEnd_append_cons hd, hend]
  rfl

/-- A text that ends in a quotation mark, apart from blanks, is not marked as important. -/
theorem not_endsImportant_of_isQuote {quote : Char} {text back : List Char}
    (hquote : isQuote quote = true) (hback : ∀ c ∈ back, isBlank c = true) :
    ¬EndsImportant (text ++ quote :: back) := by
  rintro ⟨front, tail, htext, hword⟩
  have hmark : quote ∉ tail := by
    refine not_mem_of_trim_eq_important (isBlank_of_isQuote hquote) ?_ hword
    rcases eq_of_isQuote hquote with rfl | rfl <;> decide
  rcases List.append_eq_append_iff.mp htext with ⟨more, hfront, hrest⟩ | ⟨more, hfront, hrest⟩
  · cases more with
    | nil =>
        obtain ⟨rfl, -⟩ := List.cons.inj hrest
        exact absurd hquote (by decide)
    | cons d more =>
        obtain ⟨-, rfl⟩ := List.cons.inj hrest
        have hblank := hback '!' (List.mem_append_right _ List.mem_cons_self)
        exact absurd hblank (by decide)
  · cases more with
    | nil =>
        obtain ⟨rfl, -⟩ := List.cons.inj hrest
        exact absurd hquote (by decide)
    | cons d more =>
        obtain ⟨-, rfl⟩ := List.cons.inj hrest
        exact hmark (List.mem_append_right _ List.mem_cons_self)

/-- A declared value that is one quotation keeps its quotation marks. -/
theorem read_quotation {front back cs : List Char} {name : Component} {value : List Component}
    (h : isQuotation cs = true) (hvalue : sourceText value = front ++ cs ++ back)
    (hfront : ∀ c ∈ front, isBlank c = true) (hback : ∀ c ∈ back, isBlank c = true) :
    (Declaration.read name value).value = String.ofList cs ∧
      (Declaration.read name value).important = false := by
  have hsplit : splitImportant (front ++ cs ++ back) = (cs, false) := by
    obtain ⟨quote, inside, hquote, rfl⟩ := enclosed_of_isQuotation h
    have hblank := isBlank_of_isQuote hquote
    have htext : front ++ quote :: (inside ++ [quote]) ++ back =
        (front ++ quote :: inside) ++ quote :: back := by simp
    have himportant : ¬EndsImportant (front ++ quote :: (inside ++ [quote]) ++ back) := by
      rw [htext]
      exact not_endsImportant_of_isQuote hquote hback
    rw [splitImportant_of_not_endsImportant himportant,
      trim_blanks_append hblank hblank hfront hback]
  rw [Declaration.read, hvalue, blankComments_quotation h hfront hback, hsplit]
  exact ⟨rfl, rfl⟩

/-! ## Strings without escapes -/

/-- Whether a text can stand as it is between these quotation marks. -/
structure IsPlainString (quote : Char) (inside : List Char) : Prop where
  isQuote : isQuote quote = true
  plain : ∀ c ∈ inside, c ≠ quote ∧ c ≠ '\\' ∧ isNewline c = false ∧ c ≠ '\x00'

instance (quote : Char) (inside : List Char) : Decidable (IsPlainString quote inside) :=
  decidable_of_iff (Text.isQuote quote = true ∧ inside.all (fun c =>
      c ≠ quote ∧ c ≠ '\\' ∧ isNewline c = false ∧ c ≠ '\x00') = true)
    ⟨fun h => ⟨h.1, fun c hc => of_decide_eq_true (List.all_eq_true.mp h.2 c hc)⟩,
      fun h => ⟨h.isQuote, List.all_eq_true.mpr fun c hc => decide_eq_true (h.plain c hc)⟩⟩

/-- The text between two quotation marks. -/
def quoted (quote : Char) (inside : List Char) : List Char := quote :: (inside ++ [quote])

namespace IsPlainString

variable {quote : Char} {inside : List Char}

theorem tail {c : Char} (h : IsPlainString quote (c :: inside)) : IsPlainString quote inside :=
  ⟨h.isQuote, fun d hd => h.plain d (List.mem_cons_of_mem _ hd)⟩

theorem isQuotation (h : IsPlainString quote inside) :
    isQuotation (quoted quote inside) = true := by
  have hcloses : closesAtEnd (.inside quote) (inside ++ [quote]) = true := by
    induction inside with
    | nil =>
        have hstep : (Quoting.inside quote).step quote = .outside := by
          have hslash : quote ≠ '\\' := by
            rcases eq_of_isQuote h.isQuote with rfl | rfl <;> decide
          rw [Quoting.step, if_neg hslash, if_pos rfl]
        rw [List.nil_append, closesAtEnd, if_pos hstep]
        rfl
    | cons c inside ih =>
        obtain ⟨hquote, hslash, -⟩ := h.plain c List.mem_cons_self
        have hstep : (Quoting.inside quote).step c = .inside quote := by
          rw [Quoting.step, if_neg hslash, if_neg hquote]
        have hopen : Quoting.inside quote ≠ .outside := Quoting.noConfusion
        rw [List.cons_append, closesAtEnd, hstep, if_neg hopen]
        exact ih h.tail
  exact Bool.and_eq_true_iff.mpr ⟨h.isQuote, hcloses⟩

/-- What a string without escapes stands for. -/
theorem stringValue (h : IsPlainString quote inside) :
    stringValue (quoted quote inside) = String.ofList inside := by
  refine congrArg String.ofList ?_
  induction inside with
  | nil => rw [List.nil_append, stringValueFrom, if_pos rfl]
  | cons c inside ih =>
      obtain ⟨hquote, hslash, -, hnull⟩ := h.plain c List.mem_cons_self
      rw [List.cons_append, stringValueFrom, if_neg hquote, if_neg hslash, if_neg hnull, ih h.tail]

/-- A string without escapes is one lexeme, whatever follows. -/
theorem leads (h : IsPlainString quote inside) (more : List Char) :
    Leads [⟨.string, quoted quote inside⟩] more := by
  have hextent : extent (stringStep quote) 0 (inside ++ quote :: more) = inside.length := by
    induction inside with
    | nil => simp [extent, stringStep]
    | cons c inside ih =>
        obtain ⟨hquote, hslash, hnewline, -⟩ := h.plain c List.mem_cons_self
        have hstep : stringStep quote c (inside ++ quote :: more) = some 0 := by
          rw [stringStep, if_neg (by simp [hquote, hnewline]), if_neg hslash]
        rw [List.cons_append, extent, hstep]
        exact congrArg (· + 1) (ih h.tail)
  have hblank : isAsciiBlank quote = false := by
    rcases eq_of_isQuote h.isQuote with rfl | rfl <;> decide
  have hmeasure : measure quote (inside ++ quote :: more) = (.string, inside.length + 2) := by
    rw [measure, hblank, if_neg Bool.false_ne_true, if_pos h.isQuote, stringLexeme, hextent]
    simp
  refine leads_singleton_iff.mpr ⟨quote, inside ++ [quote], rfl, ?_⟩
  rw [List.append_assoc, List.singleton_append, firstLexeme, hmeasure]
  simp [quoted, List.take_append, List.take_of_length_le]

end IsPlainString

/-- Whether a string heads an item that is a keyframe set with this body. -/
def Item.IsHeadedBy (item : Item) (quote : Char) (inside : List Char) (body : List Lexeme) : Prop :=
  ∃ name heading, item = .atRule name heading (some body) ∧ namesKeyframes name = true ∧
    (heading.filter fun c => !c.isGap) = [⟨⟨.string, quoted quote inside⟩, [], none⟩]

/-- A heading that is a string gives its name to a keyframe set. -/
theorem Item.IsHeadedBy.keyframes?_eq {item : Item} {quote : Char} {inside : List Char}
    {body : List Lexeme} (hitem : item.IsHeadedBy quote inside body)
    (h : IsPlainString quote inside) :
    item.keyframes? = some ⟨String.ofList inside, (items body).filterMap Item.rule?⟩ := by
  obtain ⟨name, heading, rfl, hname, hheading⟩ := hitem
  have hfound : keyframesName? heading = some (String.ofList inside) := by
    rw [keyframesName?, hheading]
    exact congrArg some h.stringValue
  rw [Item.keyframes?, if_pos hname, hfound]
  rfl

/-- Whether the last keyframe set of its name in a text is headed by a string. -/
def StoresAs (text : String) (quote : Char) (inside : List Char) (body : List Lexeme) : Prop :=
  ∃ front item back,
    itemsIn (componentsOf (dropByteOrderMark text.toList)) = front ++ item :: back ∧
      item.IsHeadedBy quote inside body ∧
      ∀ later ∈ back, ∀ k ∈ later.keyframes?, k.name ≠ String.ofList inside

end Source

/-! ## Keyframe sets by the names of strings -/

theorem KeyframeSet.name_ofSource (r : Registry) (source : Source.Keyframes) :
    (ofSource r source).name = source.name := by
  have hwrite : ∀ (s : KeyframeSet) (offset : Float) (block : Block),
      (s.writeAt offset block).name = s.name := by
    intro s offset block
    rw [writeAt]
    cases mergeAt? (clampUnit offset) block s.frames <;> rfl
  refine List.foldlRecOn (motive := fun s : KeyframeSet => s.name = source.name) source.frames _ rfl
    fun s hs frame _ => ?_
  refine List.foldlRecOn (motive := fun s : KeyframeSet => s.name = source.name)
    (frameOffsets frame) _ hs fun s hs offset _ => ?_
  exact (hwrite s offset _).trans hs

/-- A sheet stores a keyframe set that is named by a string under what the string stands for. -/
theorem Stylesheet.get?_keyframes_of_string (r : Registry) {text : String} {quote : Char}
    {inside : List Char} {body : List Source.Lexeme} (h : Source.IsPlainString quote inside)
    (hkeeps : KeepsName (String.ofList inside)) (htext : Source.StoresAs text quote inside body) :
    (parse r text).keyframes.get? (String.ofList inside) =
      some (KeyframeSet.ofSource r
        ⟨String.ofList inside, (Source.items body).filterMap Source.Item.rule?⟩) := by
  obtain ⟨front, item, back, hitems, hitem, hlast⟩ := htext
  have hback : ((back.filterMap Source.Item.keyframes?).map (KeyframeSet.ofSource r)).filter
      (fun set => set.name = String.ofList inside) = [] := by
    rw [List.filter_eq_nil_iff]
    intro set hset
    obtain ⟨k, hk, rfl⟩ := List.mem_map.mp hset
    obtain ⟨later, hlater, hfound⟩ := List.mem_filterMap.mp hk
    rw [decide_eq_true_iff, KeyframeSet.name_ofSource]
    exact hlast later hlater k hfound
  rw [get?_keyframes_parse r text hkeeps, writtenKeyframes, (Source.Sheet.parse_eq text).2, hitems,
    List.filterMap_append, List.filterMap_cons_some (hitem.keyframes?_eq h), List.map_append,
    List.map_cons, List.filter_append,
    List.filter_cons_of_pos (by simp [KeyframeSet.name_ofSource]), hback]
  simp

/-- The two ways in which a string between quotation marks is read: it is one lexeme whatever follows,
names a keyframe set without the marks, and is a declared value with them. -/
structure ReadsTwoWays (quote : Char) (inside : List Char) : Prop where
  lexeme : ∀ more, Source.Leads [⟨.string, Source.quoted quote inside⟩] more
  stored : ∀ r text body, Stylesheet.KeepsName (String.ofList inside) →
    Source.StoresAs text quote inside body →
      (Stylesheet.parse r text).keyframes.get? (String.ofList inside) =
        some (KeyframeSet.ofSource r
          ⟨String.ofList inside, (Source.items body).filterMap Source.Item.rule?⟩)
  declared : ∀ name value front back, (∀ c ∈ front, isBlank c = true) →
    (∀ c ∈ back, isBlank c = true) →
      Source.sourceText value = front ++ Source.quoted quote inside ++ back →
        (Source.Declaration.read name value).value = String.ofList (Source.quoted quote inside)

theorem Source.IsPlainString.readsTwoWays {quote : Char} {inside : List Char}
    (h : IsPlainString quote inside) : ReadsTwoWays quote inside where
  lexeme := h.leads
  stored r _ _ hkeeps htext := Stylesheet.get?_keyframes_of_string r h hkeeps htext
  declared _ _ _ _ hfront hback hvalue :=
    (read_quotation h.isQuotation hvalue hfront hback).1

end WidgetStyle
