import WidgetStyle.Proofs.Selector.Cursor

/-!
# WidgetStyle.Proofs.Selector.WholeCharacters — no character is cut

Reading byte by byte gives the selector that reading characters gives.  One step leads from a place
between two characters to another one, and its mark makes of a draft what the characters that it has
passed by make of it (`SelectorCursor.StandsAt.next`).  The marks differ from those of
`SelectorMark.read` in blanks only: a run of them is one mark here and one for each blank there, and
a run at the end is no mark at all.  A draft does not see the difference
(`SelectorDraft.step_gap_step_gap`, `SelectorDraft.finish_step_gap`).

Whatever the bytes are, names and values come from the slices that have been decoded
(`SelectorCursor.NamesDecoded`).  In the bytes of a text these lie between characters, so nothing in
them is replaced, and every name or value of the selector stands in the text
(`Selector.parseBytes_cuts_no_character`).
-/

namespace WidgetStyle

open Text

/-! ## Runs of blanks -/

namespace SelectorDraft

/-- Behind a blank, another one makes no difference. -/
theorem step_gap_step_gap (d : SelectorDraft) : (d.step .gap).step .gap = d.step .gap := by
  by_cases hjoin : (d.close.pending.isNone && !d.close.links.isEmpty) = true
  · have hgap : d.step .gap = { d.close with pending := some .descendant } := if_pos hjoin
    rw [hgap]
    exact step_gap_of_pending (simples_close d) rfl
  · have hgap : d.step .gap = d.close := if_neg hjoin
    rw [hgap, step, close_of_simples_eq_nil (simples_close d)]
    exact if_neg hjoin

/-- At the end, a blank makes no difference either. -/
theorem finish_step_gap (d : SelectorDraft) (text : String) :
    (d.step .gap).finish text = d.finish text := by
  obtain ⟨pending, hgap⟩ := exists_step_gap d
  have hclosed : ({ d.close with pending } : SelectorDraft).close = { d.close with pending } :=
    close_of_simples_eq_nil (simples_close d)
  rw [hgap, finish, finish, hclosed]

theorem after_cons (d : SelectorDraft) (c : Char) (cs : List Char) :
    d.after (c :: cs) =
      (d.step (SelectorMark.first c cs).1).after (cs.drop (SelectorMark.first c cs).2) := by
  rw [after, SelectorMark.read_cons]
  rfl

theorem after_cons_of_blank {c : Char} (hblank : isAsciiBlank c = true) (d : SelectorDraft)
    (cs : List Char) : d.after (c :: cs) = (d.step .gap).after cs := by
  rw [after_cons, SelectorMark.first, if_pos hblank]
  rfl

theorem after_dropWhile_blank (d : SelectorDraft) (cs : List Char) :
    (d.step .gap).after (cs.dropWhile isAsciiBlank) = (d.step .gap).after cs := by
  induction cs with
  | nil => rfl
  | cons c cs ih =>
      cases hblank : isAsciiBlank c with
      | false => rw [List.dropWhile_cons_of_neg (by simp [hblank])]
      | true =>
          rw [List.dropWhile_cons_of_pos hblank, ih, after_cons_of_blank hblank, step_gap_step_gap]

end SelectorDraft

/-! ## Reading -/

namespace SelectorCursor.StandsAt

variable {text rest : List Char} {s : SelectorCursor}

/-- A step leads from one boundary of characters to another, or to the end when it gives no mark.
Its mark makes of a draft what the characters do that it has passed by. -/
theorem next (h : StandsAt text rest s) :
    ∃ rest', StandsAt text rest' s.next.2 ∧ (s.next.1 = none → rest' = []) ∧
      ∀ (d : SelectorDraft) shown,
        ((s.next.1.elim d d.step).after rest').finish shown = (d.after rest).finish shown := by
  cases rest with
  | nil =>
      rw [h.next_nil]
      exact ⟨[], h, fun _ => rfl, fun _ _ => rfl⟩
  | cons c cs =>
      cases hblank : isAsciiBlank c with
      | false =>
          obtain ⟨hmark, hrest⟩ := h.next_of_not_blank hblank
          rw [hmark]
          refine ⟨_, hrest, nofun, fun d shown => ?_⟩
          rw [SelectorDraft.after_cons]
          rfl
      | true =>
          obtain ⟨hmark, hrest⟩ := h.next_of_blank hblank
          have hblanks (d : SelectorDraft) :
              d.after (c :: cs) = (d.step .gap).after (cs.dropWhile isAsciiBlank) := by
            rw [SelectorDraft.after_cons_of_blank hblank, SelectorDraft.after_dropWhile_blank]
          rw [hmark]
          refine ⟨_, hrest, fun hnone => ?_, fun d shown => ?_⟩
          · exact List.isEmpty_iff.mp (by simpa using hnone)
          · rw [hblanks]
            cases cs.dropWhile isAsciiBlank with
            | nil => exact (SelectorDraft.finish_step_gap d shown).symm
            | cons e more => rfl

/-- Reading goes to the end of the text, and its marks come to what those of the characters do. -/
theorem read (h : StandsAt text rest s) :
    StandsAt text [] s.read.2 ∧
      ∀ (d : SelectorDraft) shown,
        (s.read.1.foldl SelectorDraft.step d).finish shown = (d.after rest).finish shown := by
  fun_induction SelectorCursor.read generalizing rest with
  | case1 s mark t hnext marks u hread ih =>
      obtain ⟨rest', hrest, -, hstep⟩ := h.next
      rw [hnext] at hrest hstep
      rw [hread] at ih
      obtain ⟨hend, hfinish⟩ := ih hrest
      exact ⟨hend, fun d shown => (hfinish _ shown).trans (hstep d shown)⟩
  | case2 s t hnext =>
      obtain ⟨rest', hrest, hend, hstep⟩ := h.next
      rw [hnext] at hrest hend hstep
      obtain rfl := hend rfl
      exact ⟨hrest, hstep⟩

theorem iterate_next (h : StandsAt text rest s) (steps : Nat) :
    ∃ rest', StandsAt text rest' ((fun s => s.next.2)^[steps] s) := by
  induction steps generalizing s rest with
  | zero => exact ⟨rest, h⟩
  | succ steps ih =>
      obtain ⟨rest', hrest, -⟩ := h.next
      exact ih hrest

end SelectorCursor.StandsAt

/-- A selector is read from the bytes of its text as it is from the characters. -/
theorem Selector.parseBytes_eq_parse (text : String) : parseBytes text = parse text := by
  have hread := (SelectorCursor.StandsAt.start (normalText text)).read.2 {} (normalText text)
  rw [parseBytes, parse]
  dsimp only
  rw [hread, normalText, String.toList_ofList]
  rfl

/-! ## Names -/

/-- Each name and value of the simple selector satisfies `P`: those of tags and attributes as they
are written, before their letters are made lower case. -/
def SimpleSelector.NamesSatisfy (P : String → Prop) : SimpleSelector → Prop
  | .hasTag name | .hasAttribute name => ∃ written, P written ∧ name = lower written
  | .hasClass name | .hasId name => P name
  | .attributeIs name value => (∃ written, P written ∧ name = lower written) ∧ P value
  | .universal | .pseudo _ => True

theorem SimpleSelector.NamesSatisfy.mono {P Q : String → Prop} (hPQ : ∀ name, P name → Q name)
    {x : SimpleSelector} (h : x.NamesSatisfy P) : x.NamesSatisfy Q := by
  have hwritten {name : String} (hname : ∃ written, P written ∧ name = lower written) :
      ∃ written, Q written ∧ name = lower written :=
    hname.imp fun _ => And.imp_left (hPQ _)
  cases x with
  | hasTag name => exact hwritten h
  | hasAttribute name => exact hwritten h
  | hasClass name => exact hPQ _ h
  | hasId name => exact hPQ _ h
  | attributeIs name value => exact ⟨hwritten h.1, hPQ _ h.2⟩
  | universal => trivial
  | pseudo p => trivial

namespace SelectorCursor

/-- The name is what one of the slices has been decoded to. -/
def HasDecoded (s : SelectorCursor) (name : String) : Prop :=
  ∃ slice ∈ s.decoded, name.toList = lossy (slice.bytes s.bytes)

/-- The names of the mark, if it is a simple selector, have been decoded. -/
def NamesDecoded (r : SelectorMark × SelectorCursor) : Prop :=
  ∀ x ∈ r.1.simple?, x.NamesSatisfy r.2.HasDecoded

section Names

variable {s t : SelectorCursor} {mark : SelectorMark}

theorem Precedes.hasDecoded (h : Precedes s t) {name : String} (hname : s.HasDecoded name) :
    t.HasDecoded name := by
  obtain ⟨slice, hmem, heq⟩ := hname
  exact ⟨slice, h.decoded.subset hmem, by rw [heq, h.bytes_eq]⟩

theorem Precedes.namesDecoded (h : Precedes s t) (hnames : NamesDecoded (mark, s)) :
    NamesDecoded (mark, t) :=
  fun x hx => (hnames x hx).mono fun _ => h.hasDecoded

theorem hasDecoded_consumeWhile (p : Char → Bool) (s : SelectorCursor) :
    (s.consumeWhile p).2.HasDecoded (String.ofList (s.consumeWhile p).1) :=
  ⟨_, List.mem_cons_self, String.toList_ofList⟩

theorem hasDecoded_consumeValue (s : SelectorCursor) :
    s.consumeValue.2.HasDecoded (String.ofList s.consumeValue.1) := by
  rw [consumeValue]
  split
  · exact (Precedes.passByte _).hasDecoded (hasDecoded_consumeWhile _ _)
  · exact hasDecoded_consumeWhile _ _

theorem namesDecoded_of_simple?_eq_none (h : mark.simple? = none) : NamesDecoded (mark, s) := by
  intro x hx
  exact absurd (h.symm.trans hx) nofun

theorem namesDecoded_simple {y : SimpleSelector} (h : y.NamesSatisfy s.HasDecoded) :
    NamesDecoded (.simple y, s) := by
  intro x hx
  obtain rfl := Option.some.inj hx
  exact h

theorem namesDecoded_named {build : String → SimpleSelector} {name : List Char}
    (h : (build (String.ofList name)).NamesSatisfy s.HasDecoded) :
    NamesDecoded (SelectorMark.named build name, s) := by
  rw [SelectorMark.named]
  split
  · exact namesDecoded_of_simple?_eq_none rfl
  · exact namesDecoded_simple h

theorem lower_ofList (cs : List Char) :
    lower (String.ofList cs) = String.ofList (cs.map Char.toLower) := by
  rw [lower, String.toList_ofList]

theorem namesDecoded_consumePseudo (s : SelectorCursor) : NamesDecoded s.consumePseudo := by
  rw [consumePseudo]
  dsimp only
  split
  · exact namesDecoded_of_simple?_eq_none rfl
  · cases PseudoClass.ofName? _ with
    | none => exact namesDecoded_of_simple?_eq_none rfl
    | some p => exact namesDecoded_simple trivial

theorem namesDecoded_consumeAttribute (s : SelectorCursor) : NamesDecoded s.consumeAttribute := by
  have hclose (t : SelectorCursor) : Precedes t (t.skipWhile (· != ']')).passByte :=
    (Precedes.skipWhile _ t).trans (.passByte _)
  have hname := (Precedes.skipWhile isAsciiBlank _).hasDecoded
    (hasDecoded_consumeWhile SelectorMark.isIdentChar s.bump.skipBlanks)
  rw [consumeAttribute]
  dsimp only
  split
  · next hsign =>
      have hvalue := (Precedes.bump hsign).trans (.consumeValue _)
      refine (hclose _).namesDecoded (namesDecoded_named ⟨⟨_, ?_, (lower_ofList _).symm⟩, ?_⟩)
      · exact hvalue.hasDecoded hname
      · exact hasDecoded_consumeValue _
  · exact (hclose _).namesDecoded (namesDecoded_named ⟨_, hname, (lower_ofList _).symm⟩)

theorem namesDecoded_consume (c : Char) (s : SelectorCursor) : NamesDecoded (s.consume c) := by
  have hname := hasDecoded_consumeWhile SelectorMark.isIdentChar
  rw [consume]
  split; · exact namesDecoded_simple trivial
  split; · exact namesDecoded_named (hname s.bump)
  split; · exact namesDecoded_named (hname s.bump)
  split; · exact namesDecoded_consumeAttribute s
  split; · exact namesDecoded_consumePseudo s
  split; · exact namesDecoded_of_simple?_eq_none rfl
  split; · exact namesDecoded_of_simple?_eq_none rfl
  split; · exact namesDecoded_of_simple?_eq_none rfl
  split
  · exact namesDecoded_simple ⟨_, hname s, (lower_ofList _).symm⟩
  · exact namesDecoded_of_simple?_eq_none rfl

theorem namesDecoded_next (h : s.next = (some mark, t)) : NamesDecoded (mark, t) := by
  rw [next] at h
  dsimp only at h
  split at h
  · obtain ⟨c, -, rfl⟩ := Option.map_eq_some_iff.mp (Prod.mk.inj h).1
    exact namesDecoded_of_simple?_eq_none rfl
  · split at h
    · next c hc =>
        cases h
        exact namesDecoded_consume c _
    · cases h

theorem Precedes.next (s : SelectorCursor) : Precedes s s.next.2 := by
  rcases next_cases s with ⟨-, hend⟩ | ⟨c, hc, hon⟩
  · rw [hend]
    exact .refl s
  · exact (Precedes.bump hc).trans hon

theorem Precedes.read (s : SelectorCursor) : Precedes s s.read.2 := by
  fun_induction SelectorCursor.read with
  | case1 s mark t hnext marks u hread ih =>
      have hon := Precedes.next s
      rw [hnext] at hon
      rw [hread] at ih
      exact hon.trans ih
  | case2 s t hnext =>
      have hon := Precedes.next s
      rwa [hnext] at hon

/-- Every name that is read has been decoded. -/
theorem namesDecoded_read (s : SelectorCursor) :
    ∀ mark ∈ s.read.1, NamesDecoded (mark, s.read.2) := by
  fun_induction SelectorCursor.read with
  | case1 s mark t hnext marks u hread ih =>
      have hon := Precedes.read t
      rw [hread] at ih hon
      exact List.forall_mem_cons.mpr ⟨hon.namesDecoded (namesDecoded_next hnext), ih⟩
  | case2 s t hnext => exact nofun

end Names

end SelectorCursor

namespace Selector

theorem simples_parseBytes (text : String) :
    (parseBytes text).simples =
      (SelectorCursor.start (normalText text)).read.1.filterMap SelectorMark.simple? := by
  rw [parseBytes]
  dsimp only
  rw [SelectorDraft.simples_finish, SelectorDraft.simplesRead_foldl]
  rfl

/-- The names of a selector have been decoded from its text. -/
theorem namesSatisfy_of_mem_simples (text : String) {x : SimpleSelector}
    (hx : x ∈ (parse text).simples) :
    x.NamesSatisfy (SelectorCursor.start (normalText text)).read.2.HasDecoded := by
  rw [← parseBytes_eq_parse, simples_parseBytes] at hx
  obtain ⟨mark, hmark, hsimple⟩ := List.mem_filterMap.mp hx
  exact SelectorCursor.namesDecoded_read _ mark hmark x hsimple

end Selector

/-! ## Boundaries -/

theorem isValid_of_append {text : String} {front rest : List Char}
    (h : front ++ rest = text.toList) : String.Pos.Raw.IsValid text ⟨(utf8 front).length⟩ := by
  rw [String.Pos.Raw.isValid_iff_exists_append]
  refine ⟨.ofList front, .ofList rest, ?_, ?_⟩
  · rw [← String.ofList_append, h, String.ofList_toList]
  · rw [String.Pos.Raw.ext_iff]
    exact (utf8ByteSize_ofList front).symm

namespace Slice.IsWhole

variable {text : String} {slice : Slice}

theorem isValid_start (h : slice.IsWhole text.toList) :
    String.Pos.Raw.IsValid text ⟨slice.start⟩ := by
  obtain ⟨before, between, after, htext, hstart, -⟩ := h
  exact hstart ▸ isValid_of_append htext

theorem isValid_stop (h : slice.IsWhole text.toList) :
    String.Pos.Raw.IsValid text ⟨slice.stop⟩ := by
  obtain ⟨before, between, after, htext, -, hstop⟩ := h
  rw [← List.append_assoc] at htext
  exact hstop ▸ isValid_of_append htext

theorem start_le_stop {text : List Char} (h : slice.IsWhole text) : slice.start ≤ slice.stop := by
  obtain ⟨before, between, after, -, hstart, hstop⟩ := h
  rw [hstart, hstop, utf8_append, List.length_append]
  exact Nat.le_add_right _ _

theorem exists_between {text : List Char} (h : slice.IsWhole text) :
    ∃ between, between <:+: text ∧ slice.bytes (utf8 text) = utf8 between := by
  obtain ⟨before, between, after, rfl, hstart, hstop⟩ := h
  exact ⟨between, ⟨before, after, List.append_assoc ..⟩, Slice.bytes_utf8 hstart hstop⟩

end Slice.IsWhole

namespace SelectorCursor

variable {s t : SelectorCursor}

/-- A cursor stands between two characters of a text.  So do both ends of each slice that it has
decoded, and nothing in the slice has been replaced. -/
structure KeepsWhole (text : String) (s : SelectorCursor) : Prop where
  bytes_eq : s.bytes = text.toUTF8.data.toList
  cursor : String.Pos.Raw.IsValid text ⟨s.index⟩
  start : ∀ slice ∈ s.decoded, String.Pos.Raw.IsValid text ⟨slice.start⟩
  stop : ∀ slice ∈ s.decoded, String.Pos.Raw.IsValid text ⟨slice.stop⟩
  ordered : ∀ slice ∈ s.decoded, slice.start ≤ slice.stop
  decoded : ∀ slice ∈ s.decoded, none ∉ decodeBytes (slice.bytes s.bytes)

/-- A step gives a mark and takes the cursor on, within the text, or it ends at the end. -/
def Progresses (s : SelectorCursor) : Prop :=
  if s.next.1.isSome then s.index < s.next.2.index ∧ s.next.2.index ≤ s.bytes.length
  else s.next.2.index = s.bytes.length

theorem peek?_of_next (h : s.next = (none, t)) : t.peek? = none := by
  rw [next] at h
  dsimp only at h
  split at h
  · obtain ⟨hpeek, rfl⟩ := Prod.mk.inj h
    exact Option.map_eq_none_iff.mp hpeek
  · split at h
    · cases h
    · next hpeek =>
        cases h
        exact hpeek

/-- A cursor that has not left its bytes makes progress until it comes to their end. -/
theorem progresses (h : s.index ≤ s.bytes.length) : s.Progresses := by
  have hinside := (Precedes.next s).inside h
  rw [Progresses]
  cases hmark : s.next.1 with
  | some mark =>
      rcases next_cases s with ⟨-, hend⟩ | ⟨c, hc, hon⟩
      · rw [hend] at hmark
        cases hmark
      · exact ⟨hon.index_le, hinside⟩
  | none =>
      have hpeek := peek?_of_next (Prod.ext hmark rfl)
      have hend := List.getElem?_eq_none_iff.mp (Option.map_eq_none_iff.mp hpeek)
      rw [(Precedes.next s).bytes_eq] at hend
      exact Nat.le_antisymm hinside hend

namespace StandsAt

variable {rest : List Char}

theorem keepsWhole {text : String} (h : StandsAt text.toList rest s) : s.KeepsWhole text where
  bytes_eq := h.bytes_eq.trans (data_toUTF8 text).symm
  cursor := by
    obtain ⟨front, htext, hindex⟩ := h.cursor
    exact hindex ▸ isValid_of_append htext
  start := fun slice hslice => (h.decoded slice hslice).isValid_start
  stop := fun slice hslice => (h.decoded slice hslice).isValid_stop
  ordered := fun slice hslice => (h.decoded slice hslice).start_le_stop
  decoded := fun slice hslice => by
    obtain ⟨between, -, hbytes⟩ := (h.decoded slice hslice).exists_between
    rw [h.bytes_eq, hbytes, decodeBytes_utf8]
    simp

theorem index_le {text : List Char} (h : StandsAt text rest s) : s.index ≤ s.bytes.length := by
  obtain ⟨front, rfl, hindex⟩ := h.cursor
  rw [h.bytes_eq, hindex, utf8_append, List.length_append]
  exact Nat.le_add_right _ _

theorem index_of_end {text : String} (h : StandsAt text.toList [] s) :
    s.index = text.utf8ByteSize := by
  obtain ⟨front, htext, hindex⟩ := h.cursor
  rw [List.append_nil] at htext
  rw [hindex, htext, ← utf8ByteSize_ofList, String.ofList_toList]

/-- A name that has been decoded stands in the text. -/
theorem part_of_hasDecoded {text : List Char} (h : StandsAt text rest s) {name : String}
    (hname : s.HasDecoded name) : name.toList <:+: text := by
  obtain ⟨slice, hslice, hdecoded⟩ := hname
  obtain ⟨between, hpart, hbytes⟩ := (h.decoded slice hslice).exists_between
  rwa [hdecoded, h.bytes_eq, hbytes, lossy_utf8]

end StandsAt

end SelectorCursor

/-- No character of a text is cut when its bytes are read one by one.  After any number of steps the
cursor stands between two characters, as do both ends of every slice decoded so far, which is decoded
without any replacement; and one more step takes the cursor on, or ends at the end of the text.  So
reading does end there.  The selector is the same as the one that is read from the characters, and its
names and values, those of tags and attributes up to letter case, are slices decoded from the normal
text and stand in it as they are. -/
theorem Selector.parseBytes_cuts_no_character (text : String) :
    (∀ steps, ((fun s => s.next.2)^[steps] (SelectorCursor.start text)).Progresses ∧
      ((fun s => s.next.2)^[steps] (SelectorCursor.start text)).KeepsWhole text) ∧
    (SelectorCursor.start text).read.2.KeepsWhole text ∧
    (SelectorCursor.start text).read.2.index = text.utf8ByteSize ∧
    parseBytes text = parse text ∧
    ∀ x ∈ (parse text).simples, x.NamesSatisfy fun name =>
      (SelectorCursor.start (normalText text)).read.2.HasDecoded name ∧
        name.toList <:+: (normalText text).toList := by
  have hstart := SelectorCursor.StandsAt.start text
  obtain ⟨hend, -⟩ := hstart.read
  refine ⟨fun steps => ?_, hend.keepsWhole, hend.index_of_end, parseBytes_eq_parse text,
    fun x hx => ?_⟩
  · obtain ⟨rest, hrest⟩ := hstart.iterate_next steps
    exact ⟨SelectorCursor.progresses hrest.index_le, hrest.keepsWhole⟩
  · obtain ⟨hnormal, -⟩ := (SelectorCursor.StandsAt.start (normalText text)).read
    exact (namesSatisfy_of_mem_simples text hx).mono fun _ hname =>
      ⟨hname, hnormal.part_of_hasDecoded hname⟩

/-- Every `é` takes two bytes. -/
example : (SelectorCursor.start "é.été[é=é]").read.2.decoded =
    [⟨12, 14⟩, ⟨9, 11⟩, ⟨3, 8⟩, ⟨0, 2⟩] := by
  decide +kernel

end WidgetStyle
