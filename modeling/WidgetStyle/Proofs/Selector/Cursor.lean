import WidgetStyle.Proofs.Selector.Counting
import WidgetStyle.Proofs.Variable.Offsets
import WidgetStyle.Selector.Cursor

/-!
# WidgetStyle.Proofs.Selector.Cursor — the cursor between characters

A cursor goes on by single bytes, so inside a loop it may stand in the middle of a character.  The
loops pass by whole characters all the same: what they look for is ASCII, and their tests make no
difference between characters beyond ASCII (`Text.Uniform`), whose bytes all lie beyond ASCII as well.
A run or a group therefore ends in the bytes of a text where it ends in the characters
(`Text.takeWhile_asChars`, `SelectorMark.exists_group`).

`SelectorCursor.StandsAt` says that a cursor stands in front of some rest of a text, and that the ends
of all slices decoded so far lie between characters.  There is one lemma for each step, which says in
front of what the cursor stands afterwards and what the step has given: just what `SelectorMark.first`
gives for the characters (`StandsAt.consume`, `StandsAt.next_of_not_blank`).
-/

namespace WidgetStyle

open Text

/-! ## Texts in bytes -/

namespace Text

theorem decodeFrom_append (front rest : List UInt8) :
    decodeFrom front.length (front ++ rest) = decodeFrom 0 rest := by
  induction front with
  | nil => rfl
  | cons byte front ih => exact ih

/-- What a text is encoded as is decoded to the text. -/
theorem decodeBytes_utf8 (cs : List Char) : decodeBytes (utf8 cs) = cs.map some := by
  rw [decodeBytes]
  induction cs with
  | nil => rfl
  | cons c cs ih =>
      obtain ⟨byte, bytes, hencode⟩ :=
        List.exists_cons_of_ne_nil (String.utf8EncodeChar_ne_nil (c := c))
      have hsize : bytes.length = c.utf8Size - 1 := by
        rw [← String.length_utf8EncodeChar, hencode, List.length_cons, Nat.add_sub_cancel]
      have hdecode : (byte :: (bytes ++ utf8 cs)).toByteArray.utf8DecodeChar? 0 = some c := by
        rw [← List.cons_append, ← hencode, List.toByteArray_append]
        exact ByteArray.utf8DecodeChar?_utf8EncodeChar_append
      have hmore : decodeFrom (c.utf8Size - 1) (bytes ++ utf8 cs) = cs.map some := by
        rw [← hsize, decodeFrom_append, ih]
      have hcons : utf8 (c :: cs) = byte :: (bytes ++ utf8 cs) := by
        rw [utf8, List.flatMap_cons, hencode, List.cons_append]
        rfl
      rw [hcons, decodeFrom, hdecode]
      exact congrArg (some c :: ·) hmore

theorem lossy_utf8 (cs : List Char) : lossy (utf8 cs) = cs := by
  rw [lossy, decodeBytes_utf8, List.map_map]
  exact List.map_id cs

/-- Whether a test makes no difference between the characters beyond ASCII. -/
def Uniform (p : Char → Bool) : Prop :=
  ∀ c d : Char, 0x80 ≤ c.toNat → 0x80 ≤ d.toNat → p c = p d

section Uniform

variable {p : Char → Bool} {c d : Char}

theorem Uniform.of_beyond_ascii {b : Bool} (h : ∀ c : Char, 0x80 ≤ c.toNat → p c = b) : Uniform p :=
  fun c d hc hd => (h c hc).trans (h d hd).symm

/-- What fails beyond ASCII holds of ASCII characters only. -/
theorem ascii_of_beyond_false (h : 0x80 ≤ c.toNat → p c = false) (hc : p c = true) :
    c.toNat < 0x80 := by
  refine Nat.not_le.mp fun hbeyond => ?_
  rw [h hbeyond] at hc
  cases hc

theorem isAsciiBlank_of_beyond_ascii (hc : 0x80 ≤ c.toNat) : isAsciiBlank c = false := by
  simp [isAsciiBlank, ne_of_beyond_ascii hc]

theorem bne_of_beyond_ascii (hd : d.toNat < 0x80) (hc : 0x80 ≤ c.toNat) : (c != d) = true :=
  bne_iff_ne.mpr (ne_of_beyond_ascii hc hd)

theorem isIdentChar_of_beyond_ascii (hc : 0x80 ≤ c.toNat) : SelectorMark.isIdentChar c = true := by
  simp [SelectorMark.isIdentChar, hc]

theorem uniform_isAsciiBlank : Uniform isAsciiBlank :=
  .of_beyond_ascii fun _ => isAsciiBlank_of_beyond_ascii

theorem uniform_bne (hd : d.toNat < 0x80) : Uniform (· != d) :=
  .of_beyond_ascii fun _ => bne_of_beyond_ascii hd

theorem uniform_isIdentChar : Uniform SelectorMark.isIdentChar :=
  .of_beyond_ascii fun _ => isIdentChar_of_beyond_ascii

/-- What an attribute value without quotation marks is made of. -/
theorem uniform_unquoted : Uniform fun c => !isAsciiBlank c && c != ']' :=
  .of_beyond_ascii fun c hc => by
    rw [isAsciiBlank_of_beyond_ascii hc, bne_of_beyond_ascii (by decide) hc]

end Uniform

/-- A run over the bytes of a text ends where the run over its characters does. -/
theorem takeWhile_asChars {p : Char → Bool} (hp : Uniform p) (cs : List Char) :
    (asChars (utf8 cs)).takeWhile p = asChars (utf8 (cs.takeWhile p)) := by
  induction cs with
  | nil => rfl
  | cons c cs ih =>
      have hsame : ∀ u ∈ asChars (String.utf8EncodeChar c), p u = p c := by
        intro u hu
        by_cases hc : c.toNat < 0x80
        · rw [asChars_utf8EncodeChar_of_ascii hc, List.mem_singleton] at hu
          rw [hu]
        · have hbeyond := Nat.not_lt.mp hc
          exact hp u c (toNat_of_mem_asChars hbeyond hu) hbeyond
      rw [asChars_utf8_cons]
      cases hpc : p c with
      | true =>
          rw [List.takeWhile_append_of_pos fun u hu => (hsame u hu).trans hpc, ih,
            List.takeWhile_cons_of_pos hpc, asChars_utf8_cons]
      | false =>
          obtain ⟨u, us, hus⟩ := List.exists_cons_of_ne_nil (asChars_utf8EncodeChar_ne_nil (c := c))
          have hpu : p u = false := (hsame u (hus ▸ List.mem_cons_self)).trans hpc
          rw [List.takeWhile_cons_of_neg (by simp [hpc]), hus, List.cons_append,
            List.takeWhile_cons_of_neg (by simp [hpu])]
          rfl

end Text

namespace SelectorMark

theorem groupExtent_eq_add (depth count : Nat) (cs : List Char) :
    groupExtent depth count cs = count + groupExtent depth 0 cs := by
  induction cs generalizing depth count with
  | nil => rfl
  | cons c cs ih =>
      rcases groupExtent_cons depth c with hlast | ⟨depth', hpass⟩
      · rw [hlast, hlast, Nat.zero_add]
      · rw [hpass, hpass, ih depth' (count + 1), ih depth' (0 + 1)]
        omega

theorem groupExtent_beyond_append {us : List Char} (hus : ∀ u ∈ us, 0x80 ≤ u.toNat)
    (depth : Nat) (rest : List Char) :
    groupExtent depth 0 (us ++ rest) = us.length + groupExtent depth 0 rest := by
  induction us with
  | nil => exact (Nat.zero_add _).symm
  | cons u us ih =>
      have hu := hus u List.mem_cons_self
      rw [List.cons_append, groupExtent, if_neg (ne_of_beyond_ascii hu (by decide)),
        if_neg (ne_of_beyond_ascii hu (by decide)), groupExtent_eq_add,
        ih fun v hv => hus v (List.mem_cons_of_mem _ hv), List.length_cons]
      omega

/-- A group ends in the bytes of a text where it ends in its characters. -/
theorem exists_group (depth : Nat) (cs : List Char) :
    ∃ group rest, cs = group ++ rest ∧ groupExtent depth 0 cs = group.length ∧
      groupExtent depth 0 (asChars (utf8 cs)) = (asChars (utf8 group)).length := by
  induction cs generalizing depth with
  | nil => exact ⟨[], [], rfl, rfl, rfl⟩
  | cons c cs ih =>
      by_cases hc : c.toNat < 0x80
      · rw [asChars_utf8_of_ascii hc]
        rcases groupExtent_cons depth c with hlast | ⟨depth', hpass⟩
        · refine ⟨[c], cs, rfl, hlast 0 cs, ?_⟩
          rw [hlast, asChars_utf8_of_ascii hc]
          rfl
        · obtain ⟨group, rest, rfl, hchars, hbytes⟩ := ih depth'
          refine ⟨c :: group, rest, rfl, ?_, ?_⟩
          · rw [hpass, groupExtent_eq_add, hchars, Nat.add_comm, List.length_cons]
          · rw [hpass, groupExtent_eq_add, hbytes, Nat.add_comm, asChars_utf8_of_ascii hc,
              List.length_cons]
      · -- Neither the character nor one of its bytes is a parenthesis.
        have hbeyond := Nat.not_lt.mp hc
        have hchar : ∀ u ∈ [c], 0x80 ≤ u.toNat := List.forall_mem_singleton.mpr hbeyond
        have hpass := groupExtent_beyond_append hchar depth cs
        obtain ⟨group, rest, rfl, hchars, hbytes⟩ := ih depth
        refine ⟨c :: group, rest, rfl, ?_, ?_⟩
        · rw [List.singleton_append] at hpass
          rw [hpass, hchars, List.length_singleton, List.length_cons, Nat.add_comm]
        · rw [asChars_utf8_cons, groupExtent_beyond_append fun _ => toNat_of_mem_asChars hbeyond,
            hbytes, asChars_utf8_cons, List.length_append]

/-- The signs that a mark can begin with. -/
def signs : List Char := ['*', '.', '#', '[', ':', '>', '+', '~']

theorem toNat_of_mem_signs : ∀ c ∈ signs, c.toNat < 0x80 := by simp [signs]

/-- Besides blanks and signs, names remain, and what is skipped. -/
theorem first_of_not_mem_signs {c : Char} (hblank : isAsciiBlank c = false) (hc : c ∉ signs)
    (cs : List Char) :
    first c cs =
      if isIdentChar c then
        (.simple (.hasTag (String.ofList ((c :: ident cs).map Char.toLower))),
          (ident cs).length)
      else (.skipped, 0) := by
  simp only [signs, List.mem_cons, List.not_mem_nil, or_false, not_or] at hc
  simp [first, hblank, hc, named]

theorem valueFrom_of_sign {cs more : List Char} {n : Nat} (h : cs.drop n = '=' :: more) :
    valueFrom cs n = (some (attributeValue more).1, n + 1 + (attributeValue more).2) := by
  rw [valueFrom, h]
  rfl

theorem valueFrom_of_no_sign {cs : List Char} {n : Nat} (h : (cs.drop n).head? ≠ some '=') :
    valueFrom cs n = (none, n) := by
  rw [valueFrom]
  split
  · next more hmore => exact absurd (by rw [hmore]; rfl) h
  · rfl

end SelectorMark

/-! ## Loops -/

namespace SelectorCursor

/-- The bytes from the cursor on, as the characters of their numbers. -/
def ahead (s : SelectorCursor) : List Char := asChars (s.bytes.drop s.index)

section Loops

variable {s : SelectorCursor}

theorem peek?_eq (s : SelectorCursor) : s.peek? = s.ahead.head? := by
  rw [peek?, ahead, asChars, List.head?_map, List.head?_drop]

theorem ahead_of_peek? {c : Char} (h : s.peek? = some c) : s.ahead = c :: s.bump.ahead := by
  obtain ⟨b, hb, rfl⟩ := Option.map_eq_some_iff.mp h
  obtain ⟨hlt, rfl⟩ := List.getElem?_eq_some_iff.mp hb
  rw [ahead, List.drop_eq_getElem_cons hlt]
  rfl

theorem ahead_of_end (h : s.peek? = none) : s.ahead = [] := by
  rwa [peek?_eq, List.head?_eq_none_iff] at h

/-- The cursor so many bytes further. -/
def advance (s : SelectorCursor) (count : Nat) : SelectorCursor :=
  { s with index := s.index + count }

theorem advance_bump (s : SelectorCursor) (count : Nat) :
    s.bump.advance count = s.advance (count + 1) := by
  rw [advance, advance, bump, Nat.add_assoc, Nat.add_comm 1]

theorem skipWhile_eq (p : Char → Bool) (s : SelectorCursor) :
    s.skipWhile p = s.advance (s.ahead.takeWhile p).length := by
  fun_induction skipWhile with
  | case1 s c h hc ih =>
      rw [ih, advance_bump, ahead_of_peek? h, List.takeWhile_cons_of_pos hc, List.length_cons]
  | case2 s c h hc => rw [ahead_of_peek? h, List.takeWhile_cons_of_neg hc]; rfl
  | case3 s h => rw [ahead_of_end h]; rfl

theorem skipGroup_eq (depth : Nat) (s : SelectorCursor) :
    s.skipGroup depth = s.advance (SelectorMark.groupExtent depth 0 s.ahead) := by
  have hon (depth : Nat) (cs : List Char) :
      SelectorMark.groupExtent depth (0 + 1) cs = SelectorMark.groupExtent depth 0 cs + 1 := by
    rw [SelectorMark.groupExtent_eq_add, Nat.add_comm, Nat.zero_add]
  fun_induction skipGroup with
  | case1 depth s h ih =>
      rw [ih, advance_bump, ahead_of_peek? h, SelectorMark.groupExtent, if_pos rfl, hon]
  | case2 depth s hlast h hopen =>
      rw [ahead_of_peek? h, SelectorMark.groupExtent, if_neg hopen, if_pos rfl, if_pos hlast]
      rfl
  | case3 depth s hlast h hopen ih =>
      rw [ih, advance_bump, ahead_of_peek? h, SelectorMark.groupExtent, if_neg hopen, if_pos rfl,
        if_neg hlast, hon]
  | case4 depth s c h hopen hclose ih =>
      rw [ih, advance_bump, ahead_of_peek? h, SelectorMark.groupExtent, if_neg hopen,
        if_neg hclose, hon]
  | case5 depth s h => rw [ahead_of_end h]; rfl

end Loops

end SelectorCursor

/-! ## Cursors between characters -/

/-- The slice lies between two boundaries of characters. -/
def Slice.IsWhole (text : List Char) (slice : Slice) : Prop :=
  ∃ before between after, before ++ (between ++ after) = text ∧
    slice.start = (utf8 before).length ∧ slice.stop = (utf8 (before ++ between)).length

/-- Such a slice has the bytes of the characters between. -/
theorem Slice.bytes_utf8 {slice : Slice} {before between after : List Char}
    (hstart : slice.start = (utf8 before).length)
    (hstop : slice.stop = (utf8 (before ++ between)).length) :
    slice.bytes (utf8 (before ++ (between ++ after))) = utf8 between := by
  rw [bytes, hstart, hstop, ← List.append_assoc, utf8_append (before ++ between) after,
    List.take_left, utf8_append, List.drop_left]

namespace SelectorCursor

/-- The cursor stands in front of `rest`, and all slices decoded so far lie between boundaries of
characters. -/
structure StandsAt (text rest : List Char) (s : SelectorCursor) : Prop where
  bytes_eq : s.bytes = utf8 text
  cursor : ∃ front, front ++ rest = text ∧ s.index = (utf8 front).length
  decoded : ∀ slice ∈ s.decoded, slice.IsWhole text

/-- A step gives `a` and leaves the cursor in front of `rest`. -/
def Gives {α : Type} (text : List Char) (r : α × SelectorCursor) (a : α) (rest : List Char) :
    Prop :=
  r.1 = a ∧ StandsAt text rest r.2

theorem drop_length_takeWhile (p : Char → Bool) (cs : List Char) :
    cs.drop (cs.takeWhile p).length = cs.dropWhile p := by
  have hdrop : (cs.takeWhile p ++ cs.dropWhile p).drop (cs.takeWhile p).length = cs.dropWhile p :=
    List.drop_left
  rwa [List.takeWhile_append_dropWhile] at hdrop

/-- A character that may be there is passed by. -/
theorem drop_if_isEmpty (cs : List Char) : cs.drop (if cs.isEmpty then 0 else 1) = cs.drop 1 := by
  cases cs <;> rfl

theorem consume_of_not_mem_signs {c : Char} (hc : c ∉ SelectorMark.signs) (s : SelectorCursor) :
    s.consume c =
      if SelectorMark.isIdentChar c then
        (.simple (.hasTag (String.ofList (s.consumeIdent.1.map Char.toLower))), s.consumeIdent.2)
      else (.skipped, s.bump) := by
  simp only [SelectorMark.signs, List.mem_cons, List.not_mem_nil, or_false, not_or] at hc
  simp [SelectorCursor.consume, hc]

namespace StandsAt

variable {text rest : List Char} {s : SelectorCursor} {c : Char}

theorem start (text : String) : StandsAt text.toList text.toList (SelectorCursor.start text) :=
  ⟨data_toUTF8 text, ⟨[], rfl, rfl⟩, nofun⟩

theorem ahead_eq (h : StandsAt text rest s) : s.ahead = asChars (utf8 rest) := by
  obtain ⟨front, rfl, hindex⟩ := h.cursor
  rw [ahead, h.bytes_eq, hindex, utf8_append, List.drop_left]

theorem advance {front : List Char} (h : StandsAt text (front ++ rest) s) :
    StandsAt text rest (s.advance (utf8 front).length) := by
  obtain ⟨before, htext, hindex⟩ := h.cursor
  refine ⟨h.bytes_eq, ⟨before ++ front, by rw [List.append_assoc, htext], ?_⟩, h.decoded⟩
  rw [utf8_append, List.length_append, ← hindex]
  rfl

/-- At the cursor there is the first character, or both it and the byte found are beyond ASCII. -/
theorem peek?_cons (h : StandsAt text (c :: rest) s) :
    ∃ d, s.peek? = some d ∧ (d = c ∨ 0x80 ≤ c.toNat ∧ 0x80 ≤ d.toNat) := by
  rw [peek?_eq, h.ahead_eq]
  by_cases hc : c.toNat < 0x80
  · rw [asChars_utf8_of_ascii hc]
    exact ⟨c, rfl, .inl rfl⟩
  · have hbeyond := Nat.not_lt.mp hc
    obtain ⟨d, ds, hds⟩ := List.exists_cons_of_ne_nil (asChars_utf8EncodeChar_ne_nil (c := c))
    rw [asChars_utf8_cons, hds]
    exact ⟨d, rfl, .inr ⟨hbeyond, toNat_of_mem_asChars hbeyond (hds ▸ List.mem_cons_self)⟩⟩

theorem peek?_nil (h : StandsAt text [] s) : s.peek? = none := by
  rw [peek?_eq, h.ahead_eq]
  rfl

/-- An ASCII character is found at the cursor when the rest begins with it, and only then. -/
theorem peek?_eq_some_iff (h : StandsAt text rest s) {e : Char} (he : e.toNat < 0x80) :
    s.peek? = some e ↔ rest.head? = some e := by
  cases rest with
  | nil => rw [h.peek?_nil, List.head?_nil]
  | cons c rest =>
      obtain ⟨d, hd, rfl | ⟨hc, hbeyond⟩⟩ := h.peek?_cons
      · rw [hd, List.head?_cons]
      · rw [hd, List.head?_cons]
        exact iff_of_false (fun heq => ne_of_beyond_ascii hbeyond he (Option.some.inj heq))
          fun heq => ne_of_beyond_ascii hc he (Option.some.inj heq)

theorem bump (h : StandsAt text (c :: rest) s) (hc : c.toNat < 0x80) :
    StandsAt text rest s.bump := by
  have hone : (utf8 [c]).length = 1 := by
    rw [← length_asChars, asChars_utf8_of_ascii hc]
    rfl
  have hstep : s.bump = s.advance (utf8 [c]).length := by rw [hone]; rfl
  have hfront : StandsAt text ([c] ++ rest) s := h
  rw [hstep]
  exact hfront.advance

theorem skipWhile (h : StandsAt text rest s) {p : Char → Bool} (hp : Uniform p) :
    StandsAt text (rest.dropWhile p) (s.skipWhile p) := by
  rw [skipWhile_eq, h.ahead_eq, takeWhile_asChars hp, length_asChars]
  rw [← List.takeWhile_append_dropWhile (p := p) (l := rest)] at h
  exact h.advance

theorem skipBlanks (h : StandsAt text rest s) :
    StandsAt text (rest.dropWhile isAsciiBlank) s.skipBlanks :=
  h.skipWhile uniform_isAsciiBlank

theorem skipGroup (h : StandsAt text rest s) (depth : Nat) :
    StandsAt text (rest.drop (SelectorMark.groupExtent depth 0 rest)) (s.skipGroup depth) := by
  obtain ⟨group, more, rfl, hchars, hbytes⟩ := SelectorMark.exists_group depth rest
  rw [skipGroup_eq, h.ahead_eq, hbytes, length_asChars, hchars, List.drop_left]
  exact h.advance

/-- What lies between two places of the cursor is decoded as it stands in the text. -/
theorem cut {front : List Char} (h : StandsAt text (front ++ rest) s) :
    Gives text ((s.advance (utf8 front).length).cut s.index) front rest := by
  obtain ⟨before, htext, hindex⟩ := h.cursor
  have hon := h.advance
  have hstop : s.index + (utf8 front).length = (utf8 (before ++ front)).length := by
    rw [utf8_append, List.length_append, hindex]
  refine ⟨?_, hon.bytes_eq, hon.cursor, ?_⟩
  · have hslice :
        (⟨s.index, s.index + (utf8 front).length⟩ : Slice).bytes s.bytes = utf8 front := by
      rw [h.bytes_eq, ← htext]
      exact Slice.bytes_utf8 hindex hstop
    exact (congrArg lossy hslice).trans (lossy_utf8 front)
  · exact List.forall_mem_cons.mpr ⟨⟨before, front, rest, htext, hindex, hstop⟩, h.decoded⟩

theorem consumeWhile (h : StandsAt text rest s) {p : Char → Bool} (hp : Uniform p) :
    Gives text (s.consumeWhile p) (rest.takeWhile p) (rest.dropWhile p) := by
  rw [SelectorCursor.consumeWhile, skipWhile_eq, h.ahead_eq, takeWhile_asChars hp, length_asChars]
  rw [← List.takeWhile_append_dropWhile (p := p) (l := rest)] at h
  exact h.cut

theorem consumeIdent (h : StandsAt text rest s) :
    Gives text s.consumeIdent (SelectorMark.ident rest)
      (rest.drop (SelectorMark.ident rest).length) := by
  rw [SelectorMark.ident, drop_length_takeWhile]
  exact h.consumeWhile uniform_isIdentChar

theorem consumeNamed (h : StandsAt text (c :: rest) s) (hc : c.toNat < 0x80)
    (build : String → SimpleSelector) :
    Gives text (s.consumeNamed build) (SelectorMark.named build (SelectorMark.ident rest))
      (rest.drop (SelectorMark.ident rest).length) := by
  obtain ⟨hname, hrest⟩ := (h.bump hc).consumeIdent
  exact ⟨congrArg (SelectorMark.named build) hname, hrest⟩

theorem passColon (h : StandsAt text rest s) :
    StandsAt text (rest.drop (SelectorMark.pseudoStart rest)) s.passColon := by
  rw [SelectorCursor.passColon, SelectorMark.pseudoStart]
  have hcolon := h.peek?_eq_some_iff (e := ':') (by decide)
  by_cases hhead : rest.head? = some ':'
  · obtain ⟨more, rfl⟩ := List.head?_eq_some_iff.mp hhead
    rw [if_pos (hcolon.mpr hhead), if_pos hhead]
    exact h.bump (by decide)
  · rw [if_neg (mt hcolon.mp hhead), if_neg hhead]
    exact h

theorem consumePseudo (h : StandsAt text (':' :: rest) s) :
    Gives text s.consumePseudo (SelectorMark.pseudo rest).1
      (rest.drop (SelectorMark.pseudo rest).2) := by
  obtain ⟨hname, hrest⟩ := (h.bump (by decide)).passColon.consumeIdent
  rw [List.drop_drop] at hrest
  have hopen := hrest.peek?_eq_some_iff (e := '(') (by decide)
  rw [SelectorMark.pseudo_eq, SelectorCursor.consumePseudo]
  dsimp only
  by_cases hhead : (rest.drop (SelectorMark.pseudoEnd rest)).head? = some '('
  · rw [if_pos (hopen.mpr hhead), if_pos hhead, ← List.drop_drop]
    exact ⟨rfl, hrest.skipGroup 0⟩
  · rw [if_neg (mt hopen.mp hhead), if_neg hhead]
    refine ⟨?_, hrest⟩
    rw [hname, SelectorMark.pseudoMark]
    cases PseudoClass.ofName? _ <;> rfl

theorem passByte (h : StandsAt text rest s) (hascii : ∀ c ∈ rest.head?, c.toNat < 0x80) :
    StandsAt text (rest.drop 1) s.passByte := by
  rw [SelectorCursor.passByte]
  cases rest with
  | nil =>
      rw [h.peek?_nil]
      exact h
  | cons c rest =>
      obtain ⟨d, hd, -⟩ := h.peek?_cons
      rw [hd]
      exact h.bump (hascii c rfl)

/-- A run up to an ASCII character, and this character, if it is there. -/
theorem passByte_of_dropWhile {d : Char} (hd : d.toNat < 0x80)
    (h : StandsAt text (rest.dropWhile (· != d)) s) :
    StandsAt text ((rest.dropWhile (· != d)).drop 1) s.passByte := by
  refine h.passByte fun c hc => ?_
  have hstop := List.head?_dropWhile_not (· != d) rest
  rw [Option.mem_def.mp hc] at hstop
  have hcd : c = d := by simpa using hstop
  rw [hcd]
  exact hd

theorem filter_peek? (h : StandsAt text rest s) :
    s.peek?.filter isQuote = rest.head?.filter isQuote := by
  refine Option.ext fun quote => ?_
  rw [Option.filter_eq_some_iff, Option.filter_eq_some_iff]
  refine and_congr_left fun hquote => h.peek?_eq_some_iff ?_
  exact ascii_of_beyond_false isQuote_of_beyond_ascii hquote

theorem consumeValue (h : StandsAt text rest s) :
    Gives text s.consumeValue (SelectorMark.attributeValue rest).1
      (rest.drop (SelectorMark.attributeValue rest).2) := by
  have hblanks := h.skipBlanks
  rw [← drop_length_takeWhile] at hblanks
  have hunquoted := hblanks.consumeWhile uniform_unquoted
  rw [SelectorCursor.consumeValue, hblanks.filter_peek?]
  cases hrest : rest.drop (rest.takeWhile isAsciiBlank).length with
  | nil =>
      simp only [SelectorMark.attributeValue, hrest]
      rw [hrest] at hunquoted
      exact hunquoted
  | cons c more =>
      rw [hrest] at hblanks hunquoted
      simp only [SelectorMark.attributeValue, hrest, List.head?_cons]
      cases hquote : isQuote c with
      | false =>
          rw [Option.filter_some_neg (by simp [hquote])]
          simp only [Bool.false_eq_true, if_false]
          rw [← List.drop_drop, hrest, drop_length_takeWhile]
          exact hunquoted
      | true =>
          have hc := ascii_of_beyond_false isQuote_of_beyond_ascii hquote
          obtain ⟨hvalue, hmark⟩ := (hblanks.bump hc).consumeWhile (uniform_bne hc)
          rw [Option.filter_some_pos hquote]
          simp only [if_true]
          refine ⟨hvalue, ?_⟩
          rw [← List.drop_drop, ← List.drop_drop, ← List.drop_drop, hrest, List.drop_succ_cons,
            List.drop_zero, drop_if_isEmpty, drop_length_takeWhile]
          exact hmark.passByte_of_dropWhile hc

/-- Whatever stands in front of the closing bracket is dropped with it. -/
theorem behindBracket {n : Nat} (h : StandsAt text (rest.drop n) s) :
    StandsAt text (rest.drop (SelectorMark.behindBracket rest n))
      (s.skipWhile (· != ']')).passByte := by
  rw [SelectorMark.behindBracket, ← List.drop_drop, ← List.drop_drop, drop_if_isEmpty,
    drop_length_takeWhile]
  exact (h.skipWhile (uniform_bne (by decide))).passByte_of_dropWhile (by decide)

theorem consumeAttribute (h : StandsAt text ('[' :: rest) s) :
    Gives text s.consumeAttribute (SelectorMark.bracketed rest).1
      (rest.drop (SelectorMark.bracketed rest).2) := by
  have hlead := (h.bump (by decide)).skipBlanks
  rw [← drop_length_takeWhile] at hlead
  obtain ⟨hname, hend⟩ := hlead.consumeIdent
  rw [List.drop_drop] at hend
  have hplace := hend.skipBlanks
  rw [← drop_length_takeWhile, List.drop_drop] at hplace
  change StandsAt text (rest.drop (SelectorMark.signPlace rest)) _ at hplace
  have hsign := hplace.peek?_eq_some_iff (e := '=') (by decide)
  rw [SelectorMark.bracketed_eq, SelectorCursor.consumeAttribute]
  dsimp only
  rw [hname]
  by_cases hhead : (rest.drop (SelectorMark.signPlace rest)).head? = some '='
  · obtain ⟨more, hmore⟩ := List.head?_eq_some_iff.mp hhead
    rw [if_pos (hsign.mpr hhead), SelectorMark.valueFrom_of_sign hmore]
    rw [hmore] at hplace
    obtain ⟨hvalue, hbehind⟩ := (hplace.bump (by decide)).consumeValue
    refine ⟨?_, behindBracket ?_⟩
    · rw [← hvalue]
      rfl
    · rw [← List.drop_drop, ← List.drop_drop, hmore]
      exact hbehind
  · rw [if_neg (mt hsign.mp hhead), SelectorMark.valueFrom_of_no_sign hhead]
    exact ⟨rfl, hplace.behindBracket⟩

theorem consume_of_sign (h : StandsAt text (c :: rest) s) (hsign : c ∈ SelectorMark.signs) :
    Gives text (s.consume c) (SelectorMark.first c rest).1
      (rest.drop (SelectorMark.first c rest).2) := by
  have hc := SelectorMark.toNat_of_mem_signs c hsign
  simp only [SelectorMark.signs, List.mem_cons, List.not_mem_nil, or_false] at hsign
  rcases hsign with rfl | rfl | rfl | rfl | rfl | rfl | rfl | rfl
  · exact ⟨rfl, h.bump hc⟩
  · exact h.consumeNamed hc .hasClass
  · exact h.consumeNamed hc .hasId
  · exact h.consumeAttribute
  · exact h.consumePseudo
  · exact ⟨rfl, h.bump hc⟩
  · exact ⟨rfl, h.bump hc⟩
  · exact ⟨rfl, h.bump hc⟩

/-- Where a name begins, the byte at the cursor need not be the character, but it is tested alike. -/
theorem consume_of_no_sign (h : StandsAt text (c :: rest) s) (hblank : isAsciiBlank c = false)
    {d : Char} (hc : c ∉ SelectorMark.signs) (hd : d ∉ SelectorMark.signs)
    (hident : SelectorMark.isIdentChar d = SelectorMark.isIdentChar c) :
    Gives text (s.consume d) (SelectorMark.first c rest).1
      (rest.drop (SelectorMark.first c rest).2) := by
  rw [consume_of_not_mem_signs hd, SelectorMark.first_of_not_mem_signs hblank hc, hident]
  by_cases hname : SelectorMark.isIdentChar c = true
  · have hcons : SelectorMark.ident (c :: rest) = c :: SelectorMark.ident rest :=
      List.takeWhile_cons_of_pos hname
    obtain ⟨hread, hrest⟩ := h.consumeIdent
    rw [hcons] at hread hrest
    rw [if_pos hname, if_pos hname, hread]
    exact ⟨rfl, hrest⟩
  · have hascii : c.toNat < 0x80 :=
      Nat.not_le.mp fun hbeyond => hname (isIdentChar_of_beyond_ascii hbeyond)
    rw [if_neg hname, if_neg hname]
    exact ⟨rfl, h.bump hascii⟩

/-- A mark is read from the bytes as it is from the characters. -/
theorem consume (h : StandsAt text (c :: rest) s) (hblank : isAsciiBlank c = false) {d : Char}
    (hd : s.peek? = some d) :
    Gives text (s.consume d) (SelectorMark.first c rest).1
      (rest.drop (SelectorMark.first c rest).2) := by
  obtain ⟨d', hd', hsame⟩ := h.peek?_cons
  obtain rfl : d' = d := Option.some.inj (hd'.symm.trans hd)
  rcases hsame with rfl | ⟨hc, hbeyond⟩
  · by_cases hsign : d' ∈ SelectorMark.signs
    · exact h.consume_of_sign hsign
    · exact h.consume_of_no_sign hblank hsign hsign rfl
  · have hno_sign {e : Char} (he : 0x80 ≤ e.toNat) : e ∉ SelectorMark.signs :=
      fun hmem => Nat.not_lt.mpr he (SelectorMark.toNat_of_mem_signs e hmem)
    exact h.consume_of_no_sign hblank (hno_sign hc) (hno_sign hbeyond)
      (uniform_isIdentChar d' c hbeyond hc)

/-- At the end there is no mark. -/
theorem next_nil (h : StandsAt text [] s) : s.next = (none, s) := by
  rcases next_cases s with ⟨-, hend⟩ | ⟨c, hc, -⟩
  · exact hend
  · exact absurd (hc.symm.trans h.peek?_nil) nofun

theorem next_of_not_blank (h : StandsAt text (c :: rest) s) (hblank : isAsciiBlank c = false) :
    Gives text s.next (some (SelectorMark.first c rest).1)
      (rest.drop (SelectorMark.first c rest).2) := by
  obtain ⟨d, hd, hsame⟩ := h.peek?_cons
  have hstay : s.skipBlanks = s := by
    rw [SelectorCursor.skipBlanks, skipWhile_eq, h.ahead_eq, takeWhile_asChars uniform_isAsciiBlank,
      List.takeWhile_cons_of_neg (by simp [hblank])]
    rfl
  obtain ⟨hmark, hrest⟩ := h.consume hblank hd
  rw [next, hstay]
  dsimp only
  rw [if_neg (fun hmoved => hmoved rfl), hd]
  exact ⟨congrArg some hmark, hrest⟩

/-- Blanks are one mark, or none when nothing follows. -/
theorem next_of_blank (h : StandsAt text (c :: rest) s) (hblank : isAsciiBlank c = true) :
    Gives text s.next (if (rest.dropWhile isAsciiBlank).isEmpty then none else some .gap)
      (rest.dropWhile isAsciiBlank) := by
  have hblanks := h.skipBlanks
  rw [List.dropWhile_cons_of_pos hblank] at hblanks
  have hascii := ascii_of_beyond_false isAsciiBlank_of_beyond_ascii hblank
  have hpeek := (h.peek?_eq_some_iff hascii).mpr rfl
  have hmoved : s.skipBlanks.index ≠ s.index :=
    Nat.ne_of_gt (Precedes.skipWhile_of_peek? hpeek hblank).index_le
  rw [next]
  dsimp only
  rw [if_pos hmoved]
  refine ⟨?_, hblanks⟩
  cases hrest : rest.dropWhile isAsciiBlank with
  | nil =>
      rw [hrest] at hblanks
      rw [hblanks.peek?_nil]
      rfl
  | cons d more =>
      rw [hrest] at hblanks
      obtain ⟨e, he, -⟩ := hblanks.peek?_cons
      rw [he]
      rfl

end StandsAt

end SelectorCursor

end WidgetStyle
