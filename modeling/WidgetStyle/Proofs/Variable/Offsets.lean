import WidgetStyle.Proofs.Value.Balance

/-!
# WidgetStyle.Proofs.Variable.Offsets — references in the bytes of a text

The scans for references look for ASCII characters only, so they can go over the bytes of a text in
UTF-8 just as well.  A reference then begins at a byte offset (`Segment.referenceOffset?`) and is so
many bytes long (`Segment.callLength?`).

A character beyond ASCII takes several bytes, and none of them is an ASCII character.  The scans
pass by all of them, also when a backslash has protected the first one alone, and come to the next
character in the state in which a scan over characters does (`Segment.findFrom_asChars`,
`Segment.closeFrom_asChars`).  The scan that reading a call goes by is the same as the one for the
end of a call (`staysOpen_eq_isNone`), so it is in step with them too.  Hence no offset falls inside
a character, and what is cut out at the offsets is read as a call of `var`
(`references_at_offsets`).
-/

namespace WidgetStyle

open Text Value

/-! ## Bytes of a text -/

/-- The bytes of a text in UTF-8. -/
def utf8 (cs : List Char) : List UInt8 := cs.flatMap String.utf8EncodeChar

/-- Bytes, each read as the character of its number.  This is how a scan that looks for ASCII
characters sees them. -/
def asChars (bytes : List UInt8) : List Char := bytes.map Char.ofUInt8

namespace Segment

/-- The byte offset of the first reference of a text. -/
def referenceOffset? (bytes : List UInt8) : Option Nat :=
  (find? (asChars bytes)).map fun (head, _) => head.length

/-- The number of bytes of the call that a text begins with. -/
def callLength? (bytes : List UInt8) : Option Nat :=
  (splitCall? (asChars bytes)).map fun (call, _) => call.length

end Segment

section Bytes

variable {c : Char} {cs ds : List Char}

theorem toNat_ofUInt8 (b : UInt8) : (Char.ofUInt8 b).toNat = b.toNat := UInt8.toNat_toUInt32 b

theorem utf8_append (cs ds : List Char) : utf8 (cs ++ ds) = utf8 cs ++ utf8 ds :=
  List.flatMap_append

theorem length_asChars (bytes : List UInt8) : (asChars bytes).length = bytes.length :=
  List.length_map _

theorem asChars_utf8_cons (c : Char) (cs : List Char) :
    asChars (utf8 (c :: cs)) = asChars (String.utf8EncodeChar c) ++ asChars (utf8 cs) := by
  rw [utf8, List.flatMap_cons, asChars, List.map_append]
  rfl

theorem asChars_utf8EncodeChar_of_ascii (hc : c.toNat < 0x80) :
    asChars (String.utf8EncodeChar c) = [c] := by
  have hencode : String.utf8EncodeChar c = [UInt8.ofNat c.toNat] := if_pos (Nat.le_of_lt_succ hc)
  have hbyte : Char.ofUInt8 (UInt8.ofNat c.toNat) = c := by
    have hlt : c.toNat < UInt8.size := Nat.lt_trans hc (by decide)
    rw [← Char.toNat_inj, toNat_ofUInt8, UInt8.toNat_ofNat_of_lt' hlt]
  rw [hencode, asChars, List.map_singleton, hbyte]

theorem asChars_utf8_of_ascii (hc : c.toNat < 0x80) (cs : List Char) :
    asChars (utf8 (c :: cs)) = c :: asChars (utf8 cs) := by
  rw [asChars_utf8_cons, asChars_utf8EncodeChar_of_ascii hc, List.singleton_append]

theorem asChars_utf8EncodeChar_ne_nil : asChars (String.utf8EncodeChar c) ≠ [] :=
  fun h => String.utf8EncodeChar_ne_nil (List.map_eq_nil_iff.mp h)

/-- No byte of a character beyond ASCII is an ASCII character. -/
theorem toNat_of_mem_asChars (hc : 0x80 ≤ c.toNat) {u : Char}
    (hu : u ∈ asChars (String.utf8EncodeChar c)) : 0x80 ≤ u.toNat := by
  obtain ⟨b, hb, rfl⟩ := List.mem_map.mp hu
  have hval : ¬c.val.toNat ≤ 127 := Nat.not_le.mpr hc
  rw [toNat_ofUInt8]
  rw [String.utf8EncodeChar.eq_1, if_neg hval] at hb
  -- Every byte has its highest bit set, and what is added to that leaves it below 256.
  split at hb
  case isTrue =>
    simp only [List.mem_cons, List.not_mem_nil, or_false] at hb
    rcases hb with rfl | rfl <;> rw [UInt8.toNat_ofNat'] <;> omega
  case isFalse =>
    split at hb
    case isTrue =>
      simp only [List.mem_cons, List.not_mem_nil, or_false] at hb
      rcases hb with rfl | rfl | rfl <;> rw [UInt8.toNat_ofNat'] <;> omega
    case isFalse =>
      simp only [List.mem_cons, List.not_mem_nil, or_false] at hb
      rcases hb with rfl | rfl | rfl | rfl <;> rw [UInt8.toNat_ofNat'] <;> omega

end Bytes

/-! ## Characters beyond ASCII -/

/-- The state after a character that is neither a quotation mark nor a backslash. -/
def Value.Quoting.passBy : Quoting → Quoting
  | .outside => .outside
  | .inside quote | .escaped quote => .inside quote

section Beyond

variable {quoting : Quoting} {c : Char} {us rest : List Char}

theorem ne_of_beyond_ascii (hc : 0x80 ≤ c.toNat) {d : Char} (hd : d.toNat < 0x80) : c ≠ d := by
  rintro rfl
  omega

theorem isQuote_of_beyond_ascii (hc : 0x80 ≤ c.toNat) : isQuote c = false := by
  simp [isQuote, ne_of_beyond_ascii hc]

theorem isWordChar_of_beyond_ascii (hc : 0x80 ≤ c.toNat) : isWordChar c = false := by
  rw [Bool.eq_false_iff]
  intro hword
  have := toNat_of_isWordChar hword
  omega

theorem passes_of_beyond_ascii (hc : 0x80 ≤ c.toNat) : Passes quoting c :=
  passes_of_plain (ne_of_beyond_ascii hc (by decide)) (ne_of_beyond_ascii hc (by decide))

/-- Letter case is ASCII only. -/
theorem toLower_of_beyond_ascii (hc : 0x80 ≤ c.toNat) : c.toLower = c := by
  refine dif_neg fun hupper => ?_
  have hhigh : c.val.toNat ≤ 90 := hupper.2
  have hval : 128 ≤ c.val.toNat := hc
  omega

theorem passBy_passBy : quoting.passBy.passBy = quoting.passBy := by
  cases quoting <;> rfl

theorem step_of_beyond_ascii (hquoted : Quoted quoting) (hc : 0x80 ≤ c.toNat) :
    quoting.step c = quoting.passBy := by
  cases quoting with
  | outside => exact step_outside_of_not_isQuote (isQuote_of_beyond_ascii hc)
  | inside quote =>
      have hquote : c ≠ quote := by
        rintro rfl
        have := hquoted c rfl
        rw [isQuote_of_beyond_ascii hc] at this
        cases this
      rw [Quoting.step, if_neg (ne_of_beyond_ascii hc (by decide)), if_neg hquote]
      rfl
  | escaped quote => rfl

theorem Quoted.passBy (h : Quoted quoting) : Quoted quoting.passBy := by
  cases quoting with
  | outside => exact h
  | inside quote => exact h
  | escaped quote => exact h

end Beyond

/-! ## Scans over bytes -/

section Scans

variable {quoting : Quoting} {c : Char} {cs us : List Char}

/-- A text begins with a word of ASCII in any letter case just in case its bytes do. -/
theorem take_asChars_iff (word : List Char) (hword : ∀ d ∈ word, d.toNat < 0x80) (cs : List Char) :
    ((asChars (utf8 cs)).take word.length).map Char.toLower = word ↔
      (cs.take word.length).map Char.toLower = word := by
  induction word generalizing cs with
  | nil => simp
  | cons d word ih =>
      have hd := hword d List.mem_cons_self
      have hne {u : Char} (hu : 0x80 ≤ u.toNat) : u.toLower ≠ d := by
        rw [toLower_of_beyond_ascii hu]
        exact ne_of_beyond_ascii hu hd
      cases cs with
      | nil => rfl
      | cons c cs =>
          rw [List.length_cons, List.take_succ_cons, List.map_cons, List.cons.injEq]
          by_cases hc : c.toNat < 0x80
          · rw [asChars_utf8_of_ascii hc, List.take_succ_cons, List.map_cons, List.cons.injEq,
              ih (fun e he => hword e (List.mem_cons_of_mem _ he))]
          · have hbeyond := Nat.not_lt.mp hc
            have hne_nil : asChars (String.utf8EncodeChar c) ≠ [] := asChars_utf8EncodeChar_ne_nil
            obtain ⟨u, us, hus⟩ := List.exists_cons_of_ne_nil hne_nil
            have hu := toNat_of_mem_asChars hbeyond (hus ▸ List.mem_cons_self)
            rw [asChars_utf8_cons, hus, List.cons_append, List.take_succ_cons, List.map_cons,
              List.cons.injEq]
            exact iff_of_false (fun h => hne hu h.1) fun h => hne hbeyond h.1

namespace Segment

theorem startsReference_asChars (cs : List Char) :
    startsReference (asChars (utf8 cs)) = startsReference cs := by
  rw [startsReference, startsReference, Bool.eq_iff_iff, decide_eq_true_eq, decide_eq_true_eq]
  exact take_asChars_iff ['v', 'a', 'r', '('] (by simp) cs

theorem inVar_of_beyond_ascii (hc : 0x80 ≤ c.toNat) : inVar c = false := by
  simp [inVar, toLower_of_beyond_ascii hc, ne_of_beyond_ascii hc]

/-- No reference begins at a character beyond ASCII. -/
theorem findFrom_beyond_append (hne : us ≠ []) (hus : ∀ u ∈ us, 0x80 ≤ u.toNat)
    (hquoted : Quoted quoting) (previous : Option Char) (rest : List Char) :
    findFrom quoting previous (us ++ rest) =
      (findFrom quoting.passBy none rest).map fun (head, tail) => (us ++ head, tail) := by
  induction us generalizing quoting previous with
  | nil => exact absurd rfl hne
  | cons u us ih =>
      have hu := hus u List.mem_cons_self
      have hstarts : startsReference (u :: (us ++ rest)) = false :=
        startsReference_append_cons (inVar_of_beyond_ascii hu) [] _
      rw [List.cons_append, findFrom, hstarts, if_neg (by simp), step_of_beyond_ascii hquoted hu,
        findFrom_some (isWordChar_of_beyond_ascii hu)]
      cases us with
      | nil => rfl
      | cons v us =>
          rw [ih (List.cons_ne_nil _ _) (fun w hw => hus w (List.mem_cons_of_mem _ hw))
            hquoted.passBy, passBy_passBy, Option.map_map]
          rfl

/-- The call goes on at a character beyond ASCII. -/
theorem closeFrom_beyond_append (hne : us ≠ []) (hus : ∀ u ∈ us, 0x80 ≤ u.toNat)
    (hquoted : Quoted quoting) (depth : Nat) (rest : List Char) :
    closeFrom quoting depth (us ++ rest) =
      (closeFrom quoting.passBy depth rest).map fun (head, tail) => (us ++ head, tail) := by
  induction us generalizing quoting with
  | nil => exact absurd rfl hne
  | cons u us ih =>
      have hu := hus u List.mem_cons_self
      rw [List.cons_append, closeFrom_passes _ _ (passes_of_beyond_ascii hu),
        step_of_beyond_ascii hquoted hu]
      cases us with
      | nil => rfl
      | cons v us =>
          rw [ih (List.cons_ne_nil _ _) (fun w hw => hus w (List.mem_cons_of_mem _ hw))
            hquoted.passBy, passBy_passBy, Option.map_map]
          rfl

/-- Two parts of a text, in their bytes. -/
def inBytes (parts : List Char × List Char) : List Char × List Char :=
  (asChars (utf8 parts.1), asChars (utf8 parts.2))

theorem map_inBytes_cons (found : Option (List Char × List Char)) :
    ((found.map inBytes).map fun (head, tail) =>
        (asChars (String.utf8EncodeChar c) ++ head, tail)) =
      (found.map fun (head, tail) => (c :: head, tail)).map inBytes := by
  rw [Option.map_map, Option.map_map]
  refine congrArg (Option.map · found) (funext fun parts => ?_)
  exact congrArg (·, asChars (utf8 parts.2)) (asChars_utf8_cons c parts.1).symm

/-- The scan over bytes finds a reference where the scan over characters does. -/
theorem findFrom_asChars (hquoted : Quoted quoting) (previous : Option Char) (cs : List Char) :
    findFrom quoting previous (asChars (utf8 cs)) = (findFrom quoting previous cs).map inBytes := by
  induction cs generalizing quoting previous with
  | nil => rfl
  | cons c cs ih =>
      by_cases hc : c.toNat < 0x80
      · have hbytes := asChars_utf8_of_ascii hc cs
        have hstarts := startsReference_asChars (c :: cs)
        have hcons := map_inBytes_cons (c := c) (findFrom (quoting.step c) (some c) cs)
        rw [asChars_utf8EncodeChar_of_ascii hc] at hcons
        rw [hbytes] at hstarts ⊢
        rw [findFrom, findFrom, hstarts]
        split
        case isTrue => rw [Option.map_some, inBytes, hbytes]; rfl
        case isFalse => rw [ih (hquoted.step c), ← hcons]; rfl
      · have hbeyond := Nat.not_lt.mp hc
        have hchar := findFrom_beyond_append (List.cons_ne_nil c [])
          (fun u hu => List.mem_singleton.mp hu ▸ hbeyond) hquoted previous cs
        rw [List.singleton_append] at hchar
        rw [asChars_utf8_cons, findFrom_beyond_append asChars_utf8EncodeChar_ne_nil
          (fun _ => toNat_of_mem_asChars hbeyond) hquoted, ih hquoted.passBy, map_inBytes_cons,
          hchar]
        rfl

/-- The scan over bytes finds the end of a call where the scan over characters does. -/
theorem closeFrom_asChars (hquoted : Quoted quoting) (depth : Nat) (cs : List Char) :
    closeFrom quoting depth (asChars (utf8 cs)) = (closeFrom quoting depth cs).map inBytes := by
  induction cs generalizing quoting depth with
  | nil => rfl
  | cons c cs ih =>
      by_cases hc : c.toNat < 0x80
      · have hbytes := asChars_utf8_of_ascii hc cs
        rw [hbytes, closeFrom, closeFrom]
        split
        case isTrue => rw [Option.map_some, inBytes, asChars_utf8_of_ascii hc]; rfl
        case isFalse =>
          simp only [ih (hquoted.step c)]
          have hcons := map_inBytes_cons (c := c)
          simp only [asChars_utf8EncodeChar_of_ascii hc] at hcons
          exact hcons _
      · have hbeyond := Nat.not_lt.mp hc
        have hchar := closeFrom_beyond_append (List.cons_ne_nil c [])
          (fun u hu => List.mem_singleton.mp hu ▸ hbeyond) hquoted depth cs
        rw [List.singleton_append] at hchar
        rw [asChars_utf8_cons, closeFrom_beyond_append asChars_utf8EncodeChar_ne_nil
          (fun _ => toNat_of_mem_asChars hbeyond) hquoted, ih hquoted.passBy, map_inBytes_cons,
          hchar]
        rfl

end Segment

/-- The scan that reading a call goes by gives up just where the scan for the end of a call finds
it. -/
theorem staysOpen_eq_isNone {depth : Nat} (hdepth : 1 ≤ depth) :
    staysOpen quoting depth cs = (Segment.closeFrom quoting depth cs).isNone := by
  induction cs generalizing quoting depth with
  | nil => rfl
  | cons c cs ih =>
      rcases parenthesis_cases quoting c with ⟨rfl, rfl⟩ | ⟨rfl, rfl⟩ | hpasses
      case inl =>
        rw [staysOpen_open, closeFrom_open, Option.isNone_map, ih (Nat.le_add_left 1 depth)]
      case inr.inl =>
        rw [closeFrom_close]
        split
        case isTrue hlast => simp [staysOpen, hlast]
        case isFalse hdeep =>
          have hlt := Nat.not_le.mp hdeep
          rw [staysOpen_close _ _ hlt, Option.isNone_map, ih (Nat.le_sub_one_of_lt hlt)]
      case inr.inr =>
        rw [staysOpen_passes _ _ hpasses, closeFrom_passes _ _ hpasses, Option.isNone_map,
          ih hdepth]

/-- So it accepts the bytes of a text when it accepts the text. -/
theorem staysOpen_asChars (cs : List Char) :
    staysOpen .outside 1 (asChars (utf8 cs)) = staysOpen .outside 1 cs := by
  rw [staysOpen_eq_isNone (Nat.le_refl 1), staysOpen_eq_isNone (Nat.le_refl 1),
    Segment.closeFrom_asChars quoted_outside, Option.isNone_map]

end Scans

/-! ## Offsets -/

namespace Segment

theorem referenceOffset?_utf8 (cs : List Char) :
    referenceOffset? (utf8 cs) = (find? cs).map fun (head, _) => (utf8 head).length := by
  rw [referenceOffset?, find?, findFrom_asChars quoted_outside, Option.map_map]
  refine congrArg (Option.map · (find? cs)) (funext fun parts => ?_)
  exact length_asChars (utf8 parts.1)

theorem callLength?_utf8 (cs : List Char) :
    callLength? (utf8 cs) = (splitCall? cs).map fun (call, _) => (utf8 call).length := by
  rw [callLength?, splitCall?, closeFrom_asChars quoted_outside, Option.map_map]
  refine congrArg (Option.map · (splitCall? cs)) (funext fun parts => ?_)
  exact length_asChars (utf8 parts.1)

end Segment

theorem data_toUTF8 (text : String) : text.toUTF8.data.toList = utf8 text.toList := by
  rw [String.toUTF8_eq_toByteArray, ← String.utf8Encode_toList, List.utf8Encode,
    List.data_toByteArray]
  rfl

theorem utf8ByteSize_ofList (cs : List Char) :
    (String.ofList cs).utf8ByteSize = (utf8 cs).length := by
  have hdata := data_toUTF8 (String.ofList cs)
  rw [String.toList_ofList] at hdata
  rw [← hdata, Array.length_toList]
  rfl

/-- Every reference of a value is a call of `var`. -/
theorem exists_parse?_name_of_mem_segments {value reference : List Char}
    (h : .reference reference ∈ segments value) :
    ∃ call, Call.parse? reference = some call ∧ call.name = "var" := by
  obtain ⟨name, inner, hname, rfl, hopen⟩ := exists_call_of_mem_segments h
  exact ⟨_, parse?_call hname hopen, rfl⟩

/-- The offsets that the scans over the bytes of a text give fall between characters.  They cut out
what the scans over characters do, and this is read as a call of `var`; over the bytes between its
parentheses, too, the scan that reading a call goes by does not come to an end.  So whatever text
references are looked for in, none is found that cannot be read as a call. -/
theorem references_at_offsets (text : String) :
    (∀ offset length, Segment.referenceOffset? text.toUTF8.data.toList = some offset →
      Segment.callLength? (text.toUTF8.data.toList.drop offset) = some length →
      ∃ head call after : String, text = head ++ call ++ after ∧
        head.utf8ByteSize = offset ∧ call.utf8ByteSize = length ∧
        Segment.find? text.toList = some (head.toList, (call ++ after).toList) ∧
        Segment.splitCall? (call ++ after).toList = some (call.toList, after.toList) ∧
        (∃ name inner, call.toList = name ++ '(' :: (inner ++ [')']) ∧
          staysOpen .outside 1 (asChars (utf8 inner)) = true) ∧
        ∃ parsed, Call.parse? call.toList = some parsed ∧ parsed.name = "var") ∧
    ∀ reference, .reference reference ∈ segments text.toList →
      ∃ parsed, Call.parse? reference = some parsed ∧ parsed.name = "var" := by
  refine ⟨fun offset length hoffset hlength => ?_, fun _ => exists_parse?_name_of_mem_segments⟩
  rw [data_toUTF8, Segment.referenceOffset?_utf8] at hoffset
  obtain ⟨⟨head, tail⟩, hfind, rfl⟩ := Option.map_eq_some_iff.mp hoffset
  have htext : head ++ tail = text.toList := Segment.findFrom_append hfind
  rw [data_toUTF8, ← htext, utf8_append, List.drop_left, Segment.callLength?_utf8] at hlength
  obtain ⟨⟨call, after⟩, hcall, rfl⟩ := Option.map_eq_some_iff.mp hlength
  have htail : call ++ after = tail := (Segment.closeFrom_append hcall).1
  have hstart := Segment.startsReference_of_findFrom hfind
  obtain ⟨name, inner, hname, rfl, hopen⟩ := exists_call_of_splitCall? hstart hcall
  have hparse := parse?_call hname hopen
  rw [← String.toList_ofList (l := name ++ '(' :: (inner ++ [')']))] at hparse
  refine ⟨.ofList head, .ofList _, .ofList after, ?_, utf8ByteSize_ofList _, utf8ByteSize_ofList _,
    ?_, ?_, ⟨name, inner, String.toList_ofList, (staysOpen_asChars inner).trans hopen⟩,
    _, hparse, rfl⟩
  · rw [← String.ofList_append, ← String.ofList_append, List.append_assoc, htail, htext,
      String.ofList_toList]
  · simp only [String.toList_append, String.toList_ofList, htail]
    exact hfind
  · simp only [String.toList_append, String.toList_ofList, htail]
    exact hcall

/-- The backslash protects one byte of a character of two. -/
example : Segment.referenceOffset? (utf8 "\"\\é\" VAR(--ü) 1".toList) = some 6 ∧
    Segment.callLength? (utf8 "VAR(--ü) 1".toList) = some 9 := by
  decide +kernel

end WidgetStyle
