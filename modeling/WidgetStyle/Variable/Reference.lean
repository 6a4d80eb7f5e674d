import WidgetStyle.Value.Call

/-!
# WidgetStyle.Variable.Reference — references to variables in value text

A reference is a balanced call of `var`, in any letter case, that stands outside quotation marks
and does not continue a longer name.  `segments` cuts a value into references and the text around
them; a reference that is never closed is text.

The lemmas at the end say that nothing is lost and that arguments of a call hold fewer opening
parentheses than the call, which is what makes substitution end.
-/

namespace WidgetStyle

open Text Value

/-- A part of a value: plain text, or the text of a call of `var`. -/
inductive Segment where
  | text (cs : List Char)
  | reference (call : List Char)
  deriving DecidableEq, Repr

namespace Segment

/-- Whether a text begins with `var(`, in any letter case. -/
def startsReference (cs : List Char) : Bool :=
  (cs.take 4).map Char.toLower = ['v', 'a', 'r', '(']

/-- Splits a text in front of its first reference.  The character before the text, if any,
decides whether a name ends there. -/
def findFrom : Quoting → Option Char → List Char → Option (List Char × List Char)
  | _, _, [] => none
  | quoting, previous, c :: cs =>
    if quoting = .outside && !previous.any isWordChar && startsReference (c :: cs) then
      some ([], c :: cs)
    else (findFrom (quoting.step c) (some c) cs).map fun (head, tail) => (c :: head, tail)

/-- Splits a text in front of its first reference. -/
def find? (cs : List Char) : Option (List Char × List Char) := findFrom .outside none cs

/-- Splits a text behind the parenthesis that closes its first one, outside quotation marks. -/
def closeFrom : Quoting → Nat → List Char → Option (List Char × List Char)
  | _, _, [] => none
  | quoting, depth, c :: cs =>
    if quoting = .outside && c = ')' && depth ≤ 1 then some ([c], cs)
    else
      let depth :=
        if quoting = .outside then
          if c = '(' then depth + 1 else if c = ')' then depth - 1 else depth
        else depth
      (closeFrom (quoting.step c) depth cs).map fun (head, tail) => (c :: head, tail)

/-- Splits a text that begins with a call behind the call. -/
def splitCall? (cs : List Char) : Option (List Char × List Char) := closeFrom .outside 0 cs

theorem findFrom_append {quoting : Quoting} {previous : Option Char} {cs head tail : List Char}
    (h : findFrom quoting previous cs = some (head, tail)) : head ++ tail = cs := by
  induction cs generalizing quoting previous head with
  | nil => simp [findFrom] at h
  | cons c cs ih =>
    simp only [findFrom] at h
    split at h
    · cases h; rfl
    · obtain ⟨⟨head', tail'⟩, hf, he⟩ := Option.map_eq_some_iff.1 h
      cases he
      simpa using ih hf

theorem closeFrom_append {quoting : Quoting} {depth : Nat} {cs head tail : List Char}
    (h : closeFrom quoting depth cs = some (head, tail)) : head ++ tail = cs ∧ head ≠ [] := by
  induction cs generalizing quoting depth head with
  | nil => simp [closeFrom] at h
  | cons c cs ih =>
    simp only [closeFrom] at h
    split at h
    · cases h; simp
    · obtain ⟨⟨head', tail'⟩, hf, he⟩ := Option.map_eq_some_iff.1 h
      cases he
      simpa using (ih hf).1

end Segment

theorem Segment.length_rest_lt {cs head tail call rest : List Char}
    (hf : find? cs = some (head, tail)) (hc : splitCall? tail = some (call, rest)) :
    rest.length < cs.length := by
  have hcs := congrArg List.length (findFrom_append hf)
  have htail := congrArg List.length (closeFrom_append hc).1
  have hcall := List.length_pos_iff.2 (closeFrom_append hc).2
  simp only [List.length_append] at hcs htail
  omega

/-- The references of a value and the text around them, in order. -/
def segments (cs : List Char) : List Segment :=
  match _hf : Segment.find? cs with
  | none => [.text cs]
  | some (head, tail) =>
    match _hc : Segment.splitCall? tail with
    | none => [.text head, .text tail]
    | some (call, rest) => .text head :: .reference call :: segments rest
termination_by cs.length
decreasing_by exact Segment.length_rest_lt _hf _hc

/-- The characters of a segment. -/
def Segment.chars : Segment → List Char
  | .text cs => cs
  | .reference call => call

/-- The segments of a value concatenate to the value. -/
theorem flatMap_chars_segments (cs : List Char) : (segments cs).flatMap Segment.chars = cs := by
  induction h : cs.length using Nat.strongRecOn generalizing cs with
  | ind n ih =>
    rw [segments]
    split
    · simp [Segment.chars]
    · rename_i head tail hf
      have hcs := Segment.findFrom_append hf
      split
      · simpa [Segment.chars] using hcs
      · rename_i call rest hc
        have htail := (Segment.closeFrom_append hc).1
        have hlt := Segment.length_rest_lt hf hc
        simp [Segment.chars, ih _ (h ▸ hlt) rest rfl, htail, hcs]

/-- The characters of a reference come from the value. -/
theorem count_reference_le {cs call : List Char} (h : Segment.reference call ∈ segments cs)
    (c : Char) : call.count c ≤ cs.count c := by
  have hs : call.Sublist ((segments cs).flatMap Segment.chars) := by
    rw [List.flatMap]
    exact List.sublist_flatten_of_mem (List.mem_map.2 ⟨_, h, rfl⟩)
  rw [flatMap_chars_segments] at hs
  exact hs.count_le c

/-! ## Fallbacks -/

/-- Items joined by a comma and a space. -/
def joinItems : List (List Char) → List Char
  | [] => []
  | [item] => item
  | item :: next :: items => item ++ ',' :: ' ' :: joinItems (next :: items)

theorem count_joinItems (items : List (List Char)) :
    (joinItems items).count '(' = items.flatten.count '(' := by
  induction items with
  | nil => rfl
  | cons item items ih =>
    cases items with
    | nil => simp [joinItems]
    | cons next items => simp [joinItems, ih]

/-- The text to use when the variable of a call is not declared: all arguments but the first. -/
def Value.Call.fallback? (call : Call) : Option (List Char) :=
  match call.arguments.drop 1 with
  | [] => none
  | items => some (joinItems (items.map fun a => a.text.toList))

theorem flatten_map_sublist {α : Type} {f : List α → List α} (h : ∀ x, (f x).Sublist x)
    (xs : List (List α)) : (xs.map f).flatten.Sublist xs.flatten := by
  induction xs with
  | nil => simp
  | cons x xs ih => simpa using (h x).append ih

theorem flatten_drop_one_sublist {α : Type} (xs : List (List α)) :
    (xs.drop 1).flatten.Sublist xs.flatten := by
  cases xs with
  | nil => simp
  | cons x xs => simp

theorem Value.Argument.ofPiece_sublist (piece : List Char) :
    (Argument.ofPiece piece).text.toList.Sublist piece := by
  unfold Argument.ofPiece
  split
  · rename_i inner h
    simpa using unquote?_sublist h
  · simp

theorem Value.flatten_splitList_sublist (cs : List Char) :
    (splitList ',' cs).flatten.Sublist cs := by
  unfold splitList
  split
  · simp
  · have h : listPieces ',' cs = cut (· == ',') cs := if_pos (by decide)
    rw [h]
    exact (flatten_map_sublist trim_sublist _).trans (flatten_cutFrom_sublist _ _ _)

theorem Value.callParts?_count {cs front inner : List Char}
    (h : callParts? cs = some (front, inner)) : inner.count '(' < cs.count '(' := by
  unfold callParts? at h
  split at h
  · cases h
  · rename_i c body hd
    have hc : c = '(' := by
      have := List.head?_dropWhile_not (· != '(') cs
      rw [hd] at this
      simpa using this
    split at h
    · cases h
      have hcs : (body.count '(') + 1 ≤ cs.count '(' := by
        have hs : (c :: body).Sublist cs := hd ▸ List.dropWhile_sublist _
        have := hs.count_le '('
        simpa [hc] using this
      have := (List.dropLast_sublist body).count_le '('
      omega
    · cases h

/-- A fallback holds fewer opening parentheses than the call it belongs to. -/
theorem Value.Call.count_fallback_lt {cs text : List Char} {call : Call}
    (hp : Call.parse? cs = some call) (hf : call.fallback? = some text) :
    text.count '(' < cs.count '(' := by
  unfold Call.parse? at hp
  split at hp
  · cases hp
  · rename_i front inner hparts
    have hinner := callParts?_count hparts
    have htrim := (trim_sublist cs).count_le '('
    simp only at hp
    split at hp
    · cases hp
    · cases hp
      have hitems : (((splitList ',' inner).map Argument.ofPiece).map
          fun a : Argument => a.text.toList).flatten.Sublist inner := by
        rw [List.map_map]
        exact (flatten_map_sublist Argument.ofPiece_sublist _).trans
          (flatten_splitList_sublist inner)
      unfold Call.fallback? at hf
      split at hf
      · cases hf
      · cases hf
        rw [count_joinItems, ← List.map_drop]
        have h₁ := (flatten_drop_one_sublist (((splitList ',' inner).map
          Argument.ofPiece).map fun a : Argument => a.text.toList)).count_le '('
        have h₂ := hitems.count_le '('
        simp only [List.map_drop] at h₁ h₂ ⊢
        omega

end WidgetStyle
