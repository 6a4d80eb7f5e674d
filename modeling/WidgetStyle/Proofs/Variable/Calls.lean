import WidgetStyle.Proofs.Variable.Reference

/-!
# WidgetStyle.Proofs.Variable.Calls — references are calls

A reference goes from `var(` to the parenthesis that closes it.  Reading such a text as a call never
fails: its name is `var`, and its arguments are the items between the parentheses (`parse?_call`).
Every reference among the segments of a value is one (`exists_parse?_of_mem_segments`).

Between the parentheses of a call there may be more of them, as long as they are balanced
(`balancedFrom`): such a text is passed by as a whole (`Segment.closeFrom_of_balanced`).
-/

namespace WidgetStyle

open Text Value

/-! ## Parentheses -/

/-- Whether a character neither opens nor closes a parenthesis where it stands. -/
def Passes (quoting : Quoting) (c : Char) : Prop := quoting = .outside → c ≠ '(' ∧ c ≠ ')'

theorem parenthesis_cases (quoting : Quoting) (c : Char) :
    (quoting = .outside ∧ c = '(') ∨ (quoting = .outside ∧ c = ')') ∨ Passes quoting c := by
  rw [Passes]
  by_cases hquoting : quoting = .outside <;> by_cases hopen : c = '(' <;>
    by_cases hclose : c = ')' <;> simp [hquoting, hopen, hclose]

section Steps

variable {quoting : Quoting} {c : Char} (depth : Nat) (cs : List Char)

theorem closeFrom_open : Segment.closeFrom .outside depth ('(' :: cs) =
    (Segment.closeFrom .outside (depth + 1) cs).map fun (head, tail) => ('(' :: head, tail) := by
  simp [Segment.closeFrom, Quoting.step, isQuote]

theorem closeFrom_close : Segment.closeFrom .outside depth (')' :: cs) =
    if depth ≤ 1 then some ([')'], cs)
    else (Segment.closeFrom .outside (depth - 1) cs).map fun (head, tail) => (')' :: head, tail) := by
  simp [Segment.closeFrom, Quoting.step, isQuote]

theorem closeFrom_passes (h : Passes quoting c) : Segment.closeFrom quoting depth (c :: cs) =
    (Segment.closeFrom (quoting.step c) depth cs).map fun (head, tail) => (c :: head, tail) := by
  have hend : ¬ (quoting = .outside ∧ c = ')' ∧ depth ≤ 1) := fun hc => (h hc.1).2 hc.2.1
  have hdepth : (if quoting = .outside then
      if c = '(' then depth + 1 else if c = ')' then depth - 1 else depth else depth) = depth := by
    split
    case isTrue hquoting => rw [if_neg (h hquoting).1, if_neg (h hquoting).2]
    case isFalse => rfl
  rw [Segment.closeFrom, if_neg (by simpa using hend)]
  simp only [hdepth]

theorem staysOpen_open : staysOpen .outside depth ('(' :: cs) = staysOpen .outside (depth + 1) cs :=
  rfl

theorem staysOpen_close (h : 1 < depth) :
    staysOpen .outside depth (')' :: cs) = staysOpen .outside (depth - 1) cs := by
  simp [staysOpen, Nat.not_le.mpr h]

theorem staysOpen_passes (h : Passes quoting c) :
    staysOpen quoting depth (c :: cs) = staysOpen (quoting.step c) depth cs := by
  have hopen : ¬ (quoting = .outside ∧ c = '(') := fun hc => (h hc.1).1 hc.2
  have hclose : ¬ (quoting = .outside ∧ c = ')') := fun hc => (h hc.1).2 hc.2
  rw [staysOpen, if_neg (by simpa using hopen), if_neg (by simpa using hclose)]

end Steps

namespace Segment

variable {quoting : Quoting} {previous : Option Char} {depth : Nat} {cs head tail : List Char}

theorem startsReference_of_findFrom (h : findFrom quoting previous cs = some (head, tail)) :
    startsReference tail = true := by
  induction cs generalizing quoting previous head with
  | nil => exact absurd h (by simp [findFrom])
  | cons c cs ih =>
      rw [findFrom] at h
      split at h
      case isTrue hfound =>
        obtain ⟨-, rfl⟩ := Prod.mk.inj (Option.some.inj h)
        simp only [Bool.and_eq_true] at hfound
        exact hfound.2
      case isFalse =>
        obtain ⟨⟨head', tail'⟩, hrest, heq⟩ := Option.map_eq_some_iff.mp h
        obtain ⟨-, rfl⟩ := Prod.mk.inj heq
        exact ih hrest

/-- The closing parenthesis comes last, and what is before it leaves the text open. -/
theorem exists_inner_of_closeFrom (hdepth : 1 ≤ depth)
    (h : closeFrom quoting depth cs = some (head, tail)) :
    ∃ inner, head = inner ++ [')'] ∧ staysOpen quoting depth inner = true := by
  induction cs generalizing quoting depth head with
  | nil => exact absurd h (by simp [closeFrom])
  | cons c cs ih =>
      rcases parenthesis_cases quoting c with ⟨rfl, rfl⟩ | ⟨rfl, rfl⟩ | hpasses
      case inl =>
        rw [closeFrom_open] at h
        obtain ⟨⟨head', tail'⟩, hrest, heq⟩ := Option.map_eq_some_iff.mp h
        obtain ⟨rfl, rfl⟩ := Prod.mk.inj heq
        obtain ⟨inner, rfl, hopen⟩ := ih (Nat.le_add_left 1 depth) hrest
        exact ⟨'(' :: inner, rfl, (staysOpen_open depth inner).trans hopen⟩
      case inr.inl =>
        rw [closeFrom_close] at h
        split at h
        case isTrue =>
          obtain ⟨rfl, -⟩ := Prod.mk.inj (Option.some.inj h)
          exact ⟨[], rfl, rfl⟩
        case isFalse hdeep =>
          obtain ⟨⟨head', tail'⟩, hrest, heq⟩ := Option.map_eq_some_iff.mp h
          obtain ⟨rfl, rfl⟩ := Prod.mk.inj heq
          have hmore : 1 ≤ depth - 1 := by omega
          obtain ⟨inner, rfl, hopen⟩ := ih hmore hrest
          exact ⟨')' :: inner, rfl, (staysOpen_close depth inner (by omega)).trans hopen⟩
      case inr.inr =>
        rw [closeFrom_passes _ _ hpasses] at h
        obtain ⟨⟨head', tail'⟩, hrest, heq⟩ := Option.map_eq_some_iff.mp h
        obtain ⟨rfl, rfl⟩ := Prod.mk.inj heq
        obtain ⟨inner, rfl, hopen⟩ := ih hdepth hrest
        exact ⟨c :: inner, rfl, (staysOpen_passes depth inner hpasses).trans hopen⟩

end Segment

/-! ## Balanced texts -/

/-- Whether the parentheses of a text outside quotations match, and its quotations are closed.  The
number counts the parentheses open before. -/
def balancedFrom : Quoting → Nat → List Char → Bool
  | quoting, depth, [] => quoting = .outside && depth = 0
  | quoting, depth, c :: cs =>
    if quoting = .outside && c = '(' then balancedFrom quoting (depth + 1) cs
    else if quoting = .outside && c = ')' then depth ≠ 0 && balancedFrom quoting (depth - 1) cs
    else balancedFrom (quoting.step c) depth cs

section Balanced

variable {quoting : Quoting} {depth : Nat} {c : Char} {cs : List Char}

theorem balancedFrom_passes (h : Passes quoting c) :
    balancedFrom quoting depth (c :: cs) = balancedFrom (quoting.step c) depth cs := by
  have hopen : ¬ (quoting = .outside ∧ c = '(') := fun hc => (h hc.1).1 hc.2
  have hclose : ¬ (quoting = .outside ∧ c = ')') := fun hc => (h hc.1).2 hc.2
  rw [balancedFrom, if_neg (by simpa using hopen), if_neg (by simpa using hclose)]

/-- The parenthesis behind a balanced text closes the one before it. -/
theorem Segment.closeFrom_of_balanced (h : balancedFrom quoting depth cs = true)
    (rest : List Char) :
    closeFrom quoting (depth + 1) (cs ++ ')' :: rest) = some (cs ++ [')'], rest) := by
  induction cs generalizing quoting depth with
  | nil =>
      simp only [balancedFrom, Bool.and_eq_true, decide_eq_true_eq] at h
      obtain ⟨rfl, rfl⟩ := h
      rfl
  | cons c cs ih =>
      rw [List.cons_append]
      rcases parenthesis_cases quoting c with ⟨rfl, rfl⟩ | ⟨rfl, rfl⟩ | hpasses
      case inl => rw [closeFrom_open, ih h, Option.map_some, List.cons_append]
      case inr.inl =>
        have hrest : depth ≠ 0 ∧ balancedFrom .outside (depth - 1) cs = true := by
          simpa [balancedFrom] using h
        have hclose := ih hrest.2
        rw [Nat.sub_add_cancel (Nat.one_le_iff_ne_zero.mpr hrest.1)] at hclose
        rw [closeFrom_close, if_neg (by omega), Nat.add_sub_cancel, hclose, Option.map_some,
          List.cons_append]
      case inr.inr =>
        rw [balancedFrom_passes hpasses] at h
        rw [closeFrom_passes _ _ hpasses, ih h, Option.map_some, List.cons_append]

theorem staysOpen_of_balanced (h : balancedFrom quoting depth cs = true) :
    staysOpen quoting (depth + 1) cs = true := by
  obtain ⟨inner, hinner, hopen⟩ := Segment.exists_inner_of_closeFrom (Nat.le_add_left 1 depth)
    (Segment.closeFrom_of_balanced h [])
  rwa [List.append_cancel_right hinner]

end Balanced

/-! ## Reading calls -/

theorem trim_of_ends {c d : Char} (hc : isBlank c = false) (hd : isBlank d = false)
    (cs : List Char) : trim (c :: (cs ++ [d])) = c :: (cs ++ [d]) := by
  have hstart : trimStart (c :: (cs ++ [d])) = c :: (cs ++ [d]) := by
    rw [trimStart, List.dropWhile_cons_of_neg (by simp [hc])]
  have hreverse : (c :: (cs ++ [d])).reverse = d :: (cs.reverse ++ [c]) := by simp
  rw [trim, hstart, trimEnd, hreverse, List.dropWhile_cons_of_neg (by simp [hd]), ← hreverse,
    List.reverse_reverse]

/-- The letters of the name of a reference. -/
def spellsVar (name : List Char) : Prop := name.map Char.toLower = ['v', 'a', 'r']

theorem isWordChar_of_spellsVar {name : List Char} (h : spellsVar name) :
    ∀ c ∈ name, isWordChar c = true := by
  intro c hc
  have hlower : c.toLower ∈ ['v', 'a', 'r'] := h ▸ List.mem_map_of_mem hc
  have hletters : ['v', 'a', 'r'].all isWordChar = true := by decide
  exact isWordChar_of_toLower (List.all_eq_true.mp hletters c.toLower hlower)

theorem ne_nil_of_spellsVar {name : List Char} (h : spellsVar name) : name ≠ [] := by
  rintro rfl
  exact absurd h nofun

/-- Reading the text of a reference gives a call of `var` with the items between the parentheses. -/
theorem parse?_call {name inner : List Char} (hname : spellsVar name)
    (hopen : staysOpen .outside 1 inner = true) :
    Call.parse? (name ++ '(' :: (inner ++ [')'])) =
      some ⟨"var", (splitList ',' inner).map Argument.ofPiece⟩ := by
  have hword := isWordChar_of_spellsVar hname
  have hplain : ∀ c ∈ name, IsPlain c := fun c hc => .of_isWordChar (hword c hc)
  have htrim : trim (name ++ '(' :: (inner ++ [')'])) = name ++ '(' :: (inner ++ [')']) := by
    obtain ⟨c, cs, rfl⟩ := List.exists_cons_of_ne_nil (ne_nil_of_spellsVar hname)
    have hends := trim_of_ends (hplain c List.mem_cons_self).blank
      (show isBlank ')' = false from rfl) (cs ++ '(' :: inner)
    simpa using hends
  have hnotopen : ∀ c ∈ name, (c != '(') = true := fun c hc => bne_iff_ne.mpr (hplain c hc).ne_open
  have hparts : callParts? (name ++ '(' :: (inner ++ [')'])) = some (name, inner) := by
    rw [callParts?, List.dropWhile_append_of_pos hnotopen, List.takeWhile_append_of_pos hnotopen]
    simp
  have hlower : lower (String.ofList name) = "var" := by
    rw [lower, String.toList_ofList, hname]
  rw [Call.parse?, htrim, hparts]
  simpa [trim_plain hplain, hopen, hlower, ne_nil_of_spellsVar hname] using hword

/-- Only letters come from other characters in lower case. -/
theorem eq_of_toLower {c d : Char} (h : c.toLower = d) (hd : d.toNat < 97) : c = d := by
  by_cases hupper : c.val ≥ 'A'.val ∧ c.val ≤ 'Z'.val
  · have hlower : c.toLower.val = c.val + ('a'.val - 'A'.val) :=
      congrArg Char.val (dif_pos hupper : c.toLower = _)
    have hval : (c.val + ('a'.val - 'A'.val)).toNat = d.toNat := by
      rw [← hlower, h]
      rfl
    have hlow : 65 ≤ c.val.toNat := hupper.1
    have hhigh : c.val.toNat ≤ 90 := hupper.2
    rw [UInt32.toNat_add, show ('a'.val - 'A'.val).toNat = 32 from rfl] at hval
    omega
  · rwa [show c.toLower = c from dif_neg hupper] at h

theorem exists_of_startsReference {cs : List Char} (h : Segment.startsReference cs = true) :
    ∃ name rest, spellsVar name ∧ cs = name ++ '(' :: rest := by
  rw [Segment.startsReference, decide_eq_true_eq] at h
  match cs with
  | c :: d :: e :: f :: rest =>
      simp only [List.take_succ_cons, List.take_zero, List.map_cons, List.map_nil,
        List.cons.injEq] at h
      obtain ⟨hc, hd, he, hf, -⟩ := h
      obtain rfl := eq_of_toLower hf (by decide)
      exact ⟨[c, d, e], rest, by simp [spellsVar, hc, hd, he], rfl⟩
  | [] | [_] | [_, _] | [_, _, _] => exact absurd h (by simp)

theorem startsReference_of_spellsVar {name : List Char} (h : spellsVar name) (rest : List Char) :
    Segment.startsReference (name ++ '(' :: rest) = true := by
  have hlength : name.length = 3 := by
    have hletters := congrArg List.length h
    rwa [List.length_map] at hletters
  rw [Segment.startsReference, decide_eq_true_eq, List.take_append, hlength,
    List.take_of_length_le (by omega), List.map_append, h]
  rfl

/-- A text from `var(` to its closing parenthesis is a call. -/
theorem exists_call_of_splitCall? {cs call rest : List Char}
    (hstart : Segment.startsReference cs = true) (h : Segment.splitCall? cs = some (call, rest)) :
    ∃ name inner, spellsVar name ∧ call = name ++ '(' :: (inner ++ [')']) ∧
      staysOpen .outside 1 inner = true := by
  obtain ⟨name, body, hname, rfl⟩ := exists_of_startsReference hstart
  have hplain : ∀ c ∈ name, IsPlain c := fun c hc => .of_isWordChar (isWordChar_of_spellsVar hname c hc)
  rw [Segment.splitCall?, closeFrom_plain_append hplain, closeFrom_open, Option.map_map] at h
  obtain ⟨⟨head, tail⟩, hclose, heq⟩ := Option.map_eq_some_iff.mp h
  obtain ⟨rfl, rfl⟩ := Prod.mk.inj heq
  obtain ⟨inner, rfl, hopen⟩ := Segment.exists_inner_of_closeFrom (Nat.le_refl 1) hclose
  exact ⟨name, inner, hname, rfl, hopen⟩

theorem segments_of_call {value head tail call rest : List Char}
    (hfind : Segment.find? value = some (head, tail))
    (hcall : Segment.splitCall? tail = some (call, rest)) :
    segments value = .text head :: .reference call :: segments rest := by
  rw [segments_of_find? hfind, hcall]

/-- The references of a value are texts from `var(` to the closing parenthesis. -/
theorem exists_call_of_mem_segments {cs text : List Char} (h : .reference text ∈ segments cs) :
    ∃ name inner, spellsVar name ∧ text = name ++ '(' :: (inner ++ [')']) ∧
      staysOpen .outside 1 inner = true := by
  induction hlength : cs.length using Nat.strongRecOn generalizing cs with
  | ind n ih =>
      cases hfind : Segment.find? cs with
      | none =>
          rw [segments_of_find?_eq_none hfind] at h
          simp at h
      | some found =>
          obtain ⟨head, tail⟩ := found
          cases hcall : Segment.splitCall? tail with
          | none =>
              rw [segments_of_find? hfind, hcall] at h
              simp at h
          | some split =>
              obtain ⟨call, rest⟩ := split
              have hlt := Segment.length_rest_lt hfind hcall
              simp only [segments_of_call hfind hcall, List.mem_cons, reduceCtorEq, false_or,
                Segment.reference.injEq] at h
              rcases h with rfl | h
              · exact exists_call_of_splitCall? (Segment.startsReference_of_findFrom hfind) hcall
              · exact ih rest.length (hlength ▸ hlt) h rfl

/-- Every reference of a value is a call. -/
theorem exists_parse?_of_mem_segments {cs text : List Char} (h : .reference text ∈ segments cs) :
    ∃ call, Call.parse? text = some call := by
  obtain ⟨name, inner, hname, rfl, hopen⟩ := exists_call_of_mem_segments h
  exact ⟨_, parse?_call hname hopen⟩

/-! ## Values that are one reference -/

theorem find?_of_startsReference {cs : List Char} (h : Segment.startsReference cs = true) :
    Segment.find? cs = some ([], cs) := by
  cases cs with
  | nil => exact absurd h (by decide)
  | cons c cs => rw [Segment.find?, Segment.findFrom, h, if_pos (by simp)]

/-- A call of `var` with nothing behind it is the only segment of its text that is not empty. -/
theorem segments_call {cs : List Char} (hstart : Segment.startsReference cs = true)
    (hcall : Segment.splitCall? cs = some (cs, [])) :
    segments cs = [.text [], .reference cs, .text []] := by
  rw [segments_of_find? (find?_of_startsReference hstart), hcall]
  simp only [segments_of_find?_eq_none (show Segment.find? [] = none from rfl)]

/-- Such a text expands to what the reference stands for. -/
theorem Resolver.expand_call (r : Resolver) {stack : List String} {cs : List Char}
    (hstart : Segment.startsReference cs = true) (hcall : Segment.splitCall? cs = some (cs, []))
    (hdepth : stack.length ≤ r.maxDepth) : r.expand stack cs = r.expandReference stack cs := by
  rw [expand_eq, if_neg (Nat.not_lt.mpr hdepth), segments_call hstart hcall]
  cases hreference : r.expandReference stack cs with
  | ok text => simp [expandSegment, hreference, bind, Except.bind, pure, Except.pure]
  | error failure => simp [expandSegment, hreference, bind, Except.bind]

/-! ## A value and what follows its first reference -/

namespace Resolver

variable (r : Resolver) {stack : List String} {value head tail : List Char}
  (hdepth : stack.length ≤ r.maxDepth)
include hdepth

/-- A reference that is never closed is kept with all that follows it. -/
theorem expand_of_unclosed (hfind : Segment.find? value = some (head, tail))
    (hcall : Segment.splitCall? tail = none) : r.expand stack value = .ok value := by
  rw [expand_eq, if_neg (Nat.not_lt.mpr hdepth), segments_of_find? hfind, hcall,
    ← Segment.findFrom_append hfind]
  simp [expandSegment, bind, Except.bind, pure, Except.pure]

/-- Behind its first reference a value is expanded as if it began there. -/
theorem expand_of_call {call rest : List Char} (hfind : Segment.find? value = some (head, tail))
    (hcall : Segment.splitCall? tail = some (call, rest)) :
    r.expand stack value = (do
      let text ← r.expandReference stack call
      let more ← r.expand stack rest
      .ok (head ++ text ++ more)) := by
  rw [expand_eq, expand_eq, if_neg (Nat.not_lt.mpr hdepth), if_neg (Nat.not_lt.mpr hdepth),
    segments_of_call hfind hcall, List.mapM_cons, List.mapM_cons]
  cases htext : r.expandReference stack call with
  | error failure => simp [expandSegment, htext, bind, Except.bind]
  | ok text =>
      cases hmore : (segments rest).mapM (r.expandSegment stack) with
      | error failure => simp [expandSegment, htext, bind, Except.bind]
      | ok parts => simp [expandSegment, htext, bind, Except.bind, pure, Except.pure]

end Resolver

end WidgetStyle
