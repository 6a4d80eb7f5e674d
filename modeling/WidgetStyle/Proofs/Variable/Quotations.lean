import WidgetStyle.Proofs.Variable.Fallbacks
import WidgetStyle.Proofs.Variable.Shortcut

/-!
# WidgetStyle.Proofs.Variable.Quotations — quotations in values

A quotation stands inside a reference, or it is kept: what is before it is expanded as if it ended
there, and what follows as if it began there (`Resolver.expand_quotation`).  The one exception is a
reference that is never closed, with which all that follows is kept.

A fallback is kept too, with the quotations in it, when the name is found nowhere
(`Resolver.substitute_quotations`).  This fails for fallbacks with an item that is itself a quotation:
the item loses its quotation marks, and what they protected is expanded
(`Resolver.quoted_fallback_is_expanded`).
-/

namespace WidgetStyle

open Text Value

/-! ## What is in front of a value -/

namespace Resolver

variable (r : Resolver) {stack : List String} (hdepth : stack.length ≤ r.maxDepth)
include hdepth

/-- What the scan passes by in front of a text is kept. -/
theorem expand_append_of_find? {front rest : List Char}
    (h : Segment.find? (front ++ rest) =
      (Segment.find? rest).map fun (head, tail) => (front ++ head, tail)) :
    r.expand stack (front ++ rest) = (do
      let more ← r.expand stack rest
      .ok (front ++ more)) := by
  cases hrest : Segment.find? rest with
  | none =>
      rw [hrest, Option.map_none] at h
      rw [expand_of_find?_eq_none r h hdepth, expand_of_find?_eq_none r hrest hdepth]
      rfl
  | some found =>
      obtain ⟨head, tail⟩ := found
      rw [hrest, Option.map_some] at h
      cases hcall : Segment.splitCall? tail with
      | none =>
          rw [expand_of_unclosed r hdepth h hcall, expand_of_unclosed r hdepth hrest hcall]
          rfl
      | some split =>
          rw [expand_of_call r hdepth h hcall, expand_of_call r hdepth hrest hcall]
          cases htext : r.expandReference stack split.1 with
          | error failure => rfl
          | ok text =>
              cases hmore : r.expand stack split.2 with
              | error failure => simp [bind, Except.bind]
              | ok more => simp [bind, Except.bind]

end Resolver

/-! ## Quotations outside references -/

/-- Whether a part of a value stands inside one of its references. -/
def InReference (before part after : List Char) : Prop :=
  ∃ front call back inside more,
    segments (before ++ part ++ after) = front ++ .reference call :: back ∧
      front.flatMap Segment.chars ++ inside = before ∧ call = inside ++ part ++ more

theorem inVar_of_isQuote {c : Char} (h : isQuote c = true) : Segment.inVar c = false := by
  rcases eq_of_isQuote h with rfl | rfl <;> decide

/-- A reference in front of a quotation is found, and otherwise the next one behind it. -/
theorem find?_append_quotation {quotation before : List Char}
    (hquotation : isQuotation quotation = true) (hbefore : Quoting.outside.after before = .outside)
    (after : List Char) :
    Segment.find? (before ++ quotation ++ after) =
      match Segment.find? before with
      | some (head, tail) => some (head, tail ++ quotation ++ after)
      | none => (Segment.find? after).map fun (head, tail) => (before ++ quotation ++ head, tail) := by
  cases quotation with
  | nil => cases hquotation
  | cons quote inside =>
      have hquote := inVar_of_isQuote (Bool.and_eq_true_iff.mp hquotation).1
      have hpass := Segment.findFrom_quotation_append hquotation (before.getLast?.or none) after
      rw [List.cons_append] at hpass
      rw [List.append_assoc, List.cons_append, Segment.find?, Segment.findFrom_append_cons hquote,
        hbefore, hpass, Option.map_map, ← Segment.find?]
      cases Segment.find? before with
      | some found => simp
      | none => simp [Function.comp_def]

/-- A part of a value that stands in a reference also does so behind another reference. -/
theorem InReference.of_call {before part after head tail call rest : List Char}
    (hfind : Segment.find? (before ++ part ++ after) = some (head, tail ++ part ++ after))
    (hcall : Segment.splitCall? (tail ++ part ++ after) = some (call, rest ++ part ++ after))
    (hbefore : head ++ (call ++ rest) = before) (h : InReference rest part after) :
    InReference before part after := by
  obtain ⟨front, call', back, inside, more, hsegments, hrest, hcall'⟩ := h
  refine ⟨.text head :: .reference call :: front, call', back, inside, more, ?_, ?_, hcall'⟩
  · rw [segments_of_call hfind hcall, hsegments]
    rfl
  · rw [← hbefore, ← hrest]
    simp [Segment.chars]

namespace Resolver

variable (r : Resolver) {stack : List String} {quotation : List Char}

/-- What is before a quotation is expanded on its own, and the quotation is kept, unless it stands
inside a reference.  What follows it is expanded too, or kept as well when a reference before it is
never closed. -/
theorem expand_quotation (hdepth : stack.length ≤ r.maxDepth)
    (hquotation : isQuotation quotation = true) {before : List Char}
    (hbefore : Quoting.outside.after before = .outside) (after : List Char) :
    InReference before quotation after ∨
      ∃ rest, (rest = .ok after ∨ rest = r.expand stack after) ∧
        r.expand stack (before ++ quotation ++ after) = (do
          let x ← r.expand stack before
          let y ← rest
          .ok (x ++ quotation ++ y)) := by
  induction hlength : before.length using Nat.strongRecOn generalizing before with
  | ind n ih =>
      have hvalue := find?_append_quotation hquotation hbefore after
      cases hfind : Segment.find? before with
      | none =>
          simp only [hfind] at hvalue
          refine .inr ⟨_, .inr rfl, ?_⟩
          rw [expand_append_of_find? r hdepth hvalue, expand_of_find?_eq_none r hfind hdepth]
          rfl
      | some found =>
          obtain ⟨head, tail⟩ := found
          simp only [hfind] at hvalue
          have happend : head ++ tail = before := Segment.findFrom_append hfind
          cases hcall : Segment.splitCall? tail with
          | some split =>
              obtain ⟨call, rest⟩ := split
              have hcallAll : Segment.splitCall? (tail ++ quotation ++ after) =
                  some (call, rest ++ quotation ++ after) := by
                rw [List.append_assoc, List.append_assoc]
                exact Segment.closeFrom_append_of_some hcall _
              have htail : call ++ rest = tail := (Segment.closeFrom_append hcall).1
              have hrest : Quoting.outside.after rest = .outside := by
                rw [← happend, ← htail, Quoting.after_append, Segment.after_of_findFrom hfind,
                  Quoting.after_append, Segment.after_of_closeFrom hcall] at hbefore
                exact hbefore
              have hlt : rest.length < n := hlength ▸ Segment.length_rest_lt hfind hcall
              rcases ih rest.length hlt hrest rfl with hin | ⟨last, hlast, hmore⟩
              · exact .inl (hin.of_call hvalue hcallAll (by rw [htail, happend]))
              · refine .inr ⟨last, hlast, ?_⟩
                rw [expand_of_call r hdepth hvalue hcallAll, expand_of_call r hdepth hfind hcall, hmore]
                cases r.expandReference stack call <;> cases r.expand stack rest <;> cases last <;>
                  simp [bind, Except.bind]
          | none =>
              cases hcallAll : Segment.splitCall? (tail ++ quotation ++ after) with
              | none =>
                  refine .inr ⟨_, .inl rfl, ?_⟩
                  rw [expand_of_unclosed r hdepth hvalue hcallAll,
                    expand_of_unclosed r hdepth hfind hcall]
                  rfl
              | some split =>
                  obtain ⟨call, rest⟩ := split
                  have htail : Quoting.outside.after tail = .outside := by
                    rwa [← happend, Quoting.after_append, Segment.after_of_findFrom hfind] at hbefore
                  have hsegments := segments_of_call hvalue hcallAll
                  obtain ⟨depth, hclose⟩ := Segment.closeFrom_append_of_none hcall
                  rw [Segment.splitCall?, List.append_assoc, hclose, htail,
                    Segment.closeFrom_quotation_append hquotation, Option.map_map] at hcallAll
                  obtain ⟨⟨more, rest'⟩, -, heq⟩ := Option.map_eq_some_iff.mp hcallAll
                  obtain ⟨rfl, rfl⟩ := Prod.mk.inj heq
                  refine .inl ⟨[.text head], _, _, tail, more, hsegments, ?_, ?_⟩
                  · simpa [Segment.chars] using happend
                  · simp

/-- Fallbacks keep their quotations, and so do values outside references.  A fallback is taken for a
name that is not found; it holds no reference, and no item of it begins and ends with the same
quotation mark.  In a value, a quotation is kept that is not inside a reference, unless the value has
no expansion. -/
theorem substitute_quotations (r : Resolver) :
    (∀ name fallback : String, IsBareName name → r.lookup? name = none →
      balancedFrom .outside 0 fallback.toList = true → Segment.find? fallback.toList = none →
      (∀ item ∈ fallbackItems fallback, unquote? (trim item) = none) →
        [','].intercalate (fallbackItems fallback) = fallback.toList ∧
        r.substitute (referenceOr name fallback) =
          String.ofList (joinItems ((fallbackItems fallback).map trim))) ∧
    (∀ before quotation after : String, Quoting.outside.after before.toList = .outside →
      isQuotation quotation.toList = true →
        InReference before.toList quotation.toList after.toList ∨
        ((∃ failure, r.expand [] (before ++ quotation ++ after).toList = .error failure) ∧
          r.substitute (before ++ quotation ++ after) = "") ∨
        ∃ x y : String, (x = before ∨ r.expand [] before.toList = .ok x.toList) ∧
          (y = after ∨ r.expand [] after.toList = .ok y.toList) ∧
          r.substitute (before ++ quotation ++ after) = x ++ quotation ++ y) := by
  constructor
  · intro name fallback hname hlookup hbalanced hfind hitems
    have hmentions : mentionsVar (referenceOr name fallback).toList = true := by
      rw [toList_referenceOr]
      rfl
    refine ⟨(pieces_cut _ fallback.toList).intercalate, ?_⟩
    rw [substitute_of_mentionsVar r hmentions,
      expand_referenceOr r hname hlookup hbalanced hfind hitems, outcome]
  · intro before quotation after hbefore hquotation
    cases hmentions : mentionsVar (before ++ quotation ++ after).toList with
    | false =>
        exact .inr (.inr ⟨before, after, .inl rfl, .inl rfl, substitute_of_not_mentionsVar r hmentions⟩)
    | true =>
        have hdepth : ([] : List String).length ≤ r.maxDepth := Nat.zero_le _
        rw [substitute_of_mentionsVar r hmentions]
        simp only [String.toList_append]
        refine (expand_quotation r hdepth hquotation hbefore after.toList).imp_right ?_
        rintro ⟨rest, hrest, hexpand⟩
        rw [hexpand]
        cases hfront : r.expand [] before.toList with
        | error failure => exact .inl ⟨⟨failure, rfl⟩, rfl⟩
        | ok x =>
            cases rest with
            | error failure => exact .inl ⟨⟨failure, rfl⟩, rfl⟩
            | ok y =>
                refine .inr ⟨String.ofList x, String.ofList y, .inr ?_, ?_, ?_⟩
                · rw [String.toList_ofList]
                · rw [String.toList_ofList]
                  exact hrest.imp (fun h => by rw [Except.ok.inj h, String.ofList_toList]) Eq.symm
                · change String.ofList (x ++ quotation.toList ++ y) = _
                  rw [String.ofList_append, String.ofList_append, String.ofList_toList]

/-- A fallback with quotations among other words, and a quotation in front of a reference. -/
theorem substitute_quotations_among_words :
    let r : Resolver := { scopes := [Assoc.empty.insert "--x" ⟨"--x", "red", .zero, 0⟩] }
    r.substitute (referenceOr "--missing" "Sans 'a, var(--x)' b ,f(\"c\")") =
        "Sans 'a, var(--x)' b, f(\"c\")" ∧
      ∃ x y : String, (x = "" ∨ r.expand [] "".toList = .ok x.toList) ∧
        (y = " var(--x)" ∨ r.expand [] " var(--x)".toList = .ok y.toList) ∧
        r.substitute ("" ++ "\"var(--x)\"" ++ " var(--x)") = x ++ "\"var(--x)\"" ++ y := by
  intro r
  constructor
  · exact ((substitute_quotations r).1 "--missing" "Sans 'a, var(--x)' b ,f(\"c\")" (by decide) rfl
      (by decide) (by decide) (by decide +kernel)).2
  · have hvalue : Segment.find? ("" ++ "\"var(--x)\"" ++ " var(--x)").toList =
        some ("\"var(--x)\" ".toList, "var(--x)".toList) := by decide
    have hcall : Segment.splitCall? "var(--x)".toList = some ("var(--x)".toList, []) := by decide
    have hsegments := segments_of_call hvalue hcall
    have hdepth : ([] : List String).length ≤ r.maxDepth := Nat.zero_le _
    have hrefers : RefersTo "var(--x)".toList "--x" := ⟨⟨"var", [⟨"--x", false⟩]⟩, by decide, by decide⟩
    rcases (substitute_quotations r).2 "" "\"var(--x)\"" " var(--x)" (by decide) (by decide)
      with hin | hfails | hkept
    · obtain ⟨front, call, back, inside, more, hsplit, -, rfl⟩ := hin
      have hmem : .reference (inside ++ "\"var(--x)\"".toList ++ more) ∈
          segments ("" ++ "\"var(--x)\"" ++ " var(--x)").toList := by
        rw [String.toList_append, String.toList_append, hsplit]
        simp
      rw [hsegments, segments_of_find?_eq_none (show Segment.find? [] = none from rfl)] at hmem
      simp only [List.mem_cons, reduceCtorEq, false_or, Segment.reference.injEq, List.not_mem_nil,
        or_false] at hmem
      -- The reference has no quotation mark.
      have hquote : '"' ∈ "var(--x)".toList := hmem ▸ by simp
      exact absurd hquote (by decide)
    · obtain ⟨⟨failure, hfailure⟩, -⟩ := hfails
      rw [expand_of_call r hdepth hvalue hcall,
        expandReference_of_lookup? r hrefers List.not_mem_nil rfl,
        expand_of_find?_eq_none r (by decide) (by decide),
        expand_of_find?_eq_none r (by decide) hdepth] at hfailure
      cases hfailure
    · exact hkept

/-- A quoted fallback loses its quotation marks, and what was quoted is expanded. -/
theorem quoted_fallback_is_expanded :
    let r : Resolver := { scopes := [Assoc.empty.insert "--x" ⟨"--x", "red", .zero, 0⟩] }
    r.lookup? "--missing" = none ∧ r.substitute "var(--missing, \"var(--x)\")" = "red" := by
  intro r
  refine ⟨rfl, ?_⟩
  have hcall : Call.parse? "var(--missing, \"var(--x)\")".toList =
      some ⟨"var", [⟨"--missing", false⟩, ⟨"var(--x)", true⟩]⟩ := by decide
  have hfallback : r.expandReference [] "var(--missing, \"var(--x)\")".toList =
      r.expand [] "var(--x)".toList := by
    rw [expandReference, hcall]
    rfl
  have hrefers : RefersTo "var(--x)".toList "--x" := ⟨⟨"var", [⟨"--x", false⟩]⟩, by decide, by decide⟩
  rw [substitute_of_mentionsVar r (by decide),
    expand_call r (by decide) (by decide) (Nat.zero_le _), hfallback,
    expand_call r (by decide) (by decide) (Nat.zero_le _),
    expandReference_of_lookup? r hrefers List.not_mem_nil rfl,
    expand_of_find?_eq_none r (by decide) (by decide)]
  decide

end Resolver

end WidgetStyle
