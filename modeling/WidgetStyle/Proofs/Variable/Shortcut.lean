import WidgetStyle.Proofs.Variable.Calls

/-!
# WidgetStyle.Proofs.Variable.Shortcut — values that are not expanded

Substitution leaves a value alone in which `var(` does not occur in lower case, and expands any
other.  Without references the expansion of a value is the value (`Resolver.expand_of_no_reference`),
so the shortcut changes nothing there.  References are found in any letter case, though: a value whose
references are all written with capitals is kept, and some resolver would expand it to something else
(`Resolver.substitute_eq_outcome_iff`).
-/

namespace WidgetStyle

open Text Value

/-! ## Values without references -/

/-- Whether a value has a reference. -/
def HasReference (value : List Char) : Prop := ∃ call, .reference call ∈ segments value

namespace Resolver

variable (r : Resolver) {stack : List String} {value : List Char}

theorem mapM_expandSegment_of_no_reference {parts : List Segment}
    (h : ∀ call, .reference call ∉ parts) :
    parts.mapM (r.expandSegment stack) = .ok (parts.map Segment.chars) := by
  induction parts with
  | nil => rfl
  | cons part parts ih =>
      have hmore := ih fun call hmem => h call (List.mem_cons_of_mem _ hmem)
      cases part with
      | text cs =>
          rw [List.mapM_cons, hmore]
          rfl
      | reference call => exact absurd List.mem_cons_self (h call)

/-- A value without references is its own expansion. -/
theorem expand_of_no_reference (h : ¬ HasReference value) (hdepth : stack.length ≤ r.maxDepth) :
    r.expand stack value = .ok value := by
  have htexts : ∀ call, .reference call ∉ segments value := fun call hmem => h ⟨call, hmem⟩
  rw [expand_eq, if_neg (Nat.not_lt.mpr hdepth), mapM_expandSegment_of_no_reference r htexts]
  exact congrArg Except.ok (flatMap_chars_segments value)

/-! ## References that fail -/

theorem exists_mapM_eq_error {α β ε : Type} {f : α → Except ε β} {l : List α} {x : α} {e : ε}
    (hx : x ∈ l) (h : f x = .error e) : ∃ e', l.mapM f = .error e' := by
  induction l with
  | nil => cases hx
  | cons y l ih =>
      rw [List.mapM_cons]
      cases hy : f y with
      | error e' => exact ⟨e', rfl⟩
      | ok b =>
          have hl : x ∈ l := by
            rcases List.mem_cons.mp hx with rfl | hl
            · exact absurd (h.symm.trans hy) nofun
            · exact hl
          obtain ⟨e', he'⟩ := ih hl
          exact ⟨e', by rw [he']; rfl⟩

/-- A value fails to expand as soon as one of its references does. -/
theorem exists_expand_eq_error {text : List Char} {failure : ExpansionFailure}
    (hmem : .reference text ∈ segments value) (h : r.expandReference stack text = .error failure) :
    ∃ failure', r.expand stack value = .error failure' := by
  rw [expand_eq]
  split
  case isTrue => exact ⟨_, rfl⟩
  case isFalse =>
    obtain ⟨failure', hfailure⟩ := exists_mapM_eq_error (f := r.expandSegment stack) hmem h
    exact ⟨failure', by rw [hfailure]; rfl⟩

/-- The resolver that knows one variable and expands no variable inside another one. -/
def shallow (name : String) : Resolver where
  scopes := [Assoc.empty.insert name ⟨name, "", .zero, 0⟩]
  maxDepth := 0

theorem lookup?_shallow (name : String) : (shallow name).lookup? name = some ⟨name, "", .zero, 0⟩ := by
  simp [lookup?, shallow]

/-- A reference to its variable is too deep for that resolver. -/
theorem expandReference_shallow {text : List Char} {name : String} (h : RefersTo text name) :
    (shallow name).expandReference [] text = .error .tooDeep := by
  rw [expandReference_of_lookup? _ h List.not_mem_nil (lookup?_shallow name), expand_eq]
  rfl

/-! ## The shortcut -/

/-- The shortcut leaves a value alone. -/
theorem substitute_of_not_mentionsVar {value : String} (h : mentionsVar value.toList = false) :
    r.substitute value = value := by
  rw [substitute, h, if_neg Bool.false_ne_true]

/-- Without the shortcut, a value becomes what its expansion leaves. -/
theorem substitute_of_mentionsVar {value : String} (h : mentionsVar value.toList = true) :
    r.substitute value = outcome (r.expand [] value.toList) := by
  rw [substitute, h, if_pos rfl]
  rfl

/-- The shortcut agrees with expansion, whatever the resolver, on just those values that it lets
through and those that have no reference. -/
theorem substitute_eq_outcome_iff (value : String) :
    (∀ r : Resolver, r.substitute value = outcome (r.expand [] value.toList)) ↔
      mentionsVar value.toList = true ∨ ¬ HasReference value.toList := by
  constructor
  case mp =>
    intro h
    cases hmentions : mentionsVar value.toList with
    | true => exact .inl rfl
    | false =>
        refine .inr fun hreference => ?_
        obtain ⟨text, hmem⟩ := hreference
        obtain ⟨call, hcall⟩ := exists_parse?_of_mem_segments hmem
        obtain ⟨failure, hfails⟩ := exists_expand_eq_error (shallow (referredName call)) hmem
          (expandReference_shallow ⟨call, hcall, rfl⟩)
        have hempty : value = "" := by
          have hsame := h (shallow (referredName call))
          rwa [substitute_of_not_mentionsVar _ hmentions, hfails] at hsame
        -- The empty text has no reference.
        rw [hempty, segments_of_find?_eq_none (show Segment.find? "".toList = none from rfl)] at hmem
        simp at hmem
  case mpr =>
    rintro (hmentions | hnone) r
    · exact substitute_of_mentionsVar r hmentions
    · cases hmentions : mentionsVar value.toList with
      | true => exact substitute_of_mentionsVar r hmentions
      | false =>
          rw [substitute_of_not_mentionsVar r hmentions,
            expand_of_no_reference r hnone (Nat.zero_le _), outcome, String.ofList_toList]

/-- A reference in capitals is found by expansion and kept by the shortcut. -/
theorem capitals_are_kept :
    let r : Resolver := { scopes := [Assoc.empty.insert "--a" ⟨"--a", "red", .zero, 0⟩] }
    r.substitute "VAR(--a)" = "VAR(--a)" ∧ outcome (r.expand [] "VAR(--a)".toList) = "red" := by
  intro r
  refine ⟨substitute_of_not_mentionsVar r (by decide), ?_⟩
  have hrefers : RefersTo "VAR(--a)".toList "--a" := ⟨⟨"var", [⟨"--a", false⟩]⟩, by decide, by decide⟩
  rw [expand_call r (by decide) (by decide) (Nat.zero_le _),
    expandReference_of_lookup? r hrefers List.not_mem_nil rfl,
    expand_of_find?_eq_none r (by decide) (by decide)]
  decide

end Resolver

end WidgetStyle
