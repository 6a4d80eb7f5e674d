import Mathlib.Data.List.Dedup
import Mathlib.Data.List.Perm.Subperm
import WidgetStyle.Proofs.Variable.Shortcut
import WidgetStyle.Proofs.Variable.Termination

/-!
# WidgetStyle.Proofs.Variable.Failures — when expansion fails

The expansion of a value fails when it is too deep or meets a variable that is being expanded.  The
variables on a stack are different and all bound in the scopes, so with a bound of at least their
number it is never too deep, and fails if and only if a cycle is reached (`Resolver.ReachesCycle`,
which does not ask for the bound).  Otherwise it gives the full expansion: the text that
`Resolver.SpellsOut` derives from the scopes alone, without a stack or a bound.  A higher bound changes
no text that was found under a lower one (`Resolver.expand_mono`).

Substitution returns the full expansion, except for a value with references in capitals only, which it
keeps (`Resolver.expand_fails_only_on_cycles`).
-/

namespace WidgetStyle

open Text Value

/-! ## Lists of partial results -/

section MapM

variable {α β ε : Type} {f g : α → Except ε β} {l : List α}

/-- A list fails as one of its members does. -/
theorem exists_eq_error_of_mapM {e : ε} (h : l.mapM f = .error e) : ∃ x ∈ l, f x = .error e := by
  induction l with
  | nil => cases h
  | cons x l ih =>
      rw [List.mapM_cons] at h
      cases hx : f x with
      | error e' =>
          rw [hx] at h
          obtain rfl : e' = e := Except.error.inj h
          exact ⟨x, List.mem_cons_self, hx⟩
      | ok b =>
          cases hl : l.mapM f with
          | error e' =>
              rw [hx, hl] at h
              obtain rfl : e' = e := Except.error.inj h
              obtain ⟨y, hy, hfails⟩ := ih hl
              exact ⟨y, List.mem_cons_of_mem _ hy, hfails⟩
          | ok bs =>
              rw [hx, hl] at h
              cases h

theorem mapM_cons_eq_ok {x : α} {bs : List β} (h : (x :: l).mapM f = .ok bs) :
    ∃ b rest, f x = .ok b ∧ l.mapM f = .ok rest ∧ bs = b :: rest := by
  rw [List.mapM_cons] at h
  cases hx : f x with
  | error e => rw [hx] at h; cases h
  | ok b =>
      cases hl : l.mapM f with
      | error e => rw [hx, hl] at h; cases h
      | ok rest =>
          rw [hx, hl] at h
          exact ⟨b, rest, rfl, rfl, (Except.ok.inj h).symm⟩

/-- A function that keeps the results of the members keeps the result of the list. -/
theorem mapM_eq_ok_of_forall {bs : List β} (hfg : ∀ x ∈ l, ∀ b, f x = .ok b → g x = .ok b)
    (h : l.mapM f = .ok bs) : l.mapM g = .ok bs := by
  induction l generalizing bs with
  | nil => exact h
  | cons x l ih =>
      obtain ⟨b, rest, hx, hl, rfl⟩ := mapM_cons_eq_ok h
      rw [List.mapM_cons, hfg x List.mem_cons_self b hx,
        ih (fun y hy => hfg y (List.mem_cons_of_mem _ hy)) hl]
      rfl

end MapM

namespace Resolver

variable {r : Resolver} {stack : List String} {value text : List Char} {now next : Expansion}
  {failure : ExpansionFailure}

/-! ## The full expansion -/

/-- Whether segments become a text when every reference is replaced, and every one in the replacements.
-/
inductive SpellsOut (r : Resolver) : List Segment → List Char → Prop
  | nil : SpellsOut r [] []
  | text {cs more : List Char} {parts : List Segment} (hmore : SpellsOut r parts more) :
      SpellsOut r (.text cs :: parts) (cs ++ more)
  | replaced {call source inner more : List Char} {parts : List Segment}
      (hsource : r.replacement? call = some source) (hinner : SpellsOut r (segments source) inner)
      (hmore : SpellsOut r parts more) : SpellsOut r (.reference call :: parts) (inner ++ more)
  | dropped {call more : List Char} {parts : List Segment} (hnone : r.replacement? call = none)
      (hmore : SpellsOut r parts more) : SpellsOut r (.reference call :: parts) more

/-- Segments have one full expansion at most. -/
theorem SpellsOut.unique {parts : List Segment} {one other : List Char} (hone : r.SpellsOut parts one)
    (hother : r.SpellsOut parts other) : one = other := by
  induction hone generalizing other with
  | nil => cases hother; rfl
  | text hmore ih =>
      cases hother with
      | text hmore' => rw [ih hmore']
  | replaced hsource hinner hmore ihinner ihmore =>
      cases hother with
      | replaced hsource' hinner' hmore' =>
          obtain rfl := Option.some.inj (hsource.symm.trans hsource')
          rw [ihinner hinner', ihmore hmore']
      | dropped hnone' hmore' => exact absurd (hsource.symm.trans hnone') nofun
  | dropped hnone hmore ih =>
      cases hother with
      | replaced hsource' hinner' hmore' => exact absurd (hnone.symm.trans hsource') nofun
      | dropped hnone' hmore' => exact ih hmore'

/-! ## References -/

/-- A reference runs into a cycle if the name that it refers to is on the stack. -/
theorem target_of_refersTo {name : String} (h : RefersTo text name) (hstack : name ∈ stack) :
    r.target stack text = .cycle := by
  obtain ⟨call, hcall, rfl⟩ := h
  rw [target, hcall]
  exact if_pos hstack

theorem expandReference_of_cycle (h : r.target stack text = .cycle) :
    r.expandReference stack text = .error .cycle := by
  rw [expandReference_eq, h]
  rfl

theorem expandReference_of_expansion (h : r.target stack text = .expansion next) :
    r.expandReference stack text = r.expand next.stack next.value := by
  rw [expandReference_eq, h]
  rfl

/-- What a reference stands for is nothing, or a failure, or what another expansion gives. -/
theorem expandReference_cases (r : Resolver) (stack : List String) (text : List Char) :
    (r.replacement? text = none ∧ r.expandReference stack text = .ok []) ∨
    (r.expandReference stack text = .error .cycle ∧ ∃ name ∈ stack, RefersTo text name) ∨
    ∃ next, r.target stack text = .expansion next ∧ r.replacement? text = some next.value ∧
      r.expandReference stack text = r.expand next.stack next.value := by
  rcases r.target_cases stack text with ⟨hnothing, hnone⟩ | ⟨hcycle, hname⟩ |
    ⟨name, v, -, -, hnext, hsource⟩ | ⟨call, fallback, -, -, hnext, hsource⟩
  · refine .inl ⟨hnone, ?_⟩
    rw [expandReference_eq, hnothing]
    rfl
  · exact .inr (.inl ⟨expandReference_of_cycle hcycle, hname⟩)
  · exact .inr (.inr ⟨_, hnext, hsource, expandReference_of_expansion hnext⟩)
  · exact .inr (.inr ⟨_, hnext, hsource, expandReference_of_expansion hnext⟩)

/-! ## Expansions that succeed -/

theorem expand_eq_ok {out : List Char} (h : r.expand stack value = .ok out) :
    stack.length ≤ r.maxDepth ∧
      ∃ pieces, (segments value).mapM (r.expandSegment stack) = .ok pieces ∧ out = pieces.flatten := by
  rw [expand_eq] at h
  split at h
  case isTrue => cases h
  case isFalse hdeep =>
    refine ⟨Nat.not_lt.mp hdeep, ?_⟩
    cases hpieces : (segments value).mapM (r.expandSegment stack) with
    | error failure => rw [hpieces] at h; cases h
    | ok pieces =>
        rw [hpieces] at h
        exact ⟨pieces, rfl, (Except.ok.inj h).symm⟩

/-- An expansion that succeeds gives the full expansion. -/
theorem spellsOut_of_expand (now : Expansion) {out : List Char}
    (h : r.expand now.stack now.value = .ok out) :
    r.SpellsOut (segments now.value) out := by
  induction now using (wellFounded_enters r).induction generalizing out with
  | _ now ih =>
      obtain ⟨hdepth, pieces, hpieces, rfl⟩ := expand_eq_ok h
      -- Along the segments that are left, all of which are segments of the value.
      have along : ∀ parts, (∀ part ∈ parts, part ∈ segments now.value) → ∀ pieces,
          parts.mapM (r.expandSegment now.stack) = .ok pieces → r.SpellsOut parts pieces.flatten := by
        intro parts
        induction parts with
        | nil =>
            intro _ pieces hpieces
            obtain rfl := Except.ok.inj hpieces
            exact .nil
        | cons part parts ihparts =>
            intro hparts pieces hpieces
            obtain ⟨piece, rest, hpiece, hrest, rfl⟩ := mapM_cons_eq_ok hpieces
            have hmore := ihparts (fun q hq => hparts q (List.mem_cons_of_mem _ hq)) rest hrest
            cases part with
            | text cs =>
                obtain rfl := Except.ok.inj hpiece
                exact .text hmore
            | reference text =>
                rcases r.expandReference_cases now.stack text with ⟨hnone, hnothing⟩ |
                  ⟨hcycle, -⟩ | ⟨next, htarget, hsource, hnext⟩
                · obtain rfl := Except.ok.inj (hnothing.symm.trans hpiece)
                  exact .dropped hnone hmore
                · exact absurd (hcycle.symm.trans hpiece) nofun
                · have henters : r.Enters now next := ⟨hdepth, text, hparts _ List.mem_cons_self, htarget⟩
                  exact .replaced hsource (ih next henters (hnext.symm.trans hpiece)) hmore
      exact along _ (fun _ => id) pieces hpieces

/-- What is found under one bound is found under every higher one. -/
theorem expand_mono {d : Nat} (hd : r.maxDepth ≤ d) (now : Expansion) {out : List Char}
    (h : r.expand now.stack now.value = .ok out) :
    { r with maxDepth := d }.expand now.stack now.value = .ok out := by
  induction now using (wellFounded_enters r).induction generalizing out with
  | _ now ih =>
      obtain ⟨hdepth, pieces, hpieces, rfl⟩ := expand_eq_ok h
      have hsame : ∀ part ∈ segments now.value, ∀ piece, r.expandSegment now.stack part = .ok piece →
          { r with maxDepth := d }.expandSegment now.stack part = .ok piece := by
        rintro (cs | text) hmem piece hpiece
        case text => exact hpiece
        case reference =>
          change r.expandReference now.stack text = .ok piece at hpiece
          change { r with maxDepth := d }.expandReference now.stack text = .ok piece
          -- The bound does not matter for what a reference comes to.
          have htarget : { r with maxDepth := d }.target now.stack text = r.target now.stack text := rfl
          rw [expandReference_eq] at hpiece
          rw [expandReference_eq, htarget]
          cases hnext : r.target now.stack text with
          | nothing => rwa [hnext] at hpiece
          | cycle => rwa [hnext] at hpiece
          | expansion next =>
              rw [hnext] at hpiece
              exact ih next ⟨hdepth, text, hmem, hnext⟩ hpiece
      rw [expand_eq, if_neg (Nat.not_lt.mpr (hdepth.trans hd)), mapM_eq_ok_of_forall hsame hpieces]
      rfl

/-! ## Expansions that fail -/

/-- The variables of all scopes, each name once. -/
def boundNames (r : Resolver) : List String := (r.scopes.flatMap Assoc.keys).dedup

/-- Whether the expansion of a value comes to a reference to a variable that is being expanded. -/
def ReachesCycle (r : Resolver) (value : List Char) : Prop :=
  ∃ now text name, Relation.ReflTransGen r.LeadsTo ⟨[], value⟩ now ∧
    .reference text ∈ segments now.value ∧ RefersTo text name ∧ name ∈ now.stack

theorem mem_boundNames {name : String} {v : Variable} (h : r.lookup? name = some v) :
    name ∈ r.boundNames := by
  obtain ⟨s, hs, hv⟩ := List.exists_of_findSome?_eq_some h
  exact List.mem_dedup.mpr
    (List.mem_flatMap.mpr ⟨s, hs, List.mem_map.mpr ⟨_, Assoc.get?_eq_some_iff.mp hv, rfl⟩⟩)

/-- On the stack there are never more variables than are bound. -/
theorem length_le_boundNames (h : Relation.ReflTransGen r.LeadsTo ⟨[], value⟩ now) :
    now.stack.length ≤ r.boundNames.length := by
  have hstack : now.stack.Nodup ∧ now.stack ⊆ r.boundNames := by
    induction h with
    | refl => exact ⟨List.nodup_nil, List.nil_subset _⟩
    | tail _ hleads ih =>
        refine ⟨hleads.nodup ih.1, ?_⟩
        rcases hleads.cases with ⟨name, v, hlookup, -, rfl⟩ | ⟨text, call, fallback, -, -, -, rfl⟩
        · exact List.cons_subset.mpr ⟨mem_boundNames hlookup, ih.2⟩
        · exact ih.2
  exact (List.subperm_of_subset hstack.1 hstack.2).length_le

/-- An expansion fails where it is too deep or meets a name on its stack, or in an expansion that it
enters. -/
theorem expand_eq_error (h : r.expand now.stack now.value = .error failure) :
    (r.maxDepth < now.stack.length ∧ failure = .tooDeep) ∨
    (failure = .cycle ∧ ∃ text name, .reference text ∈ segments now.value ∧ RefersTo text name ∧
      name ∈ now.stack) ∨
    ∃ next, r.Enters now next ∧ r.expand next.stack next.value = .error failure := by
  rw [expand_eq] at h
  split at h
  case isTrue hdeep => exact .inl ⟨hdeep, (Except.error.inj h).symm⟩
  case isFalse hdeep =>
    have hfails : (segments now.value).mapM (r.expandSegment now.stack) = .error failure := by
      cases hpieces : (segments now.value).mapM (r.expandSegment now.stack) with
      | error failure' =>
          rw [hpieces] at h
          exact congrArg Except.error (Except.error.inj h)
      | ok pieces => rw [hpieces] at h; cases h
    obtain ⟨part, hmem, hpart⟩ := exists_eq_error_of_mapM hfails
    cases part with
    | text cs => cases hpart
    | reference text =>
        rcases r.expandReference_cases now.stack text with ⟨-, hnothing⟩ |
          ⟨hcycle, name, hstack, hname⟩ | ⟨next, htarget, -, hnext⟩
        · exact absurd (hnothing.symm.trans hpart) nofun
        · exact .inr (.inl ⟨Except.error.inj (hpart.symm.trans hcycle), text, name, hmem, hname, hstack⟩)
        · exact .inr (.inr ⟨next, ⟨Nat.not_lt.mp hdeep, text, hmem, htarget⟩, hnext.symm.trans hpart⟩)

/-- A failure comes from an expansion that is reached. -/
theorem exists_reached_of_expand_eq_error (now : Expansion)
    (h : r.expand now.stack now.value = .error failure) :
    ∃ last, Relation.ReflTransGen r.LeadsTo now last ∧
      ((r.maxDepth < last.stack.length ∧ failure = .tooDeep) ∨
      (failure = .cycle ∧ ∃ text name, .reference text ∈ segments last.value ∧ RefersTo text name ∧
        name ∈ last.stack)) := by
  induction now using (wellFounded_enters r).induction with
  | _ now ih =>
      rcases expand_eq_error h with hdeep | hcycle | ⟨next, henters, hnext⟩
      · exact ⟨now, .refl, .inl hdeep⟩
      · exact ⟨now, .refl, .inr hcycle⟩
      · obtain ⟨last, hreach, hlast⟩ := ih next henters hnext
        exact ⟨last, hreach.head henters.2, hlast⟩

/-- A cycle that is reached is a failure, whatever the bound. -/
theorem exists_expand_eq_error_of_reachesCycle (h : r.ReachesCycle value) :
    ∃ failure, r.expand [] value = .error failure := by
  obtain ⟨last, text, name, hreach, hmem, hname, hstack⟩ := h
  have hfails : ∃ failure, r.expand last.stack last.value = .error failure :=
    exists_expand_eq_error r hmem (expandReference_of_cycle (target_of_refersTo hname hstack))
  refine hreach.head_induction_on (motive := fun now _ =>
    ∃ failure, r.expand now.stack now.value = .error failure) hfails ?_
  rintro now next ⟨text, hmem, htarget⟩ - ⟨failure, hnext⟩
  exact exists_expand_eq_error r hmem ((expandReference_of_expansion htarget).trans hnext)

/-- With a bound of at least the number of variables, an expansion that fails has reached a cycle. -/
theorem reachesCycle_of_expand_eq_error (hbound : r.boundNames.length ≤ r.maxDepth)
    (h : r.expand [] value = .error failure) : failure = .cycle ∧ r.ReachesCycle value := by
  obtain ⟨last, hreach, ⟨hdeep, -⟩ | ⟨rfl, text, name, hmem, hname, hstack⟩⟩ :=
    exists_reached_of_expand_eq_error ⟨[], value⟩ h
  · have hlength := length_le_boundNames hreach
    omega
  · exact ⟨rfl, last, text, name, hreach, hmem, hname, hstack⟩

/-! ## Substitution -/

/-- A text that is found under one bound is found under every higher one.  With a bound of at least
the number of variables, the expansion of a value is never too deep, and fails if and only if it reaches
a cycle.  Without a cycle there is just one full expansion, and it is found; substitution returns it if
and only if `var(` stands in the value in lower case or the value is its own expansion. -/
theorem expand_fails_only_on_cycles (r : Resolver) (value : String) :
    (∀ stack d text, r.maxDepth ≤ d → r.expand stack value.toList = .ok text →
      { r with maxDepth := d }.expand stack value.toList = .ok text) ∧
    (r.boundNames.length ≤ r.maxDepth →
      r.expand [] value.toList ≠ .error .tooDeep ∧
      (r.expand [] value.toList = .error .cycle ↔ r.ReachesCycle value.toList) ∧
      (¬ r.ReachesCycle value.toList → ∃ text,
        (∀ other, r.SpellsOut (segments value.toList) other ↔ other = text) ∧
        r.expand [] value.toList = .ok text ∧
        (r.substitute value = String.ofList text ↔
          mentionsVar value.toList = true ∨ String.ofList text = value))) := by
  refine ⟨fun stack d text hd h => expand_mono hd ⟨stack, value.toList⟩ h, fun hbound => ?_⟩
  refine ⟨fun h => ?notDeep, ⟨fun h => (reachesCycle_of_expand_eq_error hbound h).2, ?cycle⟩, ?full⟩
  case notDeep => exact absurd (reachesCycle_of_expand_eq_error hbound h).1 nofun
  case cycle =>
    intro hcycle
    obtain ⟨failure, hfails⟩ := exists_expand_eq_error_of_reachesCycle hcycle
    obtain rfl := (reachesCycle_of_expand_eq_error hbound hfails).1
    exact hfails
  case full =>
    intro hnocycle
    cases hexpand : r.expand [] value.toList with
    | error failure => exact absurd (reachesCycle_of_expand_eq_error hbound hexpand).2 hnocycle
    | ok text =>
        have hspells := spellsOut_of_expand ⟨[], value.toList⟩ hexpand
        refine ⟨text, fun other => ⟨fun h => h.unique hspells, fun h => h ▸ hspells⟩, rfl, ?_⟩
        cases hmentions : mentionsVar value.toList with
        | true => simp [substitute_of_mentionsVar r hmentions, hexpand, outcome]
        | false => simp [substitute_of_not_mentionsVar r hmentions, eq_comm]

/-! ## Two variables -/

/-- Two variables, the value of one being a reference to the other, and a bound of two. -/
def pair (value : String) : Resolver where
  scopes := [(Assoc.empty.insert "--a" ⟨"--a", "var(--b)", .zero, 0⟩).insert "--b"
    ⟨"--b", value, .zero, 0⟩]
  maxDepth := 2

theorem expand_pair {call : List Char} (hstart : Segment.startsReference call = true)
    (hcall : Segment.splitCall? call = some (call, [])) (hname : RefersTo call "--a") :
    (pair "red").expand [] call = .ok "red".toList := by
  have hinner : RefersTo "var(--b)".toList "--b" :=
    ⟨⟨"var", [⟨"--b", false⟩]⟩, by decide, by decide⟩
  rw [expand_call _ hstart hcall (Nat.zero_le _),
    expandReference_of_lookup? _ hname List.not_mem_nil rfl,
    expand_call _ (by decide) (by decide) (by decide),
    expandReference_of_lookup? _ hinner (by decide) rfl,
    expand_of_find?_eq_none _ (by decide) (by decide)]

theorem not_reachesCycle_of_expand_eq_ok (h : r.expand [] value = .ok text) : ¬ r.ReachesCycle value := by
  intro hcycle
  obtain ⟨failure, hfails⟩ := exists_expand_eq_error_of_reachesCycle hcycle
  exact absurd (h.symm.trans hfails) nofun

/-- A bound of two is enough for two variables, if they do not refer to each other. -/
theorem two_variables_suffice :
    ((pair "red").boundNames.length ≤ (pair "red").maxDepth ∧
      ¬ (pair "red").ReachesCycle "var(--a)".toList ∧
      (pair "red").SpellsOut (segments "var(--a)".toList) "red".toList ∧
      (pair "red").substitute "var(--a)" = "red" ∧
      { pair "red" with maxDepth := 9 }.expand [] "var(--a)".toList = .ok "red".toList) ∧
    (pair "var(--a)").boundNames.length ≤ (pair "var(--a)").maxDepth ∧
      (pair "var(--a)").expand [] "var(--a)".toList ≠ .error .tooDeep := by
  have hexpand : (pair "red").expand [] "var(--a)".toList = .ok "red".toList :=
    expand_pair (by decide) (by decide) ⟨⟨"var", [⟨"--a", false⟩]⟩, by decide, by decide⟩
  have hbound : (pair "red").boundNames.length ≤ (pair "red").maxDepth := by decide
  have hcircle : (pair "var(--a)").boundNames.length ≤ (pair "var(--a)").maxDepth := by decide
  have hnocycle := not_reachesCycle_of_expand_eq_ok hexpand
  obtain ⟨hmono, hfails⟩ := expand_fails_only_on_cycles (pair "red") "var(--a)"
  obtain ⟨text, hspells, htext, hsubstitute⟩ := (hfails hbound).2.2 hnocycle
  obtain rfl := Except.ok.inj (hexpand.symm.trans htext)
  exact ⟨⟨hbound, hnocycle, (hspells _).mpr rfl, hsubstitute.mpr (.inl (by decide)),
    hmono [] 9 _ (by decide) hexpand⟩, hcircle,
    ((expand_fails_only_on_cycles (pair "var(--a)") "var(--a)").2 hcircle).1⟩

/-- A reference that is written with a capital letter is kept, though its full expansion is found. -/
theorem capital_is_kept_without_cycle :
    (pair "red").boundNames.length ≤ (pair "red").maxDepth ∧
      ¬ (pair "red").ReachesCycle "Var(--a)".toList ∧
      (pair "red").SpellsOut (segments "Var(--a)".toList) "red".toList ∧
      (pair "red").substitute "Var(--a)" = "Var(--a)" := by
  have hname : RefersTo "Var(--a)".toList "--a" := ⟨⟨"var", [⟨"--a", false⟩]⟩, by decide, by decide⟩
  have hexpand : (pair "red").expand [] "Var(--a)".toList = .ok "red".toList :=
    expand_pair (by decide) (by decide) hname
  exact ⟨by decide, not_reachesCycle_of_expand_eq_ok hexpand,
    spellsOut_of_expand ⟨[], "Var(--a)".toList⟩ hexpand,
    substitute_of_not_mentionsVar _ (by decide)⟩

end Resolver

end WidgetStyle
