import WidgetStyle.Proofs.Property.Registration

/-!
# WidgetStyle.Proofs.Property.Resolution — what names stand for

A registry answers three questions about a name: which property it finds (`property?`), which name it
stands for (`canonicalName`), and whether an alias can be made for it (`aliasTarget?`).  The answers
belong together (`ResolvesAt`): the property that is found has the name that is stood for, and an
alias can be made just in case a property is found.

Looking up compares the text of a name, the other two go by its hash alone.  So the answers come
apart at the names that share their hash with a property and are not its name (`Collides`), and
nowhere else (`Built.resolvesAt_iff`).
-/

namespace WidgetStyle

namespace Registry

/-- The hash of the name is taken by a property of another name. -/
def Collides (r : Registry) (name : String) : Prop :=
  ∃ p, r.byId? (.ofName name) = some p ∧ p.name ≠ name

/-- The name stands for the property that it finds, and for itself when it finds none; and an alias
can be made for it when it finds one. -/
structure ResolvesAt (r : Registry) (name : String) : Prop where
  canonicalName_eq : r.canonicalName name = ((r.property? name).map Property.name).getD name
  isSome_aliasTarget? : (r.aliasTarget? name).isSome = (r.property? name).isSome

variable {r : Registry} {name : String}

/-! ## What the answers are -/

theorem canonicalName_of_byId? {p : Property} (h : r.byId? (.ofName name) = some p) :
    r.canonicalName name = name := by
  rw [canonicalName, h]
  rfl

theorem canonicalName_of_byId?_eq_none (h : r.byId? (.ofName name) = none) :
    r.canonicalName name = ((r.byAlias? name).map Property.name).getD name := by
  rw [canonicalName, h]
  rfl

theorem property?_of_byId?_eq_none (h : r.byId? (.ofName name) = none) :
    r.property? name = r.byAlias? name := by
  rw [property?, h]

theorem property?_of_name {p : Property} (h : r.byId? (.ofName name) = some p)
    (hname : p.name = name) : r.property? name = some p := by
  rw [property?, h]
  exact if_pos hname

theorem property?_of_collision {p : Property} (h : r.byId? (.ofName name) = some p)
    (hname : p.name ≠ name) : r.property? name = r.byAlias? name := by
  rw [property?, h]
  exact if_neg hname

theorem aliasTarget?_of_byId? {p : Property} (h : r.byId? (.ofName name) = some p) :
    r.aliasTarget? name = some p := by
  rw [aliasTarget?, canonicalName_of_byId? h, h]

namespace Built

/-! ## Where they agree -/

/-- An identity finds the property that has it. -/
theorem byId?_eq_some_iff (h : r.Built) {id : PropertyId} {p : Property} :
    r.byId? id = some p ↔ p ∈ r.properties ∧ p.id = id := by
  constructor
  · intro hfind
    exact ⟨List.mem_of_find?_eq_some hfind, by simpa using List.find?_some hfind⟩
  · rintro ⟨hmem, rfl⟩
    cases hfind : r.byId? p.id with
    | none => exact absurd (List.mem_map_of_mem hmem) (byId?_eq_none_iff.mp hfind)
    | some q =>
        have hid : q.id = p.id := by simpa using List.find?_some hfind
        have hmem' : q ∈ r.properties := List.mem_of_find?_eq_some hfind
        rw [List.inj_on_of_nodup_map h.nodup_ids hmem' hmem hid]

/-- What an alias finds is found by its own name, too. -/
theorem byId?_of_byAlias? (h : r.Built) {q : Property} (hq : r.byAlias? name = some q) :
    r.byId? (.ofName q.name) = some q := by
  obtain ⟨id, -, hid⟩ := Option.bind_eq_some_iff.mp hq
  exact h.byId?_eq_some_iff.mpr ⟨(h.byId?_eq_some_iff.mp hid).1, rfl⟩

theorem aliasTarget?_eq_property? (h : r.Built) (hname : ¬r.Collides name) :
    r.aliasTarget? name = r.property? name := by
  cases hid : r.byId? (.ofName name) with
  | some p =>
      have hp : p.name = name := by
        by_contra hne
        exact hname ⟨p, hid, hne⟩
      rw [aliasTarget?_of_byId? hid, property?_of_name hid hp]
  | none =>
      rw [property?_of_byId?_eq_none hid, aliasTarget?, canonicalName_of_byId?_eq_none hid]
      cases halias : r.byAlias? name with
      | none => exact hid
      | some q => exact h.byId?_of_byAlias? halias

theorem resolvesAt (h : r.Built) (hname : ¬r.Collides name) : r.ResolvesAt name where
  canonicalName_eq := by
    cases hid : r.byId? (.ofName name) with
    | some p =>
        have hp : p.name = name := by
          by_contra hne
          exact hname ⟨p, hid, hne⟩
        rw [canonicalName_of_byId? hid, property?_of_name hid hp]
        exact hp.symm
    | none => rw [canonicalName_of_byId?_eq_none hid, property?_of_byId?_eq_none hid]
  isSome_aliasTarget? := by rw [h.aliasTarget?_eq_property? hname]

/-! ## Where they come apart -/

/-- An alias that shares its hash with a property is not the name of what it finds. -/
theorem name_ne_of_byAlias? (h : r.Built) {p q : Property}
    (hp : r.byId? (.ofName name) = some p) (hne : p.name ≠ name)
    (hq : r.byAlias? name = some q) : q.name ≠ name := by
  rintro rfl
  have hpq := hp.symm.trans (h.byId?_of_byAlias? hq)
  exact hne (congrArg Property.name (Option.some_inj.mp hpq))

/-- **Names are resolved in one way unless hashes collide.**  In every registry that can be built, and
for every name: the name it stands for and the aliases that can be made for it go by the property that
it finds, just in case its hash is not taken by a property of another name. -/
theorem resolvesAt_iff (h : r.Built) (name : String) : r.ResolvesAt name ↔ ¬r.Collides name := by
  refine ⟨?_, h.resolvesAt⟩
  rintro ⟨hcanonical, htarget⟩ ⟨p, hp, hne⟩
  rw [canonicalName_of_byId? hp, property?_of_collision hp hne] at hcanonical
  rw [aliasTarget?_of_byId? hp, property?_of_collision hp hne] at htarget
  cases hq : r.byAlias? name with
  | none =>
      -- nothing is found, but the alias is made for the property that has the hash
      rw [hq] at htarget
      exact Bool.false_ne_true htarget.symm
  | some q =>
      -- another property is found, but the name stands for itself
      rw [hq] at hcanonical
      exact h.name_ne_of_byAlias? hp hne hq hcanonical.symm

end Built

/-- A registry of `color`, and of `width` with the alias `colq0`, a name that has the hash of
`color`. -/
def withTwin : Registry :=
  ((empty.register "color" "black" true).register "width" "" false).addAlias "width" "colq0"

theorem built_withTwin : withTwin.Built :=
  ((Built.empty.register "color" "black" true).register "width" "" false).addAlias "width" "colq0"

/-- The statement at a name that shares its hash with no other one, and at the alias that does. -/
theorem Built.resolvesAt_iff_twin :
    withTwin.Built ∧ withTwin.ResolvesAt "width" ∧ ¬withTwin.ResolvesAt "colq0" := by
  refine ⟨built_withTwin, ?_, ?_⟩
  · refine (Built.resolvesAt_iff built_withTwin "width").mpr ?_
    rintro ⟨p, hp, hne⟩
    have hwidth : (withTwin.byId? (.ofName "width")).map Property.name = some "width" := by
      decide +kernel
    rw [hp] at hwidth
    exact hne (Option.some_inj.mp hwidth)
  · refine fun h => (Built.resolvesAt_iff built_withTwin "colq0").mp h ?_
    have hcolor : withTwin.byId? (.ofName "colq0") = some ⟨"color", "black", true, false, []⟩ := by
      decide +kernel
    exact ⟨_, hcolor, by decide⟩

/-- An alias for `colq0` is made although nothing is found under this name; and when `colq0` is an
alias of `width`, it finds `width` but stands for itself. -/
theorem twin_of_color_is_resolved_two_ways :
    ((empty.register "color" "black" true).property? "colq0" = none ∧
      ((empty.register "color" "black" true).aliasTarget? "colq0").isSome = true) ∧
    (withTwin.property? "colq0").map Property.name = some "width" ∧
      withTwin.canonicalName "colq0" = "colq0" := by
  refine ⟨⟨?_, ?_⟩, ?_, ?_⟩ <;> decide +kernel

end Registry

end WidgetStyle
