import WidgetStyle.Proofs.Cascade.Values
import WidgetStyle.Proofs.Engine.Session
import WidgetStyle.Proofs.Variable.Reference

/-!
# WidgetStyle.Proofs.Engine.Inheritance — values along the way to the root

Computing looks one step upwards only: a node that leaves a property to its parent takes the value
that the parent has.  Over a whole tree this is a walk (`Engine.Finds`).  It starts at the node and
goes up from each node that leaves the property to its parent; the first node that does not do so
gives the value, and a walk that leaves the tree at its root gives the default.  What a node on the
way says is read with its own variables, not with those of the node that asks.

`value?_plainStyle_iff_finds` says that plain styles hold what the walk finds, for each registered
property and for nothing else.  It is the induction along the tree of one step
(`value?_plainStyle`).
-/

namespace WidgetStyle

open Text

namespace Engine

variable {e : Engine} {t : Tree} {p : Property} {n : NodeId}

/-! ## What a node says -/

/-- What references at a node are looked up in: the variables that are visible there, then the global
ones. -/
def resolver (e : Engine) (t : Tree) (n : NodeId) : Resolver :=
  ⟨[(e.plainStyle t n).scope, e.globals], e.config.maxDepth⟩

/-- What the winner of a node for a property comes to, references replaced. -/
def text? (e : Engine) (t : Tree) (n : NodeId) (p : Property) : Option String :=
  (e.cascaded t n).text? (e.resolver t n) p.id

/-- The walk from a node upwards to the value of a property. -/
inductive Finds (e : Engine) (t : Tree) (p : Property) : NodeId → String → Prop
  /-- A text that is no keyword is the value. -/
  | text {n : NodeId} {text : String} (h : Property.Gives (e.text? t n p) text) :
      Finds e t p n (trimmed text)
  /-- The property goes back to its default. -/
  | default {n : NodeId} (h : p.Resets (e.text? t n p)) : Finds e t p n p.default
  /-- The property is left to the parent. -/
  | parent {n above : NodeId} {value : String} (h : p.Defers (e.text? t n p))
      (hp : t.parent? n = some above) (found : Finds e t p above value) : Finds e t p n value
  /-- The property is left to a parent that is not there. -/
  | root {n : NodeId} (h : p.Defers (e.text? t n p)) (hp : t.parent? n = none) :
      Finds e t p n p.default

/-- Every walk finds something. -/
theorem exists_finds (e : Engine) {t : Tree} (h : t.IsForest) (p : Property) (n : NodeId) :
    ∃ value, e.Finds t p n value := by
  induction n using h.induction with
  | root n hp =>
      rcases p.defers_or_resets_or_gives (e.text? t n p) with hdefers | hresets | ⟨text, hgives⟩
      · exact ⟨_, .root hdefers hp⟩
      · exact ⟨_, .default hresets⟩
      · exact ⟨_, .text hgives⟩
  | child n above hp ih =>
      rcases p.defers_or_resets_or_gives (e.text? t n p) with hdefers | hresets | ⟨text, hgives⟩
      · obtain ⟨value, hvalue⟩ := ih
        exact ⟨value, .parent hdefers hp hvalue⟩
      · exact ⟨_, .default hresets⟩
      · exact ⟨_, .text hgives⟩

/-! ## One step -/

/-- The context of a node in a tree. -/
def contextAt (e : Engine) (t : Tree) (n : NodeId) : StyleContext :=
  e.context ((t.parent? n).map (e.plainStyle t))

theorem value?_plainStyle (h : t.IsForest) (hids : e.registry.ids.Nodup)
    (hp : p ∈ e.registry.properties) (n : NodeId) :
    (e.plainStyle t n).value? p.id =
      some ((e.contextAt t n).valueOf (e.cascaded t n) (e.resolver t n) p) := by
  have hstyle : e.plainStyle t n = (e.contextAt t n).compute (e.cascaded t n) := e.plainStyle_eq h n
  rw [resolver, hstyle]
  exact StyleContext.value?_compute (x := e.contextAt t n) hids _ hp

theorem inheritedValue_of_root (hp : t.parent? n = none) (p : Property) :
    (e.contextAt t n).inheritedValue p = p.default := by
  rw [contextAt, hp]
  rfl

theorem inheritedValue_of_parent {above : NodeId} {value : String} (hp : t.parent? n = some above)
    (hvalue : (e.plainStyle t above).value? p.id = some value) :
    (e.contextAt t n).inheritedValue p = value := by
  rw [contextAt, hp, StyleContext.inheritedValue, context, Option.map_some, Option.bind_some, hvalue]
  rfl

/-! ## The walk -/

/-- A plain style holds what the walk finds. -/
theorem Finds.value? (h : t.IsForest) (hids : e.registry.ids.Nodup) (hp : p ∈ e.registry.properties)
    {value : String} (found : e.Finds t p n value) : (e.plainStyle t n).value? p.id = some value := by
  induction found with
  | text hgives => rw [value?_plainStyle h hids hp, StyleContext.valueOf_of_gives hgives]
  | default hresets => rw [value?_plainStyle h hids hp, StyleContext.valueOf_of_resets hresets]
  | parent hdefers hparent _ ih =>
      rw [value?_plainStyle h hids hp, StyleContext.valueOf_of_defers hdefers,
        inheritedValue_of_parent hparent ih]
  | root hdefers hroot =>
      rw [value?_plainStyle h hids hp, StyleContext.valueOf_of_defers hdefers,
        inheritedValue_of_root hroot]

/-- **Inheritance along the tree.**  A plain style has one value for every registered property and no
others, and the value of a property is what the walk from the node upwards finds. -/
theorem value?_plainStyle_iff_finds (e : Engine) (hr : e.registry.Built) {t : Tree} (h : t.IsForest)
    (n : NodeId) :
    ((e.plainStyle t n).values.keys = e.registry.ids ∧ e.registry.ids.Nodup) ∧
      ∀ p ∈ e.registry.properties, ∀ value,
        (e.plainStyle t n).value? p.id = some value ↔ e.Finds t p n value := by
  have hids := hr.nodup_ids
  refine ⟨⟨?keys, hids⟩, fun p hp value => ⟨fun hvalue => ?_, fun found => found.value? h hids hp⟩⟩
  case keys =>
    rw [e.plainStyle_eq h]
    exact StyleContext.keys_compute (x := e.contextAt t n) hids _
  · obtain ⟨value', found⟩ := e.exists_finds h p n
    have hsame := (found.value? h hids hp).symm.trans hvalue
    exact Option.some.inj hsame ▸ found

/-- The statement at three nodes below one another.  The middle one asks for both values of the root
with a keyword, which for the color comes out of its own variable, and the lowest one says nothing. -/
theorem value?_plainStyle_iff_finds_chain :
    let r := (Registry.empty.register "color" "black" true).register "width" "auto" false
    let color : Property := { name := "color", default := "black", inherited := true }
    let width : Property := { name := "width", default := "auto", inherited := false }
    let sheet : Stylesheet := .parse r "panel \x7b --how: blue; color: red; width: 1px \x7d
      label \x7b --how: InHerit; color: var(--how); width: INHERIT \x7d"
    let e : Engine := { registry := r, sheet }
    let t := ((Tree.empty.addRoot "panel").addChild 0 "label").addChild 1 "icon"
    r.Built ∧ r.properties = [color, width] ∧ t.IsForest ∧
      e.text? t 1 color = some "InHerit" ∧ (e.plainStyle t 2).value? color.id = some "red" ∧
      e.Finds t width 1 "1px" ∧ e.Finds t width 2 "auto" := by
  intro r color width sheet e t
  have hr : r.Built :=
    (Registry.Built.empty.register "color" "black" true).register "width" "auto" false
  have hproperties : r.properties = [color, width] := by decide +kernel
  have hcolor : color ∈ r.properties := hproperties ▸ List.mem_cons_self
  have hwidth : width ∈ r.properties := hproperties ▸ List.mem_cons_of_mem _ List.mem_cons_self
  have h : t.IsForest := by
    refine Tree.IsForest.addChild (Tree.IsForest.addChild
      (Tree.isForest_empty.addRoot "panel") ?_ ?_ _) ?_ ?_ _
    all_goals decide +kernel
  have walk := fun n => (e.value?_plainStyle_iff_finds hr h n).2
  -- What is computed is computed in one piece, so that the sheet is read once.
  obtain ⟨hwinner, hlookup, hnone, hroot, hmiddle, hlowest⟩ :
      ((e.cascaded t 1).winner? color.id).map Declaration.value = some (reference "--how") ∧
        (e.resolver t 1).lookup? "--how" = some ⟨"--how", "InHerit", ⟨0, 0, 1⟩, 1⟩ ∧
        e.text? t 2 color = none ∧ (e.plainStyle t 0).value? color.id = some "red" ∧
        (e.plainStyle t 1).value? width.id = some "1px" ∧
        (e.plainStyle t 2).value? width.id = some "auto" := by decide +kernel
  have htext : e.text? t 1 color = some "InHerit" := by
    obtain ⟨d, hd, hvalue⟩ := Option.map_eq_some_iff.mp hwinner
    have hexpand : (e.resolver t 1).expand ["--how"] "InHerit".toList = .ok "InHerit".toList :=
      Resolver.expand_of_find?_eq_none _ (by decide +kernel) (Nat.le_add_left 1 15)
    have hword : IsWord "--how" := by decide +kernel
    rw [text?, Cascaded.text?, hd, Option.map_some, hvalue, Resolver.substitute_reference _ hword,
      Resolver.expandReference_of_lookup? _ (refersTo_reference hword) List.not_mem_nil hlookup,
      hexpand, Resolver.outcome, String.ofList_toList]
  refine ⟨hr, hproperties, h, htext, (walk 2 color hcolor "red").mpr ?_,
    (walk 1 width hwidth "1px").mp hmiddle, (walk 2 width hwidth "auto").mp hlowest⟩
  -- The lowest node and the middle one leave the color to their parents.
  have lowest : color.Defers (e.text? t 2 color) := Or.inr ⟨rfl, hnone ▸ Property.isUnset_none⟩
  have middle : color.Defers (e.text? t 1 color) := Or.inl ⟨"InHerit", htext, by decide +kernel⟩
  exact .parent lowest (by decide +kernel)
    (.parent middle (by decide +kernel) ((walk 0 color hcolor "red").mp hroot))

end Engine

end WidgetStyle
