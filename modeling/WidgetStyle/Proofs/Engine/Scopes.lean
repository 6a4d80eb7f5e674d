import WidgetStyle.Proofs.Cascade.Enumeration
import WidgetStyle.Proofs.Cascade.Inline
import WidgetStyle.Proofs.Engine.Inheritance
import WidgetStyle.Proofs.Variable.Reference

/-!
# WidgetStyle.Proofs.Engine.Scopes — variables along the way to the root

Two rules decide which variable of a name is visible at a node.  Among the rules and the inline style
of one node the highest declaration counts.  Between nodes the nearest one counts: the variables of a
node are laid over those that it inherits, and nothing is compared.  So a weak declaration on a node
hides a strong one further up.

`scope_plainStyle_eq_findSome?` puts the two together: walking upwards, the first node that declares
the name at all gives its highest declaration.  References at a node are looked up there, and among
the global variables only when no node on the way declares the name
(`visible_is_highest_of_nearest`).
-/

namespace WidgetStyle

/-! ## What a node declares -/

/-- A variable as it competes for its name: with the specificity and the place of the rule or the
inline style that declares it. -/
structure DeclaredVariable where
  var : Variable
  specificity : Specificity
  order : Nat

namespace DeclaredVariable

/-- Declared variables compare by the specificity and the place of what declares them. -/
abbrev byPlace : DeclaredVariable → DeclaredVariable → Ordering :=
  compareLex (compareOn DeclaredVariable.specificity) (compareOn DeclaredVariable.order)

/-- A variable that carries the specificity and the place of what declares it. -/
def ofVariable (v : Variable) : DeclaredVariable := ⟨v, v.specificity, v.order⟩

end DeclaredVariable

namespace Cascaded

/-- The variables that rules and an inline style declare. -/
def declaredVariables (rules : List StyleRule) (inline? : Option InlineStyle) :
    List DeclaredVariable :=
  (rules.flatMap fun rule => rule.block.vars.map fun v => ⟨v, rule.specificity, rule.order⟩) ++
    inline?.elim [] fun style => style.block.vars.map fun v => ⟨v, .inline, counterLimit⟩

variable {rules : List StyleRule} {inline? : Option InlineStyle}

/-- What variables carry is what declares them. -/
theorem declaredVariables_eq (hrules : ∀ rule ∈ rules, rule.IsStamped ∧ rule.IsPlaced)
    (hinline : ∀ style ∈ inline?, style.Built) :
    declaredVariables rules inline? = (vars rules inline?).map .ofVariable := by
  rw [declaredVariables, vars, List.map_append, List.map_flatMap]
  congr 1
  · refine List.flatMap_congr fun rule hrule => List.map_congr_left fun v hv => ?_
    obtain ⟨hstamped, hplaced⟩ := hrules rule hrule
    rw [DeclaredVariable.ofVariable, hstamped.vars v hv, hplaced v hv]
  · cases inline? with
    | none => rfl
    | some style =>
        refine List.map_congr_left fun v hv => ?_
        obtain ⟨hspecificity, horder⟩ := (hinline style rfl).vars_stamped v hv
        rw [DeclaredVariable.ofVariable, hspecificity, horder]

/-- Among rules and an inline style the highest declaration of a name counts. -/
theorem scope_eq_lastHighest? (hrules : ∀ rule ∈ rules, rule.IsStamped ∧ rule.IsPlaced)
    (hinline : ∀ style ∈ inline?, style.Built) (name : String) :
    (cascade rules inline?).scope.get? name =
      (lastHighest? DeclaredVariable.byPlace
        ((declaredVariables rules inline?).filter fun d => d.var.name = name)).map
          DeclaredVariable.var := by
  rw [(cascade_eq rules inline?).2, get?_foldl_raise, declaredVariables_eq hrules hinline,
    List.filter_map, lastHighest?_map, Option.map_map]
  exact Option.map_id'.symm

end Cascaded

namespace Engine

variable {e : Engine} {t : Tree} {n : NodeId} {name : String}

/-- The declarations of a name at a node, by the rules that select it and by its inline style. -/
def declared (e : Engine) (t : Tree) (n : NodeId) (name : String) : List DeclaredVariable :=
  (Cascaded.declaredVariables (e.rulesFor t .strict n) (e.inline? n)).filter fun d =>
    d.var.name = name

/-- What the engine holds has been built: its sheet and all inline styles. -/
structure HoldsBuilt (e : Engine) : Prop where
  sheet : e.sheet.Built
  inline : ∀ n, ∀ style ∈ e.inline? n, style.Built

theorem HoldsBuilt.setInline (k : e.HoldsBuilt) (n : NodeId) {style : InlineStyle}
    (hstyle : style.Built) : (e.setInline n style).HoldsBuilt where
  sheet := k.sheet
  inline m held hheld := by
    by_cases hm : m = n
    · rw [inline?, Engine.setInline, hm, Assoc.get?_insert_self] at hheld
      exact Option.some.inj hheld ▸ hstyle
    · rw [inline?, Engine.setInline, Assoc.get?_insert_of_ne _ _ hm] at hheld
      exact k.inline m held hheld

/-- The highest declaration of a name at a node. -/
def highest? (e : Engine) (t : Tree) (name : String) (n : NodeId) : Option Variable :=
  (lastHighest? DeclaredVariable.byPlace (e.declared t n name)).map DeclaredVariable.var

theorem HoldsBuilt.scope_cascaded (k : e.HoldsBuilt) (t : Tree) (n : NodeId) (name : String) :
    (e.cascaded t n).scope.get? name = e.highest? t name n := by
  refine Cascaded.scope_eq_lastHighest? (fun rule hrule => ?_) (k.inline n) name
  have hmem := e.sheet.mem_of_mem_rulesFor hrule
  exact ⟨k.sheet.isStamped hmem, k.sheet.isPlaced hmem⟩

/-! ## Nearest scopes -/

/-- At a node its own variables are visible, and those of its parent that it does not hide. -/
theorem scope_plainStyle (e : Engine) (h : t.IsForest) (n : NodeId) (name : String) :
    (e.plainStyle t n).scope.get? name =
      ((e.cascaded t n).scope.get? name).or
        ((t.parent? n).bind fun p => (e.plainStyle t p).scope.get? name) := by
  rw [e.plainStyle_eq h]
  refine (Scope.get?_overlay _ (Cascaded.scope_keyedBy _ _) name).trans ?_
  cases t.parent? n <;> rfl

/-- Walking upwards, the first node that declares the name gives its highest declaration. -/
theorem scope_plainStyle_eq_findSome? (k : e.HoldsBuilt) (h : t.IsForest) (n : NodeId)
    (name : String) :
    (e.plainStyle t n).scope.get? name = (t.lineage n).findSome? (e.highest? t name) := by
  induction n using h.induction with
  | root n hp =>
      rw [e.scope_plainStyle h, hp, Option.bind_none, Option.or_none, k.scope_cascaded,
        Tree.lineage_of_root hp]
      cases hown : e.highest? t name n <;> simp [hown]
  | child n p hp ih =>
      rw [e.scope_plainStyle h, hp, Option.bind_some, ih, k.scope_cascaded, h.lineage_of_parent hp,
        List.findSome?_cons]
      cases e.highest? t name n <;> rfl

/-- A variable is the highest declaration of a name at the nearest node that declares the name: on the
way up from `n` to that node nobody does. -/
def Sees (e : Engine) (t : Tree) (n : NodeId) (name : String) (v : Variable) : Prop :=
  ∃ below nearest above, t.lineage n = below ++ nearest :: above ∧
    (∀ k ∈ below, e.declared t k name = []) ∧
    ∃ d, IsLastHighest DeclaredVariable.byPlace (e.declared t nearest name) d ∧ d.var = v

theorem highest?_eq_none_iff : e.highest? t name n = none ↔ e.declared t n name = [] := by
  rw [highest?, Option.map_eq_none_iff, lastHighest?_eq_none_iff]

theorem highest?_eq_some_iff {v : Variable} :
    e.highest? t name n = some v ↔
      ∃ d, IsLastHighest DeclaredVariable.byPlace (e.declared t n name) d ∧ d.var = v := by
  simp only [highest?, Option.map_eq_some_iff, lastHighest?_eq_some_iff]

theorem scope_plainStyle_eq_some_iff (k : e.HoldsBuilt) (h : t.IsForest) {v : Variable} :
    (e.plainStyle t n).scope.get? name = some v ↔ e.Sees t n name v := by
  rw [scope_plainStyle_eq_findSome? k h, List.findSome?_eq_some_iff]
  constructor
  · rintro ⟨below, nearest, above, hlineage, hv, hbelow⟩
    exact ⟨below, nearest, above, hlineage, fun m hm => highest?_eq_none_iff.mp (hbelow m hm),
      highest?_eq_some_iff.mp hv⟩
  · rintro ⟨below, nearest, above, hlineage, hbelow, hv⟩
    exact ⟨below, nearest, above, hlineage, highest?_eq_some_iff.mpr hv,
      fun m hm => highest?_eq_none_iff.mpr (hbelow m hm)⟩

theorem scope_plainStyle_eq_none_iff (k : e.HoldsBuilt) (h : t.IsForest) :
    (e.plainStyle t n).scope.get? name = none ↔ ∀ m ∈ t.lineage n, e.declared t m name = [] := by
  rw [scope_plainStyle_eq_findSome? k h, List.findSome?_eq_none_iff]
  exact forall₂_congr fun m _ => highest?_eq_none_iff

/-- References at a node ask the visible variables first, and the global ones second. -/
theorem lookup?_resolver (e : Engine) (t : Tree) (n : NodeId) (name : String) :
    (e.resolver t n).lookup? name =
      ((e.plainStyle t n).scope.get? name).or (e.globals.get? name) := by
  rw [Resolver.lookup?, resolver, List.findSome?_cons, List.findSome?_cons, List.findSome?_nil]
  cases (e.plainStyle t n).scope.get? name with
  | some v => rfl
  | none => cases e.globals.get? name <;> rfl

/-- **Variables come from the nearest scope.**  The variable of a name that is visible at a node is the
highest declaration at the nearest node that declares the name, and none is visible exactly if no node
of the lineage declares it.  A reference to the name at the node stands for the visible variable; it
stands for the global one when none is visible.  For a name that is a word, `var(name)` is such a
reference, and as the whole of a value it leaves what it stands for. -/
theorem visible_is_highest_of_nearest (k : e.HoldsBuilt) (h : t.IsForest) (n : NodeId)
    (name : String) :
    (∀ v, (e.plainStyle t n).scope.get? name = some v ↔ e.Sees t n name v) ∧
      ((e.plainStyle t n).scope.get? name = none ↔
        ∀ m ∈ t.lineage n, e.declared t m name = []) ∧
      (∀ text stack, RefersTo text name → name ∉ stack →
        (∀ v, e.Sees t n name v → (e.resolver t n).expandReference stack text =
          (e.resolver t n).expand (name :: stack) v.value.toList) ∧
        ((∀ m ∈ t.lineage n, e.declared t m name = []) → ∀ v ∈ e.globals.get? name,
          (e.resolver t n).expandReference stack text =
            (e.resolver t n).expand (name :: stack) v.value.toList)) ∧
      (IsWord name → RefersTo (reference name).toList name ∧
        (e.resolver t n).substitute (reference name) =
          Resolver.outcome ((e.resolver t n).expandReference [] (reference name).toList)) := by
  have hvisible : ∀ v, (e.plainStyle t n).scope.get? name = some v ↔ e.Sees t n name v :=
    fun v => scope_plainStyle_eq_some_iff k h
  have hnone : (e.plainStyle t n).scope.get? name = none ↔
      ∀ m ∈ t.lineage n, e.declared t m name = [] := scope_plainStyle_eq_none_iff k h
  refine ⟨hvisible, hnone, fun text stack href hstack => ⟨fun v hv => ?_, fun hdeclared v hv => ?_⟩,
    fun hword => ⟨refersTo_reference hword, Resolver.substitute_reference _ hword⟩⟩
  · refine Resolver.expandReference_of_lookup? _ href hstack ?_
    rw [lookup?_resolver, (hvisible v).mpr hv, Option.some_or]
  · refine Resolver.expandReference_of_lookup? _ href hstack ?_
    rw [lookup?_resolver, hnone.mpr hdeclared, Option.none_or, hv]

/-- The statement at three nodes below one another.  The root declares a variable with an id and in its
inline style, the middle node with a tag only, and the lowest node asks; a global variable has the same
name, and another one is asked for that no node declares. -/
theorem visible_is_highest_of_nearest_chain :
    let sheet : Stylesheet := .parse .empty
      "#top \x7b --size: 1px \x7d label \x7b --size: 2px \x7d"
    let style : InlineStyle := .parse .empty "--size: 3px"
    let bare : Engine := { registry := .empty, sheet }
    let e := ((bare.setGlobal "--size" "4px").setGlobal "--gap" "5px").setInline 0 style
    let t := (((Tree.empty.addRoot "panel").setId 0 "top").addChild 0 "label").addChild 1 "icon"
    e.HoldsBuilt ∧ t.IsForest ∧ e.Sees t 0 "--size" ⟨"--size", "3px", .inline, counterLimit⟩ ∧
      e.Sees t 2 "--size" ⟨"--size", "2px", ⟨0, 0, 1⟩, 1⟩ ∧
      (e.resolver t 2).substitute (reference "--size") = "2px" ∧
      (∀ m ∈ t.lineage 2, e.declared t m "--gap" = []) ∧
      (e.resolver t 2).substitute (reference "--gap") = "5px" := by
  intro sheet style bare e t
  have hglobal : ((bare.setGlobal "--size" "4px").setGlobal "--gap" "5px").HoldsBuilt :=
    ⟨.parse .empty _, nofun⟩
  have k : e.HoldsBuilt := hglobal.setInline 0 (.parse .empty _)
  have h : t.IsForest := by
    have hroot := (Tree.isForest_empty.addRoot "panel").modify 0
      (f := fun x => { x with id? := some "top" }) (fun _ => rfl) fun _ => rfl
    refine Tree.IsForest.addChild (hroot.addChild ?_ ?_ _) ?_ ?_ _
    all_goals decide +kernel
  have expands : ∀ (name : String) (value : List Char), Segment.find? value = none →
      (e.resolver t 2).expand [name] value = .ok value := fun name value hvalue =>
    Resolver.expand_of_find?_eq_none _ hvalue (Nat.le_add_left 1 15)
  obtain ⟨hroot, -⟩ := visible_is_highest_of_nearest k h 0 "--size"
  obtain ⟨hsize, -, hsizeRef, hsizeWord⟩ := visible_is_highest_of_nearest k h 2 "--size"
  obtain ⟨-, hgap, hgapRef, hgapWord⟩ := visible_is_highest_of_nearest k h 2 "--gap"
  obtain ⟨hsizeRefers, hsizeText⟩ := hsizeWord (by decide +kernel)
  obtain ⟨hgapRefers, hgapText⟩ := hgapWord (by decide +kernel)
  have hsees := (hsize ⟨"--size", "2px", ⟨0, 0, 1⟩, 1⟩).mp (by decide +kernel)
  have hundeclared := hgap.mp (by decide +kernel)
  refine ⟨k, h, (hroot _).mp (by decide +kernel), hsees, ?_, hundeclared, ?_⟩
  · rw [hsizeText, (hsizeRef _ [] hsizeRefers List.not_mem_nil).1 _ hsees,
      expands _ _ (by decide +kernel)]
    decide +kernel
  · rw [hgapText, (hgapRef _ [] hgapRefers List.not_mem_nil).2 hundeclared ⟨"--gap", "5px", .zero, 0⟩
      (by decide +kernel), expands _ _ (by decide +kernel)]
    decide +kernel

end Engine

end WidgetStyle
