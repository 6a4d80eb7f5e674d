import WidgetStyle.Proofs.Cascade.Unknown
import WidgetStyle.Proofs.Sheet.Enumeration
import WidgetStyle.Proofs.Timing.Permutation
import WidgetStyle.Proofs.Variable.Lookup

/-!
# WidgetStyle.Proofs.Cascade.Enumeration — styles from maps in any order

A style is computed from a map of winners, from maps of variables and from the style of the parent.
Most of it is found by lookups.  Only the winners of transition and animation properties are met in
the order of the map, and they are handed on with their names.

What makes the order harmless is that no two winners have the same name.  Winners have different keys,
and blocks that are written through one registry give a name always the same key
(`Block.WrittenBy.id?_eq`, `Cascaded.IsKeyed.nodup_names`).
-/

namespace WidgetStyle

/-! ## Blocks of one registry -/

/-- The blocks that are written through one registry. -/
inductive Block.WrittenBy (r : Registry) : Block → Prop
  | empty : WrittenBy r {}
  | push {b : Block} (h : WrittenBy r b) (specificity : Specificity) (d : Source.Declaration) :
      WrittenBy r (b.push r specificity d)
  | merge {b other : Block} (h : WrittenBy r b) (k : WrittenBy r other) : WrittenBy r (b.merge other)
  | withSpecificity {b : Block} (h : WrittenBy r b) (specificity : Specificity) :
      WrittenBy r (b.withSpecificity specificity)
  | withOrder {b : Block} (h : WrittenBy r b) (order : Nat) : WrittenBy r (b.withOrder order)

/-- Declarations of such a block have the identity that the registry gives to their names. -/
theorem Block.WrittenBy.id?_eq {r : Registry} {b : Block} (h : b.WrittenBy r) :
    ∀ d ∈ b.declarations, d.id? = (r.property? d.name).map Property.id := by
  induction h with
  | empty => exact fun d hd => absurd hd List.not_mem_nil
  | push _ specificity d ih =>
      intro x hx
      rcases mem_declarations_push hx with hx | ⟨name, id?, value, he, rfl⟩
      · exact ih x hx
      · exact Registry.id?_of_mem_entries he
  | merge _ _ ih ih' =>
      intro x hx
      rcases mem_declarations_merge hx with hx | hx
      · exact ih x hx
      · exact ih' x hx
  | withSpecificity _ specificity ih =>
      intro x hx
      obtain ⟨d, hd, rfl⟩ := List.mem_map.mp hx
      exact ih d hd
  | withOrder _ order ih => exact ih

theorem StyleRule.writtenBy_ofDeclarations (r : Registry) (selector : Selector)
    (ds : List Source.Declaration) : (StyleRule.ofDeclarations r selector ds).block.WrittenBy r :=
  List.foldlRecOn (motive := fun rule : StyleRule => rule.block.WrittenBy r) ds _ .empty
    fun rule h d _ => by
      rw [block_push]
      exact h.push rule.specificity d

/-! ## Winners in any order -/

namespace Cascaded

/-- The same winners and variables, in any order. -/
structure Reorders (c c' : Cascaded) : Prop where
  winners : c.winners.Reorders c'.winners
  scope : c.scope.Reorders c'.scope

/-- Winners stand under their keys and variables under their names, and the identities of winners are
those that the registry gives to their names. -/
structure IsKeyed (r : Registry) (c : Cascaded) : Prop where
  winners : c.winners.KeyedBy Entrant.key
  scope : c.scope.KeyedBy Variable.name
  id?_eq : ∀ d ∈ c.declarations, d.id? = (r.property? d.name).map Property.id

variable {r : Registry} {rules : List StyleRule} {inline? : Option InlineStyle} {c c' : Cascaded}

theorem Reorders.declarations (h : c.Reorders c') : c.declarations.Perm c'.declarations :=
  h.winners.values.map Prod.fst

theorem IsKeyed.reorders (h : c.IsKeyed r) (hc : c.Reorders c') : c'.IsKeyed r where
  winners key e he := h.winners key e ((hc.winners.get?_eq key).trans he)
  scope name v hv := h.scope name v ((hc.scope.get?_eq name).trans hv)
  id?_eq d hd := h.id?_eq d (hc.declarations.mem_iff.mpr hd)

/-- The variables of a cascade stand under their names. -/
theorem scope_keyedBy (rules : List StyleRule) (inline? : Option InlineStyle) :
    (cascade rules inline?).scope.KeyedBy Variable.name := fun _ _ hv =>
  of_decide_eq_true (List.mem_filter.mp (scope_eq_some_iff.mp hv).mem).2

theorem isKeyed_cascade (hrules : ∀ rule ∈ rules, rule.block.WrittenBy r)
    (hinline : ∀ style ∈ inline?, style.block.WrittenBy r) : (cascade rules inline?).IsKeyed r where
  winners key e he :=
    of_decide_eq_true (List.mem_filter.mp (winners_eq_some_iff.mp he).mem).2
  scope := scope_keyedBy rules inline?
  id?_eq d hd := by
    obtain ⟨e, he, rfl⟩ := List.mem_map.mp hd
    obtain ⟨⟨key, winner⟩, hentry, rfl⟩ := List.mem_map.mp he
    have hwinner := winners_eq_some_iff.mp (Assoc.get?_eq_some_iff.mpr hentry)
    exact forall_mem_entries (P := fun e => e.1.id? = (r.property? e.1.name).map Property.id)
      (fun rule hrule => (hrules rule hrule).id?_eq)
      (fun style hstyle => (hinline style hstyle).id?_eq) winner (List.mem_filter.mp hwinner.mem).1

/-- No two winners have the same name. -/
theorem IsKeyed.nodup_names (h : c.IsKeyed r) : (c.declarations.map Declaration.name).Nodup := by
  have hkeys : c.declarations.Pairwise fun d e => d.key ≠ e.key :=
    List.pairwise_map.mpr h.winners.pairwise_values
  refine List.pairwise_map.mpr (hkeys.imp_of_mem fun {d e} hd he hne hname => hne ?_)
  rw [Declaration.key, Declaration.key, h.id?_eq d hd, h.id?_eq e he, hname]

end Cascaded

/-! ## Styles in any order -/

/-- The same values and variables in any order, and the same transitions and animations in the same
order. -/
structure ComputedStyle.Reorders (s t : ComputedStyle) : Prop where
  values : s.values.Reorders t.values
  scope : s.scope.Reorders t.scope
  transitions : s.transitions = t.transitions
  animations : s.animations = t.animations

/-- The same context, but for the order in which the maps of the parent and the global variables are
kept. -/
structure StyleContext.Reorders (x y : StyleContext) : Prop where
  registry : x.registry = y.registry
  parent? : Option.Rel ComputedStyle.Reorders x.parent? y.parent?
  globals : x.globals.Reorders y.globals
  maxDepth : x.maxDepth = y.maxDepth

namespace StyleContext

variable {x y : StyleContext} {c c' : Cascaded} {r : Registry}

theorem Reorders.inheritedVariables (h : x.Reorders y) :
    x.inheritedVariables.Reorders y.inheritedVariables := by
  rw [StyleContext.inheritedVariables, StyleContext.inheritedVariables]
  have hparent := h.parent?
  generalize x.parent? = parent?, y.parent? = parent?' at hparent ⊢
  cases hparent with
  | none => exact Assoc.Reorders.refl _
  | some hparent => exact hparent.scope

theorem Reorders.inheritedValue (h : x.Reorders y) (p : Property) :
    x.inheritedValue p = y.inheritedValue p := by
  rw [StyleContext.inheritedValue, StyleContext.inheritedValue]
  have hparent := h.parent?
  generalize x.parent? = parent?, y.parent? = parent?' at hparent ⊢
  cases hparent with
  | none => rfl
  | some hparent => exact congrArg (Option.getD · p.default) (hparent.values.get?_eq p.id)

theorem Reorders.unsetValue (h : x.Reorders y) (p : Property) : x.unsetValue p = y.unsetValue p := by
  rw [StyleContext.unsetValue, StyleContext.unsetValue, h.inheritedValue]

theorem Reorders.resolve (h : x.Reorders y) (p : Property) (text : String) :
    x.resolve p text = y.resolve p text := by
  simp only [StyleContext.resolve, h.inheritedValue, h.unsetValue]

theorem Reorders.valueOf (h : x.Reorders y) (hc : c.Reorders c') {resolver resolver' : Resolver}
    (hresolver : resolver.Agrees resolver') (p : Property) :
    x.valueOf c resolver p = y.valueOf c' resolver' p := by
  rw [StyleContext.valueOf, StyleContext.valueOf, Cascaded.winner?, Cascaded.winner?,
    hc.winners.get?_eq]
  cases (c'.winners.get? p.id).map Prod.fst with
  | none => exact h.unsetValue p
  | some d =>
      show x.resolve p (resolver.substitute d.value) = y.resolve p (resolver'.substitute d.value)
      rw [h.resolve, hresolver.substitute]

/-- The declarations that are handed on, in any order, each name once. -/
theorem substitutedDeclarations_perm (hc : c.Reorders c') (hkeyed : c.IsKeyed r)
    {resolver resolver' : Resolver} (hresolver : resolver.Agrees resolver') (keep : String → Bool) :
    (substitutedDeclarations c resolver keep).Perm (substitutedDeclarations c' resolver' keep) ∧
      ((substitutedDeclarations c resolver keep).map Prod.fst).Nodup := by
  constructor
  · have hsubstitute : resolver.substitute = resolver'.substitute := funext hresolver.substitute
    rw [substitutedDeclarations, substitutedDeclarations, hsubstitute]
    exact (hc.declarations.filter _).map _
  · rw [substitutedDeclarations, List.map_map]
    exact hkeyed.nodup_names.sublist (List.filter_sublist.map Declaration.name)

/-- The style of a node does not depend on the order in which winners and variables are kept. -/
theorem compute_reorders (h : x.Reorders y) (hc : c.Reorders c') (hkeyed : c.IsKeyed r) :
    (x.compute c).Reorders (y.compute c') := by
  have hscope : (Scope.overlay x.inheritedVariables c.scope).Reorders
      (Scope.overlay y.inheritedVariables c'.scope) :=
    Scope.overlay_reorders h.inheritedVariables hc.scope hkeyed.scope
  have hresolver : Resolver.Agrees
      ⟨[Scope.overlay x.inheritedVariables c.scope, x.globals], x.maxDepth⟩
      ⟨[Scope.overlay y.inheritedVariables c'.scope, y.globals], y.maxDepth⟩ := by
    rw [← h.maxDepth]
    exact Resolver.agrees_of_reorders (.cons hscope (.cons h.globals .nil)) x.maxDepth
  have hvalues : (x.compute c).values = (y.compute c').values := by
    rw [compute, compute, ← h.registry]
    exact List.foldl_ext _ _ _ fun values p _ => by rw [h.valueOf hc hresolver]
  obtain ⟨htransitions, hnames⟩ :=
    substitutedDeclarations_perm hc hkeyed hresolver Transition.isOwnProperty
  obtain ⟨hanimations, hnames'⟩ :=
    substitutedDeclarations_perm hc hkeyed hresolver Animation.isOwnProperty
  exact ⟨hvalues ▸ .refl _, hscope,
    Transition.ofDeclarations_perm htransitions hnames,
    Animation.ofDeclarations_perm hanimations hnames'⟩

end StyleContext

/-- **No result depends on the order in which a map is enumerated.**  This is so for the style of a
node, whose blocks are written through one registry, with the winners, all variables and the values
of the parent in any order; for layers of a sheet and for sheets that are combined, with their
keyframe sets in any order; and for transitions and animations, with declarations of different names
in any order. -/
theorem enumeration_irrelevant :
    (∀ (r : Registry) (rules : List StyleRule) (inline? : Option InlineStyle),
      (∀ rule ∈ rules, rule.block.WrittenBy r) → (∀ style ∈ inline?, style.block.WrittenBy r) →
        ∀ c c' : Cascaded, (cascade rules inline?).Reorders c → (cascade rules inline?).Reorders c' →
          ∀ x y : StyleContext, x.Reorders y → (x.compute c).Reorders (y.compute c')) ∧
    (∀ s : Stylesheet, s.Reachable → ∀ t t' : Stylesheet, s.Reorders t → s.Reorders t' →
      (∀ marker, (t.withMarker marker).Reorders (t'.withMarker marker)) ∧
        ∀ a b : Stylesheet, a.Reorders b → (a.combine t).Reorders (b.combine t')) ∧
    (∀ ds ds' : List (String × String), ds.Perm ds' → (ds.map Prod.fst).Nodup →
      Transition.ofDeclarations ds = Transition.ofDeclarations ds' ∧
        Animation.ofDeclarations ds = Animation.ofDeclarations ds') := by
  refine ⟨?style, ?sheet, ?timing⟩
  case style =>
    intro r rules inline? hrules hinline c c' hc hc' x y hxy
    have hkeyed : c.IsKeyed r := (Cascaded.isKeyed_cascade hrules hinline).reorders hc
    have hcc : c.Reorders c' :=
      ⟨hc.winners.symm.trans hc'.winners, hc.scope.symm.trans hc'.scope⟩
    exact StyleContext.compute_reorders hxy hcc hkeyed
  case sheet =>
    intro s hs t t' ht ht'
    refine ⟨fun marker => ?_, fun a b hab => ?_⟩
    · exact (hs.withMarker_reorders ht marker).symm.trans (hs.withMarker_reorders ht' marker)
    · exact (hs.combine_reorders (.refl a) ht).symm.trans (hs.combine_reorders hab ht')
  case timing =>
    intro ds ds' hperm hnames
    exact ⟨Transition.ofDeclarations_perm hperm hnames, Animation.ofDeclarations_perm hperm hnames⟩

/-- The statement with everything met in the opposite order: the winners and variables of a rule, two
keyframe sets, and four declarations. -/
theorem enumeration_irrelevant_reversed :
    let rule := StyleRule.ofDeclarations .empty ⟨⟨[.universal]⟩, [], "*"⟩
      [⟨"animation-delay", "1s, 2s", false⟩, ⟨"animation-name", "spin, fade", false⟩,
        ⟨"transition", "all 1s", false⟩, ⟨"--a", "1", false⟩, ⟨"--b", "2", false⟩]
    let c := cascade [rule] none
    let c' : Cascaded := ⟨c.winners.reversed, c.scope.reversed⟩
    let x : StyleContext := { registry := .empty }
    let s := (Stylesheet.empty.putKeyframes { name := "spin" }).putKeyframes { name := "fade" }
    let t := { s with keyframes := s.keyframes.reversed }
    let ds := [("animation-delay", "1s, 2s"), ("animation-name", "spin, fade"),
      ("animation-duration", "3s"), ("transition", "all 1s")]
    c.declarations ≠ c'.declarations ∧ s.keyframes.values.map KeyframeSet.name = ["spin", "fade"] ∧
      t.keyframes.values.map KeyframeSet.name = ["fade", "spin"] ∧
      (x.compute c').animations.map Animation.name = ["spin", "fade"] ∧
      (x.compute c).Reorders (x.compute c') ∧
      (s.withMarker 0).Reorders (t.withMarker 0) ∧ (s.combine s).Reorders (t.combine t) ∧
      Transition.ofDeclarations ds = Transition.ofDeclarations ds.reverse ∧
      Animation.ofDeclarations ds = Animation.ofDeclarations ds.reverse := by
  intro rule c c' x s t ds
  obtain ⟨hstyle, hsheet, htiming⟩ := enumeration_irrelevant
  have hrules : ∀ rule' ∈ [rule], rule'.block.WrittenBy .empty := by
    intro rule' hrule
    rw [List.mem_singleton.mp hrule]
    exact StyleRule.writtenBy_ofDeclarations _ _ _
  have hc : c.Reorders c' := ⟨Assoc.reorders_reversed _, Assoc.reorders_reversed _⟩
  have hc₀ : c.Reorders c := ⟨.refl _, .refl _⟩
  have hx : x.Reorders x := ⟨rfl, .none, .refl _, rfl⟩
  have hs : s.Reachable := (Stylesheet.Reachable.empty.putKeyframes _).putKeyframes _
  have hst : s.Reorders t :=
    ⟨rfl, .refl _, Assoc.reorders_reversed _, rfl, rfl, rfl⟩
  refine ⟨by decide +kernel, by decide +kernel, by decide +kernel, by decide +kernel, ?_⟩
  obtain ⟨hlayer, hcombine⟩ := hsheet s hs s t (.refl s) hst
  exact ⟨hstyle .empty [rule] none hrules nofun c c' hc₀ hc x x hx, hlayer 0, hcombine s t hst,
    htiming ds ds.reverse ds.reverse_perm.symm (by decide)⟩

end WidgetStyle
