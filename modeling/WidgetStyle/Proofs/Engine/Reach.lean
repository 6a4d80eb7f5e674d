import WidgetStyle.Proofs.Engine.Session

/-!
# WidgetStyle.Proofs.Engine.Reach — how far the change of a node reaches

What a selector can ask about a node, and what an inline style gives it, may change while the tree
keeps its shape.  Matching walks to parents and to earlier siblings only.  So a change of a node is
seen from the node and its later siblings and from what is below these, and from nowhere else; and
since inline styles are handed on from parents to children alone, a change of an inline style is seen
from the node and from below it.

`reach_of_change` says so for matching in both modes and for plain styles.  It rests on
`Tree.agreeOn_sight` and on `plainStyle_congr_lineage`: the style of a node is found from the rules
and the inline styles on its lineage.
-/

namespace WidgetStyle

namespace Tree

/-- When the data of a node change and the tree keeps its shape, everything seen from outside the
subtrees of the node and of its later siblings is as it was. -/
theorem IsForest.agreeOn_sight_modify {t : Tree} (h : t.IsForest) {n : NodeId} {f : Node → Node}
    (parent : ∀ x, (f x).parent = x.parent) (children : ∀ x, (f x).children = x.children)
    {m : NodeId} (hm : m < t.size)
    (outside : ∀ top ∈ n :: t.laterSiblings n, t.isBelow top m = false) :
    t.AgreeOn (t.modify n f) (t.sight m) := by
  refine agreeOn_sight h (h.modify n parent children) (D := fun k => k ∈ n :: t.laterSiblings n)
    ?_ ((t.size_modify n f).symm ▸ hm) ?_
  · -- Only the node itself is different, and it is in `D` with its later siblings.
    intro k hk
    have hkn : k = n := by
      refine Classical.byContradiction fun hne => hk ?_
      exact (t.node?_modify_of_ne n k f hne).symm
    subst hkn
    exact Or.inl ⟨List.mem_cons_self, fun x hx => List.mem_cons_of_mem _ hx⟩
  · intro k hk hD
    exact isBelow_eq_false_iff.mp (outside k hD) hk

end Tree

namespace Engine

/-- Plain styles are found from what is on the lineage: where the nodes of a lineage have the same
parents, rules and inline styles, and the context is the same, the style of its lowest node is. -/
theorem plainStyle_congr_lineage {e e' : Engine} {t u : Tree} (ht : t.IsForest) (hu : u.IsForest)
    (context : e'.context = e.context) {m : NodeId}
    (parent : ∀ k ∈ t.lineage m, u.parent? k = t.parent? k)
    (rules : ∀ k ∈ t.lineage m, e'.rulesFor u .strict k = e.rulesFor t .strict k)
    (inline : ∀ k ∈ t.lineage m, e'.inline? k = e.inline? k) :
    e'.plainStyle u m = e.plainStyle t m := by
  induction m using ht.induction with
  | root m hp =>
      have hself := t.mem_lineage_self m
      rw [e.plainStyle_of_root hp, e'.plainStyle_of_root ((parent m hself).trans hp), styleBelow,
        styleBelow, context, rules m hself, inline m hself]
  | child m p hp ih =>
      have hself := t.mem_lineage_self m
      have habove : ∀ k ∈ t.lineage p, k ∈ t.lineage m := fun k hk =>
        (ht.mem_lineage_of_parent hp).mpr (Or.inr hk)
      have hparent : e'.plainStyle u p = e.plainStyle t p :=
        ih (fun k hk => parent k (habove k hk)) (fun k hk => rules k (habove k hk))
          fun k hk => inline k (habove k hk)
      rw [e.plainStyle_of_parent ht hp, e'.plainStyle_of_parent hu ((parent m hself).trans hp),
        styleBelow, styleBelow, context, rules m hself, inline m hself, hparent]

theorem inline?_setInline_of_ne (e : Engine) {n m : NodeId} (style : InlineStyle) (h : m ≠ n) :
    (e.setInline n style).inline? m = e.inline? m := by
  rw [inline?, setInline, inline?, Assoc.get?_insert_of_ne _ _ h]

theorem inline?_clearInline_of_ne (e : Engine) {n m : NodeId} (h : m ≠ n) :
    (e.clearInline n).inline? m = e.inline? m := by
  rw [clearInline]
  split
  · rw [inline?, inline?, Assoc.get?_erase_of_ne _ h]
  · rfl

/-- Outside the subtree of a node nothing depends on its inline style. -/
theorem plainStyle_congr_inline {e e' : Engine} {t : Tree} (h : t.IsForest) {n m : NodeId}
    (context : e'.context = e.context) (sheet : e'.sheet = e.sheet)
    (inline : ∀ k, k ≠ n → e'.inline? k = e.inline? k) (outside : t.isBelow n m = false) :
    e'.plainStyle t m = e.plainStyle t m := by
  refine plainStyle_congr_lineage h h context (fun _ _ => rfl) (fun k _ => ?_) fun k hk => ?_
  · rw [rulesFor, rulesFor, sheet]
  · refine inline k fun hkn => ?_
    exact Tree.isBelow_eq_false_iff.mp outside (hkn ▸ hk)

/-- **The reach of a change.**  Let the data of a node change while the tree keeps its shape.  Then
every node outside the subtrees of the node and of its later siblings is selected by the same
selectors in both modes, has the same rules, and has the same plain style.  When the inline style of
a node is set or taken away, plain styles stay the same outside the subtree of that node alone, and
rules stay the same everywhere. -/
theorem reach_of_change (e : Engine) {t : Tree} (h : t.IsForest) (n : NodeId) :
    (∀ f : Node → Node, (∀ x, (f x).parent = x.parent) → (∀ x, (f x).children = x.children) →
      ∀ m < t.size, (∀ top ∈ n :: t.laterSiblings n, t.isBelow top m = false) →
        (∀ (x : Selector) mode, x.selects (t.modify n f) mode m = x.selects t mode m) ∧
          (∀ mode, e.rulesFor (t.modify n f) mode m = e.rulesFor t mode m) ∧
          e.plainStyle (t.modify n f) m = e.plainStyle t m) ∧
      (∀ m, t.isBelow n m = false →
        (∀ style, (e.setInline n style).plainStyle t m = e.plainStyle t m) ∧
          (e.clearInline n).plainStyle t m = e.plainStyle t m) ∧
      ∀ m mode, (∀ style, (e.setInline n style).rulesFor t mode m = e.rulesFor t mode m) ∧
        (e.clearInline n).rulesFor t mode m = e.rulesFor t mode m := by
  have hclear : (e.clearInline n).context = e.context ∧ (e.clearInline n).sheet = e.sheet := by
    rw [clearInline]
    split <;> exact ⟨rfl, rfl⟩
  refine ⟨?node, ?inlineStyle, ?inlineRules⟩
  case node =>
    intro f parent children m hm outside
    have hagree := h.agreeOn_sight_modify parent children hm outside
    have hself := t.sight_self m
    have hrules : ∀ k, t.sight m k → ∀ mode,
        e.rulesFor (t.modify n f) mode k = e.rulesFor t mode k := fun k hk mode => by
      rw [rulesFor, rulesFor, Stylesheet.rulesFor, Stylesheet.rulesFor,
        hagree.candidates_eq hk e.sheet mode]
    refine ⟨fun x mode => (hagree.selects_eq hself x mode).symm, hrules m hself, ?_⟩
    have hsight : ∀ k ∈ t.lineage m, t.sight m k := fun k hk => ⟨k, hk, Or.inl rfl⟩
    exact plainStyle_congr_lineage h hagree.forest' rfl
      (fun k hk => (hagree.parent?_eq (hsight k hk)).symm)
      (fun k hk => hrules k (hsight k hk) .strict) fun _ _ => rfl
  case inlineStyle =>
    intro m outside
    refine ⟨fun style => ?_, ?_⟩
    · exact plainStyle_congr_inline h rfl rfl (fun k hk => e.inline?_setInline_of_ne style hk) outside
    · exact plainStyle_congr_inline h hclear.1 hclear.2 (fun k hk => e.inline?_clearInline_of_ne hk)
        outside
  case inlineRules =>
    refine fun m mode => ⟨fun _ => rfl, ?_⟩
    rw [rulesFor, rulesFor, hclear.2]

/-- The statement at four nodes: a root with two children, of which the first has a child.  The
second child changes, and the first and its child are outside.  The child of the first gets an inline
style, and the first is outside. -/
theorem reach_of_change_siblings :
    let t := (((Tree.empty.addRoot "panel").addChild 0 "label").addChild 0 "label").addChild 1 "icon"
    let rule : StyleRule := .ofDeclarations .empty
      ⟨⟨[.hasId "on"]⟩, [(.descendant, ⟨[.hasTag "icon"]⟩)], "#on icon"⟩ [⟨"color", "red", false⟩]
    let e : Engine := { registry := .empty, sheet := Stylesheet.empty.append rule }
    let style : InlineStyle := .parse .empty "color: blue"
    t.IsForest ∧ (∀ top ∈ 2 :: t.laterSiblings 2, t.isBelow top 3 = false) ∧
      e.plainStyle (t.setId 2 "on") 3 = e.plainStyle t 3 ∧
      rule.selector.selects (t.setId 2 "on") .loose 3 = false ∧
      rule.selector.selects (t.setId 1 "on") .loose 3 = true ∧
      t.isBelow 3 1 = false ∧ (e.setInline 3 style).plainStyle t 1 = e.plainStyle t 1 := by
  intro t rule e style
  have h : t.IsForest := by
    refine Tree.IsForest.addChild (Tree.IsForest.addChild (Tree.IsForest.addChild
      (Tree.isForest_empty.addRoot "panel") ?_ ?_ _) ?_ ?_ _) ?_ ?_ _
    all_goals decide +kernel
  have houtside : ∀ top ∈ 2 :: t.laterSiblings 2, t.isBelow top 3 = false := by decide +kernel
  have hbelow : t.isBelow 3 1 = false := by decide +kernel
  obtain ⟨hselects, -, hstyle⟩ := (e.reach_of_change h 2).1
    (fun x => { x with id? := some "on" }) (fun _ => rfl) (fun _ => rfl) 3 (by decide +kernel) houtside
  refine ⟨h, houtside, hstyle, ?_, by decide +kernel, hbelow, ?_⟩
  · exact (hselects rule.selector .loose).trans (by decide +kernel)
  · exact ((e.reach_of_change h 3).2.1 1 hbelow).1 style

end Engine

end WidgetStyle
