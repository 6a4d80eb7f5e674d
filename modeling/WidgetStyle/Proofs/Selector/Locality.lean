import WidgetStyle.Proofs.Selector.Modes
import WidgetStyle.Proofs.Sheet.Candidates
import WidgetStyle.Proofs.Tree.Lineage

/-!
# WidgetStyle.Proofs.Selector.Locality — what matching a node can see

Matching walks from a node to its parent, its ancestors and its earlier siblings, and on from
those.  What it can meet is the `Tree.sight` of the node: its lineage, and the earlier siblings of
everything on it.  Two forests that have the same nodes there (`Tree.AgreeOn`) give the same matches
and the same candidates (`AgreeOn.selects_eq`, `AgreeOn.candidates_eq`).

`agreeOn_sight` turns that into a rule for changes of a tree.  Let every changed node stand, with
its later siblings, in a set `D`, or else be a child of a member of `D`.  Then nothing changes for a
node whose lineage avoids `D`.
-/

namespace WidgetStyle

namespace Tree

/-! ## Trees that agree on a part -/

/-- No walk leaves the set. -/
structure IsClosed (t : Tree) (V : NodeId → Prop) : Prop where
  parent : ∀ m p, V m → t.parent? m = some p → V p
  earlier : ∀ m k, V m → k ∈ t.earlierSiblings m → V k

/-- Two forests that have the same nodes on a set that no walk leaves. -/
structure AgreeOn (t u : Tree) (V : NodeId → Prop) : Prop where
  forest : t.IsForest
  forest' : u.IsForest
  closed : t.IsClosed V
  node : ∀ m, V m → t.node? m = u.node? m

namespace AgreeOn

variable {t u : Tree} {V : NodeId → Prop} (h : t.AgreeOn u V) {n : NodeId} (hn : V n)
include h hn

theorem parent?_eq : t.parent? n = u.parent? n := by
  rw [parent?, parent?, h.node n hn]

theorem children_eq : t.children n = u.children n := by
  rw [children, children, h.node n hn]

theorem tag_eq : t.tag n = u.tag n := by
  rw [tag, tag, h.node n hn]

theorem idOf?_eq : t.idOf? n = u.idOf? n := by
  rw [idOf?, idOf?, h.node n hn]

theorem hasClass_eq (name : String) : t.hasClass n name = u.hasClass n name := by
  rw [hasClass, hasClass, h.node n hn]

theorem attribute?_eq (name : String) : t.attribute? n name = u.attribute? n name := by
  rw [attribute?, attribute?, h.node n hn]

theorem family_eq : t.family n = u.family n := by
  unfold family
  rw [← h.parent?_eq hn]
  cases hp : t.parent? n with
  | none => rfl
  | some p => exact h.children_eq (h.closed.parent n p hn hp)

theorem earlierSiblings_eq : t.earlierSiblings n = u.earlierSiblings n := by
  rw [earlierSiblings, earlierSiblings, h.family_eq hn]

theorem laterSiblings_eq : t.laterSiblings n = u.laterSiblings n := by
  rw [laterSiblings, laterSiblings, h.family_eq hn]

theorem ancestors_eq : t.ancestors n = u.ancestors n := by
  induction n using h.forest.induction with
  | root n hp => rw [ancestors_of_root hp, ancestors_of_root (h.parent?_eq hn ▸ hp)]
  | child n p hp ih =>
      rw [h.forest.ancestors_of_parent hp, h.forest'.ancestors_of_parent (h.parent?_eq hn ▸ hp),
        ih (h.closed.parent n p hn hp)]

theorem lineage_eq : t.lineage n = u.lineage n := by
  rw [lineage, lineage, h.ancestors_eq hn]

theorem hasPseudo_eq (p : PseudoClass) : t.hasPseudo n p = u.hasPseudo n p := by
  have hstate : t.state n = u.state n := by rw [state, state, h.node n hn]
  cases p <;> simp only [hasPseudo, previousSibling?, nextSibling?, h.parent?_eq hn,
    h.children_eq hn, h.earlierSiblings_eq hn, h.laterSiblings_eq hn, hstate]

theorem satisfies_eq (mode : MatchMode) (x : SimpleSelector) :
    t.satisfies mode n x = u.satisfies mode n x := by
  cases x with
  | universal => rfl
  | hasTag name => rw [satisfies, satisfies, h.tag_eq hn]
  | hasClass name => rw [satisfies, satisfies, h.hasClass_eq hn]
  | hasId name => rw [satisfies, satisfies, h.idOf?_eq hn]
  | hasAttribute name => rw [satisfies, satisfies, h.attribute?_eq hn]
  | attributeIs name value => rw [satisfies, satisfies, h.attribute?_eq hn]
  | pseudo p => rw [satisfies, satisfies, h.hasPseudo_eq hn p]

theorem related_eq (joint : Combinator) : t.related n joint = u.related n joint := by
  cases joint <;> simp only [related, previousSibling?, h.parent?_eq hn, h.ancestors_eq hn,
    h.earlierSiblings_eq hn]

/-- A step of a walk stays in the set. -/
theorem mem_of_related {joint : Combinator} {k : NodeId} (hk : k ∈ t.related n joint) : V k := by
  cases joint with
  | child => exact h.closed.parent n k hn (Option.mem_toList.mp hk)
  | adjacentSibling =>
      exact h.closed.earlier n k hn (List.mem_of_mem_head? (Option.mem_toList.mp hk))
  | generalSibling => exact h.closed.earlier n k hn hk
  | descendant =>
      change k ∈ t.ancestors n at hk
      induction n using h.forest.induction with
      | root n hp => rw [ancestors_of_root hp] at hk; simp at hk
      | child n p hp ih =>
          rw [h.forest.ancestors_of_parent hp] at hk
          have hVp := h.closed.parent n p hn hp
          rcases List.mem_cons.mp hk with rfl | hk
          · exact hVp
          · exact ih hVp hk

/-- The same selectors select a node. -/
theorem selects_eq (s : Selector) (mode : MatchMode) : s.selects t mode n = s.selects u mode n := by
  refine Selector.selects_congr (fun m hm joint k hk => h.mem_of_related hm hk)
    (fun m hm joint => h.related_eq hm joint) ?_ hn
  intro m hm c _
  rw [satisfiesAll, satisfiesAll, funext (h.satisfies_eq hm mode)]

/-- A sheet has the same candidates for a node. -/
theorem candidates_eq (s : Stylesheet) (mode : MatchMode) :
    s.candidates t mode n = s.candidates u mode n :=
  s.candidates_congr (h.tag_eq hn) (h.idOf?_eq hn) fun x => h.selects_eq hn x mode

end AgreeOn

/-! ## Sight -/

/-- What a walk from a node can meet: its lineage, and the earlier siblings of what is on it. -/
def sight (t : Tree) (n m : NodeId) : Prop := ∃ v ∈ t.lineage n, m = v ∨ m ∈ t.earlierSiblings v

theorem sight_self (t : Tree) (n : NodeId) : t.sight n n := ⟨n, t.mem_lineage_self n, Or.inl rfl⟩

theorem IsForest.isClosed_sight {t : Tree} (h : t.IsForest) (n : NodeId) :
    t.IsClosed (t.sight n) where
  parent := by
    rintro m p ⟨v, hv, hm⟩ hp
    refine ⟨p, h.parent_mem_lineage hv ?_, Or.inl rfl⟩
    rcases hm with rfl | hm
    · exact hp
    · rw [← h.parent?_of_mem_earlierSiblings hm, hp]
  earlier := by
    rintro m k ⟨v, hv, hm⟩ hk
    refine ⟨v, hv, Or.inr ?_⟩
    rcases hm with rfl | hm
    · exact hk
    · exact h.earlierSiblings_trans hm hk

/-- **The reach of a change.**  If every changed node belongs to `D` with its later siblings, or is
a child of a member of `D`, or is a new node without parent and children, then the trees agree on
what is seen from an old node whose lineage avoids `D`. -/
theorem agreeOn_sight {t u : Tree} (ht : t.IsForest) (hu : u.IsForest) {D : NodeId → Prop}
    (covered : ∀ m, t.node? m ≠ u.node? m →
      (D m ∧ ∀ k ∈ t.laterSiblings m, D k) ∨ (∃ p, t.parent? m = some p ∧ D p) ∨
        (u.size ≤ m ∧ t.parent? m = none ∧ t.children m = []))
    {n : NodeId} (hn : n < u.size) (avoids : ∀ m ∈ t.lineage n, ¬ D m) :
    t.AgreeOn u (t.sight n) where
  forest := ht
  forest' := hu
  closed := ht.isClosed_sight n
  node := by
    -- `m` is seen from `v` on the lineage; if it changed, something noticed stands on the lineage.
    rintro m ⟨v, hv, hm⟩
    refine Classical.byContradiction fun hne => ?_
    rcases covered m hne with ⟨hDm, hlater⟩ | ⟨p, hp, hDp⟩ | ⟨hnew, hroot, hleaf⟩
    · rcases hm with rfl | hm
      · exact avoids _ hv hDm
      · exact avoids v hv (hlater v (ht.mem_laterSiblings_of_mem_earlierSiblings hm))
    · refine avoids p (ht.parent_mem_lineage hv ?_) hDp
      rcases hm with rfl | hm
      · exact hp
      · rw [← ht.parent?_of_mem_earlierSiblings hm, hp]
    · -- A new node that is alone is on the way of no old node, and nobody's sibling.
      rcases hm with rfl | hm
      · have hmn : m ≠ n := fun h => Nat.not_le_of_lt hn (h ▸ hnew)
        obtain ⟨c, -, hc⟩ := ht.exists_child_of_mem_lineage hv hmn
        have hchild := (ht.child_iff c m).mpr hc
        rw [hleaf] at hchild
        exact List.not_mem_nil hchild
      · have hfamily := mem_family_of_mem_earlierSiblings hm
        rw [family, ← ht.parent?_of_mem_earlierSiblings hm, hroot] at hfamily
        exact List.not_mem_nil hfamily

end Tree

end WidgetStyle
