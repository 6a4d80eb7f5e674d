import WidgetStyle.Proofs.Selector.Locality
import WidgetStyle.Proofs.Tree.Forest

/-!
# WidgetStyle.Proofs.Tree.Edits — changes of a tree and the notices they owe

A tree is changed by one `Tree.Edit` at a time.  Whoever keeps results about the tree is told by
notices (`Notice`), and `Edit.owed` says which notices a change owes: for the nodes it touches
(`Edit.touched`) and for their later siblings.  A state owes notices of its own kind, and a new root
owes none.

The notices are enough.  Every changed node is reported with its later siblings, hangs below a
reported node, or is new and alone (`Edit.covered`), so that nothing is different for a node whose
lineage meets no notice (`Edit.sameSight_strict`).  For loose matching notices of states do not
count (`Edit.sameSight_loose`).
-/

namespace WidgetStyle

/-- What a host says about a node: that its place, id, classes or attributes changed, or that its
states did. -/
inductive Notice where
  | changed (n : NodeId)
  | stateChanged (n : NodeId)
  deriving DecidableEq, Repr

namespace Tree

/-! ## Edits -/

/-- One change of a tree. -/
inductive Edit where
  | addRoot (tag : String)
  | addChild (parent : NodeId) (tag : String)
  | move (n parent : NodeId)
  | setId (n : NodeId) (value : String)
  | addClass (n : NodeId) (name : String)
  | removeClass (n : NodeId) (name : String)
  | setAttribute (n : NodeId) (name value : String)
  | setState (n : NodeId) (p : PseudoClass) (on : Bool)

namespace Edit

/-- The tree after a change. -/
def apply (t : Tree) : Edit → Tree
  | .addRoot tag => t.addRoot tag
  | .addChild parent tag => t.addChild parent tag
  | .move n parent => t.move n parent
  | .setId n value => t.setId n value
  | .addClass n name => t.addClass n name
  | .removeClass n name => t.removeClass n name
  | .setAttribute n name value => t.setAttribute n name value
  | .setState n p on => t.setState n p on

/-- The nodes that a change is reported for: the old and the new parent of a node that is added or
moved, and otherwise the node itself. -/
def touched (t : Tree) : Edit → List NodeId
  | .addRoot _ => []
  | .addChild parent _ => [parent]
  | .move n parent => (t.parent? n).toList ++ [parent]
  | .setId n _ | .addClass n _ | .removeClass n _ | .setAttribute n _ _ | .setState n _ _ => [n]

/-- The kind of notice that a change is reported with. -/
def notice : Edit → NodeId → Notice
  | .setState _ _ _ => .stateChanged
  | _ => .changed

/-- The notices that a change owes: for the touched nodes and their later siblings. -/
def owed (e : Edit) (t : Tree) : List Notice :=
  (e.touched t).flatMap fun m => (m :: (e.apply t).laterSiblings m).map e.notice

variable {e : Edit} {t : Tree} {n m : NodeId}

theorem notice_mem_owed (h : m ∈ e.touched t) : e.notice m ∈ e.owed t :=
  List.mem_flatMap.mpr ⟨m, h, List.mem_map_of_mem List.mem_cons_self⟩

theorem notice_mem_owed_of_mem_laterSiblings (h : m ∈ e.touched t) {k : NodeId}
    (hk : k ∈ (e.apply t).laterSiblings m) : e.notice k ∈ e.owed t :=
  List.mem_flatMap.mpr ⟨m, h, List.mem_map_of_mem (List.mem_cons_of_mem _ hk)⟩

theorem size_le_apply (e : Edit) (t : Tree) : t.size ≤ (e.apply t).size := by
  cases e with
  | addRoot tag => simp [apply]
  | addChild parent tag => simp [apply]
  | move n parent => simp [apply, size_move]
  | setId n value => exact Nat.le_of_eq (size_modify _ _ _).symm
  | addClass n name => exact Nat.le_of_eq (size_modify _ _ _).symm
  | removeClass n name => exact Nat.le_of_eq (size_modify _ _ _).symm
  | setAttribute n name value => exact Nat.le_of_eq (size_modify _ _ _).symm
  | setState n p on => exact Nat.le_of_eq (size_modify _ _ _).symm

/-- A change of one node's data touches what it changes. -/
theorem mem_touched_of_modify {n : NodeId} {f : Node → Node}
    (h : (t.modify n f).node? m ≠ t.node? m) : m ∈ [n] := by
  refine List.mem_singleton.mpr (Classical.byContradiction fun hmn => h ?_)
  exact node?_modify_of_ne t n m f hmn

/-- A node that a change makes different is touched, or hangs below a touched node, or is new and
alone. -/
theorem covered (hforest : (e.apply t).IsForest) (h : (e.apply t).node? m ≠ t.node? m) :
    m ∈ e.touched t ∨ (∃ p, (e.apply t).parent? m = some p ∧ p ∈ e.touched t) ∨
      (t.size ≤ m ∧ (e.apply t).parent? m = none ∧ (e.apply t).children m = []) := by
  cases e with
  | addRoot tag =>
      have hm : m = t.size := by
        refine Classical.byContradiction fun hm => h ?_
        rw [apply, node?_addRoot, if_neg hm]
      have hnode : (t.addRoot tag).node? m = some { tag } := by
        rw [node?_addRoot, if_pos hm]
      refine Or.inr (Or.inr ⟨Nat.le_of_eq hm.symm, ?_, ?_⟩)
      · rw [apply, parent?, hnode]; rfl
      · rw [apply, children, hnode]; rfl
  | addChild parent tag =>
      by_cases hp : m = parent
      · exact Or.inl (List.mem_singleton.mpr hp)
      · have hnode := t.node?_addChild_of_ne m parent tag hp
        have hm : m = t.size := by
          refine Classical.byContradiction fun hm => h ?_
          rw [apply, hnode, if_neg hm]
        rw [if_pos hm] at hnode
        refine Or.inr (Or.inl ⟨parent, ?_, List.mem_singleton.mpr rfl⟩)
        rw [apply, Tree.parent?, hnode]
        rfl
  | move n parent =>
      by_cases hp : m = parent
      · exact Or.inl (List.mem_append_right _ (List.mem_singleton.mpr hp))
      by_cases hold : t.parent? n = some m
      · exact Or.inl (List.mem_append_left _ (Option.mem_toList.mpr hold))
      -- Neither of the parents: only the moved node itself is left, and it hangs below the new one.
      have hn : m = n := by
        refine Classical.byContradiction fun hn => h ?_
        exact t.node?_move_of_ne n m parent hn hp hold
      subst hn
      have hsize : m < t.size := by
        refine Nat.lt_of_not_le fun hsize => h ?_
        rw [node?_eq_none_of_size_le hsize, node?_eq_none_of_size_le]
        change (t.move m parent).size ≤ m
        rw [size_move]
        exact hsize
      refine Or.inr (Or.inl ⟨parent, t.parent?_move m parent hsize, ?_⟩)
      exact List.mem_append_right _ (List.mem_singleton.mpr rfl)
  | setId n value => exact Or.inl (mem_touched_of_modify h)
  | addClass n name => exact Or.inl (mem_touched_of_modify h)
  | removeClass n name => exact Or.inl (mem_touched_of_modify h)
  | setAttribute n name value => exact Or.inl (mem_touched_of_modify h)
  | setState n p on => exact Or.inl (mem_touched_of_modify h)

/-- The trees before and after a change agree on what is seen from a node that was there before and
whose lineage meets none of the notices owed. -/
theorem agreeOn_sight (ht : t.IsForest) (hforest : (e.apply t).IsForest) (hn : n < t.size)
    (avoids : ∀ m ∈ (e.apply t).lineage n, e.notice m ∉ e.owed t) :
    (e.apply t).AgreeOn t ((e.apply t).sight n) := by
  refine Tree.agreeOn_sight hforest ht (D := fun m => e.notice m ∈ e.owed t) ?_ hn avoids
  intro m hm
  rcases covered hforest hm with htouched | ⟨p, hp, htouched⟩ | hnew
  · exact Or.inl ⟨notice_mem_owed htouched, fun k hk =>
      notice_mem_owed_of_mem_laterSiblings htouched hk⟩
  · exact Or.inr (Or.inl ⟨p, hp, notice_mem_owed htouched⟩)
  · exact Or.inr (Or.inr hnew)

/-- A change is reported as a change of the node, or it is one of states alone. -/
theorem notice_eq_changed_or (e : Edit) (t : Tree) :
    e.notice = .changed ∨ ∃ states, e.apply t = t.withStates states := by
  cases e with
  | setState n p on => exact Or.inr ⟨_, t.setState_eq_withStates n p on⟩
  | _ => exact Or.inl rfl

end Edit

/-! ## What a node's style is found from -/

/-- Trees in which a node has the same lineage, and every sheet the same rules for it. -/
structure SameSight (t u : Tree) (mode : MatchMode) (n : NodeId) : Prop where
  lineage : t.lineage n = u.lineage n
  parent : ∀ m ∈ t.lineage n, t.parent? m = u.parent? m
  candidates : ∀ s : Stylesheet, s.candidates t mode n = s.candidates u mode n

theorem AgreeOn.sameSight {t u : Tree} {n : NodeId} (h : t.AgreeOn u (t.sight n))
    (mode : MatchMode) : t.SameSight u mode n where
  lineage := h.lineage_eq (t.sight_self n)
  parent := fun m hm => h.parent?_eq ⟨m, hm, Or.inl rfl⟩
  candidates := fun s => h.candidates_eq (t.sight_self n) s mode

theorem sameSight_withStates (t : Tree) (states : NodeId → PseudoSet) (n : NodeId) :
    (t.withStates states).SameSight t .loose n where
  lineage := by rw [Tree.lineage, Tree.lineage, ancestors_withStates]
  parent := fun m _ => t.parent?_withStates states m
  candidates := fun s => s.candidates_loose_withStates t n states

namespace Edit

variable {e : Edit} {t : Tree} (ht : t.IsForest) (hforest : (e.apply t).IsForest) {n : NodeId}
  (hn : n < t.size)
include ht hforest hn

/-- **Notices of changes are enough for loose matching.**  Nothing that loose matching of a node
rests on is different when the node's lineage meets no notice that something other than a state
changed. -/
theorem sameSight_loose (avoids : ∀ m ∈ (e.apply t).lineage n, .changed m ∉ e.owed t) :
    (e.apply t).SameSight t .loose n := by
  rcases e.notice_eq_changed_or t with hnotice | ⟨states, hstates⟩
  · exact (agreeOn_sight ht hforest hn (hnotice ▸ avoids)).sameSight .loose
  · rw [hstates]
    exact t.sameSight_withStates states n

/-- **Notices of both kinds are enough for strict matching.** -/
theorem sameSight_strict
    (avoids : ∀ m ∈ (e.apply t).lineage n, .changed m ∉ e.owed t ∧ .stateChanged m ∉ e.owed t) :
    (e.apply t).SameSight t .strict n := by
  refine (agreeOn_sight ht hforest hn fun m hm => ?_).sameSight .strict
  cases e with
  | setState n p on => exact (avoids m hm).2
  | _ => exact (avoids m hm).1

end Edit

end Tree

end WidgetStyle
