import WidgetStyle.Proofs.Tree.Lineage

/-!
# WidgetStyle.Proofs.Tree.Forest — what the operations of a tree change

The first part says for each operation which nodes are what they were (`node?_modify`,
`node?_addRoot`, `node?_addChild_of_ne`, `node?_move_of_ne`).

Half of what makes a forest is about parents alone: they are nodes of the tree, and every walk upwards
ends (`IsGrounded`).  Growing a tree keeps this half in any case: heights stay, and a new node stands
one higher than its parent.  The other half is about the lists of children, and there the number of a
new node has to be its own.  So growing a forest gives a forest as long as numbers are left
(`IsForest.addRoot`, `IsForest.addChild`); nodes may change otherwise as they like, as long as they
keep their places (`IsForest.modify`).
-/

namespace WidgetStyle

namespace Tree

/-! ## Nodes after an operation -/

section Nodes

variable (t : Tree) (n m : NodeId)

theorem node?_modify (f : Node → Node) :
    (t.modify n f).node? m = if n = m then (t.node? m).map f else t.node? m := by
  unfold node? modify
  rw [Array.getElem?_modify]

theorem node?_modify_of_ne (f : Node → Node) (h : m ≠ n) : (t.modify n f).node? m = t.node? m := by
  rw [node?_modify, if_neg (Ne.symm h)]

/-- A change that leaves the parent of the node alone changes no parents. -/
theorem parent?_modify {f : Node → Node} (h : ∀ x, (f x).parent = x.parent) :
    (t.modify n f).parent? m = t.parent? m := by
  rw [parent?, parent?, node?_modify]
  by_cases hnm : n = m
  · rw [if_pos hnm]; cases t.node? m <;> simp [h]
  · rw [if_neg hnm]

/-- A change that leaves the children of the node alone changes no children. -/
theorem children_modify {f : Node → Node} (h : ∀ x, (f x).children = x.children) :
    (t.modify n f).children m = t.children m := by
  rw [children, children, node?_modify]
  by_cases hnm : n = m
  · rw [if_pos hnm]; cases t.node? m <;> simp [h]
  · rw [if_neg hnm]

@[simp] theorem size_modify (f : Node → Node) : (t.modify n f).size = t.size :=
  Array.size_modify

@[simp] theorem size_addRoot (tag : String) : (t.addRoot tag).size = t.size + 1 :=
  Array.size_push _

@[simp] theorem size_addChild (p : NodeId) (tag : String) : (t.addChild p tag).size = t.size + 1 :=
  (size_modify _ p _).trans (Array.size_push _)

theorem node?_push (x : Node) :
    Tree.node? ⟨t.nodes.push x⟩ m = if m = t.size then some x else t.node? m := by
  unfold node?
  rw [Array.getElem?_push]
  rfl

theorem node?_addRoot (tag : String) :
    (t.addRoot tag).node? m = if m = t.size then some { tag } else t.node? m :=
  t.node?_push m { tag }

theorem node?_addChild_of_ne (p : NodeId) (tag : String) (h : m ≠ p) :
    (t.addChild p tag).node? m =
      if m = t.size then some { tag, parent := some p } else t.node? m := by
  unfold addChild
  rw [node?_modify_of_ne _ _ _ _ h, node?_push]

theorem parent?_addRoot (tag : String) : (t.addRoot tag).parent? m = t.parent? m := by
  rw [parent?, parent?, node?_addRoot]
  by_cases hm : m = t.size
  · rw [if_pos hm, hm, node?_eq_none_of_size_le (Nat.le_refl _)]
    rfl
  · rw [if_neg hm]

theorem children_addRoot (tag : String) : (t.addRoot tag).children m = t.children m := by
  rw [children, children, node?_addRoot]
  by_cases hm : m = t.size
  · rw [if_pos hm, hm, node?_eq_none_of_size_le (Nat.le_refl _)]
    rfl
  · rw [if_neg hm]

/-- Moving a node changes the node, its old and its new parent. -/
theorem node?_move_of_ne (p : NodeId) (hn : m ≠ n) (hp : m ≠ p) (hold : t.parent? n ≠ some m) :
    (t.move n p).node? m = t.node? m := by
  unfold move
  simp only
  rw [node?_modify_of_ne _ _ _ _ hn, node?_modify_of_ne _ _ _ _ hp]
  split
  · rename_i old heq
    exact node?_modify_of_ne _ _ _ _ fun h => hold (h ▸ heq)
  · rfl

theorem size_move (p : NodeId) : (t.move n p).size = t.size := by
  unfold move
  cases t.parent? n <;> simp

/-- The moved node hangs below its new parent. -/
theorem parent?_move (p : NodeId) (hn : n < t.size) : (t.move n p).parent? n = some p := by
  have hsize : n < (t.move n p).size := by rw [size_move]; exact hn
  obtain ⟨x, hx⟩ : ∃ x, (t.move n p).node? n = some x :=
    ⟨_, Array.getElem?_eq_getElem hsize⟩
  rw [parent?, hx]
  unfold move at hx
  simp only at hx
  rw [node?_modify, if_pos rfl] at hx
  obtain ⟨y, -, rfl⟩ := Option.map_eq_some_iff.mp hx
  rfl

end Nodes

section AddChild

variable (t : Tree) {p : NodeId} (hp : p < t.size) (tag : String) (n : NodeId)
include hp

theorem parent?_addChild :
    (t.addChild p tag).parent? n = if n = t.size then some p else t.parent? n := by
  by_cases hn : n = p
  · subst hn
    have hne : n ≠ t.size := Nat.ne_of_lt hp
    rw [if_neg hne, parent?, parent?, addChild, node?_modify, if_pos rfl, node?_push, if_neg hne]
    cases t.node? n <;> rfl
  · rw [parent?, parent?, node?_addChild_of_ne _ _ _ _ hn]
    split <;> rfl

theorem children_addChild :
    (t.addChild p tag).children n =
      if n = p then t.children p ++ [t.nextNumber] else t.children n := by
  by_cases hn : n = p
  · subst hn
    have hne : n ≠ t.size := Nat.ne_of_lt hp
    obtain ⟨x, hx⟩ : ∃ x, t.node? n = some x := ⟨_, Array.getElem?_eq_getElem hp⟩
    rw [if_pos rfl, children, children, addChild, node?_modify, if_pos rfl, node?_push,
      if_neg hne, hx]
    rfl
  · rw [if_neg hn, children, children, node?_addChild_of_ne _ _ _ _ hn]
    by_cases hsize : n = t.size
    · rw [if_pos hsize, node?_eq_none_of_size_le (Nat.le_of_eq hsize.symm)]
      rfl
    · rw [if_neg hsize]

end AddChild

/-- As long as numbers are left, the next one is the number of nodes. -/
theorem nextNumber_eq {t : Tree} (h : t.size ≤ numberLimit) : t.nextNumber = t.size :=
  Nat.min_eq_left h

/-! ## Parents of a growing tree -/

/-- Parents are nodes of the tree, and every walk upwards ends. -/
structure IsGrounded (t : Tree) : Prop where
  parent_lt : ∀ n p, t.parent? n = some p → p < t.size
  ends : ∃ height : NodeId → Nat, ∀ n p, t.parent? n = some p → height p < height n

theorem IsForest.isGrounded {t : Tree} (h : t.IsForest) : t.IsGrounded := ⟨h.parent_lt, h.ends⟩

theorem parent?_empty (n : NodeId) : Tree.empty.parent? n = none := by
  simp [parent?, node?, empty]

theorem isGrounded_empty : Tree.empty.IsGrounded where
  parent_lt := fun n _ hp => absurd ((parent?_empty n).symm.trans hp) nofun
  ends := ⟨fun _ => 0, fun n _ hp => absurd ((parent?_empty n).symm.trans hp) nofun⟩

namespace IsGrounded

variable {t : Tree} (h : t.IsGrounded)
include h

/-- It is enough that the parents are the same. -/
theorem of_parents {u : Tree} (size : t.size ≤ u.size) (parent : ∀ n, u.parent? n = t.parent? n) :
    u.IsGrounded where
  parent_lt := by
    intro n p hp
    exact Nat.lt_of_lt_of_le (h.parent_lt n p (parent n ▸ hp)) size
  ends := by
    obtain ⟨height, falls⟩ := h.ends
    exact ⟨height, fun n p hp => falls n p (parent n ▸ hp)⟩

theorem addChild {p : NodeId} (hp : p < t.size) (tag : String) : (t.addChild p tag).IsGrounded where
  parent_lt := by
    intro n q hq
    rw [t.parent?_addChild hp] at hq
    rw [size_addChild]
    refine Nat.lt_succ_of_lt ?_
    split at hq
    · exact Option.some.inj hq ▸ hp
    · exact h.parent_lt n q hq
  ends := by
    -- The new node stands one higher than its parent, and nothing hangs below it.
    obtain ⟨height, falls⟩ := h.ends
    refine ⟨fun n => if n = t.size then height p + 1 else height n, fun n q hq => ?_⟩
    rw [t.parent?_addChild hp] at hq
    split at hq
    · rename_i hn
      obtain rfl := Option.some.inj hq
      simp [hn, Nat.ne_of_lt hp]
    · rename_i hn
      simp [hn, Nat.ne_of_lt (h.parent_lt n q hq), falls n q hq]

end IsGrounded

/-! ## Growing a forest -/

theorem isForest_empty : Tree.empty.IsForest where
  parent_lt := isGrounded_empty.parent_lt
  child_iff := by intro n p; simp [parent?, children, node?, empty]
  nodup_children := by intro p; simp [children, node?, empty]
  ends := isGrounded_empty.ends

namespace IsForest

variable {t : Tree} (h : t.IsForest)
include h

/-- A tree of the same shape, with more nodes perhaps that stand alone, is a forest too. -/
theorem of_shape {u : Tree} (size : t.size ≤ u.size) (parent : ∀ n, u.parent? n = t.parent? n)
    (children : ∀ n, u.children n = t.children n) : u.IsForest where
  parent_lt := (h.isGrounded.of_parents size parent).parent_lt
  child_iff := by
    intro n p
    rw [children, parent]
    exact h.child_iff n p
  nodup_children := by
    intro p
    rw [children]
    exact h.nodup_children p
  ends := (h.isGrounded.of_parents size parent).ends

/-- A change of a node that leaves its place alone keeps the forest. -/
theorem modify (n : NodeId) {f : Node → Node} (parent : ∀ x, (f x).parent = x.parent)
    (children : ∀ x, (f x).children = x.children) : (t.modify n f).IsForest :=
  h.of_shape (Nat.le_of_eq (t.size_modify n f).symm) (fun m => t.parent?_modify n m parent)
    fun m => t.children_modify n m children

theorem addRoot (tag : String) : (t.addRoot tag).IsForest :=
  h.of_shape (by simp) (fun m => t.parent?_addRoot m tag) fun m => t.children_addRoot m tag

/-- A node that is added below one of the tree keeps the forest, if its number is its own. -/
theorem addChild {p : NodeId} (hp : p < t.size) (hnumber : t.size ≤ numberLimit) (tag : String) :
    (t.addChild p tag).IsForest where
  parent_lt := (h.isGrounded.addChild hp tag).parent_lt
  child_iff := by
    intro n q
    rw [t.parent?_addChild hp, t.children_addChild hp, nextNumber_eq hnumber]
    have hnone : t.parent? t.size = none := by
      rw [parent?, node?_eq_none_of_size_le (Nat.le_refl _)]
      rfl
    -- Before, no list of children named the new number.
    have hnew : n ∈ t.children q → n ≠ t.size := by
      rintro hn rfl
      rw [h.child_iff, hnone] at hn
      exact absurd hn (by simp)
    by_cases hq : q = p
    · by_cases hn : n = t.size
      · simp [hq, hn]
      · simp [hq, hn, h.child_iff]
    · by_cases hn : n = t.size
      · simp only [hq, hn, if_true, if_false, Option.some.injEq]
        exact iff_of_false (fun hmem => hnew (hn ▸ hmem) hn) fun heq => hq heq.symm
      · simp [hq, hn, h.child_iff]
  nodup_children := by
    intro q
    rw [t.children_addChild hp, nextNumber_eq hnumber]
    split
    · refine List.nodup_append.mpr ⟨h.nodup_children p, by simp, ?_⟩
      intro n hn k hk
      rw [List.mem_singleton] at hk
      have hlt := lt_size_of_parent? ((h.child_iff n p).mp hn)
      exact hk ▸ Nat.ne_of_lt hlt
    · exact h.nodup_children q
  ends := (h.isGrounded.addChild hp tag).ends

end IsForest

end Tree

end WidgetStyle
