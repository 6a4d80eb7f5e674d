import Mathlib.Data.List.Nodup
import WidgetStyle.Proofs.Tree.Lineage

/-!
# WidgetStyle.Proofs.Tree.Siblings — siblings by their places among the children

The siblings of a node are found by cutting the children of its parent at the node.  In a forest a
node stands once among the children, so there is one cut, whichever way it was found
(`IsForest.siblings_of_children`).  `Tree.Precedes` and `Tree.Neighbours` say where two nodes
stand without any search: one somewhere before the other, or right before it, among the children of
one node.  The lists and the single steps that matching walks along are read in those terms.
-/

namespace WidgetStyle

namespace Tree

/-- `m` stands somewhere before `n` among the children of one node. -/
def Precedes (t : Tree) (m n : NodeId) : Prop :=
  ∃ p before between after, t.children p = before ++ m :: (between ++ n :: after)

/-- `m` stands right before `n` among the children of one node. -/
def Neighbours (t : Tree) (m n : NodeId) : Prop :=
  ∃ p before after, t.children p = before ++ m :: n :: after

variable {t : Tree}

theorem family_of_parent? {n p : NodeId} (hp : t.parent? n = some p) :
    t.family n = t.children p := by
  rw [family, hp]

theorem family_of_root {n : NodeId} (hp : t.parent? n = none) : t.family n = [] := by
  rw [family, hp]

/-- A node whose family has a member has a parent. -/
theorem exists_parent?_of_mem_family {n m : NodeId} (hm : m ∈ t.family n) :
    ∃ p, t.parent? n = some p := by
  cases hp : t.parent? n with
  | none =>
      rw [family_of_root hp] at hm
      exact absurd hm List.not_mem_nil
  | some p => exact ⟨p, rfl⟩

namespace IsForest

variable (h : t.IsForest) {n m p : NodeId}
include h

/-- However the children are cut at a node, its siblings are the two sides. -/
theorem siblings_of_children {before after : List NodeId}
    (hcut : t.children p = before ++ n :: after) :
    t.earlierSiblings n = before.reverse ∧ t.laterSiblings n = after := by
  have hmem : n ∈ t.children p := by rw [hcut]; simp
  have hfamily : t.family n = before ++ n :: after := by
    rw [family_of_parent? ((h.child_iff n p).mp hmem), hcut]
  have hnd : (before ++ n :: after).Nodup := hcut ▸ h.nodup_children p
  -- The node does not stand among those before it, so the walk to it passes all of them.
  have hpass : ∀ x ∈ before, (x != n) = true := by
    intro x hx
    have hne := (List.nodup_append.mp hnd).2.2 x hx n List.mem_cons_self
    simpa using hne
  constructor
  · rw [earlierSiblings, hfamily, if_pos (by simp), List.takeWhile_append_of_pos hpass]
    simp
  · rw [laterSiblings, hfamily, List.dropWhile_append_of_pos hpass]
    simp

/-- The children of the parent, cut at a node that has one. -/
theorem exists_children_eq (hp : t.parent? n = some p) :
    ∃ before after, t.children p = before ++ n :: after :=
  List.append_of_mem ((h.child_iff n p).mpr hp)

theorem mem_earlierSiblings_iff_precedes : m ∈ t.earlierSiblings n ↔ t.Precedes m n := by
  constructor
  · intro hm
    obtain ⟨p, hp⟩ := exists_parent?_of_mem_family (mem_family_of_mem_earlierSiblings hm)
    obtain ⟨before, after, hcut⟩ := h.exists_children_eq hp
    rw [(h.siblings_of_children hcut).1, List.mem_reverse] at hm
    obtain ⟨outer, between, rfl⟩ := List.append_of_mem hm
    exact ⟨p, outer, between, after, by simpa using hcut⟩
  · rintro ⟨p, before, between, after, hcut⟩
    have hcut' : t.children p = (before ++ m :: between) ++ n :: after := by simpa using hcut
    rw [(h.siblings_of_children hcut').1]
    simp

theorem previousSibling?_eq_some_iff : t.previousSibling? n = some m ↔ t.Neighbours m n := by
  constructor
  · intro hm
    obtain ⟨p, hp⟩ := exists_parent?_of_mem_family
      (mem_family_of_mem_earlierSiblings (List.mem_of_mem_head? hm))
    obtain ⟨before, after, hcut⟩ := h.exists_children_eq hp
    rw [previousSibling?, (h.siblings_of_children hcut).1, List.head?_reverse] at hm
    obtain ⟨outer, rfl⟩ := List.getLast?_eq_some_iff.mp hm
    exact ⟨p, outer, after, by simpa using hcut⟩
  · rintro ⟨p, before, after, hcut⟩
    have hcut' : t.children p = (before ++ [m]) ++ n :: after := by simpa using hcut
    rw [previousSibling?, (h.siblings_of_children hcut').1]
    simp

theorem nextSibling?_eq_some_iff : t.nextSibling? n = some m ↔ t.Neighbours n m := by
  constructor
  · intro hm
    cases hp : t.parent? n with
    | none => simp [nextSibling?, laterSiblings, family_of_root hp] at hm
    | some p =>
        obtain ⟨before, after, hcut⟩ := h.exists_children_eq hp
        rw [nextSibling?, (h.siblings_of_children hcut).2] at hm
        obtain ⟨rest, rfl⟩ := List.head?_eq_some_iff.mp hm
        exact ⟨p, before, rest, hcut⟩
  · rintro ⟨p, before, after, hcut⟩
    rw [nextSibling?, (h.siblings_of_children hcut).2]
    rfl

/-- The siblings before a node are the nearest of them and the siblings before that one. -/
theorem earlierSiblings_of_previousSibling? (hm : t.previousSibling? n = some m) :
    t.earlierSiblings n = m :: t.earlierSiblings m := by
  obtain ⟨p, before, after, hcut⟩ := h.previousSibling?_eq_some_iff.mp hm
  have hcut' : t.children p = (before ++ [m]) ++ n :: after := by simpa using hcut
  rw [(h.siblings_of_children hcut').1, (h.siblings_of_children hcut).1]
  simp

theorem earlierSiblings_lt_size (hm : m ∈ t.earlierSiblings n) : m < t.size := by
  -- A sibling has the parent that makes it one, and so is a node of the tree.
  obtain ⟨p, hp⟩ := exists_parent?_of_mem_family (mem_family_of_mem_earlierSiblings hm)
  exact lt_size_of_parent? ((h.parent?_of_mem_earlierSiblings hm).trans hp)

theorem nodup_earlierSiblings (n : NodeId) : (t.earlierSiblings n).Nodup := by
  cases hp : t.parent? n with
  | none => simp [earlierSiblings, family_of_root hp]
  | some p =>
      obtain ⟨before, after, hcut⟩ := h.exists_children_eq hp
      have hnd : (before ++ n :: after).Nodup := hcut ▸ h.nodup_children p
      rw [(h.siblings_of_children hcut).1, List.nodup_reverse]
      exact (List.nodup_append.mp hnd).1

/-- No node has more siblings before it than the tree has nodes. -/
theorem length_earlierSiblings_le_size (n : NodeId) : (t.earlierSiblings n).length ≤ t.size := by
  have hsub : t.earlierSiblings n ⊆ List.range t.size := fun m hm =>
    List.mem_range.mpr (h.earlierSiblings_lt_size hm)
  simpa using ((h.nodup_earlierSiblings n).subperm hsub).length_le

end IsForest

end Tree

end WidgetStyle
