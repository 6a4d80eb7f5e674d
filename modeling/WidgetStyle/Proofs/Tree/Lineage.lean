import Mathlib.Data.List.Perm.Subperm
import Mathlib.Data.List.TakeWhile
import WidgetStyle.Tree

/-!
# WidgetStyle.Proofs.Tree.Lineage — the way from a node to its root

A walk upwards is cut off after as many steps as the tree has nodes.  In a forest the cut is never
felt (`ancestors_of_parent`): heights fall along the walk, so its nodes are distinct, and there are
not more than `size` of them.  With that the lineage of a node (`lineage`: the node and its
ancestors) satisfies the equations of a list, and `IsForest.induction` descends from the roots.

The second part reads `earlierSiblings` and `laterSiblings` as the two sides of a node in its
family: they are converse to each other (`mem_laterSiblings_of_mem_earlierSiblings`), and what
stands before a node that stands before `n` stands before `n`.
-/

namespace WidgetStyle

namespace Tree

variable {t : Tree}

/-! ## Walks upwards -/

theorem node?_eq_none_of_size_le {n : NodeId} (h : t.size ≤ n) : t.node? n = none := by
  unfold node?
  rw [Array.getElem?_eq_none_iff]
  exact h

/-- A node with a parent is a node of the tree. -/
theorem lt_size_of_parent? {n p : NodeId} (h : t.parent? n = some p) : n < t.size := by
  refine Nat.lt_of_not_le fun hn => ?_
  rw [parent?, node?_eq_none_of_size_le hn] at h
  simp at h

/-- A walk that does not use all its steps is not changed by one step more. -/
theorem ancestorsWithin_succ {steps : Nat} {n : NodeId}
    (h : (t.ancestorsWithin (steps + 1) n).length ≤ steps) :
    t.ancestorsWithin (steps + 1) n = t.ancestorsWithin steps n := by
  induction steps generalizing n with
  | zero => simpa [ancestorsWithin] using h
  | succ steps ih =>
      cases hp : t.parent? n with
      | none => simp [ancestorsWithin, hp]
      | some p =>
          rw [ancestorsWithin, hp] at h
          rw [ancestorsWithin, ancestorsWithin, hp]
          have hlen : (t.ancestorsWithin (steps + 1) p).length ≤ steps := by
            simpa using h
          simp only [ih hlen]

namespace IsForest

variable (h : t.IsForest)
include h

theorem lt_size_of_mem_ancestorsWithin {steps : Nat} {n m : NodeId}
    (hm : m ∈ t.ancestorsWithin steps n) : m < t.size := by
  induction steps generalizing n with
  | zero => simp [ancestorsWithin] at hm
  | succ steps ih =>
      rw [ancestorsWithin] at hm
      split at hm
      · simp at hm
      · rename_i p hp
        rcases List.mem_cons.mp hm with rfl | hm
        · exact h.parent_lt n _ hp
        · exact ih hm

/-- The walk goes strictly down in height, so it never returns to a node. -/
theorem nodup_cons_ancestorsWithin (steps : Nat) (n : NodeId) :
    (n :: t.ancestorsWithin steps n).Nodup := by
  obtain ⟨height, falls⟩ := h.ends
  -- Everything on the walk is lower than `n`, however far it goes.
  have lower : ∀ steps n m, m ∈ t.ancestorsWithin steps n → height m < height n := by
    intro steps
    induction steps with
    | zero => intro n m hm; simp [ancestorsWithin] at hm
    | succ steps ih =>
        intro n m hm
        rw [ancestorsWithin] at hm
        split at hm
        · simp at hm
        · rename_i p hp
          have hpn := falls n p hp
          rcases List.mem_cons.mp hm with rfl | hm
          · exact hpn
          · exact Nat.lt_trans (ih p m hm) hpn
  refine List.nodup_cons.mpr ⟨fun hm => Nat.lt_irrefl _ (lower steps n n hm), ?_⟩
  induction steps generalizing n with
  | zero => simp [ancestorsWithin]
  | succ steps ih =>
      rw [ancestorsWithin]
      split
      · exact List.nodup_nil
      · rename_i p _
        exact List.nodup_cons.mpr ⟨fun hm => Nat.lt_irrefl _ (lower steps p p hm), ih p⟩

/-- No walk has more nodes than the tree. -/
theorem length_ancestorsWithin_le_size (steps : Nat) (n : NodeId) :
    (t.ancestorsWithin steps n).length ≤ t.size := by
  -- Distinct numbers below `size`: there are at most `size` of them.
  have hnodup := (List.nodup_cons.mp (h.nodup_cons_ancestorsWithin steps n)).2
  have hsub : t.ancestorsWithin steps n ⊆ List.range t.size := fun m hm =>
    List.mem_range.mpr (h.lt_size_of_mem_ancestorsWithin hm)
  simpa using (hnodup.subperm hsub).length_le

/-- Enough steps give all ancestors. -/
theorem ancestorsWithin_eq {steps : Nat} (hs : t.size ≤ steps) (n : NodeId) :
    t.ancestorsWithin steps n = t.ancestors n := by
  induction hs with
  | refl => rfl
  | step hs ih =>
      rw [ancestorsWithin_succ (Nat.le_trans (h.length_ancestorsWithin_le_size _ n) hs), ih]

/-- The ancestors of a node are its parent and the parent's ancestors. -/
theorem ancestors_of_parent {n p : NodeId} (hp : t.parent? n = some p) :
    t.ancestors n = p :: t.ancestors p := by
  rw [← h.ancestorsWithin_eq (Nat.le_succ t.size) n, ancestorsWithin, hp]
  rfl

end IsForest

/-! ## Lineages -/

/-- A node and its ancestors, from the node upwards. -/
def lineage (t : Tree) (n : NodeId) : List NodeId := n :: t.ancestors n

theorem pathFromRoot_eq (t : Tree) (n : NodeId) : t.pathFromRoot n = (t.lineage n).reverse := by
  simp [pathFromRoot, lineage]

@[simp] theorem mem_lineage_self (t : Tree) (n : NodeId) : n ∈ t.lineage n :=
  List.mem_cons_self

/-- A node is outside a subtree if the top of the subtree is not on its lineage. -/
theorem isBelow_eq_false_iff {top n : NodeId} :
    t.isBelow top n = false ↔ top ∉ t.lineage n := by
  rw [isBelow, lineage, List.mem_cons, not_or, Bool.or_eq_false_iff, beq_eq_false_iff_ne,
    ← Bool.not_eq_true, List.contains_iff_mem]
  exact and_congr_left' ne_comm

theorem ancestors_of_root {n : NodeId} (hp : t.parent? n = none) : t.ancestors n = [] := by
  unfold ancestors
  cases t.size with
  | zero => rfl
  | succ steps => rw [ancestorsWithin, hp]

theorem lineage_of_root {n : NodeId} (hp : t.parent? n = none) : t.lineage n = [n] := by
  rw [lineage, ancestors_of_root hp]

namespace IsForest

variable (h : t.IsForest)
include h

theorem lineage_of_parent {n p : NodeId} (hp : t.parent? n = some p) :
    t.lineage n = n :: t.lineage p := by
  rw [lineage, h.ancestors_of_parent hp, lineage]

/-- What holds of the roots and passes from parents to children holds of every node. -/
theorem induction {P : NodeId → Prop} (root : ∀ n, t.parent? n = none → P n)
    (child : ∀ n p, t.parent? n = some p → P p → P n) (n : NodeId) : P n := by
  obtain ⟨height, falls⟩ := h.ends
  -- Strong induction on the height, which no longer appears in the statement.
  induction hk : height n using Nat.strongRecOn generalizing n with
  | _ k ih =>
      cases hp : t.parent? n with
      | none => exact root n hp
      | some p => exact child n p hp (ih _ (hk ▸ falls n p hp) p rfl)

theorem mem_lineage_of_parent {n p m : NodeId} (hp : t.parent? n = some p) :
    m ∈ t.lineage n ↔ m = n ∨ m ∈ t.lineage p := by
  rw [h.lineage_of_parent hp, List.mem_cons]

/-- The lineage of a member is part of the lineage. -/
theorem lineage_subset {n m : NodeId} (hm : m ∈ t.lineage n) : t.lineage m ⊆ t.lineage n := by
  induction n using h.induction with
  | root n hp =>
      rw [lineage_of_root hp, List.mem_singleton] at hm
      rw [hm]
      exact List.Subset.refl _
  | child n p hp ih =>
      rcases (h.mem_lineage_of_parent hp).mp hm with rfl | hm
      · exact List.Subset.refl _
      · rw [h.lineage_of_parent hp]
        exact List.Subset.trans (ih hm) (List.subset_cons_self _ _)

/-- The parent of a member of a lineage belongs to it. -/
theorem parent_mem_lineage {n m p : NodeId} (hm : m ∈ t.lineage n) (hp : t.parent? m = some p) :
    p ∈ t.lineage n := by
  refine h.lineage_subset hm ?_
  rw [h.lineage_of_parent hp]
  exact List.mem_cons_of_mem _ (mem_lineage_self t p)

theorem parent_mem_ancestors {n m p : NodeId} (hm : m ∈ t.ancestors n)
    (hp : t.parent? m = some p) : p ∈ t.ancestors n := by
  cases hq : t.parent? n with
  | none => rw [ancestors_of_root hq] at hm; simp at hm
  | some q =>
      have hlineage : t.ancestors n = t.lineage q := h.ancestors_of_parent hq
      rw [hlineage] at hm ⊢
      exact h.parent_mem_lineage hm hp

/-- A proper member of a lineage has a child on the way. -/
theorem exists_child_of_mem_lineage {n m : NodeId} (hm : m ∈ t.lineage n) (hne : m ≠ n) :
    ∃ c ∈ t.lineage n, t.parent? c = some m := by
  induction n using h.induction with
  | root n hp =>
      rw [lineage_of_root hp, List.mem_singleton] at hm
      exact absurd hm hne
  | child n p hp ih =>
      rcases (h.mem_lineage_of_parent hp).mp hm with rfl | hm
      · exact absurd rfl hne
      · by_cases hmp : m = p
        · subst hmp
          exact ⟨n, mem_lineage_self t n, hp⟩
        · obtain ⟨c, hc, hcm⟩ := ih hm hmp
          exact ⟨c, (h.mem_lineage_of_parent hp).mpr (Or.inr hc), hcm⟩

theorem parent?_ne_self (n : NodeId) : t.parent? n ≠ some n := by
  intro hp
  obtain ⟨height, falls⟩ := h.ends
  exact Nat.lt_irrefl _ (falls n n hp)

theorem not_mem_ancestors (n : NodeId) : n ∉ t.ancestors n :=
  (List.nodup_cons.mp (h.nodup_cons_ancestorsWithin t.size n)).1

end IsForest

/-! ## Siblings -/

theorem mem_earlierSiblings_iff {n m : NodeId} :
    m ∈ t.earlierSiblings n ↔ n ∈ t.family n ∧ m ∈ (t.family n).takeWhile (· != n) := by
  unfold earlierSiblings
  split <;> simp_all

theorem mem_family_of_mem_earlierSiblings {n m : NodeId} (hm : m ∈ t.earlierSiblings n) :
    m ∈ t.family n :=
  List.takeWhile_subset _ (mem_earlierSiblings_iff.mp hm).2

/-- The members of a family share the parent, and so the family. -/
theorem IsForest.parent?_of_mem_family (h : t.IsForest) {n m : NodeId} (hm : m ∈ t.family n) :
    t.parent? m = t.parent? n := by
  unfold family at hm
  cases hp : t.parent? n with
  | none => rw [hp] at hm; simp at hm
  | some p =>
      rw [hp] at hm
      exact (h.child_iff m p).mp hm

theorem family_congr {n m : NodeId} (hp : t.parent? m = t.parent? n) : t.family m = t.family n := by
  rw [family, family, hp]

/-- A list is cut at the first `n`: what comes before, `n` itself, and the rest. -/
theorem takeWhile_append_cons {l : List NodeId} {n : NodeId} (hn : n ∈ l) :
    ∃ rest, l = l.takeWhile (· != n) ++ n :: rest := by
  induction l with
  | nil => simp at hn
  | cons a l ih =>
      by_cases ha : a = n
      · subst ha
        exact ⟨l, by simp⟩
      · obtain ⟨rest, hrest⟩ := ih (by simpa [Ne.symm ha] using hn)
        refine ⟨rest, ?_⟩
        rw [List.takeWhile_cons_of_pos (by simpa using ha), List.cons_append, ← hrest]

/-- What comes before the first `m` comes before `n`, when `m` itself does. -/
theorem takeWhile_subset_of_mem {l : List NodeId} {n m : NodeId}
    (hm : m ∈ l.takeWhile (· != n)) : l.takeWhile (· != m) ⊆ l.takeWhile (· != n) := by
  induction l with
  | nil => simp at hm
  | cons a l ih =>
      by_cases han : a = n
      · simp [han] at hm
      · rw [List.takeWhile_cons_of_pos (by simpa using han)] at hm
        by_cases ham : a = m
        · simp [ham]
        · rw [List.takeWhile_cons_of_pos (by simpa using ham),
            List.takeWhile_cons_of_pos (by simpa using han)]
          refine List.cons_subset_cons a (ih ?_)
          rcases List.mem_cons.mp hm with rfl | hm
          · exact absurd rfl ham
          · exact hm

namespace IsForest

variable (h : t.IsForest)
include h

theorem parent?_of_mem_earlierSiblings {n m : NodeId} (hm : m ∈ t.earlierSiblings n) :
    t.parent? m = t.parent? n :=
  h.parent?_of_mem_family (mem_family_of_mem_earlierSiblings hm)

theorem earlierSiblings_trans {n m k : NodeId} (hm : m ∈ t.earlierSiblings n)
    (hk : k ∈ t.earlierSiblings m) : k ∈ t.earlierSiblings n := by
  have hfamily := family_congr (h.parent?_of_mem_earlierSiblings hm)
  obtain ⟨hn, hm⟩ := mem_earlierSiblings_iff.mp hm
  obtain ⟨-, hk⟩ := mem_earlierSiblings_iff.mp hk
  rw [hfamily] at hk
  exact mem_earlierSiblings_iff.mpr ⟨hn, takeWhile_subset_of_mem hm hk⟩

/-- Earlier and later siblings are converse. -/
theorem mem_laterSiblings_of_mem_earlierSiblings {n m : NodeId}
    (hm : m ∈ t.earlierSiblings n) : n ∈ t.laterSiblings m := by
  have hfamily := family_congr (h.parent?_of_mem_earlierSiblings hm)
  obtain ⟨hn, hm⟩ := mem_earlierSiblings_iff.mp hm
  obtain ⟨rest, hcut⟩ := takeWhile_append_cons hn
  unfold laterSiblings
  rw [hfamily]
  generalize (t.family n).takeWhile (· != n) = before at hm hcut
  rw [hcut, List.dropWhile_append]
  -- `m` stands in `before`, so the cut at `m` leaves the whole of `n :: rest` behind it.
  have hne : (before.dropWhile (· != m)).isEmpty = false := by
    rw [List.isEmpty_eq_false_iff]
    intro hnil
    have hall := List.dropWhile_eq_nil_iff.mp hnil
    simpa using hall m hm
  rw [hne]
  cases hd : before.dropWhile (· != m) with
  | nil => rw [hd] at hne; simp at hne
  | cons a l => simp

end IsForest

end Tree

end WidgetStyle
