import Mathlib.Logic.Relation
import WidgetStyle.Proofs.Tree.Forest

/-!
# WidgetStyle.Proofs.Tree.Moves — what moving a node changes

A node is moved in three steps: its old parent forgets it, the new one takes it as the last child, and
the node notes the new parent.  No other node gets another parent (`parent?_move_eq`), and but for the
moved node every list of children stays as it is (`filter_children_move`).  In a forest the moved node
is left at the end of its new parent's children alone (`IsForest.children_move`).

A node may hang below every node that does not hang below it (`Below`).  Then walks upwards still end
(`IsGrounded.move`): what is moved along is lifted above the new parent, and all else keeps its height.
Hence a forest stays one (`IsForest.move`).
-/

namespace WidgetStyle

namespace Tree

/-! ## Parent chains -/

/-- Whether the parents of a node, and theirs in turn, lead to another one; every node is below
itself. -/
def Below (t : Tree) (n top : NodeId) : Prop :=
  Relation.ReflTransGen (fun m p => t.parent? m = some p) n top

namespace IsForest

variable {t : Tree} (h : t.IsForest) {n top : NodeId}
include h

end IsForest

/-- A node hangs below another one just when its parent does. -/
theorem below_of_parent {t : Tree} {n p top : NodeId} (hp : t.parent? n = some p) (hne : n ≠ top) :
    t.Below n top ↔ t.Below p top := by
  refine ⟨fun hbelow => ?_, fun hbelow => hbelow.head hp⟩
  rcases hbelow.cases_head with heq | ⟨q, hq, hbelow⟩
  · exact absurd heq hne
  · obtain rfl := Option.some.inj (hp.symm.trans hq)
    exact hbelow

section Children

variable (t : Tree) (n m p : NodeId)

theorem children_modify_self {f : Node → Node} {g : List NodeId → List NodeId} (hn : n < t.size)
    (h : ∀ x, (f x).children = g x.children) : (t.modify n f).children n = g (t.children n) := by
  obtain ⟨x, hx⟩ : ∃ x, t.node? n = some x := ⟨_, Array.getElem?_eq_getElem hn⟩
  rw [children, children, node?_modify, if_pos rfl, hx]
  exact h x

theorem children_modify_of_ne {f : Node → Node} (h : m ≠ n) :
    (t.modify n f).children m = t.children m := by
  rw [children, children, node?_modify_of_ne t n m f h]

/-- The tree in which the parent of a node has forgotten it. -/
def detach (t : Tree) (n : NodeId) : Tree :=
  match t.parent? n with
  | some old => t.modify old fun x => { x with children := x.children.filter (· != n) }
  | none => t

theorem move_eq : t.move n p =
    ((t.detach n).modify p fun x => { x with children := x.children ++ [n] }).modify n
      fun x => { x with parent := some p } := by
  unfold move detach
  cases t.parent? n <;> rfl

theorem size_detach : (t.detach n).size = t.size := by
  rw [detach]
  cases t.parent? n with
  | none => rfl
  | some old => exact size_modify t old _

theorem parent?_detach : (t.detach n).parent? m = t.parent? m := by
  rw [detach]
  cases t.parent? n with
  | none => rfl
  | some old => exact t.parent?_modify old m fun _ => rfl

end Children

/-- Moving a node gives it its new parent, and no other node gets another one. -/
theorem parent?_move_eq (t : Tree) {n : NodeId} (hn : n < t.size) (p m : NodeId) :
    (t.move n p).parent? m = if m = n then some p else t.parent? m := by
  by_cases hm : m = n
  · rw [if_pos hm, hm, parent?_move t n p hn]
  · rw [if_neg hm, move_eq, parent?, node?_modify_of_ne _ _ _ _ hm]
    change (Tree.parent? _ m) = _
    have hkept : ∀ x : Node, { x with children := x.children ++ [n] }.parent = x.parent := fun _ => rfl
    exact ((t.detach n).parent?_modify p m hkept).trans (t.parent?_detach n m)

/-- What stands in the lists of children when the old parent has forgotten the moved node stays there,
and the moved node is put at the end of its new parent's. -/
theorem children_move_eq (t : Tree) {p : NodeId} (hp : p < t.size) (n m : NodeId) :
    (t.move n p).children m = (t.detach n).children m ++ if m = p then [n] else [] := by
  have hkept : ∀ x : Node, { x with parent := some p }.children = x.children := fun _ => rfl
  have htaken : ∀ x : Node, { x with children := x.children ++ [n] }.children = x.children ++ [n] :=
    fun _ => rfl
  rw [move_eq, children_modify _ n m hkept]
  by_cases hm : m = p
  · subst hm
    have hsize : m < (t.detach n).size := by rwa [size_detach]
    rw [if_pos rfl, children_modify_self (g := (· ++ [n])) _ m hsize htaken]
  · rw [if_neg hm, children_modify_of_ne _ _ _ hm, List.append_nil]

/-- A moved node keeps walks upwards ending, unless it is moved below itself. -/
theorem IsGrounded.move {t : Tree} (h : t.IsGrounded) {n p : NodeId} (hn : n < t.size)
    (hp : p < t.size) (hbelow : ¬t.Below p n) : (t.move n p).IsGrounded where
  parent_lt := by
    intro m q hq
    rw [size_move]
    rw [t.parent?_move_eq hn] at hq
    split at hq
    · exact Option.some.inj hq ▸ hp
    · exact h.parent_lt m q hq
  ends := by
    classical
    -- Whatever hangs below the moved node is lifted with it, above the new parent.
    obtain ⟨height, falls⟩ := h.ends
    refine ⟨fun m => if t.Below m n then height m + (height p + 1) else height m, fun m q hq => ?_⟩
    simp only
    rw [t.parent?_move_eq hn] at hq
    split at hq
    · next hm =>
        obtain rfl := Option.some.inj hq
        have hself : t.Below m n := hm ▸ .refl
        rw [if_neg hbelow, if_pos hself]
        omega
    · next hm =>
        have hfalls := falls m q hq
        simp only [below_of_parent hq hm]
        split <;> omega

namespace IsForest

variable {t : Tree} (h : t.IsForest) {n p : NodeId}
include h

/-- A forgotten node is in no list of children. -/
theorem children_detach (n m : NodeId) :
    (t.detach n).children m = (t.children m).filter (· != n) := by
  -- Where the node does not stand, nothing is left out.
  have hkeep : t.parent? n ≠ some m → t.children m = (t.children m).filter (· != n) := by
    intro hparent
    refine (List.filter_eq_self.mpr fun k hk => ?_).symm
    rw [bne_iff_ne]
    rintro rfl
    exact hparent ((h.child_iff k m).mp hk)
  rw [detach]
  cases hold : t.parent? n with
  | none => exact hkeep (by rw [hold]; exact nofun)
  | some old =>
      by_cases hm : m = old
      · subst hm
        exact t.children_modify_self m (h.parent_lt n m hold) fun _ => rfl
      · refine (t.children_modify_of_ne old m hm).trans (hkeep ?_)
        rw [hold]
        exact fun heq => hm (Option.some.inj heq).symm

/-- The lists of children after a move: the moved node is taken out wherever it stands, and put at the
end of its new parent's. -/
theorem children_move (hp : p < t.size) (n m : NodeId) :
    (t.move n p).children m = (t.children m).filter (· != n) ++ if m = p then [n] else [] := by
  rw [t.children_move_eq hp, h.children_detach]

/-- **A moved node keeps the forest**, unless it is moved below itself. -/
theorem move (hn : n < t.size) (hp : p < t.size) (hbelow : ¬t.Below p n) : (t.move n p).IsForest where
  parent_lt := (h.isGrounded.move hn hp hbelow).parent_lt
  child_iff := by
    intro m q
    rw [t.parent?_move_eq hn, h.children_move hp, List.mem_append, List.mem_filter, bne_iff_ne]
    by_cases hm : m = n
    · by_cases hq : q = p
      · simp [hm, hq]
      · simp [hm, hq, Ne.symm hq]
    · by_cases hq : q = p
      · simp [hm, hq, h.child_iff]
      · simp [hm, hq, h.child_iff]
  nodup_children := by
    intro q
    have hrest : ((t.children q).filter (· != n)).Nodup := (h.nodup_children q).filter _
    rw [h.children_move hp]
    split
    · refine List.nodup_append.mpr ⟨hrest, List.pairwise_singleton _ n, fun m hm k hk => ?_⟩
      rw [List.mem_singleton.mp hk]
      exact bne_iff_ne.mp (List.mem_filter.mp hm).2
    · rwa [List.append_nil]
  ends := (h.isGrounded.move hn hp hbelow).ends

end IsForest

end Tree

end WidgetStyle
