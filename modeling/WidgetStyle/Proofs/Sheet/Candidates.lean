import WidgetStyle.Proofs.Selector.Modes
import WidgetStyle.Sheet.Stylesheet

/-!
# WidgetStyle.Proofs.Sheet.Candidates — matching in two steps

The candidates of a node are found without looking at pseudo-classes, and narrowed down when the
states are known.  This module shows that the two steps give the list that strict matching gives at
once, in the same order (`narrow_candidates_withStates`): the candidates are a stable sort of a
filtered list, a stable sort commutes with filters (`filter_mergeSort`), and the two filters
together are strict matching (`selectsAt_loose_and_narrowed`).

The order that positions are sorted by is a total preorder: `precedes_total`, `precedes_trans`.
-/

namespace WidgetStyle

/-! ## Stable sorting and filters -/

/-- A list whose first part passes a test and whose second part fails it is cut in one way only. -/
theorem append_left_eq_of_test {α : Type} {q : α → Bool} {xs xs' ys ys' : List α}
    (h : xs ++ ys = xs' ++ ys') (hxs : ∀ a ∈ xs, q a = true) (hys : ∀ a ∈ ys, q a = false)
    (hxs' : ∀ a ∈ xs', q a = true) (hys' : ∀ a ∈ ys', q a = false) :
    xs = xs' ∧ ys = ys' := by
  -- The first part is what the test keeps.
  have cut : ∀ xs ys : List α, (∀ a ∈ xs, q a = true) → (∀ a ∈ ys, q a = false) →
      (xs ++ ys).filter q = xs := by
    intro xs ys hxs hys
    rw [List.filter_append, List.filter_eq_self.mpr hxs,
      List.filter_eq_nil_iff.mpr fun a ha => by simp [hys a ha], List.append_nil]
  have hleft : xs = xs' := by
    rw [← cut xs ys hxs hys, ← cut xs' ys' hxs' hys', h]
  subst hleft
  exact ⟨rfl, List.append_cancel_left h⟩

/-- A stable sort commutes with filters. -/
theorem filter_mergeSort {α : Type} {le : α → α → Bool}
    (trans : ∀ a b c, le a b = true → le b c = true → le a c = true)
    (total : ∀ a b, (le a b || le b a) = true) (keep : α → Bool) (l : List α) :
    (l.mergeSort le).filter keep = (l.filter keep).mergeSort le := by
  induction l with
  | nil => simp
  | cons a l ih =>
      -- Sorting `a :: l` puts `a` somewhere into the sorted `l`.
      obtain ⟨before, after, hsort, hrest, hbefore⟩ := List.mergeSort_cons trans total a l
      rw [hrest, List.filter_append] at ih
      rw [hsort, List.filter_append]
      cases ha : keep a with
      | false =>
          rw [List.filter_cons_of_neg (by simp [ha]), List.filter_cons_of_neg (by simp [ha]), ih]
      | true =>
          obtain ⟨before', after', hsort', hrest', hbefore'⟩ :=
            List.mergeSort_cons trans total a (l.filter keep)
          rw [List.filter_cons_of_pos ha, List.filter_cons_of_pos ha, hsort']
          -- Both lists are cut where `a` belongs: before it stands what `a` does not precede.
          have hafter : ∀ {xs ys : List α}, (xs ++ a :: ys).Pairwise (le · · = true) →
              ∀ b ∈ ys, le a b = true := fun hpair b hb =>
            (List.pairwise_cons.mp (List.pairwise_append.mp hpair).2.1).1 b hb
          have hsorted : (before ++ a :: after).Pairwise (le · · = true) := by
            rw [← hsort]; exact List.pairwise_mergeSort trans total _
          have hsorted' : (before' ++ a :: after').Pairwise (le · · = true) := by
            rw [← hsort']; exact List.pairwise_mergeSort trans total _
          obtain ⟨h₁, h₂⟩ := append_left_eq_of_test (q := fun b => !le a b)
            (ih.trans hrest') (fun b hb => hbefore b (List.mem_filter.mp hb).1)
            (fun b hb => by simp [hafter hsorted b (List.mem_filter.mp hb).1])
            hbefore' (fun b hb => by simp [hafter hsorted' b hb])
          rw [h₁, h₂]

/-! ## The cascade order -/

instance : Std.TransOrd Specificity :=
  inferInstanceAs (Std.TransCmp (compareLex (compareOn Specificity.ids)
    (compareLex (compareOn Specificity.classes) (compareOn Specificity.tags))))

/-- Specificity first, then the place in the order. -/
def StyleRule.cascadeOrder : StyleRule → StyleRule → Ordering :=
  compareLex (compareOn StyleRule.specificity) (compareOn StyleRule.order)

instance : Std.TransCmp StyleRule.cascadeOrder :=
  inferInstanceAs (Std.TransCmp (compareLex _ _))

namespace Stylesheet

variable (s : Stylesheet)

theorem precedes_of_rules {i j : Nat} {a b : StyleRule} (hi : s.rule? i = some a)
    (hj : s.rule? j = some b) : s.precedes i j = (a.cascadeOrder b).isLE := by
  rw [precedes, hi, hj]
  change (a.cascadeOrder b != .gt) = _
  cases a.cascadeOrder b <;> rfl

theorem precedes_total (i j : Nat) : (s.precedes i j || s.precedes j i) = true := by
  cases hi : s.rule? i with
  | none => simp [precedes, hi]
  | some a =>
      cases hj : s.rule? j with
      | none => simp [precedes, hj]
      | some b =>
          rw [s.precedes_of_rules hi hj, s.precedes_of_rules hj hi, Bool.or_eq_true]
          cases hab : a.cascadeOrder b with
          | lt => exact Or.inl rfl
          | eq => exact Or.inl rfl
          | gt =>
              right
              rw [@Std.OrientedCmp.eq_swap _ StyleRule.cascadeOrder, hab]
              rfl

theorem precedes_trans (i j k : Nat) (hij : s.precedes i j = true) (hjk : s.precedes j k = true) :
    s.precedes i k = true := by
  cases hi : s.rule? i with
  | none => simp [precedes, hi]
  | some a =>
      cases hj : s.rule? j with
      | none => simp [precedes, hi, hj] at hij
      | some b =>
          cases hk : s.rule? k with
          | none => simp [precedes, hj, hk] at hjk
          | some c =>
              rw [s.precedes_of_rules hi hj] at hij
              rw [s.precedes_of_rules hj hk] at hjk
              rw [s.precedes_of_rules hi hk]
              exact Std.TransCmp.isLE_trans hij hjk

/-! ## Narrowing -/

section Narrow

variable {s}
variable (t : Tree) (n : NodeId)

/-- The test that `narrow` makes at a position. -/
def isNarrowed (s : Stylesheet) (position : Nat) : Bool :=
  (s.rule? position).any fun rule =>
    !rule.selector.hasPseudoClasses || rule.selector.selects t .strict n

/-- Loose matching and the test of `narrow` together are strict matching. -/
theorem selectsAt_loose_and_narrowed (position : Nat) :
    (s.isNarrowed t n position && s.selectsAt t .loose n position) =
      s.selectsAt t .strict n position := by
  unfold isNarrowed selectsAt
  cases s.rule? position with
  | none => rfl
  | some rule =>
      simp only [Option.any_some]
      cases hp : rule.selector.hasPseudoClasses with
      | false => simp [Selector.selects_loose_eq_strict hp]
      | true =>
          cases hs : rule.selector.selects t .strict n with
          | false => simp
          | true => simp [Selector.selects_loose_of_strict hs]

/-- Narrowing the candidates of a tree gives its strict matches. -/
theorem narrow_candidates (s : Stylesheet) :
    s.narrow t n (s.candidates t .loose n) = s.candidates t .strict n := by
  change (s.candidates t .loose n).filter (s.isNarrowed t n) = _
  unfold candidates
  simp only
  rw [filter_mergeSort s.precedes_trans s.precedes_total, List.filter_filter]
  simp only [selectsAt_loose_and_narrowed]

/-- Trees in which a node has one tag and one id, and is selected by the same selectors, have the
same candidates for it. -/
theorem candidates_congr (s : Stylesheet) {t u : Tree} {mode : MatchMode} {n : NodeId}
    (tag : t.tag n = u.tag n) (id : t.idOf? n = u.idOf? n)
    (selects : ∀ x : Selector, x.selects t mode n = x.selects u mode n) :
    s.candidates t mode n = s.candidates u mode n := by
  have hkeys : FilingKey.ofNode t n = FilingKey.ofNode u n := by
    unfold FilingKey.ofNode
    rw [tag, id]
  have htest : s.selectsAt t mode n = s.selectsAt u mode n := by
    funext position
    unfold selectsAt
    simp only [selects]
  unfold candidates
  rw [hkeys, htest]

/-- States make no difference to the candidates of a node. -/
theorem candidates_loose_withStates (s : Stylesheet) (states : NodeId → PseudoSet) :
    s.candidates (t.withStates states) .loose n = s.candidates t .loose n :=
  s.candidates_congr (t.tag_withStates states n) (t.idOf?_withStates states n)
    fun x => x.selects_loose_withStates t states n

/-- **Matching in two steps is strict matching.**  Candidates that were collected in a tree, and
narrowed down after the states of all its nodes have been set anew, are what strict matching finds
in the new states, in the same order. -/
theorem narrow_candidates_withStates (s : Stylesheet) (t : Tree) (states : NodeId → PseudoSet)
    (n : NodeId) :
    s.narrow (t.withStates states) n (s.candidates t .loose n) =
      s.candidates (t.withStates states) .strict n := by
  rw [← s.candidates_loose_withStates t n states, narrow_candidates]

end Narrow

end Stylesheet

end WidgetStyle
