import Mathlib.Algebra.GroupWithZero.Nat
import WidgetStyle.Selector.Basic

/-!
# WidgetStyle.Proofs.Selector.Tiers — what a specificity counts

A specificity is a sum of sums: over the compounds of a chain, and over the simple selectors of each
compound.  All of these additions saturate.  Still a tier comes to the number of its simple
selectors in the whole chain, or to the highest count when there are more of them
(`Selector.count_specificity`).

When no tier of one specificity is above that of another, neither is the specificity
(`Specificity.Within`), and that is so whenever the one chain has all simple selectors of the other
(`Selector.within_of_sublist`). Ids decide alone as long as their number does not reach the highest
count (`Selector.compare_eq_lt_of_ids`).
-/

namespace WidgetStyle

/-- The tiers of a specificity. -/
inductive Tier where
  | ids | classes | tags
  deriving DecidableEq, Repr

/-- The tier that a simple selector counts in; the universal one has none. -/
def SimpleSelector.tier? : SimpleSelector → Option Tier
  | .hasId _ => some .ids
  | .hasClass _ | .hasAttribute _ | .attributeIs _ _ | .pseudo _ => some .classes
  | .hasTag _ => some .tags
  | .universal => none

/-- The number of simple selectors of a tier. -/
def tally (tier : Tier) (simples : List SimpleSelector) : Nat :=
  simples.countP fun s => s.tier? = some tier

/-- The simple selectors of all compounds, from left to right. -/
def Selector.simples (s : Selector) : List SimpleSelector := s.compounds.flatMap Compound.simples

/-! ## Counts of a tier -/

namespace Specificity

/-- The count of a tier. -/
def count (s : Specificity) : Tier → Nat
  | .ids => s.ids
  | .classes => s.classes
  | .tags => s.tags

theorem ext_count {a b : Specificity} (h : ∀ tier, a.count tier = b.count tier) : a = b := by
  cases a
  cases b
  exact congr (congr (congrArg mk (h .ids)) (h .classes)) (h .tags)

theorem count_add (a b : Specificity) (tier : Tier) :
    (a.add b).count tier = saturate (a.count tier + b.count tier) := by
  cases tier <;> rfl

/-- What is kept of two counts has the same sum as the counts, as far as that is kept. -/
theorem saturate_add_saturate (m n : Nat) : saturate (saturate m + saturate n) = saturate (m + n) := by
  simp only [saturate]
  omega

/-- Saturating at each step of a sum comes to the same as saturating once. -/
theorem count_foldl_add {α : Type} {f : α → Specificity} {number : α → Nat} {tier : Tier}
    (hf : ∀ x, (f x).count tier = saturate (number x)) (xs : List α) {total : Specificity} {start : Nat}
    (htotal : total.count tier = saturate start) :
    (xs.foldl (fun total x => total.add (f x)) total).count tier =
      saturate (start + (xs.map number).sum) := by
  induction xs generalizing total start with
  | nil => exact htotal
  | cons x xs ih =>
      have hadd : (total.add (f x)).count tier = saturate (start + number x) := by
        rw [count_add, htotal, hf, saturate_add_saturate]
      rw [List.foldl_cons, ih hadd, List.map_cons, List.sum_cons, Nat.add_assoc]

end Specificity

theorem tally_cons (tier : Tier) (s : SimpleSelector) (simples : List SimpleSelector) :
    tally tier (s :: simples) = tally tier [s] + tally tier simples := by
  rw [tally, tally, tally, ← List.countP_append, List.singleton_append]

theorem tally_append (tier : Tier) (front back : List SimpleSelector) :
    tally tier (front ++ back) = tally tier front + tally tier back :=
  List.countP_append

theorem sum_map_tally (tier : Tier) (simples : List SimpleSelector) :
    (simples.map fun s => tally tier [s]).sum = tally tier simples := by
  induction simples with
  | nil => rfl
  | cons s simples ih => rw [List.map_cons, List.sum_cons, ih, tally_cons tier s simples]

theorem SimpleSelector.count_specificity (s : SimpleSelector) (tier : Tier) :
    s.specificity.count tier = saturate (tally tier [s]) := by
  cases s <;> cases tier <;> rfl

theorem Compound.count_specificity (c : Compound) (tier : Tier) :
    c.specificity.count tier = saturate (tally tier c.simples) := by
  have hzero : Specificity.zero.count tier = saturate 0 := by cases tier <;> rfl
  have hsum := Specificity.count_foldl_add
    (fun s : SimpleSelector => s.count_specificity tier) c.simples hzero
  rwa [Nat.zero_add, sum_map_tally] at hsum

/-- A tier counts its simple selectors over all compounds, and saturates. -/
theorem Selector.count_specificity (s : Selector) (tier : Tier) :
    s.specificity.count tier = saturate (tally tier s.simples) := by
  have hsum := Specificity.count_foldl_add
    (fun link : Combinator × Compound => link.2.count_specificity tier) s.rest
    (s.first.count_specificity tier)
  have hrest : (s.rest.map fun link => tally tier link.2.simples).sum =
      tally tier ((s.rest.map Prod.snd).flatMap Compound.simples) := by
    rw [tally, List.countP_flatMap, List.map_map]
    rfl
  rwa [hrest, ← tally_append] at hsum

/-! ## Comparison -/

namespace Specificity

variable {a b : Specificity}

/-- No tier of the one specificity is above that of the other, and the order of specificities does
not put it above either. -/
structure Within (a b : Specificity) : Prop where
  count_le : ∀ tier, a.count tier ≤ b.count tier
  isLE : (compare a b).isLE = true

theorem within_of_count_le (h : ∀ tier, a.count tier ≤ b.count tier) : a.Within b := by
  refine ⟨h, ?_⟩
  have hids : a.ids ≤ b.ids := h .ids
  have hclasses : a.classes ≤ b.classes := h .classes
  have htags : a.tags ≤ b.tags := h .tags
  change (Specificity.compare a b).isLE = true
  simp only [Specificity.compare, Ordering.isLE_then_iff_or, Nat.isLE_compare, Nat.compare_eq_lt,
    Nat.compare_eq_eq]
  omega

theorem compare_eq_lt_of_ids_lt (h : a.ids < b.ids) : compare a b = .lt := by
  rw [Specificity.compare, Nat.compare_eq_lt.mpr h]
  rfl

end Specificity

namespace Selector

variable {s longer : Selector}

theorem within_of_tally_le (h : ∀ tier, tally tier s.simples ≤ tally tier longer.simples) :
    s.specificity.Within longer.specificity := by
  refine Specificity.within_of_count_le fun tier => ?_
  rw [count_specificity, count_specificity]
  have := h tier
  simp only [saturate]
  omega

/-- More simple selectors, wherever they stand, never make a specificity lower. -/
theorem within_of_sublist (h : s.simples.Sublist longer.simples) :
    s.specificity.Within longer.specificity :=
  within_of_tally_le fun _ => h.countP_le

/-- More ids make a higher specificity, whatever else is counted. -/
theorem compare_eq_lt_of_ids (hmore : tally .ids s.simples < tally .ids longer.simples)
    (hlimit : tally .ids longer.simples ≤ tierLimit) :
    compare s.specificity longer.specificity = .lt := by
  refine Specificity.compare_eq_lt_of_ids_lt ?_
  change s.specificity.count .ids < longer.specificity.count .ids
  rw [count_specificity, count_specificity]
  simp only [saturate]
  omega

end Selector

end WidgetStyle
