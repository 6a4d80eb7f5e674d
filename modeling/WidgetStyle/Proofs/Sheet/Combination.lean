import Mathlib.Data.List.Induction
import WidgetStyle.Proofs.Sheet.Operations
import WidgetStyle.Proofs.Sheet.Rules

/-!
# WidgetStyle.Proofs.Sheet.Combination — rules of one sheet behind those of another

Combining appends the rules of the second sheet in their order.  Rules of a reachable sheet stand in
that order already (`Reachable.ordersLe`), so sorting them does nothing, and what is left is one fold
of `append` (`Reachable.combine_eq`).

What such a fold does to the rules is said in one equation: the rules that declare something are put
behind the old ones, at places counted on from the next one (`rules_foldl_append`).  Numbering forgets
the places that rules had before (`placeFrom_placeFrom`), and that is why it makes no difference
whether the second and the third sheet are combined first (`combine_assoc_rules`).  Keyframe sets are
found by name, those of the later sheet first (`get?_keyframes_combine`).
-/

namespace WidgetStyle

namespace Stylesheet

/-! ## Places -/

/-- Rules at the places from `order` on. -/
def placeFrom : Nat → List StyleRule → List StyleRule
  | _, [] => []
  | order, rule :: rules => rule.withOrder order :: placeFrom (nextCount order) rules

/-- The place after so many rules. -/
def placeAfter (order : Nat) : Nat → Nat
  | 0 => order
  | n + 1 => placeAfter (nextCount order) n

/-- The rules that declare something. -/
def declaring (rules : List StyleRule) : List StyleRule := rules.filter fun rule => !rule.isEmpty

theorem withOrder_withOrder (rule : StyleRule) (order order' : Nat) :
    (rule.withOrder order).withOrder order' = rule.withOrder order' := by
  simp [StyleRule.withOrder, Block.withOrder]

theorem isEmpty_withOrder (rule : StyleRule) (order : Nat) :
    (rule.withOrder order).isEmpty = rule.isEmpty := by
  simp [StyleRule.isEmpty, StyleRule.withOrder, Block.withOrder, Block.isEmpty]

theorem placeFrom_append (order : Nat) (rules rules' : List StyleRule) :
    placeFrom order (rules ++ rules') =
      placeFrom order rules ++ placeFrom (placeAfter order rules.length) rules' := by
  induction rules generalizing order with
  | nil => rfl
  | cons rule rules ih => rw [List.cons_append, placeFrom, ih]; rfl

/-- Rules that get new places may have had any before. -/
theorem placeFrom_placeFrom (order order' : Nat) (rules : List StyleRule) :
    placeFrom order (placeFrom order' rules) = placeFrom order rules := by
  induction rules generalizing order order' with
  | nil => rfl
  | cons rule rules ih => rw [placeFrom, placeFrom, ih, withOrder_withOrder]; rfl

theorem declaring_placeFrom (order : Nat) (rules : List StyleRule) :
    declaring (placeFrom order (declaring rules)) = placeFrom order (declaring rules) := by
  refine List.filter_eq_self.mpr ?_
  have hrules : ∀ rule ∈ declaring rules, rule.isEmpty = false := fun rule hrule => by
    simpa using (List.mem_filter.mp hrule).2
  revert hrules
  generalize declaring rules = kept
  intro hkept
  induction kept generalizing order with
  | nil => exact fun rule hrule => absurd hrule List.not_mem_nil
  | cons first rest ih =>
      intro rule hrule
      rcases List.mem_cons.mp hrule with rfl | hrule
      · rw [isEmpty_withOrder, hkept first List.mem_cons_self]
        rfl
      · exact ih _ (fun rule h => hkept rule (List.mem_cons_of_mem _ h)) rule hrule

theorem append_eq_of_isEmpty {s : Stylesheet} {rule : StyleRule} (h : rule.isEmpty = true) :
    s.append rule = s := by rw [append, if_pos h]

/-- **Appending in one equation.**  Rules that declare something come behind the old ones, at places
counted on. -/
theorem rules_foldl_append (s : Stylesheet) (rules : List StyleRule) :
    (rules.foldl append s).rules = s.rules ++ placeFrom s.nextOrder (declaring rules) ∧
      (rules.foldl append s).nextOrder = placeAfter s.nextOrder (declaring rules).length := by
  induction rules generalizing s with
  | nil => exact ⟨(List.append_nil _).symm, rfl⟩
  | cons rule rules ih =>
      rw [List.foldl_cons, (ih _).1, (ih _).2]
      cases hempty : rule.isEmpty with
      | true =>
          have hskip : declaring (rule :: rules) = declaring rules :=
            List.filter_cons_of_neg (by simp [hempty])
          rw [append_eq_of_isEmpty hempty, hskip]
          exact ⟨rfl, rfl⟩
      | false =>
          have hkeep : declaring (rule :: rules) = rule :: declaring rules :=
            List.filter_cons_of_pos (by simp [hempty])
          have hrules : (s.append rule).rules = s.rules ++ [rule.withOrder s.nextOrder] ∧
              (s.append rule).nextOrder = nextCount s.nextOrder := by
            rw [append, hempty]
            exact ⟨rfl, rfl⟩
          rw [hkeep, hrules.1, hrules.2, List.append_assoc]
          exact ⟨rfl, rfl⟩

/-! ## Rules in order -/

/-- Nothing has to be sorted to combine a reachable sheet. -/
theorem Reachable.combine_eq {other : Stylesheet} (h : Reachable other) (s : Stylesheet) :
    s.combine other =
      other.keyframes.values.foldl Stylesheet.putKeyframes (other.rules.foldl Stylesheet.append s) := by
  have hsorted : other.rules.Pairwise fun a b => orderLe a b = true :=
    (List.pairwise_map.mp h.ordersLe.1).imp fun hle => decide_eq_true hle
  rw [Stylesheet.combine, List.mergeSort_of_pairwise hsorted]

theorem Reachable.rules_combine {other : Stylesheet} (h : Reachable other) (s : Stylesheet) :
    (s.combine other).rules = s.rules ++ placeFrom s.nextOrder (declaring other.rules) ∧
      (s.combine other).nextOrder = placeAfter s.nextOrder (declaring other.rules).length := by
  obtain ⟨hrules, -, hnext⟩ := sameRules_foldl_putKeyframes (other.rules.foldl Stylesheet.append s)
    other.keyframes.values
  rw [h.combine_eq, hrules, hnext]
  exact rules_foldl_append s other.rules

theorem le_placeAfter {order : Nat} (h : order ≤ counterLimit) (n : Nat) :
    order ≤ placeAfter order n := by
  induction n generalizing order with
  | zero => exact Nat.le_refl _
  | succ n ih => exact Nat.le_trans (le_nextCount h) (ih (Nat.min_le_right _ _))

/-- Which two sheets are combined first makes no difference to the rules. -/
theorem combine_assoc_rules (a : Stylesheet) {b c : Stylesheet} (hb : Reachable b)
    (hc : Reachable c) :
    ((a.combine b).combine c).rules = (a.combine (b.combine c)).rules := by
  have hbc := (hc.rules_combine b).1
  have hsplit : declaring (b.combine c).rules =
      declaring b.rules ++ placeFrom b.nextOrder (declaring c.rules) := by
    rw [hbc, declaring, List.filter_append]
    exact congrArg (declaring b.rules ++ ·) (declaring_placeFrom _ _)
  rw [(hc.rules_combine _).1, (hb.rules_combine a).1, (hb.rules_combine a).2,
    ((hb.combine hc).rules_combine a).1, hsplit, placeFrom_append, placeFrom_placeFrom,
    List.append_assoc]

/-! ## Keyframe sets by name -/

/-- Whether a sheet stores keyframe sets of this name. -/
def KeepsName (name : String) : Prop := name ≠ "" ∧ name ≠ "none"

theorem putKeyframes_of_keepsName {set : KeyframeSet} (h : KeepsName set.name) (s : Stylesheet) :
    s.putKeyframes set = touch { s with keyframes := s.keyframes.insert set.name set } := by
  rw [putKeyframes, if_neg (by simp [h.1, h.2])]

theorem keyframes_putKeyframes {set : KeyframeSet} (h : KeepsName set.name) (s : Stylesheet) :
    (s.putKeyframes set).keyframes = s.keyframes.insert set.name set := by
  rw [putKeyframes_of_keepsName h]
  rfl

theorem putKeyframes_of_not_keepsName {set : KeyframeSet} (h : ¬KeepsName set.name)
    (s : Stylesheet) : s.putKeyframes set = s := by
  rw [putKeyframes, if_pos]
  by_contra hname
  exact h (by simpa [KeepsName] using hname)

theorem keyframes_foldl_append (s : Stylesheet) (rules : List StyleRule) :
    (rules.foldl append s).keyframes = s.keyframes := by
  induction rules generalizing s with
  | nil => rfl
  | cons rule rules ih =>
      rw [List.foldl_cons, ih, append]
      split <;> rfl

/-- Keyframe sets stand under their names. -/
def KeyframesNamed (s : Stylesheet) : Prop :=
  ∀ name set, s.keyframes.get? name = some set → set.name = name ∧ KeepsName name

theorem KeyframesNamed.putKeyframes {s : Stylesheet} (h : s.KeyframesNamed) (set : KeyframeSet) :
    (s.putKeyframes set).KeyframesNamed := by
  by_cases hset : KeepsName set.name
  · intro name found hfound
    rw [keyframes_putKeyframes hset, Assoc.get?_insert] at hfound
    split at hfound
    · next hname =>
        obtain rfl := Option.some.inj hfound
        exact ⟨hname.symm, hname ▸ hset⟩
    · exact h name found hfound
  · rwa [putKeyframes_of_not_keepsName hset]

theorem KeyframesNamed.foldl {s : Stylesheet} (h : s.KeyframesNamed) (rules : List StyleRule)
    (sets : List KeyframeSet) :
    (sets.foldl Stylesheet.putKeyframes (rules.foldl append s)).KeyframesNamed := by
  refine List.foldlRecOn sets _ ?_ fun u hu set _ => hu.putKeyframes set
  rw [KeyframesNamed, keyframes_foldl_append]
  exact h

theorem keyframesNamed_empty : Stylesheet.empty.KeyframesNamed := nofun

/-- In every reachable sheet keyframe sets stand under their names. -/
theorem Reachable.keyframesNamed {s : Stylesheet} (h : Reachable s) : s.KeyframesNamed := by
  induction h with
  | empty => exact keyframesNamed_empty
  | parse r text => exact keyframesNamed_empty.foldl _ _
  | @add s _ rule ih =>
      rw [Stylesheet.add]
      split
      · exact ih
      · exact ih.foldl [rule] []
  | append _ rule ih => exact ih.foldl [rule] []
  | combine _ _ ih _ => exact ih.foldl _ _
  | putKeyframes _ set ih => exact ih.putKeyframes set
  | @setMarker s _ marker ih =>
      rw [Stylesheet.setMarker]
      split
      · exact ih
      · intro name set hset
        change (s.keyframes.mapValues _).get? name = some set at hset
        rw [Assoc.get?_mapValues] at hset
        obtain ⟨old, hold, rfl⟩ := Option.map_eq_some_iff.mp hset
        exact ih name old hold
  | withMarker _ marker _ => exact keyframesNamed_empty.foldl _ _
  | @removeMarker s _ marker ih =>
      simp only [Stylesheet.removeMarker]
      split
      · exact ih
      · exact fun name set hset => ih name set (Assoc.get?_filter.mp hset).1
  | clear => exact keyframesNamed_empty

/-- Keyframe sets stored one after the other: of each name the last stands, also over those that
stood there before. -/
theorem get?_keyframes_foldl_putKeyframes (s : Stylesheet) (sets : List KeyframeSet) {name : String}
    (h : KeepsName name) :
    (sets.foldl putKeyframes s).keyframes.get? name =
      ((sets.filter fun set => set.name = name).getLast?).or (s.keyframes.get? name) := by
  induction sets using List.reverseRecOn with
  | nil => rfl
  | append_singleton sets set ih =>
      rw [List.foldl_append, List.foldl_cons, List.foldl_nil, List.filter_append]
      by_cases hname : set.name = name
      · rw [keyframes_putKeyframes (hname ▸ h), hname, Assoc.get?_insert_self]
        simp [hname]
      · have hother : ((sets.foldl putKeyframes s).putKeyframes set).keyframes.get? name =
            (sets.foldl putKeyframes s).keyframes.get? name := by
          by_cases hset : KeepsName set.name
          · rw [keyframes_putKeyframes hset, Assoc.get?_insert_of_ne _ _ (Ne.symm hname)]
          · rw [putKeyframes_of_not_keepsName hset]
        rw [hother, ih]
        simp [hname]

theorem KeyframesNamed.mem_values_iff {s : Stylesheet} (h : s.KeyframesNamed) {name : String}
    {set : KeyframeSet} :
    set ∈ s.keyframes.values ∧ set.name = name ↔ s.keyframes.get? name = some set := by
  constructor
  · rintro ⟨hset, rfl⟩
    obtain ⟨⟨key, value⟩, he, rfl⟩ := List.mem_map.mp hset
    have hkey := Assoc.get?_eq_some_iff.mpr he
    exact (h key value hkey).1.symm ▸ hkey
  · intro hset
    exact ⟨List.mem_map.mpr ⟨(name, set), Assoc.get?_eq_some_iff.mp hset, rfl⟩, (h name set hset).1⟩

/-- A sheet has one keyframe set of each name. -/
theorem KeyframesNamed.getLast?_values {s : Stylesheet} (h : s.KeyframesNamed) (name : String) :
    (s.keyframes.values.filter fun set => set.name = name).getLast? = s.keyframes.get? name := by
  have hmem : ∀ set, set ∈ (s.keyframes.values.filter fun set => set.name = name) ↔
      s.keyframes.get? name = some set := fun set => by
    rw [List.mem_filter, decide_eq_true_iff, h.mem_values_iff]
  cases hlast : (s.keyframes.values.filter fun set => set.name = name).getLast? with
  | some set => exact ((hmem set).mp (List.mem_of_getLast? hlast)).symm
  | none =>
      cases hget : s.keyframes.get? name with
      | none => rfl
      | some set =>
          rw [List.getLast?_eq_none_iff] at hlast
          exact absurd ((hmem set).mpr hget) (hlast ▸ List.not_mem_nil)

/-- No sheet keeps a keyframe set without a name. -/
theorem Reachable.get?_keyframes_eq_none {s : Stylesheet} (h : Reachable s) {name : String}
    (hname : ¬KeepsName name) : s.keyframes.get? name = none :=
  Option.eq_none_iff_forall_ne_some.mpr fun set hset => hname (h.keyframesNamed name set hset).2

/-- In a combined sheet the keyframe sets of the second are found first. -/
theorem Reachable.get?_keyframes_combine {s other : Stylesheet} (hs : Reachable s)
    (h : Reachable other) (name : String) :
    (s.combine other).keyframes.get? name =
      (other.keyframes.get? name).or (s.keyframes.get? name) := by
  by_cases hname : KeepsName name
  · rw [h.combine_eq, get?_keyframes_foldl_putKeyframes _ _ hname, keyframes_foldl_append,
      h.keyframesNamed.getLast?_values]
  · rw [(hs.combine h).get?_keyframes_eq_none hname, hs.get?_keyframes_eq_none hname,
      h.get?_keyframes_eq_none hname]
    rfl

end Stylesheet

end WidgetStyle
