import WidgetStyle.Sheet.Stylesheet

/-!
# WidgetStyle.Proofs.Sheet.Operations — the sheets that can be built, and their changes

`Stylesheet.Reachable` are the sheets that reading, adding, combining, marking, copying a layer,
removing one and clearing can produce.  All of these come down to a few elementary steps, and
`Reachable.invariant` says so once: what the elementary steps keep holds of every reachable sheet.
The places in the order are such an invariant: they never descend along the rule list
(`Reachable.ordersLe`), and as long as the counter has not reached its limit they ascend
(`Reachable.orders`).

`Stylesheet.Edit` are the changes that can be made to a sheet in place.  Each of them leaves the
sheet as it is or moves its version on (`Edit.apply_moves`), up to the limit of the counter.
-/

namespace WidgetStyle

/-! ## Counters -/

/-- Below the limit a counter counts. -/
theorem nextCount_eq {n : Nat} (h : nextCount n < counterLimit) : nextCount n = n + 1 := by
  unfold nextCount at h ⊢
  omega

theorem lt_nextCount {n : Nat} (h : nextCount n < counterLimit) : n < nextCount n := by
  have := nextCount_eq h
  omega

theorem le_nextCount {n : Nat} (h : n ≤ counterLimit) : n ≤ nextCount n := by
  unfold nextCount
  omega

namespace Stylesheet

/-! ## Elementary steps -/

@[simp] theorem rules_touch (s : Stylesheet) : s.touch.rules = s.rules := rfl
@[simp] theorem index_touch (s : Stylesheet) : s.touch.index = s.index := rfl
@[simp] theorem nextOrder_touch (s : Stylesheet) : s.touch.nextOrder = s.nextOrder := rfl
@[simp] theorem version_touch (s : Stylesheet) : s.touch.version = nextCount s.version := rfl

/-- Two sheets that differ at most in their keyframe sets, version and marker. -/
def SameRules (s u : Stylesheet) : Prop :=
  s.rules = u.rules ∧ s.index = u.index ∧ s.nextOrder = u.nextOrder

theorem SameRules.trans {s u v : Stylesheet} (h : SameRules s u) (k : SameRules u v) :
    SameRules s v :=
  ⟨h.1.trans k.1, h.2.1.trans k.2.1, h.2.2.trans k.2.2⟩

theorem sameRules_putKeyframes (s : Stylesheet) (set : KeyframeSet) :
    SameRules (s.putKeyframes set) s := by
  unfold putKeyframes
  split <;> exact ⟨rfl, rfl, rfl⟩

theorem sameRules_foldl_putKeyframes (s : Stylesheet) (sets : List KeyframeSet) :
    SameRules (sets.foldl putKeyframes s) s := by
  induction sets generalizing s with
  | nil => exact ⟨rfl, rfl, rfl⟩
  | cons set sets ih => exact (ih _).trans (sameRules_putKeyframes s set)

section Merging

variable {rule : StyleRule} {rules merged : List StyleRule}

/-- Merging writes over the first target and leaves all other rules as they are. -/
theorem exists_target_of_mergeRule? (h : mergeRule? rule rules = some merged) :
    ∃ before target after, rules = before ++ target :: after ∧
      (∀ x ∈ before, sameTarget x rule = false) ∧ sameTarget target rule = true ∧
        merged = before ++ target.merge rule :: after := by
  induction rules generalizing merged with
  | nil => cases h
  | cons first rules ih =>
      rw [mergeRule?] at h
      cases hfirst : sameTarget first rule with
      | true =>
          rw [hfirst, if_pos rfl] at h
          exact ⟨[], first, rules, rfl, nofun, hfirst, (Option.some.inj h).symm⟩
      | false =>
          rw [hfirst, if_neg Bool.false_ne_true] at h
          obtain ⟨rest, hrest, rfl⟩ := Option.map_eq_some_iff.mp h
          obtain ⟨before, target, after, rfl, hbefore, htarget, rfl⟩ := ih hrest
          exact ⟨first :: before, target, after, rfl, List.forall_mem_cons.mpr ⟨hfirst, hbefore⟩,
            htarget, rfl⟩

/-- Past rules that are no targets, the merge goes on to what stands behind them. -/
theorem mergeRule?_append_of_not_target (h : ∀ x ∈ rules, sameTarget x rule = false)
    (more : List StyleRule) :
    mergeRule? rule (rules ++ more) = (mergeRule? rule more).map (rules ++ ·) := by
  induction rules with
  | nil => exact Option.map_id_apply.symm
  | cons first rules ih =>
      obtain ⟨hfirst, hmore⟩ := List.forall_mem_cons.mp h
      rw [List.cons_append, mergeRule?, hfirst, if_neg Bool.false_ne_true, ih hmore, Option.map_map]
      rfl

theorem not_target_of_mergeRule? (h : mergeRule? rule rules = none) :
    ∀ x ∈ rules, sameTarget x rule = false := by
  induction rules with
  | nil => exact nofun
  | cons first rules ih =>
      rw [mergeRule?] at h
      cases hfirst : sameTarget first rule with
      | true =>
          rw [hfirst, if_pos rfl] at h
          cases h
      | false =>
          rw [hfirst, if_neg Bool.false_ne_true, Option.map_eq_none_iff] at h
          exact List.forall_mem_cons.mpr ⟨hfirst, ih h⟩

/-- Merging changes one block and nothing that a rule is found by. -/
theorem map_selector_mergeRule? (h : mergeRule? rule rules = some merged) :
    merged.map StyleRule.selector = rules.map StyleRule.selector ∧
      merged.map StyleRule.order = rules.map StyleRule.order := by
  obtain ⟨before, target, after, rfl, -, -, rfl⟩ := exists_target_of_mergeRule? h
  rw [List.map_append, List.map_append, List.map_append, List.map_append]
  exact ⟨rfl, rfl⟩

end Merging

/-! ## Reachable sheets -/

/-- The sheets that can be built. -/
inductive Reachable : Stylesheet → Prop
  | empty : Reachable .empty
  | parse (r : Registry) (text : String) : Reachable (.parse r text)
  | add {s : Stylesheet} (h : Reachable s) (rule : StyleRule) : Reachable (s.add rule)
  | append {s : Stylesheet} (h : Reachable s) (rule : StyleRule) : Reachable (s.append rule)
  | combine {s other : Stylesheet} (h : Reachable s) (k : Reachable other) :
      Reachable (s.combine other)
  | putKeyframes {s : Stylesheet} (h : Reachable s) (set : KeyframeSet) :
      Reachable (s.putKeyframes set)
  | setMarker {s : Stylesheet} (h : Reachable s) (marker : Nat) : Reachable (s.setMarker marker)
  | withMarker {s : Stylesheet} (h : Reachable s) (marker : Nat) : Reachable (s.withMarker marker)
  | removeMarker {s : Stylesheet} (h : Reachable s) (marker : Nat) :
      Reachable (s.removeMarker marker)
  | clear {s : Stylesheet} (h : Reachable s) : Reachable s.clear

/-- What the empty sheet has and every elementary step keeps holds of all reachable sheets.  A
property of the rules, their index and the counter of places (`rulesOnly`) is not touched by
keyframe sets, versions and markers of sheets. -/
theorem Reachable.invariant {P : Stylesheet → Prop}
    (rulesOnly : ∀ s u, SameRules s u → P u → P s)
    (empty : P .empty)
    (append : ∀ s rule, P s → P (s.append rule))
    (merge : ∀ s rule rules, mergeRule? rule s.rules = some rules → P s → P { s with rules })
    (mark : ∀ s marker, P s → P { s with rules := s.rules.map fun rule => { rule with marker } })
    (remove : ∀ s (keep : StyleRule → Bool), P s →
      P { s with rules := s.rules.filter keep, index := indexOf (s.rules.filter keep) })
    (clear : ∀ s, P s → P { s with rules := [], index := .empty })
    {s : Stylesheet} (h : Reachable s) : P s := by
  -- Reading, combining and copying a layer are folds of two elementary steps.
  have appendAll : ∀ (rules : List StyleRule) s, P s → P (rules.foldl Stylesheet.append s) :=
    fun rules s hs => List.foldlRecOn rules _ hs fun s hs rule _ => append s rule hs
  have keyframesAll : ∀ (sets : List KeyframeSet) s, P s →
      P (sets.foldl Stylesheet.putKeyframes s) :=
    fun sets s hs => rulesOnly _ _ (sameRules_foldl_putKeyframes s sets) hs
  induction h with
  | empty => exact empty
  | parse r text => exact keyframesAll _ _ (appendAll _ _ empty)
  | @add s _ rule ih =>
      unfold Stylesheet.add
      split
      · rename_i rules hrules
        exact rulesOnly _ { s with rules } ⟨rfl, rfl, rfl⟩ (merge s rule rules hrules ih)
      · exact append _ _ ih
  | append _ rule ih => exact append _ _ ih
  | combine _ _ ih _ => exact keyframesAll _ _ (appendAll _ _ ih)
  | @putKeyframes s _ set ih => exact rulesOnly _ _ (sameRules_putKeyframes s set) ih
  | @setMarker s _ marker ih =>
      unfold Stylesheet.setMarker
      split
      · exact ih
      · refine rulesOnly _ _ ?_ (mark s marker ih)
        exact ⟨rfl, rfl, rfl⟩
  | withMarker _ marker _ => exact keyframesAll _ _ (appendAll _ _ empty)
  | @removeMarker s _ marker ih =>
      unfold Stylesheet.removeMarker
      simp only
      split
      · exact ih
      · refine rulesOnly _ _ ?_ (remove s (fun rule => rule.marker != marker) ih)
        exact ⟨rfl, rfl, rfl⟩
  | @clear s _ ih =>
      refine rulesOnly _ _ ?_ (clear s ih)
      exact ⟨rfl, rfl, rfl⟩

/-! ## Places in the order -/

/-- The places ascend along the rules and lie below the next one. -/
def OrdersAscend (s : Stylesheet) : Prop :=
  (s.rules.map StyleRule.order).Pairwise (· < ·) ∧
    ∀ place ∈ s.rules.map StyleRule.order, place < s.nextOrder

/-- Places are related to all later ones and to the next one. -/
def OrdersBy (R : Nat → Nat → Prop) (places : List Nat) (next : Nat) : Prop :=
  places.Pairwise R ∧ ∀ place ∈ places, R place next

theorem OrdersBy.concat {R : Nat → Nat → Prop} {places : List Nat} {next next' : Nat}
    (h : OrdersBy R places next) (hself : R next next')
    (hnext : ∀ place, R place next → R place next') : OrdersBy R (places ++ [next]) next' := by
  refine ⟨List.pairwise_append.mpr ⟨h.1, List.pairwise_singleton _ _, ?_⟩, ?_⟩
  · intro place hplace last hlast
    rw [List.mem_singleton.mp hlast]
    exact h.2 place hplace
  · intro place hplace
    rcases List.mem_append.mp hplace with hplace | hplace
    · exact hnext place (h.2 place hplace)
    · rw [List.mem_singleton.mp hplace]
      exact hself

/-- **Places along the rules.**  What the counter of places keeps whenever it goes on, as long as it
stays within `Q`, holds along the rules of every reachable sheet. -/
theorem Reachable.ordersBy {R : Nat → Nat → Prop} {Q : Nat → Prop}
    (count : ∀ n ≤ counterLimit, Q (nextCount n) →
      Q n ∧ R n (nextCount n) ∧ ∀ place, R place n → R place (nextCount n))
    {s : Stylesheet} (h : Reachable s) :
    s.nextOrder ≤ counterLimit ∧
      (Q s.nextOrder → OrdersBy R (s.rules.map StyleRule.order) s.nextOrder) := by
  refine h.invariant (P := fun s => s.nextOrder ≤ counterLimit ∧
    (Q s.nextOrder → OrdersBy R (s.rules.map StyleRule.order) s.nextOrder))
    ?rulesOnly ?empty ?append ?merge ?mark ?remove ?clear
  case rulesOnly =>
    rintro s u ⟨hrules, -, hnext⟩ hu
    rw [hrules, hnext]
    exact hu
  case empty => exact ⟨Nat.zero_le _, fun _ => ⟨List.Pairwise.nil, by simp [Stylesheet.empty]⟩⟩
  case append =>
    rintro s rule ⟨hlimit, hs⟩
    rw [Stylesheet.append]
    split
    · exact ⟨hlimit, hs⟩
    · refine ⟨Nat.min_le_right _ _, fun hq => ?_⟩
      obtain ⟨hq, hself, hnext⟩ := count s.nextOrder hlimit hq
      rw [rules_touch, List.map_append]
      exact (hs hq).concat hself hnext
  case merge =>
    rintro s rule rules hrules hs
    rw [(map_selector_mergeRule? hrules).2]
    exact hs
  case mark =>
    rintro s marker hs
    have horders : (s.rules.map fun rule => { rule with marker }).map StyleRule.order =
        s.rules.map StyleRule.order := by
      simp [Function.comp_def]
    rw [horders]
    exact hs
  case remove =>
    rintro s keep ⟨hlimit, hs⟩
    have hsub := (List.filter_sublist (p := keep) (l := s.rules)).map StyleRule.order
    refine ⟨hlimit, fun hq => ?_⟩
    exact ⟨(hs hq).1.sublist hsub, fun place hplace => (hs hq).2 place (hsub.subset hplace)⟩
  case clear => exact fun s hs => ⟨hs.1, fun _ => ⟨List.Pairwise.nil, by simp⟩⟩

/-- Before the counter of places has reached its limit no two rules share a place. -/
theorem Reachable.orders {s : Stylesheet} (h : Reachable s) :
    s.nextOrder < counterLimit → s.OrdersAscend :=
  (h.ordersBy (R := (· < ·)) (Q := (· < counterLimit)) fun _ _ hq =>
    have hlt := lt_nextCount hq
    ⟨Nat.lt_trans hlt hq, hlt, fun _ hplace => Nat.lt_trans hplace hlt⟩).2

/-- Rules stand in their order, also when the counter has reached its limit. -/
theorem Reachable.ordersLe {s : Stylesheet} (h : Reachable s) :
    OrdersBy (· ≤ ·) (s.rules.map StyleRule.order) s.nextOrder :=
  (h.ordersBy (Q := fun _ => True) fun _ hn _ =>
    have hle := le_nextCount hn
    ⟨trivial, hle, fun _ hplace => Nat.le_trans hplace hle⟩).2 trivial

theorem Reachable.nextOrder_le {s : Stylesheet} (h : Reachable s) : s.nextOrder ≤ counterLimit :=
  (h.ordersBy (R := fun _ _ => True) (Q := fun _ => True) fun _ _ _ =>
    ⟨trivial, trivial, fun _ _ => trivial⟩).1

/-- No place lies behind the limit of the counter. -/
theorem Reachable.order_le {s : Stylesheet} (h : Reachable s) :
    ∀ rule ∈ s.rules, rule.order ≤ counterLimit := fun rule hrule =>
  Nat.le_trans (h.ordersLe.2 rule.order (List.mem_map_of_mem hrule)) h.nextOrder_le

/-! ## Changes in place -/

/-- The changes that can be made to a sheet in place. -/
inductive Edit where
  | add (rule : StyleRule)
  | append (rule : StyleRule)
  | combine (other : Stylesheet)
  | putKeyframes (set : KeyframeSet)
  | setMarker (marker : Nat)
  | removeMarker (marker : Nat)
  | clear

/-- The sheet after a change. -/
def Edit.apply (s : Stylesheet) : Edit → Stylesheet
  | .add rule => s.add rule
  | .append rule => s.append rule
  | .combine other => s.combine other
  | .putKeyframes set => s.putKeyframes set
  | .setMarker marker => s.setMarker marker
  | .removeMarker marker => s.removeMarker marker
  | .clear => s.clear

/-- The sheet `u` is `s` itself, or its version has moved on or reached the limit. -/
def Moves (s u : Stylesheet) : Prop :=
  u = s ∨ s.version < u.version ∨ counterLimit ≤ u.version

theorem Moves.refl (s : Stylesheet) : Moves s s := Or.inl rfl

theorem Moves.trans {s u v : Stylesheet} (h : Moves s u) (k : Moves u v) : Moves s v := by
  rcases k with rfl | k
  · exact h
  · rcases h with rfl | h
    · exact Or.inr k
    · refine Or.inr ?_
      omega

theorem moves_touch {s u : Stylesheet} (h : u.version = s.version) : Moves s u.touch := by
  refine Or.inr ?_
  rw [version_touch, h]
  unfold nextCount
  omega

theorem moves_append (s : Stylesheet) (rule : StyleRule) : Moves s (s.append rule) := by
  unfold append
  split
  · exact Moves.refl s
  · exact moves_touch rfl

theorem moves_putKeyframes (s : Stylesheet) (set : KeyframeSet) : Moves s (s.putKeyframes set) := by
  unfold putKeyframes
  split
  · exact Moves.refl s
  · exact moves_touch rfl

theorem moves_combine (s other : Stylesheet) : Moves s (s.combine other) := by
  unfold combine
  refine List.foldlRecOn _ _ (List.foldlRecOn _ _ (Moves.refl s) ?_) ?_
  · exact fun u hu rule _ => hu.trans (moves_append u rule)
  · exact fun u hu set _ => hu.trans (moves_putKeyframes u set)

/-- A change leaves the sheet as it is or moves its version on. -/
theorem Edit.apply_moves (e : Edit) (s : Stylesheet) : Moves s (e.apply s) := by
  cases e with
  | add rule =>
      simp only [apply, Stylesheet.add]
      split
      · exact moves_touch rfl
      · exact moves_append s rule
  | append rule => exact moves_append s rule
  | combine other => exact moves_combine s other
  | putKeyframes set => exact moves_putKeyframes s set
  | setMarker marker =>
      simp only [apply, Stylesheet.setMarker]
      split
      · exact Moves.refl s
      · exact moves_touch rfl
  | removeMarker marker =>
      simp only [apply, Stylesheet.removeMarker]
      split
      · exact Moves.refl s
      · exact moves_touch rfl
  | clear => exact moves_touch rfl

end Stylesheet

end WidgetStyle
