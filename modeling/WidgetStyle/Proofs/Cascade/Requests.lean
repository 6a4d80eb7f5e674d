import Mathlib.Data.List.Basic
import WidgetStyle.Cascade.Computed

/-!
# WidgetStyle.Proofs.Cascade.Requests — which requests a change of style makes

A computed style has a value for every registered property (`hasValues_compute`).  Between two such
styles the reported changes and the transitions together come down to one rule for each property
(`request?_eq_some_iff`): it is no transition or animation property, its values differ, and its
transition in the new style takes time.  The requests are made by that rule in the order of
registration (`ofChanges_changes`), and a style that is compared with itself makes none.
-/

namespace WidgetStyle

namespace ComputedStyle

/-- The style has a value for every registered property. -/
def HasValues (s : ComputedStyle) (r : Registry) : Prop :=
  ∀ p ∈ r.properties, ∃ value, s.value? p.id = some value

/-- Computing gives every registered property a value. -/
theorem hasValues_compute (x : StyleContext) (c : Cascaded) :
    (x.compute c).HasValues x.registry := by
  intro p hp
  exact Assoc.exists_get?_foldl_insert Property.id _ .empty (Or.inl ⟨p, hp, rfl⟩)

/-! ## One property -/

/-- The request that a property makes when a style takes the place of a base. -/
def request? (base current : ComputedStyle) (p : Property) : Option TransitionRequest :=
  if Transition.isOwnProperty p.name || Animation.isOwnProperty p.name then none
  else
    match base.value? p.id, current.value? p.id,
      Transition.lookup? current.transitions p.name with
    | some oldValue, some newValue, some x =>
      if oldValue = newValue || x.isInstant then none
      else some
        { property := p.name, oldValue, newValue,
          delay := x.delay, duration := x.duration, timing := x.timing }
    | _, _, _ => none

/-- The requests of all registered properties, in the order of registration. -/
def requests (r : Registry) (base current : ComputedStyle) : List TransitionRequest :=
  r.properties.filterMap (request? base current)

/-- A property makes a request exactly if it is no transition or animation property, its values
differ, and there is a transition for it that takes time; the request carries the values and that
transition. -/
theorem request?_eq_some_iff {base current : ComputedStyle} {p : Property} {q : TransitionRequest} :
    request? base current p = some q ↔
      Transition.isOwnProperty p.name = false ∧ Animation.isOwnProperty p.name = false ∧
        ∃ oldValue newValue x, base.value? p.id = some oldValue ∧
          current.value? p.id = some newValue ∧ oldValue ≠ newValue ∧
          Transition.lookup? current.transitions p.name = some x ∧ x.isInstant = false ∧
          q = { property := p.name, oldValue, newValue, delay := x.delay, duration := x.duration,
                timing := x.timing } := by
  unfold request?
  constructor
  · intro h
    split at h
    · exact absurd h (by simp)
    rename_i hown
    simp only [Bool.or_eq_true, not_or, Bool.not_eq_true] at hown
    split at h
    · rename_i oldValue newValue x hold hnew hx
      split at h
      · exact absurd h (by simp)
      rename_i htest
      simp only [Bool.or_eq_true, decide_eq_true_eq, not_or, Bool.not_eq_true] at htest
      exact ⟨hown.1, hown.2, oldValue, newValue, x, hold, hnew, htest.1, hx, htest.2,
        (Option.some.inj h).symm⟩
    · exact absurd h (by simp)
  · rintro ⟨htransition, hanimation, oldValue, newValue, x, hold, hnew, hne, hx, hinstant, rfl⟩
    simp [hold, hnew, hx, htransition, hanimation, hinstant, hne]

/-- A style makes no requests when it is compared with itself. -/
theorem requests_self (r : Registry) (s : ComputedStyle) : requests r s s = [] := by
  refine List.filterMap_eq_nil_iff.mpr fun p _ => ?_
  refine Option.eq_none_iff_forall_ne_some.mpr fun q hq => ?_
  obtain ⟨-, -, oldValue, newValue, x, hold, hnew, hne, -⟩ := request?_eq_some_iff.mp hq
  exact hne (Option.some.inj (hold.symm.trans hnew))

/-! ## All properties -/

/-- The reported change of a property and the request for it, as one rule. -/
theorem change?_bind_request? {base current : ComputedStyle} {p : Property}
    {oldValue newValue : String} (hold : base.value? p.id = some oldValue)
    (hnew : current.value? p.id = some newValue) (hreported : isReported p = true) :
    (current.change? base p).bind (ValueChange.request? current.transitions) =
      request? base current p := by
  have hown : Transition.isOwnProperty p.name = false ∧ Animation.isOwnProperty p.name = false := by
    simpa [isReported] using hreported
  have holdDefault : base.valueOrDefault p = oldValue := by rw [valueOrDefault, hold]; rfl
  have hnewDefault : current.valueOrDefault p = newValue := by rw [valueOrDefault, hnew]; rfl
  unfold change? request?
  simp only [holdDefault, hnewDefault, hold, hnew, hown.1, hown.2, Bool.or_self]
  by_cases hsame : oldValue = newValue
  · simp only [hsame, if_true, Option.bind_none]
    cases Transition.lookup? current.transitions p.name <;> simp
  · simp only [hsame, if_false, Option.bind_some, ValueChange.request?, hown.1, hown.2]
    cases Transition.lookup? current.transitions p.name <;> simp [hsame]

/-- Between styles that have values for all properties the requests are made by the rule for one
property. -/
theorem ofChanges_changes {r : Registry} {base current : ComputedStyle} (hbase : base.HasValues r)
    (hcurrent : current.HasValues r) :
    TransitionRequest.ofChanges current.transitions (current.changes base r) =
      requests r base current := by
  unfold TransitionRequest.ofChanges changes requests
  rw [List.filterMap_filterMap, List.filterMap_filter]
  refine List.filterMap_congr fun p hp => ?_
  obtain ⟨oldValue, hold⟩ := hbase p hp
  obtain ⟨newValue, hnew⟩ := hcurrent p hp
  cases hreported : isReported p with
  | true => exact change?_bind_request? hold hnew hreported
  | false =>
      refine (Option.eq_none_iff_forall_ne_some.mpr fun q hq => ?_).symm
      obtain ⟨htransition, hanimation, -⟩ := request?_eq_some_iff.mp hq
      simp [isReported, htransition, hanimation] at hreported

end ComputedStyle

end WidgetStyle
