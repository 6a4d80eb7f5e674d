import WidgetStyle.Proofs.Sheet.Operations

/-!
# WidgetStyle.Proofs.Sheet.Versions — what the version of a sheet tells

Every change of a sheet in place is made of elementary steps: a rule is merged or appended, a
keyframe set stored, everything marked, a layer removed, the sheet cleared.  A step leaves the sheet
as it is, or raises the version by one.  As long as the counter has room for the steps of a run, the
sheet at its end is therefore the sheet at its beginning or has a higher version
(`edited_growsWithin`).

`Edit.apply_moves` says of one change that it moves the version on or up to the limit.  Here the steps
are counted, so that no change can reach the limit and go unnoticed there.
-/

namespace WidgetStyle

namespace Stylesheet

/-! ## Runs of changes -/

/-- The sheet after a list of changes. -/
def edited (s : Stylesheet) (edits : List Edit) : Stylesheet := edits.foldl Edit.apply s

theorem edited_append (s : Stylesheet) (edits more : List Edit) :
    s.edited (edits ++ more) = (s.edited edits).edited more := List.foldl_append

/-- The elementary steps of a change.  Combining takes one for each rule and each keyframe set of
the other sheet, everything else is one step. -/
def Edit.steps : Edit → Nat
  | .combine other => other.rules.length + other.keyframes.size
  | _ => 1

/-- The elementary steps of a list of changes. -/
def stepsOf : List Edit → Nat
  | [] => 0
  | e :: edits => e.steps + stepsOf edits

theorem stepsOf_append (edits more : List Edit) :
    stepsOf (edits ++ more) = stepsOf edits + stepsOf more := by
  induction edits with
  | nil => rw [List.nil_append, stepsOf, Nat.zero_add]
  | cons e edits ih => rw [List.cons_append, stepsOf, stepsOf, ih, Nat.add_assoc]

/-! ## Steps raise the version -/

/-- As long as the counter has room for `n` steps, `u` is `s` itself or has a higher version, and the
version rises by `n` at most. -/
def GrowsWithin (n : Nat) (s u : Stylesheet) : Prop :=
  s.version + n ≤ counterLimit →
    (u = s ∨ s.version < u.version) ∧ u.version ≤ s.version + n

theorem GrowsWithin.refl (n : Nat) (s : Stylesheet) : GrowsWithin n s s := by
  intro _
  exact ⟨Or.inl rfl, by omega⟩

theorem GrowsWithin.trans {n m : Nat} {s u v : Stylesheet} (h : GrowsWithin n s u)
    (k : GrowsWithin m u v) : GrowsWithin (n + m) s v := by
  intro hroom
  obtain ⟨hsu, hle⟩ := h (by omega)
  obtain ⟨huv, hle'⟩ := k (by omega)
  refine ⟨?_, by omega⟩
  rcases huv with rfl | huv
  · exact hsu
  · rcases hsu with rfl | hsu
    · exact Or.inr huv
    · exact Or.inr (by omega)

theorem growsWithin_touch {s u : Stylesheet} (h : u.version = s.version) :
    GrowsWithin 1 s u.touch := by
  intro hroom
  rw [version_touch, h]
  unfold nextCount
  omega

theorem growsWithin_append (s : Stylesheet) (rule : StyleRule) :
    GrowsWithin 1 s (s.append rule) := by
  unfold append
  split
  · exact GrowsWithin.refl 1 s
  · exact growsWithin_touch rfl

theorem growsWithin_putKeyframes (s : Stylesheet) (set : KeyframeSet) :
    GrowsWithin 1 s (s.putKeyframes set) := by
  unfold putKeyframes
  split
  · exact GrowsWithin.refl 1 s
  · exact growsWithin_touch rfl

/-- Steps that are taken one for each member of a list are as many as the members. -/
theorem growsWithin_foldl {α : Type} {step : Stylesheet → α → Stylesheet}
    (hstep : ∀ s x, GrowsWithin 1 s (step s x)) (s : Stylesheet) (xs : List α) :
    GrowsWithin xs.length s (xs.foldl step s) := by
  induction xs generalizing s with
  | nil => exact GrowsWithin.refl 0 s
  | cons x xs ih =>
      rw [List.length_cons, Nat.add_comm]
      exact (hstep s x).trans (ih (step s x))

theorem growsWithin_combine (s other : Stylesheet) :
    GrowsWithin (other.rules.length + other.keyframes.size) s (s.combine other) := by
  have hrules := growsWithin_foldl growsWithin_append s (other.rules.mergeSort orderLe)
  have hsets := growsWithin_foldl growsWithin_putKeyframes
    ((other.rules.mergeSort orderLe).foldl append s) other.keyframes.values
  have hsize : other.keyframes.values.length = other.keyframes.size := List.length_map _
  rw [List.length_mergeSort] at hrules
  rw [hsize] at hsets
  exact hrules.trans hsets

/-- **One change.**  It leaves the sheet as it is or raises the version, by its steps at most. -/
theorem Edit.apply_growsWithin (e : Edit) (s : Stylesheet) : GrowsWithin e.steps s (e.apply s) := by
  cases e with
  | add rule =>
      show GrowsWithin 1 s (s.add rule)
      unfold Stylesheet.add
      split
      · exact growsWithin_touch rfl
      · exact growsWithin_append s rule
  | append rule => exact growsWithin_append s rule
  | combine other => exact growsWithin_combine s other
  | putKeyframes set => exact growsWithin_putKeyframes s set
  | setMarker marker =>
      show GrowsWithin 1 s (s.setMarker marker)
      unfold Stylesheet.setMarker
      split
      · exact GrowsWithin.refl 1 s
      · exact growsWithin_touch rfl
  | removeMarker marker =>
      show GrowsWithin 1 s (s.removeMarker marker)
      simp only [Stylesheet.removeMarker]
      split
      · exact GrowsWithin.refl 1 s
      · exact growsWithin_touch rfl
  | clear => exact growsWithin_touch rfl

/-- **A run of changes.**  It leaves the sheet as it is or raises the version. -/
theorem edited_growsWithin (s : Stylesheet) (edits : List Edit) :
    GrowsWithin (stepsOf edits) s (s.edited edits) := by
  induction edits generalizing s with
  | nil => exact GrowsWithin.refl 0 s
  | cons e edits ih => exact (e.apply_growsWithin s).trans (ih (e.apply s))

end Stylesheet

end WidgetStyle
