import WidgetStyle.Proofs.Enumeration
import WidgetStyle.Proofs.Sheet.Combination

/-!
# WidgetStyle.Proofs.Sheet.Enumeration — keyframe sets in any order

Keyframe sets are kept in a map, and combining two sheets or copying a layer goes through it.  In a
reachable sheet the sets stand under their own names, so they are stored under different names and may
be met in any order: what comes out is the same sheet, but for the order of its own keyframe sets
(`Reachable.combine_reorders`, `Reachable.withMarker_reorders`).
-/

namespace WidgetStyle

namespace Stylesheet

/-- The same sheet, but for the order in which its index and its keyframe sets are kept. -/
structure Reorders (s t : Stylesheet) : Prop where
  rules : s.rules = t.rules
  index : s.index.Reorders t.index
  keyframes : s.keyframes.Reorders t.keyframes
  nextOrder : s.nextOrder = t.nextOrder
  version : s.version = t.version
  marker : s.marker = t.marker

namespace Reorders

variable {s t u : Stylesheet}

theorem refl (s : Stylesheet) : s.Reorders s := ⟨rfl, .refl _, .refl _, rfl, rfl, rfl⟩

theorem symm (h : s.Reorders t) : t.Reorders s :=
  ⟨h.rules.symm, h.index.symm, h.keyframes.symm, h.nextOrder.symm, h.version.symm, h.marker.symm⟩

theorem trans (h : s.Reorders t) (k : t.Reorders u) : s.Reorders u :=
  ⟨h.rules.trans k.rules, h.index.trans k.index, h.keyframes.trans k.keyframes,
    h.nextOrder.trans k.nextOrder, h.version.trans k.version, h.marker.trans k.marker⟩

/-! ## Steps -/

theorem touch (h : s.Reorders t) : s.touch.Reorders t.touch :=
  ⟨h.rules, h.index, h.keyframes, h.nextOrder, congrArg nextCount h.version, h.marker⟩

theorem append (h : s.Reorders t) (rule : StyleRule) : (s.append rule).Reorders (t.append rule) := by
  rw [Stylesheet.append, Stylesheet.append]
  split
  · exact h
  · have hindex : (fileAt s.index (.ofRule rule) s.rules.length).Reorders
        (fileAt t.index (.ofRule rule) t.rules.length) := by
      rw [fileAt, fileAt, h.rules, h.index.get?_eq]
      exact h.index.insert _ _
    refine touch ⟨?_, hindex, h.keyframes, congrArg nextCount h.nextOrder, h.version, h.marker⟩
    show s.rules ++ [rule.withOrder s.nextOrder] = t.rules ++ [rule.withOrder t.nextOrder]
    rw [h.rules, h.nextOrder]

theorem putKeyframes (set : KeyframeSet) (h : s.Reorders t) :
    (s.putKeyframes set).Reorders (t.putKeyframes set) := by
  rw [Stylesheet.putKeyframes, Stylesheet.putKeyframes]
  split
  · exact h
  · exact touch ⟨h.rules, h.index, h.keyframes.insert _ _, h.nextOrder, h.version, h.marker⟩

end Reorders

/-- Keyframe sets of different names can be stored in either order. -/
theorem putKeyframes_swap (s : Stylesheet) {a b : KeyframeSet} (hne : a.name ≠ b.name) :
    ((s.putKeyframes a).putKeyframes b).Reorders ((s.putKeyframes b).putKeyframes a) := by
  by_cases ha : KeepsName a.name
  · by_cases hb : KeepsName b.name
    · rw [putKeyframes_of_keepsName ha, putKeyframes_of_keepsName hb, putKeyframes_of_keepsName hb,
        putKeyframes_of_keepsName ha]
      have hkeyframes := Assoc.insert_insert_reorders s.keyframes hne a b
      exact ⟨rfl, .refl _, hkeyframes, rfl, rfl, rfl⟩
    · rw [putKeyframes_of_not_keepsName hb, putKeyframes_of_not_keepsName hb]
      exact .refl _
  · rw [putKeyframes_of_not_keepsName ha, putKeyframes_of_not_keepsName ha]
    exact .refl _

/-- Keyframe sets of different names can be stored in any order. -/
theorem foldl_putKeyframes_reorders {sets sets' : List KeyframeSet} (h : sets.Perm sets')
    (hnames : sets.Pairwise fun a b => a.name ≠ b.name) {s t : Stylesheet} (hs : s.Reorders t) :
    (sets.foldl putKeyframes s).Reorders (sets'.foldl putKeyframes t) :=
  foldl_perm ⟨.refl, .symm, .trans⟩ (fun set _ _ => Reorders.putKeyframes set) h
    (hnames.imp fun hne s => putKeyframes_swap s hne) hs

theorem KeyframesNamed.keyedBy {s : Stylesheet} (h : s.KeyframesNamed) :
    s.keyframes.KeyedBy KeyframeSet.name := fun name set hset => (h name set hset).1

/-! ## Combining and copying -/

/-- Combining does not depend on the order in which keyframe sets are met. -/
theorem Reachable.combine_reorders {s t other other' : Stylesheet} (h : Reachable other)
    (hs : s.Reorders t) (hother : other.Reorders other') :
    (s.combine other).Reorders (t.combine other') := by
  have hrules : ((other.rules.mergeSort orderLe).foldl Stylesheet.append s).Reorders
      ((other'.rules.mergeSort orderLe).foldl Stylesheet.append t) := by
    rw [← hother.rules]
    exact List.foldl_rel hs fun rule _ a b hab => hab.append rule
  exact foldl_putKeyframes_reorders hother.keyframes.values h.keyframesNamed.keyedBy.pairwise_values
    hrules

/-- Neither does copying a layer. -/
theorem Reachable.withMarker_reorders {s t : Stylesheet} (h : Reachable s) (hs : s.Reorders t)
    (marker : Nat) : (s.withMarker marker).Reorders (t.withMarker marker) := by
  rw [Stylesheet.withMarker, Stylesheet.withMarker, hs.rules]
  exact foldl_putKeyframes_reorders (hs.keyframes.values.filter _)
    (h.keyframesNamed.keyedBy.pairwise_values.filter _) (.refl _)

end Stylesheet

end WidgetStyle
