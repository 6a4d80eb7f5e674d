import Mathlib.Data.List.Pairwise
import WidgetStyle.Proofs.Enumeration
import WidgetStyle.Timing.Animation
import WidgetStyle.Timing.Transition

/-!
# WidgetStyle.Proofs.Timing.Permutation — declarations in any order

Transitions and animations are made from declarations that come in the order in which a map of winners
happens to be enumerated.  The makers ask for the values of names, and as long as no name is declared
twice the order does not decide about them (`lastValue?_perm`).

Animations do more than ask: longhands are applied one after the other as they are met.  Each of them
writes a field of its own, so two of them can be applied in either order, to one entry
(`pairwise_longhands`) and to all of them (`applyLonghand_comm`), and the fold of all does not depend
on their order.
-/

namespace WidgetStyle

/-! ## Values by name -/

theorem lastValue?_eq_some_iff {declarations : List (String × String)}
    (hnames : (declarations.map Prod.fst).Nodup) {name value : String} :
    lastValue? declarations name = some value ↔ (name, value) ∈ declarations := by
  have hreverse : (declarations.reverse.map Prod.fst).Nodup := by
    rwa [List.map_reverse, List.nodup_reverse]
  rw [lastValue?, Assoc.lookup_eq_some_iff hreverse, List.mem_reverse]

theorem lastValue?_perm {ds ds' : List (String × String)} (h : ds.Perm ds')
    (hnames : (ds.map Prod.fst).Nodup) (name : String) : lastValue? ds name = lastValue? ds' name := by
  have hnames' : (ds'.map Prod.fst).Nodup := (h.map Prod.fst).nodup_iff.mp hnames
  refine Option.ext fun value => ?_
  rw [lastValue?_eq_some_iff hnames, lastValue?_eq_some_iff hnames', h.mem_iff]

/-! ## Lists over lists -/

section OverrideEach

variable {α : Type} {change other : α → String → α}

theorem getElem?_overrideEach (change : α → String → α) (items : List String) (entries : List α)
    (i : Nat) :
    (overrideEach change items entries)[i]? =
      entries[i]?.map fun entry => (repeating? items i).elim entry (change entry) := by
  rw [overrideEach, List.getElem?_map, List.getElem?_zipIdx, Option.map_map, Nat.zero_add]
  refine congrArg (Option.map · _) (funext fun entry => ?_)
  dsimp only [Function.comp]
  cases repeating? items i <;> rfl

/-- Where two changes of an entry can be made in either order, so can those of all entries. -/
theorem overrideEach_comm (h : ∀ x t u, other (change x t) u = change (other x u) t)
    (items items' : List String) (entries : List α) :
    overrideEach other items' (overrideEach change items entries) =
      overrideEach change items (overrideEach other items' entries) := by
  refine List.ext_getElem? fun i => ?_
  rw [getElem?_overrideEach, getElem?_overrideEach, getElem?_overrideEach, getElem?_overrideEach,
    Option.map_map, Option.map_map]
  refine congrArg (Option.map · _) (funext fun entry => ?_)
  cases repeating? items i with
  | none => rfl
  | some t =>
      cases repeating? items' i with
      | none => rfl
      | some u => exact h entry t u

end OverrideEach

/-! ## Transitions -/

/-- Transitions depend on the last value of every name, and on nothing else. -/
theorem Transition.ofDeclarations_congr {ds ds' : List (String × String)}
    (h : ∀ name, lastValue? ds name = lastValue? ds' name) :
    Transition.ofDeclarations ds = Transition.ofDeclarations ds' := by
  simp only [ofDeclarations, applyLonghand, h]

theorem Transition.ofDeclarations_perm {ds ds' : List (String × String)} (h : ds.Perm ds')
    (hnames : (ds.map Prod.fst).Nodup) :
    Transition.ofDeclarations ds = Transition.ofDeclarations ds' :=
  ofDeclarations_congr (lastValue?_perm h hnames)

/-! ## Animations -/

namespace Animation

/-- The changes of two longhands can be made in either order. -/
def Swappable (a b : String × (Animation → String → Animation)) : Prop :=
  ∀ x t u, b.2 (a.2 x t) u = a.2 (b.2 x u) t

instance : Std.Symm Swappable := ⟨fun _ _ h x t u => (h x u t).symm⟩

/-- No two longhands write the same field, and none reads what another writes. -/
theorem pairwise_longhands : longhands.Pairwise Swappable := by
  simp [longhands, Swappable]

theorem nodup_longhands : (longhands.map Prod.fst).Nodup := by decide

/-- Two declarations of different names can be applied in either order. -/
theorem applyLonghand_comm {d e : String × String} (hne : d.1 ≠ e.1) (entries : List Animation) :
    applyLonghand (applyLonghand entries d) e = applyLonghand (applyLonghand entries e) d := by
  unfold applyLonghand
  cases hd : longhands.lookup d.1 with
  | none => rfl
  | some change =>
      cases he : longhands.lookup e.1 with
      | none => rfl
      | some other =>
          have hchange := (Assoc.lookup_eq_some_iff nodup_longhands).mp hd
          have hother := (Assoc.lookup_eq_some_iff nodup_longhands).mp he
          have hswap : Swappable (d.1, change) (e.1, other) :=
            pairwise_longhands.forall hchange hother fun h => hne (Prod.mk.inj h).1
          exact overrideEach_comm hswap _ _ entries

theorem foldl_applyLonghand_perm {ds ds' : List (String × String)} (h : ds.Perm ds')
    (hnames : (ds.map Prod.fst).Nodup) (entries : List Animation) :
    ds.foldl applyLonghand entries = ds'.foldl applyLonghand entries := by
  refine foldl_perm eq_equivalence (fun d _ _ hab => congrArg (applyLonghand · d) hab) h ?_ rfl
  exact (List.pairwise_map.mp hnames).imp applyLonghand_comm

theorem ofDeclarations_perm {ds ds' : List (String × String)} (h : ds.Perm ds')
    (hnames : (ds.map Prod.fst).Nodup) : ofDeclarations ds = ofDeclarations ds' := by
  simp only [ofDeclarations, lastValue?_perm h hnames, foldl_applyLonghand_perm h hnames]

end Animation

end WidgetStyle
