import WidgetStyle.Proofs.Entries
import WidgetStyle.Proofs.Timing.Permutation

/-!
# WidgetStyle.Proofs.Timing.Names — the names of animations

Where `animation-name` is declared, it decides alone which animations there are: its items are their
names, in the order in which they are first written, without those that stand for no animation
(`Animation.map_name_ofDeclarations`).  The shorthand only lends entries their other fields, and no
longhand changes a name (`Animation.map_name_foldl_applyLonghand`).  The items are taken as they are
written, so a quoted name keeps its quotation marks.
-/

namespace WidgetStyle

/-! ## Entries by name -/

section ByName

variable {α : Type} (name : α → String)

theorem map_name_overrideEach {change : α → String → α}
    (h : ∀ x text, name (change x text) = name x) (items : List String) (entries : List α) :
    (overrideEach change items entries).map name = entries.map name := by
  refine List.ext_getElem? fun i => ?_
  rw [List.getElem?_map, List.getElem?_map, getElem?_overrideEach, Option.map_map]
  refine congrArg (Option.map · _) (funext fun entry => ?_)
  dsimp only [Function.comp]
  cases repeating? items i with
  | none => rfl
  | some item => exact h entry item

end ByName

/-! ## Names of animations -/

namespace Animation

/-- Whether a name stands for an animation. -/
def standsForOne (name : String) : Bool := !(name = "" || Text.sameLetters name "none")

theorem map_name_renameEach (entries : List Animation) (names : List String) :
    (renameEach entries names).map name = names := by
  rw [renameEach, List.map_map]
  exact List.zipIdx_map_fst 0 names

/-- No longhand changes the name of an entry. -/
theorem name_longhand {longhand : String × (Animation → String → Animation)}
    (h : longhand ∈ longhands) (x : Animation) (text : String) :
    (longhand.2 x text).name = x.name := by
  simp only [longhands, List.mem_cons, List.not_mem_nil, or_false] at h
  rcases h with rfl | rfl | rfl | rfl | rfl | rfl | rfl <;> rfl

theorem map_name_applyLonghand (entries : List Animation) (declaration : String × String) :
    (applyLonghand entries declaration).map name = entries.map name := by
  rw [applyLonghand]
  split
  · next change hchange =>
      have hmem := (Assoc.lookup_eq_some_iff nodup_longhands).mp hchange
      exact map_name_overrideEach name (name_longhand hmem) _ _
  · rfl

theorem map_name_foldl_applyLonghand (entries : List Animation)
    (declarations : List (String × String)) :
    (declarations.foldl applyLonghand entries).map name = entries.map name := by
  refine List.foldlRecOn (motive := fun found : List Animation => found.map name = entries.map name)
    declarations _ rfl fun found ih declaration _ => ?_
  exact (map_name_applyLonghand found declaration).trans ih

/-- **Which animations there are.**  They have the names that `animation-name` lists, each once and
in the order of the list. -/
theorem map_name_ofDeclarations {declarations : List (String × String)} {list : String}
    (h : lastValue? declarations "animation-name" = some list) :
    (ofDeclarations declarations).map name =
      ((Value.listItems list).filter standsForOne).eraseDups := by
  have hnone : ∀ entries : List Animation, (entries.filter fun x => !x.isNone).map name =
      (entries.map name).filter standsForOne := fun entries => by
    rw [List.filter_map]
    rfl
  simp only [ofDeclarations, h]
  rw [map_name_collectByName, hnone, map_name_foldl_applyLonghand, map_name_renameEach]

end Animation

end WidgetStyle
