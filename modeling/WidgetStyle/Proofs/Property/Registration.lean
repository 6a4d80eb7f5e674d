import Mathlib.Data.List.Nodup
import WidgetStyle.Property.BaseSet

/-!
# WidgetStyle.Proofs.Property.Registration — the registries that can be built

A registry starts empty, and properties, aliases and shorthands are registered one after the other
(`Registry.Built`).  A name whose hash is taken is not registered again, and what changes a property
later leaves its name alone.  So the properties of a registry have different identities
(`Registry.Built.nodup_ids`): this is what lets a style keep one value for each of them.
-/

namespace WidgetStyle

namespace Registry

/-- The registries that can be built. -/
inductive Built : Registry → Prop
  | empty : Built .empty
  | register {r : Registry} (h : Built r) (name default : String) (inherited : Bool) :
      Built (r.register name default inherited)
  | setIndexed {r : Registry} (h : Built r) (id : PropertyId) (indexed : Bool) :
      Built (r.setIndexed id indexed)
  | addAlias {r : Registry} (h : Built r) (name newName : String) : Built (r.addAlias name newName)
  | addShorthand {r : Registry} (h : Built r) (name : String) (longhands : List String)
      (kind : ShorthandKind) : Built (r.addShorthand name longhands kind)

/-- The identities of the properties, in the order of registration. -/
def ids (r : Registry) : List PropertyId := r.properties.map Property.id

theorem ids_modify (r : Registry) (id : PropertyId) {f : Property → Property}
    (name : ∀ p, (f p).name = p.name) : (r.modify id f).ids = r.ids := by
  rw [ids, modify, List.map_map]
  refine List.map_congr_left fun p _ => ?_
  rw [Function.comp_apply]
  split
  · rw [Property.id, name, Property.id]
  · rfl

theorem byId?_eq_none_iff {r : Registry} {id : PropertyId} : r.byId? id = none ↔ id ∉ r.ids := by
  simp [byId?, ids]

/-- A property is registered when its identity is new. -/
theorem ids_register (r : Registry) (name default : String) (inherited : Bool) :
    (r.register name default inherited).ids =
      if PropertyId.ofName (registeredName name) ∈ r.ids then r.ids
      else r.ids ++ [.ofName (registeredName name)] := by
  by_cases hid : PropertyId.ofName (registeredName name) ∈ r.ids
  · have hsome : (r.byId? (.ofName (registeredName name))).isSome = true :=
      Option.isSome_iff_ne_none.mpr fun hnone => byId?_eq_none_iff.mp hnone hid
    rw [if_pos hid, register, if_pos hsome]
  · have hnone : r.byId? (.ofName (registeredName name)) = none := byId?_eq_none_iff.mpr hid
    rw [if_neg hid, register, hnone, ids, ids]
    simp [Property.id]

theorem ids_setIndexed (r : Registry) (id : PropertyId) (indexed : Bool) :
    (r.setIndexed id indexed).ids = r.ids :=
  ids_modify r id fun _ => rfl

theorem ids_addAlias (r : Registry) (name newName : String) : (r.addAlias name newName).ids = r.ids := by
  unfold addAlias
  split
  · rfl
  · exact ids_modify r _ fun _ => rfl

theorem ids_addShorthand (r : Registry) (name : String) (longhands : List String)
    (kind : ShorthandKind) : (r.addShorthand name longhands kind).ids = r.ids := by
  unfold addShorthand
  split <;> rfl

namespace Built

variable {r : Registry}

/-- The properties of a registry have different identities. -/
theorem nodup_ids (h : r.Built) : r.ids.Nodup := by
  induction h with
  | empty => exact List.nodup_nil
  | register _ name default inherited ih =>
      rw [ids_register]
      split
      case isTrue => exact ih
      case isFalse hid => exact List.nodup_append_comm.mp (List.nodup_cons.mpr ⟨hid, ih⟩)
  | setIndexed _ id indexed ih => exact (ids_setIndexed _ id indexed).symm ▸ ih
  | addAlias _ name newName ih => exact (ids_addAlias _ name newName).symm ▸ ih
  | addShorthand _ name longhands kind ih =>
      exact (ids_addShorthand _ name longhands kind).symm ▸ ih

theorem registerList (h : r.Built) (name default : String) (inherited : Bool) :
    Built (r.registerList name default inherited) :=
  (h.register name default inherited).setIndexed _ true

/-- Steps that keep a registry built may follow one another. -/
theorem foldl {α : Type} {f : Registry → α → Registry} (h : r.Built) (xs : List α)
    (step : ∀ r x, Built r → Built (f r x)) : Built (xs.foldl f r) :=
  List.foldlRecOn xs f h fun r hr x _ => step r x hr

theorem base : Built .base := by
  rw [Registry.base]
  refine foldl ?_ _ fun _ (name, longhands) hr => hr.addShorthand name longhands .pair
  refine foldl ?_ _ fun _ (name, longhands) hr => hr.addShorthand name longhands .box
  refine foldl ?_ _ fun _ (name, newName) hr => hr.addAlias name newName
  refine foldl ?_ _ fun _ (name, default) hr => hr.registerList name default false
  exact foldl .empty _ fun _ (name, default, inherited) hr => hr.register name default inherited

end Built

end Registry

end WidgetStyle
