import Mathlib.Data.List.Nodup
import WidgetStyle.Proofs.Property.Resolution

/-!
# WidgetStyle.Proofs.Property.Aliases — the two records of aliases

An alias is recorded twice: the property lists it, and a map says which property it stands for.  Making
an alias adds it to the list but overwrites the entry of the map.  So the records are told by the aliases
that were made one after the other (`aliasesMade`), and each keeps something else of them: the list of a
property has all that were made for it, and the map has the last one of each name (`Records`).

The map is always within the lists.  The lists are within the map, and name nothing twice, just in case
no alias was made twice (`mirrorsAliases_iff`): one that is made again for the same property stands
twice in its list, and one that is made for another property stays listed where it was.
-/

namespace WidgetStyle

/-! ## Building a registry step by step -/

/-- One step in building a registry. -/
inductive Registration where
  | property (name default : String) (inherited : Bool)
  | listProperty (name default : String) (inherited : Bool)
  | setIndexed (id : PropertyId) (indexed : Bool)
  | addAlias (name newName : String)
  | addShorthand (name : String) (longhands : List String) (kind : ShorthandKind)
  deriving DecidableEq, Repr

namespace Registration

/-- The registry after a step. -/
def apply (r : Registry) : Registration → Registry
  | .property name default inherited => r.register name default inherited
  | .listProperty name default inherited => r.registerList name default inherited
  | .setIndexed id indexed => r.setIndexed id indexed
  | .addAlias name newName => r.addAlias name newName
  | .addShorthand name longhands kind => r.addShorthand name longhands kind

/-- The alias that a step makes, with the property it is made for. -/
def madeAlias? (r : Registry) : Registration → Option (String × PropertyId)
  | .addAlias name newName =>
    (r.aliasTarget? name).map fun p => (Registry.registeredName newName, p.id)
  | _ => none

end Registration

namespace Registry

/-- The registry that a sequence of steps builds. -/
def ofRegistrations (steps : List Registration) : Registry := steps.foldl Registration.apply .empty

/-- The aliases that a sequence of steps makes, from a registry on. -/
def aliasesMadeFrom (r : Registry) : List Registration → List (String × PropertyId)
  | [] => []
  | step :: steps => (step.madeAlias? r).toList ++ aliasesMadeFrom (step.apply r) steps

/-- The aliases that a sequence of steps makes, each with the property it is made for. -/
def aliasesMade (steps : List Registration) : List (String × PropertyId) :=
  aliasesMadeFrom .empty steps

variable {r : Registry} {made : List (String × PropertyId)}

theorem Built.apply (h : r.Built) (step : Registration) : Built (step.apply r) := by
  cases step with
  | property name default inherited => exact h.register name default inherited
  | listProperty name default inherited => exact h.registerList name default inherited
  | setIndexed id indexed => exact h.setIndexed id indexed
  | addAlias name newName => exact h.addAlias name newName
  | addShorthand name longhands kind => exact h.addShorthand name longhands kind

theorem built_ofRegistrations (steps : List Registration) : Built (ofRegistrations steps) :=
  Built.empty.foldl steps fun _ step h => h.apply step

/-! ## What the records keep -/

/-- The lists and the map of a registry are those of the aliases made: a property lists all that were
made for it, the map has the last one of each name, and each was made for a property that is still
there. -/
structure Records (r : Registry) (made : List (String × PropertyId)) : Prop where
  listed : ∀ p ∈ r.properties, p.aliases = (made.filter (·.2 = p.id)).map Prod.fst
  mapped : ∀ name, r.aliases.get? name = made.reverse.lookup name
  targets : ∀ entry ∈ made, entry.2 ∈ r.ids

theorem mem_properties_modify {id : PropertyId} {f : Property → Property} {p : Property}
    (h : p ∈ (r.modify id f).properties) :
    ∃ q ∈ r.properties, p = if q.id = id then f q else q := by
  obtain ⟨q, hq, rfl⟩ := List.mem_map.mp h
  exact ⟨q, hq, rfl⟩

theorem records_empty : Records .empty [] := ⟨nofun, fun _ => rfl, nofun⟩

theorem aliases_register (r : Registry) (name default : String) (inherited : Bool) :
    (r.register name default inherited).aliases = r.aliases := by
  unfold register
  simp only
  split <;> rfl

/-- A registered property is one that was there, or it is new and lists nothing. -/
theorem mem_properties_register {name default : String} {inherited : Bool} {p : Property}
    (h : p ∈ (r.register name default inherited).properties) :
    p ∈ r.properties ∨ p.aliases = [] ∧ p.id ∉ r.ids := by
  unfold register at h
  simp only at h
  split at h
  case isTrue => exact .inl h
  case isFalse hnew =>
    rcases List.mem_append.mp h with h | h
    · exact .inl h
    · rw [List.mem_singleton.mp h]
      exact .inr ⟨rfl, byId?_eq_none_iff.mp (Option.not_isSome_iff_eq_none.mp hnew)⟩

namespace Records

variable (h : r.Records made)
include h

theorem register (name default : String) (inherited : Bool) :
    (r.register name default inherited).Records made where
  listed := by
    intro p hp
    rcases mem_properties_register hp with hp | ⟨hnil, hnew⟩
    · exact h.listed p hp
    · -- Nothing was made for a property that has not been there.
      have hnone : made.filter (·.2 = p.id) = [] := by
        refine List.filter_eq_nil_iff.mpr fun entry hentry heq => hnew ?_
        exact of_decide_eq_true heq ▸ h.targets entry hentry
      rw [hnil, hnone, List.map_nil]
  mapped := by
    rw [aliases_register]
    exact h.mapped
  targets := by
    intro entry hentry
    have hold := h.targets entry hentry
    rw [ids_register]
    split
    · exact hold
    · exact List.mem_append_left _ hold

theorem setIndexed (id : PropertyId) (indexed : Bool) : (r.setIndexed id indexed).Records made where
  listed := by
    intro p hp
    obtain ⟨q, hq, rfl⟩ := mem_properties_modify hp
    split <;> exact h.listed q hq
  mapped := h.mapped
  targets := by
    rw [ids_setIndexed]
    exact h.targets

theorem addShorthand (name : String) (longhands : List String) (kind : ShorthandKind) :
    (r.addShorthand name longhands kind).Records made := by
  unfold Registry.addShorthand
  split
  · exact ⟨h.listed, h.mapped, h.targets⟩
  · exact h

/-- An alias that is made is listed behind the others of its property, and overwrites the entry of
the map. -/
theorem addAlias {name : String} {p : Property} (hp : r.aliasTarget? name = some p) (newName : String) :
    (r.addAlias name newName).Records (made ++ [(registeredName newName, p.id)]) where
  listed := by
    intro q hq
    rw [Registry.addAlias, hp] at hq
    obtain ⟨x, hx, rfl⟩ := mem_properties_modify hq
    by_cases hid : x.id = p.id
    · have hmore : (made ++ [(registeredName newName, p.id)]).filter (·.2 = x.id) =
          made.filter (·.2 = x.id) ++ [(registeredName newName, p.id)] := by
        rw [List.filter_append, List.filter_cons_of_pos (by simp [hid]), List.filter_nil]
      rw [if_pos hid]
      change x.aliases ++ [registeredName newName] =
        ((made ++ [(registeredName newName, p.id)]).filter (·.2 = x.id)).map Prod.fst
      rw [hmore, List.map_append, ← h.listed x hx]
      rfl
    · rw [if_neg hid, List.filter_append, List.filter_cons_of_neg (by simp [Ne.symm hid]),
        List.filter_nil, List.append_nil]
      exact h.listed x hx
  mapped := by
    intro other
    rw [Registry.addAlias, hp]
    change (r.aliases.insert (registeredName newName) p.id).get? other = _
    rw [Assoc.get?_insert, h.mapped, List.reverse_append, List.reverse_singleton,
      List.singleton_append, List.lookup_cons]
    by_cases heq : other = registeredName newName
    · simp [heq]
    · simp [heq, beq_false_of_ne heq]
  targets := by
    intro entry hentry
    rw [ids_addAlias]
    rcases List.mem_append.mp hentry with hentry | hentry
    · exact h.targets entry hentry
    · rw [List.mem_singleton.mp hentry]
      exact List.mem_map_of_mem (List.mem_of_find?_eq_some hp)

/-- **Every step keeps the records.** -/
theorem apply (step : Registration) :
    (step.apply r).Records (made ++ (step.madeAlias? r).toList) := by
  have hsame : made ++ (none : Option (String × PropertyId)).toList = made := List.append_nil _
  cases step with
  | property name default inherited => exact hsame.symm ▸ h.register name default inherited
  | listProperty name default inherited =>
      exact hsame.symm ▸ (h.register name default inherited).setIndexed _ true
  | setIndexed id indexed => exact hsame.symm ▸ h.setIndexed id indexed
  | addShorthand name longhands kind => exact hsame.symm ▸ h.addShorthand name longhands kind
  | addAlias name newName =>
      rw [Registration.apply, Registration.madeAlias?]
      cases hp : r.aliasTarget? name with
      | some p => exact h.addAlias hp newName
      | none =>
          rw [Registry.addAlias, hp]
          exact hsame.symm ▸ h

end Records

/-- The records of a run are those of the aliases that it makes. -/
theorem Records.run (h : r.Records made) (steps : List Registration) :
    (steps.foldl Registration.apply r).Records (made ++ r.aliasesMadeFrom steps) := by
  induction steps generalizing r made with
  | nil => exact (List.append_nil made).symm ▸ h
  | cons step steps ih =>
      rw [List.foldl_cons, aliasesMadeFrom, ← List.append_assoc]
      exact ih (h.apply step)

theorem records_ofRegistrations (steps : List Registration) :
    (ofRegistrations steps).Records (aliasesMade steps) :=
  records_empty.run steps

/-! ## Whether the records agree -/

/-- A property lists just the aliases that the map sends to it, and none of them twice. -/
structure MirrorsAliases (r : Registry) : Prop where
  mem_iff : ∀ p ∈ r.properties, ∀ name, name ∈ p.aliases ↔ r.byAlias? name = some p
  nodup : ∀ p ∈ r.properties, p.aliases.Nodup

theorem Built.byAlias?_eq_some_iff (h : r.Built) {name : String} {p : Property} :
    r.byAlias? name = some p ↔ p ∈ r.properties ∧ r.aliases.get? name = some p.id := by
  rw [byAlias?, Option.bind_eq_some_iff]
  constructor
  · rintro ⟨id, hget, hid⟩
    obtain ⟨hmem, rfl⟩ := h.byId?_eq_some_iff.mp hid
    exact ⟨hmem, hget⟩
  · rintro ⟨hmem, hget⟩
    exact ⟨p.id, hget, h.byId?_eq_some_iff.mpr ⟨hmem, rfl⟩⟩

/-- What is found last is among what was made. -/
theorem mem_of_lookup_reverse {name : String} {id : PropertyId}
    (h : made.reverse.lookup name = some id) : (name, id) ∈ made := by
  obtain ⟨front, back, hcut, -⟩ := List.lookup_eq_some_iff.mp h
  rw [← List.mem_reverse, hcut]
  exact List.mem_append_right _ List.mem_cons_self

namespace Records

variable (h : r.Records made)
include h

/-- A property lists what was made for it. -/
theorem mem_aliases_iff {p : Property} (hp : p ∈ r.properties) {name : String} :
    name ∈ p.aliases ↔ (name, p.id) ∈ made := by
  rw [h.listed p hp]
  simp

/-- A name of an alias that was made once stands for the property it was made for. -/
theorem get?_aliases_eq_some_iff (hnodup : (made.map Prod.fst).Nodup) {name : String} {id : PropertyId} :
    r.aliases.get? name = some id ↔ (name, id) ∈ made := by
  rw [h.mapped, Assoc.lookup_eq_some_iff, List.mem_reverse]
  rw [List.map_reverse]
  exact List.nodup_reverse.mpr hnodup

theorem mirrorsAliases (hbuilt : r.Built) (hnodup : (made.map Prod.fst).Nodup) :
    r.MirrorsAliases where
  mem_iff := by
    intro p hp name
    rw [h.mem_aliases_iff hp, hbuilt.byAlias?_eq_some_iff, h.get?_aliases_eq_some_iff hnodup,
      and_iff_right hp]
  nodup := by
    intro p hp
    rw [h.listed p hp]
    exact hnodup.sublist (List.filter_sublist.map Prod.fst)

/-- An alias that was made for a property is listed there. -/
theorem exists_property {name : String} {id : PropertyId} (hmade : (name, id) ∈ made) :
    ∃ p ∈ r.properties, p.id = id ∧ name ∈ p.aliases := by
  obtain ⟨p, hp, rfl⟩ := List.mem_map.mp (h.targets _ hmade)
  exact ⟨p, hp, rfl, (h.mem_aliases_iff hp).mpr hmade⟩

theorem nodup_of_mirrorsAliases (hmirrors : r.MirrorsAliases) : (made.map Prod.fst).Nodup := by
  refine List.Nodup.map_on ?_ ?_
  · -- Two properties that list one name would both be what the map sends it to.
    rintro ⟨name, id⟩ hmade ⟨-, id'⟩ hmade' rfl
    obtain ⟨p, hp, rfl, hlists⟩ := h.exists_property hmade
    obtain ⟨q, hq, rfl, hlists'⟩ := h.exists_property hmade'
    have hsame := ((hmirrors.mem_iff p hp name).mp hlists).symm.trans
      ((hmirrors.mem_iff q hq name).mp hlists')
    rw [Option.some.inj hsame]
  · -- An alias that was made twice for a property would stand twice in its list.
    refine List.nodup_iff_count_le_one.mpr fun entry => ?_
    by_cases hmade : entry ∈ made
    · obtain ⟨p, hp, hid, -⟩ := h.exists_property hmade
      have hlist : (made.filter (·.2 = p.id)).Nodup := by
        have hnodup := hmirrors.nodup p hp
        rw [h.listed p hp] at hnodup
        exact hnodup.of_map Prod.fst
      calc made.count entry = (made.filter (·.2 = p.id)).count entry :=
            (List.count_filter (by simp [hid])).symm
        _ ≤ 1 := List.nodup_iff_count_le_one.mp hlist entry
    · rw [List.count_eq_zero_of_not_mem hmade]
      exact Nat.zero_le 1

end Records

/-- **The two records of aliases agree just in case none is made twice.**  However a registry is built,
what the map sends an alias to lists it.  The other way round, properties list only what the map sends
to them, and nothing twice, when and only when no step makes an alias of a name that had been made
before. -/
theorem mirrorsAliases_iff (steps : List Registration) :
    (∀ name p, (ofRegistrations steps).byAlias? name = some p → name ∈ p.aliases) ∧
      ((ofRegistrations steps).MirrorsAliases ↔ ((aliasesMade steps).map Prod.fst).Nodup) := by
  have hbuilt := built_ofRegistrations steps
  have hrecords := records_ofRegistrations steps
  refine ⟨fun name p hp => ?_, hrecords.nodup_of_mirrorsAliases, hrecords.mirrorsAliases hbuilt⟩
  obtain ⟨hmem, hget⟩ := hbuilt.byAlias?_eq_some_iff.mp hp
  rw [hrecords.mapped] at hget
  exact (hrecords.mem_aliases_iff hmem).mpr (mem_of_lookup_reverse hget)

/-- `hue` is made an alias of `color` twice, and then one of `tint`. -/
def hueSteps : List Registration :=
  [.property "color" "black" true, .property "tint" "" false, .addAlias "color" "hue",
    .addAlias "color" "hue", .addAlias "tint" "hue"]

/-- `color` goes on to list `hue`, and lists it twice, though `hue` stands for `tint`. -/
theorem moved_alias_stays_listed :
    (ofRegistrations hueSteps).properties.map Property.aliases = [["hue", "hue"], ["hue"]] ∧
      ((ofRegistrations hueSteps).byAlias? "hue").map Property.name = some "tint" ∧
        ¬(ofRegistrations hueSteps).MirrorsAliases := by
  have hlists : (ofRegistrations hueSteps).properties.map Property.aliases =
      [["hue", "hue"], ["hue"]] := by
    decide +kernel
  refine ⟨hlists, by decide +kernel, fun hmirrors => ?_⟩
  obtain ⟨p, hp, htwice⟩ : ∃ p ∈ (ofRegistrations hueSteps).properties, p.aliases = ["hue", "hue"] := by
    have hmem : ["hue", "hue"] ∈ (ofRegistrations hueSteps).properties.map Property.aliases := by
      rw [hlists]
      exact List.mem_cons_self
    exact List.mem_map.mp hmem
  have hnodup := hmirrors.nodup p hp
  rw [htwice] at hnodup
  exact absurd hnodup (by decide)

end Registry

end WidgetStyle
