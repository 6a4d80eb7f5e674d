import Mathlib.Data.List.Induction
import WidgetStyle.Cascade.Computed
import WidgetStyle.Proofs.Property.Registration

/-!
# WidgetStyle.Proofs.Cascade.Values — the values of a computed style

When the properties of a registry have different identities, computing a style enters one value for
each of them and nothing else (`StyleContext.entries_compute`).

What a winner says about a property is its text with the references replaced (`Cascaded.text?`).  It
says one of three things, and so does a missing winner: the property is left to the parent
(`Property.Defers`), it goes back to its default (`Property.Resets`), or the text is its value
(`Property.Gives`).
-/

namespace WidgetStyle

open Text

/-! ## One value for each property -/

namespace Assoc

variable {κ α β : Type} [DecidableEq κ]

/-- A new key goes to the end. -/
theorem write_of_not_mem {k : κ} (v : α) {es : List (κ × α)} (h : k ∉ es.map Prod.fst) :
    write k v es = es ++ [(k, v)] := by
  induction es with
  | nil => rfl
  | cons e es ih =>
      rw [List.map_cons, List.mem_cons, not_or] at h
      rw [write, if_neg (Ne.symm h.1), ih h.2, List.cons_append]

theorem entries_insert_of_not_mem (m : Assoc κ α) {k : κ} (v : α) (h : k ∉ m.entries.map Prod.fst) :
    (m.insert k v).entries = m.entries ++ [(k, v)] := write_of_not_mem v h

/-- Writing to different keys, one after the other, leaves exactly what was written. -/
theorem entries_foldl_insert {key : β → κ} (value : β → α) {l : List β} (h : (l.map key).Nodup) :
    (l.foldl (fun m x => m.insert (key x) (value x)) (empty : Assoc κ α)).entries =
      l.map fun x => (key x, value x) := by
  induction l using List.reverseRecOn with
  | nil => rfl
  | append_singleton l x ih =>
      rw [List.map_append, List.nodup_append_comm] at h
      obtain ⟨hx, hl⟩ := List.nodup_cons.mp h
      have hnew : key x ∉ (l.foldl (fun m x => m.insert (key x) (value x))
          (empty : Assoc κ α)).entries.map Prod.fst := by
        rw [ih hl, List.map_map]
        exact hx
      rw [List.foldl_append, List.foldl_cons, List.foldl_nil, entries_insert_of_not_mem _ _ hnew, ih hl,
        List.map_append, List.map_singleton]

end Assoc

namespace StyleContext

/-- A computed style has the value of every property under its identity, and no others. -/
theorem entries_compute {x : StyleContext} (h : x.registry.ids.Nodup) (c : Cascaded) :
    (x.compute c).values.entries = x.registry.properties.map fun p =>
      (p.id, x.valueOf c ⟨[(x.compute c).scope, x.globals], x.maxDepth⟩ p) :=
  Assoc.entries_foldl_insert _ h

theorem keys_compute {x : StyleContext} (h : x.registry.ids.Nodup) (c : Cascaded) :
    (x.compute c).values.keys = x.registry.ids := by
  rw [Assoc.keys, entries_compute h, List.map_map, Registry.ids]
  rfl

theorem value?_compute {x : StyleContext} (h : x.registry.ids.Nodup) (c : Cascaded) {p : Property}
    (hp : p ∈ x.registry.properties) :
    (x.compute c).value? p.id =
      some (x.valueOf c ⟨[(x.compute c).scope, x.globals], x.maxDepth⟩ p) := by
  rw [ComputedStyle.value?, Assoc.get?_eq_some_iff, entries_compute h]
  exact List.mem_map_of_mem hp

end StyleContext

/-! ## Where a value comes from -/

/-- What the winner for a key comes to: its text with the references replaced. -/
def Cascaded.text? (c : Cascaded) (resolver : Resolver) (key : PropertyId) : Option String :=
  (c.winner? key).map fun d => resolver.substitute d.value

/-- A text as a keyword: keywords may stand in any letter case and between blanks. -/
def keyword (text : String) : String := lower (trimmed text)

namespace Property

/-- Whether nothing is said about a property, or only `unset`. -/
def IsUnset (text? : Option String) : Prop := ∀ text ∈ text?, keyword text = "unset"

theorem isUnset_none : IsUnset none := fun _ htext => absurd htext (Option.not_mem_none _)

/-- Whether a property is left to the parent: by `inherit`, or since it is inherited and unset. -/
def Defers (p : Property) (text? : Option String) : Prop :=
  (∃ text ∈ text?, keyword text = "inherit") ∨ p.inherited = true ∧ IsUnset text?

/-- Whether a property goes back to its default: by `initial`, or since it is not inherited and
unset. -/
def Resets (p : Property) (text? : Option String) : Prop :=
  (∃ text ∈ text?, keyword text = "initial") ∨ p.inherited = false ∧ IsUnset text?

/-- Whether a text is said about a property that is no keyword. -/
def Gives (text? : Option String) (text : String) : Prop :=
  text ∈ text? ∧ keyword text ∉ ["inherit", "initial", "unset"]

/-- One of three things is said about a property. -/
theorem defers_or_resets_or_gives (p : Property) (text? : Option String) :
    p.Defers text? ∨ p.Resets text? ∨ ∃ text, Gives text? text := by
  by_cases hunset : IsUnset text?
  · cases hp : p.inherited with
    | true => exact Or.inl (Or.inr ⟨hp, hunset⟩)
    | false => exact Or.inr (Or.inl (Or.inr ⟨hp, hunset⟩))
  · simp only [IsUnset, not_forall] at hunset
    obtain ⟨text, htext, hunset⟩ := hunset
    by_cases hinherit : keyword text = "inherit"
    · exact Or.inl (Or.inl ⟨text, htext, hinherit⟩)
    by_cases hinitial : keyword text = "initial"
    · exact Or.inr (Or.inl (Or.inl ⟨text, htext, hinitial⟩))
    · exact Or.inr (Or.inr ⟨text, htext, by simp [hinherit, hinitial, hunset]⟩)

end Property

namespace StyleContext

variable {x : StyleContext} {c : Cascaded} {resolver : Resolver} {p : Property}

theorem valueOf_eq (x : StyleContext) (c : Cascaded) (resolver : Resolver) (p : Property) :
    x.valueOf c resolver p = (c.text? resolver p.id).elim (x.unsetValue p) (x.resolve p) := by
  rw [valueOf, Cascaded.text?]
  cases c.winner? p.id with
  | none => rfl
  | some d => rw [Option.map_some, Option.elim_some]

/-- An unset property has the value that its definition asks for. -/
theorem valueOf_of_isUnset (h : Property.IsUnset (c.text? resolver p.id)) :
    x.valueOf c resolver p = x.unsetValue p := by
  rw [valueOf_eq]
  cases htext : c.text? resolver p.id with
  | none => rfl
  | some text =>
      have hunset : lower (trimmed text) = "unset" := h text htext
      rw [Option.elim_some, resolve, hunset]
      rfl

theorem valueOf_of_defers (h : p.Defers (c.text? resolver p.id)) :
    x.valueOf c resolver p = x.inheritedValue p := by
  rcases h with ⟨text, htext, hinherit⟩ | ⟨hp, hunset⟩
  · rw [keyword] at hinherit
    rw [valueOf_eq, htext, Option.elim_some, resolve, hinherit]
    rfl
  · rw [valueOf_of_isUnset hunset, unsetValue, if_pos hp]

theorem valueOf_of_resets (h : p.Resets (c.text? resolver p.id)) :
    x.valueOf c resolver p = p.default := by
  rcases h with ⟨text, htext, hinitial⟩ | ⟨hp, hunset⟩
  · rw [keyword] at hinitial
    rw [valueOf_eq, htext, Option.elim_some, resolve, hinitial]
    rfl
  · rw [valueOf_of_isUnset hunset, unsetValue, if_neg (Bool.not_eq_true _ ▸ hp)]

theorem valueOf_of_gives {text : String} (h : Property.Gives (c.text? resolver p.id) text) :
    x.valueOf c resolver p = trimmed text := by
  obtain ⟨htext, hkeyword⟩ := h
  simp only [keyword, List.mem_cons, List.not_mem_nil, or_false, not_or] at hkeyword
  obtain ⟨hinherit, hinitial, hunset⟩ := hkeyword
  rw [valueOf_eq, htext, Option.elim_some, resolve, if_neg hinherit, if_neg hinitial, if_neg hunset]

end StyleContext

end WidgetStyle
