import WidgetStyle.Proofs.Entries
import WidgetStyle.Sheet.Block

/-!
# WidgetStyle.Proofs.Sheet.Blocks — what writing to a block can do

Blocks are lists in which a name stands once, and everything that is written to them goes through
`putByName`.  So two questions are answered here for every way to fill a block — writing one entry,
pushing a declaration that may stand for many, writing one block over another — and nobody has to
look inside again:

* where the members come from (`mem_declarations_push`, `mem_declarations_merge`, and the same for
  variables): they were there before, or they are what was written;
* that names stay distinct (`NamesDistinct.push`, `NamesDistinct.merge`).
-/

namespace WidgetStyle

namespace Block

/-! ## Where the members come from -/

variable {b other : Block} {specificity : Specificity} {important : Bool}

theorem mem_declarations_put {e : Entry} {x : Declaration}
    (h : x ∈ (b.put specificity important e).declarations) :
    x ∈ b.declarations ∨ ∃ name id? value,
      e = .property name id? value ∧ x = ⟨name, id?, value, specificity, important⟩ := by
  cases e with
  | «variable» name value => exact Or.inl h
  | property name id? value =>
      rcases eq_or_mem_of_mem_putByName h with rfl | h
      · exact Or.inr ⟨name, id?, value, rfl, rfl⟩
      · exact Or.inl h

theorem mem_vars_put {e : Entry} {x : Variable}
    (h : x ∈ (b.put specificity important e).vars) :
    x ∈ b.vars ∨ ∃ name value, e = .variable name value ∧ x = { name, value, specificity } := by
  cases e with
  | property name id? value => exact Or.inl h
  | «variable» name value =>
      rcases eq_or_mem_of_mem_putByName h with rfl | h
      · exact Or.inr ⟨name, value, rfl, rfl⟩
      · exact Or.inl h

theorem mem_declarations_push {r : Registry} {d : Source.Declaration} {x : Declaration}
    (h : x ∈ (b.push r specificity d).declarations) :
    x ∈ b.declarations ∨ ∃ name id? value, .property name id? value ∈ r.entries d.name d.value ∧
      x = ⟨name, id?, value, specificity, d.important⟩ := by
  rw [push] at h
  refine List.foldlRecOn (motive := fun c => x ∈ Block.declarations c → _) _ _ Or.inl ?_ h
  intro c hc e he hx
  rcases mem_declarations_put hx with hx | ⟨name, id?, value, rfl, rfl⟩
  · exact hc hx
  · exact Or.inr ⟨name, id?, value, he, rfl⟩

theorem mem_vars_push {r : Registry} {d : Source.Declaration} {x : Variable}
    (h : x ∈ (b.push r specificity d).vars) :
    x ∈ b.vars ∨ ∃ name value, .variable name value ∈ r.entries d.name d.value ∧
      x = { name, value, specificity } := by
  rw [push] at h
  refine List.foldlRecOn (motive := fun c => x ∈ Block.vars c → _) _ _ Or.inl ?_ h
  intro c hc e he hx
  rcases mem_vars_put hx with hx | ⟨name, value, rfl, rfl⟩
  · exact hc hx
  · exact Or.inr ⟨name, value, he, rfl⟩

theorem foldl_writeDeclaration (b : Block) (ds : List Declaration) :
    ds.foldl writeDeclaration b =
      { b with
        declarations := ds.foldl (fun l d => putByName Declaration.name d l) b.declarations } := by
  induction ds generalizing b with
  | nil => rfl
  | cons d ds ih => rw [List.foldl_cons, ih]; rfl

theorem foldl_writeVariable (b : Block) (vs : List Variable) :
    vs.foldl writeVariable b =
      { b with vars := vs.foldl (fun l v => putByName Variable.name v l) b.vars } := by
  induction vs generalizing b with
  | nil => rfl
  | cons v vs ih => rw [List.foldl_cons, ih]; rfl

/-- The declarations and the variables of a block written over another. -/
theorem merge_eq (b other : Block) :
    b.merge other =
      { declarations :=
          other.declarations.foldl (fun l d => putByName Declaration.name d l) b.declarations
        vars := other.vars.foldl (fun l v => putByName Variable.name v l) b.vars } := by
  rw [merge, foldl_writeVariable, foldl_writeDeclaration]

theorem mem_declarations_merge {x : Declaration} (h : x ∈ (b.merge other).declarations) :
    x ∈ b.declarations ∨ x ∈ other.declarations := by
  rw [merge_eq] at h
  exact mem_of_mem_foldl_putByName h

theorem mem_vars_merge {x : Variable} (h : x ∈ (b.merge other).vars) :
    x ∈ b.vars ∨ x ∈ other.vars := by
  rw [merge_eq] at h
  exact mem_of_mem_foldl_putByName h

theorem mem_vars_withOrder {order : Nat} {x : Variable} (h : x ∈ (b.withOrder order).vars) :
    ∃ v ∈ b.vars, x = { v with order } := by
  obtain ⟨v, hv, rfl⟩ := List.mem_map.mp h
  exact ⟨v, hv, rfl⟩

/-! ## Distinct names -/

/-- No two declarations and no two variables share a name. -/
structure NamesDistinct (b : Block) : Prop where
  declarations : (b.declarations.map Declaration.name).Nodup
  vars : (b.vars.map Variable.name).Nodup

theorem NamesDistinct.empty : NamesDistinct {} := ⟨List.nodup_nil, List.nodup_nil⟩

theorem NamesDistinct.put (h : b.NamesDistinct) (e : Entry) :
    (b.put specificity important e).NamesDistinct := by
  cases e with
  | «variable» name value => exact ⟨h.declarations, nodup_putByName h.vars⟩
  | property name id? value => exact ⟨nodup_putByName h.declarations, h.vars⟩

theorem NamesDistinct.push (h : b.NamesDistinct) (r : Registry) (d : Source.Declaration) :
    (b.push r specificity d).NamesDistinct := by
  rw [Block.push]
  exact List.foldlRecOn _ _ h fun _ hb e _ => hb.put e

theorem NamesDistinct.merge (h : b.NamesDistinct) (other : Block) :
    (b.merge other).NamesDistinct := by
  rw [merge_eq]
  exact ⟨nodup_foldl_putByName _ h.declarations, nodup_foldl_putByName _ h.vars⟩

theorem NamesDistinct.withOrder (h : b.NamesDistinct) (order : Nat) :
    (b.withOrder order).NamesDistinct where
  declarations := h.declarations
  vars := by simpa [Block.withOrder, Function.comp_def] using h.vars

end Block

end WidgetStyle
