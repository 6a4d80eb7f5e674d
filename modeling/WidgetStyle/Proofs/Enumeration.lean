import Mathlib.Data.List.Nodup
import WidgetStyle.Assoc

/-!
# WidgetStyle.Proofs.Enumeration — maps whose order means nothing

The entries of a map stand in some order, and a program that goes through them meets them in that
order.  Two maps that hold the same entries are reorderings of one another (`Assoc.Reorders`); no
lookup tells them apart, and lookups are all that is the same about them (`reorders_iff`).

Going through a map is a fold.  The order of a fold does not matter where any two of its steps can be
taken the other way round (`foldl_perm`).  Equality would be too much to ask of the two ways: writing
two keys gives maps that are reorderings only.  So the lemma is about steps that can be swapped up to
an equivalence which all steps keep.
-/

namespace WidgetStyle

/-- Steps that can be swapped, up to an equivalence that all steps keep, can be taken in any order. -/
theorem foldl_perm {α β : Type} {R : β → β → Prop} (hR : Equivalence R) {f : β → α → β}
    (keeps : ∀ x {a b : β}, R a b → R (f a x) (f b x)) {l l' : List α} (h : l.Perm l')
    (swap : l.Pairwise fun x y => ∀ b, R (f (f b x) y) (f (f b y) x)) {a b : β} (hab : R a b) :
    R (l.foldl f a) (l'.foldl f b) := by
  induction h generalizing a b with
  | nil => exact hab
  | cons x _ ih => exact ih swap.of_cons (keeps x hab)
  | swap x y l =>
      have hxy := (List.pairwise_cons.mp swap).1 x List.mem_cons_self
      have hstart : R (f (f a y) x) (f (f b x) y) := hR.trans (hxy a) (keeps y (keeps x hab))
      show R (l.foldl f (f (f a y) x)) (l.foldl f (f (f b x) y))
      exact List.foldl_rel hstart fun z _ c d hcd => keeps z hcd
  | trans h _ ih ih' =>
      have hsymm : ∀ {x y}, (∀ b, R (f (f b x) y) (f (f b y) x)) →
          ∀ b, R (f (f b y) x) (f (f b x) y) := fun hxy b => hR.symm (hxy b)
      exact hR.trans (ih swap hab) (ih' ((h.pairwise_iff hsymm).mp swap) (hR.refl b))

namespace Assoc

variable {κ α : Type} [DecidableEq κ] {m n : Assoc κ α}

/-! ## Reorderings -/

/-- The same entries, in any order. -/
def Reorders (m n : Assoc κ α) : Prop := m.entries.Perm n.entries

/-- Reorderings are the maps in which the same is found under every key. -/
theorem reorders_iff : m.Reorders n ↔ ∀ k, m.get? k = n.get? k := by
  have hnodup : ∀ m : Assoc κ α, m.entries.Nodup := fun m => List.Nodup.of_map _ m.nodup
  rw [Reorders, List.perm_ext_iff_of_nodup (hnodup m) (hnodup n)]
  constructor
  · intro h k
    refine Option.ext fun v => ?_
    rw [get?_eq_some_iff, get?_eq_some_iff, h]
  · rintro h ⟨k, v⟩
    rw [← get?_eq_some_iff, ← get?_eq_some_iff, h]

theorem Reorders.refl (m : Assoc κ α) : m.Reorders m := List.Perm.refl m.entries

theorem Reorders.symm (h : m.Reorders n) : n.Reorders m := List.Perm.symm h

theorem Reorders.trans {o : Assoc κ α} (h : m.Reorders n) (k : n.Reorders o) : m.Reorders o :=
  List.Perm.trans h k

theorem Reorders.get?_eq (h : m.Reorders n) (k : κ) : m.get? k = n.get? k := reorders_iff.mp h k

theorem Reorders.values (h : m.Reorders n) : m.values.Perm n.values := h.map Prod.snd

theorem Reorders.insert (h : m.Reorders n) (k : κ) (v : α) :
    (m.insert k v).Reorders (n.insert k v) := by
  refine reorders_iff.mpr fun x => ?_
  rw [get?_insert, get?_insert, h.get?_eq]

/-- Which of two keys is written first decides about the order of the entries only. -/
theorem insert_insert_reorders (m : Assoc κ α) {k l : κ} (hne : k ≠ l) (v w : α) :
    ((m.insert k v).insert l w).Reorders ((m.insert l w).insert k v) := by
  refine reorders_iff.mpr fun x => ?_
  rw [get?_insert, get?_insert, get?_insert, get?_insert]
  by_cases hk : x = k
  · rw [if_pos hk, if_pos hk, if_neg fun hl => hne (hk.symm.trans hl)]
  · rw [if_neg hk, if_neg hk]

/-- The entries with the last one first. -/
def reversed (m : Assoc κ α) : Assoc κ α :=
  ⟨m.entries.reverse, by rw [List.map_reverse, List.nodup_reverse]; exact m.nodup⟩

theorem reorders_reversed (m : Assoc κ α) : m.Reorders m.reversed := m.entries.reverse_perm.symm

/-! ## Values that know their keys -/

/-- Every value is kept under its own key. -/
def KeyedBy (key : α → κ) (m : Assoc κ α) : Prop := ∀ k v, m.get? k = some v → key v = k

theorem KeyedBy.map_values {key : α → κ} (h : m.KeyedBy key) : m.values.map key = m.keys := by
  rw [values, keys, List.map_map]
  refine List.map_congr_left fun e he => ?_
  exact h e.1 e.2 (get?_eq_some_iff.mpr he)

/-- The values of such a map have different keys. -/
theorem KeyedBy.pairwise_values {key : α → κ} (h : m.KeyedBy key) :
    m.values.Pairwise fun v w => key v ≠ key w := by
  have hnodup : (m.values.map key).Nodup := h.map_values ▸ m.nodup
  exact List.pairwise_map.mp hnodup

end Assoc

end WidgetStyle
