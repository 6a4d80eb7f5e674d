/-!
# WidgetStyle.Assoc — keyed entries in first-insertion order

A finite map kept as the list of its entries.  Keys are pairwise distinct, and the type carries
that fact.  Writing to a key that is present replaces its value in place; writing to a new key
appends.  The list order is therefore the order of first insertion, so an enumeration of the map
is a value that statements can permute.

Main statements: `get?_insert_self`, `get?_insert_of_ne`, `get?_erase_self`,
`get?_erase_of_ne`, and `get?_eq_some_iff`, which reads a lookup as membership of the entry.
-/

namespace WidgetStyle

/-! ## Writing to a list of entries -/

/-- Replaces the value at `k`, or appends the entry when no entry has this key. -/
def Assoc.write {κ α : Type} [DecidableEq κ] (k : κ) (v : α) : List (κ × α) → List (κ × α)
  | [] => [(k, v)]
  | e :: es => if e.1 = k then (k, v) :: es else e :: Assoc.write k v es

theorem Assoc.mem_keys_write {κ α : Type} [DecidableEq κ] {k x : κ} {v : α}
    {es : List (κ × α)} :
    x ∈ (Assoc.write k v es).map Prod.fst ↔ x = k ∨ x ∈ es.map Prod.fst := by
  induction es with
  | nil => simp [Assoc.write]
  | cons e es ih =>
    by_cases h : e.1 = k
    · simp [Assoc.write, h]
    · simp only [Assoc.write, h, if_false, List.map_cons, List.mem_cons, ih]
      constructor
      · rintro (h | h | h) <;> simp [h]
      · rintro (h | h | h) <;> simp [h]

theorem Assoc.nodup_write {κ α : Type} [DecidableEq κ] {k : κ} {v : α} {es : List (κ × α)}
    (h : (es.map Prod.fst).Nodup) : ((Assoc.write k v es).map Prod.fst).Nodup := by
  induction es with
  | nil => simp [Assoc.write]
  | cons e es ih =>
    rw [List.map_cons, List.nodup_cons] at h
    by_cases hk : e.1 = k
    · subst hk
      simp only [Assoc.write, if_true, List.map_cons, List.nodup_cons]
      exact h
    · simp only [Assoc.write, hk, if_false, List.map_cons, List.nodup_cons]
      refine ⟨fun hm => ?_, ih h.2⟩
      rcases Assoc.mem_keys_write.1 hm with hm | hm
      · exact hk hm
      · exact h.1 hm

/-! ## The map -/

/-- A finite map as its entries, in the order in which the keys were first written. -/
structure Assoc (κ α : Type) [DecidableEq κ] where
  entries : List (κ × α)
  nodup : (entries.map Prod.fst).Nodup

namespace Assoc

variable {κ α β : Type} [DecidableEq κ]

@[ext] theorem ext {m n : Assoc κ α} (h : m.entries = n.entries) : m = n := by
  cases m; cases n; cases h; rfl

instance [DecidableEq α] : DecidableEq (Assoc κ α) := fun m n =>
  decidable_of_iff (m.entries = n.entries) ⟨Assoc.ext, fun h => h ▸ rfl⟩

/-- The map without entries. -/
def empty : Assoc κ α := ⟨[], List.nodup_nil⟩

instance : Inhabited (Assoc κ α) := ⟨empty⟩

/-- The value at a key. -/
def get? (m : Assoc κ α) (k : κ) : Option α := m.entries.lookup k

/-- Whether the key has a value. -/
def contains (m : Assoc κ α) (k : κ) : Bool := (m.get? k).isSome

/-- Replaces the value at a key, or appends an entry. -/
def insert (m : Assoc κ α) (k : κ) (v : α) : Assoc κ α :=
  ⟨write k v m.entries, nodup_write m.nodup⟩

/-- The entries that pass the test, in their order. -/
def filter (m : Assoc κ α) (keep : κ → α → Bool) : Assoc κ α :=
  ⟨m.entries.filter fun e => keep e.1 e.2,
    List.Nodup.sublist (List.Sublist.map _ List.filter_sublist) m.nodup⟩

/-- Drops the entry of a key. -/
def erase (m : Assoc κ α) (k : κ) : Assoc κ α := m.filter fun x _ => x ≠ k

/-- The same keys with every value passed through `f`. -/
def mapValues (m : Assoc κ α) (f : α → β) : Assoc κ β :=
  ⟨m.entries.map fun e => (e.1, f e.2), by simpa [List.map_map, Function.comp_def] using m.nodup⟩

/-- The keys in the order of first insertion. -/
def keys (m : Assoc κ α) : List κ := m.entries.map Prod.fst

/-- The values in the order of first insertion of their keys. -/
def values (m : Assoc κ α) : List α := m.entries.map Prod.snd

/-- The number of entries. -/
def size (m : Assoc κ α) : Nat := m.entries.length

/-- Whether there is no entry. -/
def isEmpty (m : Assoc κ α) : Bool := m.entries.isEmpty

/-- Whether two maps hold the same entries, whatever their order. -/
def agrees (same : α → α → Bool) (m n : Assoc κ α) : Bool :=
  m.size == n.size && m.entries.all fun e => (n.get? e.1).any (same e.2)

/-! ## Laws of lookup -/

@[simp] theorem get?_empty (k : κ) : (empty : Assoc κ α).get? k = none := rfl

theorem lookup_write (k x : κ) (v : α) (es : List (κ × α)) :
    (write k v es).lookup x = if x = k then some v else es.lookup x := by
  induction es with
  | nil =>
    by_cases h : x = k
    · simp [write, h]
    · have : (x == k) = false := by simpa using h
      simp [write, List.lookup_cons, h, this]
  | cons e es ih =>
    obtain ⟨a, b⟩ := e
    by_cases hk : a = k
    · subst hk
      by_cases h : x = a
      · simp [write, h]
      · have : (x == a) = false := by simpa using h
        simp [write, List.lookup_cons, h, this]
    · simp only [write, hk, if_false, List.lookup_cons, ih]
      by_cases h : x = a
      · subst h; simp [hk]
      · have : (x == a) = false := by simpa using h
        simp [this]

theorem get?_insert (m : Assoc κ α) (k x : κ) (v : α) :
    (m.insert k v).get? x = if x = k then some v else m.get? x :=
  lookup_write k x v m.entries

@[simp] theorem get?_insert_self (m : Assoc κ α) (k : κ) (v : α) :
    (m.insert k v).get? k = some v := by simp [get?_insert]

theorem get?_insert_of_ne (m : Assoc κ α) {k x : κ} (v : α) (h : x ≠ k) :
    (m.insert k v).get? x = m.get? x := by simp [get?_insert, h]

theorem lookup_eq_some_iff {es : List (κ × α)} (h : (es.map Prod.fst).Nodup) {k : κ} {v : α} :
    es.lookup k = some v ↔ (k, v) ∈ es := by
  induction es with
  | nil => simp
  | cons e es ih =>
    obtain ⟨a, b⟩ := e
    rw [List.map_cons, List.nodup_cons] at h
    by_cases hk : k = a
    · subst hk
      have hn : (k, v) ∉ es := fun hm => h.1 (List.mem_map.2 ⟨(k, v), hm, rfl⟩)
      simp [hn, eq_comm]
    · have : (k == a) = false := by simpa using hk
      simp [List.lookup_cons, this, ih h.2, hk]

/-- A key has a value exactly when the map holds the entry. -/
theorem get?_eq_some_iff {m : Assoc κ α} {k : κ} {v : α} :
    m.get? k = some v ↔ (k, v) ∈ m.entries := lookup_eq_some_iff m.nodup

theorem get?_filter {m : Assoc κ α} {keep : κ → α → Bool} {k : κ} {v : α} :
    (m.filter keep).get? k = some v ↔ m.get? k = some v ∧ keep k v = true := by
  simp [get?_eq_some_iff, filter]

@[simp] theorem get?_erase_self (m : Assoc κ α) (k : κ) : (m.erase k).get? k = none := by
  cases h : (m.erase k).get? k with
  | none => rfl
  | some v => simp [erase, get?_filter] at h

theorem get?_erase_of_ne (m : Assoc κ α) {k x : κ} (h : x ≠ k) :
    (m.erase k).get? x = m.get? x := by
  apply Option.ext
  intro v
  simp [erase, get?_filter, h]

theorem get?_mapValues (m : Assoc κ α) (f : α → β) (k : κ) :
    (m.mapValues f).get? k = (m.get? k).map f := by
  have lookup : ∀ es : List (κ × α),
      (es.map fun e => (e.1, f e.2)).lookup k = (es.lookup k).map f := by
    intro es
    induction es with
    | nil => rfl
    | cons e es ih =>
      rw [List.map_cons, List.lookup_cons, List.lookup_cons, ih]
      cases k == e.1 <;> rfl
  exact lookup m.entries

/-- Writing to several keys leaves a value at each of them, and at those that had one. -/
theorem exists_get?_foldl_insert {γ : Type} (key : γ → κ) (value : γ → α) {xs : List γ}
    (m : Assoc κ α) {k : κ} (h : (∃ x ∈ xs, key x = k) ∨ ∃ v, m.get? k = some v) :
    ∃ v, (xs.foldl (fun m x => m.insert (key x) (value x)) m).get? k = some v := by
  induction xs generalizing m with
  | nil =>
    rcases h with ⟨x, hx, -⟩ | h
    · exact absurd hx List.not_mem_nil
    · exact h
  | cons x xs ih =>
    refine ih _ ?_
    by_cases hk : k = key x
    · exact Or.inr ⟨value x, hk ▸ get?_insert_self _ _ _⟩
    · rw [get?_insert_of_ne _ _ hk]
      rcases h with ⟨y, hy, hkey⟩ | h
      · rcases List.mem_cons.mp hy with rfl | hy
        · exact absurd hkey.symm hk
        · exact Or.inl ⟨y, hy, hkey⟩
      · exact Or.inr h

end Assoc

end WidgetStyle
