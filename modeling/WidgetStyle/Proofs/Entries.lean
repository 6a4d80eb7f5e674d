import Mathlib.Data.List.Basic
import Mathlib.Data.List.Induction
import WidgetStyle.Entries

/-!
# WidgetStyle.Proofs.Entries — lists in which a name stands once

Writing an entry by name (`putByName`) keeps names distinct, leaves what has other names alone, and
decides what is found under the name.  Entries that are collected by name are therefore told by two
questions about the list they come from: which names it has, each in the place where it is first met
(`map_name_collectByName`), and which entry is the last of a name (`find?_collectByName`).  That gives
them without any writing (`collectByName_eq_lastOfEach`).
-/

namespace WidgetStyle

/-! ## Writing by name -/

section ByName

variable {α : Type} {name : α → String} {x y : α} {l : List α}

theorem eq_or_mem_of_mem_putByName (h : y ∈ putByName name x l) : y = x ∨ y ∈ l := by
  induction l with
  | nil => exact Or.inl (List.mem_singleton.mp h)
  | cons z l ih =>
      rw [putByName] at h
      split at h
      · rcases List.mem_cons.mp h with rfl | h
        · exact Or.inl rfl
        · exact Or.inr (List.mem_cons_of_mem _ h)
      · rcases List.mem_cons.mp h with rfl | h
        · exact Or.inr List.mem_cons_self
        · exact (ih h).imp_right (List.mem_cons_of_mem _)

/-- The new entry takes the place of the old one of its name, or comes last. -/
theorem map_putByName :
    (putByName name x l).map name =
      if name x ∈ l.map name then l.map name else l.map name ++ [name x] := by
  induction l with
  | nil => simp [putByName]
  | cons z l ih =>
      rw [putByName]
      split
      · next hz => simp [hz]
      · next hz =>
          have hmem : name x ∈ (z :: l).map name ↔ name x ∈ l.map name := by
            rw [List.map_cons, List.mem_cons, or_iff_right fun h => hz h.symm]
          simp only [List.map_cons, ih] at hmem ⊢
          by_cases hx : name x ∈ l.map name
          · rw [if_pos hx, if_pos (hmem.mpr hx)]
          · rw [if_neg hx, if_neg (mt hmem.mp hx), List.cons_append]

theorem nodup_putByName (h : (l.map name).Nodup) : ((putByName name x l).map name).Nodup := by
  rw [map_putByName]
  split
  · exact h
  · next hx =>
      refine List.nodup_append.mpr ⟨h, by simp, fun a ha b hb => ?_⟩
      rw [List.mem_singleton.mp hb]
      rintro rfl
      exact hx ha

/-- What has another name is not touched by an entry of the name. -/
theorem filter_putByName (n : String) :
    (putByName name x l).filter (fun y => name y ≠ n) =
      if name x = n then l.filter fun y => name y ≠ n
      else putByName name x (l.filter fun y => name y ≠ n) := by
  induction l with
  | nil => by_cases hx : name x = n <;> simp [putByName, hx]
  | cons z l ih =>
      rw [putByName]
      by_cases hz : name z = name x
      · by_cases hx : name x = n <;> simp [putByName, hz, hx]
      · by_cases hx : name x = n <;> by_cases hn : name z = n <;>
          simp_all [putByName]

theorem filter_foldl_putByName (n : String) (xs l : List α) :
    (xs.foldl (fun l y => putByName name y l) l).filter (fun y => name y ≠ n) =
      (xs.filter fun y => name y ≠ n).foldl (fun l y => putByName name y l)
        (l.filter fun y => name y ≠ n) := by
  induction xs generalizing l with
  | nil => rfl
  | cons x xs ih =>
      rw [List.foldl_cons, ih, filter_putByName]
      by_cases hx : name x = n <;> simp [hx]

theorem mem_of_mem_foldl_putByName {xs : List α}
    (h : x ∈ xs.foldl (fun l y => putByName name y l) l) : x ∈ l ∨ x ∈ xs := by
  refine List.foldlRecOn (motive := fun m => x ∈ m → x ∈ l ∨ x ∈ xs) xs _ Or.inl ?_ h
  intro m hm y hy hx
  rcases eq_or_mem_of_mem_putByName hx with rfl | hx
  · exact Or.inr hy
  · exact hm hx

theorem nodup_foldl_putByName (xs : List α)
    (h : (l.map name).Nodup) : ((xs.foldl (fun l y => putByName name y l) l).map name).Nodup :=
  List.foldlRecOn (motive := fun m : List α => (m.map name).Nodup) xs _ h
    fun _ hm _ _ => nodup_putByName hm

theorem find?_putByName (n : String) (x : α) (l : List α) :
    (putByName name x l).find? (fun y => name y = n) =
      if name x = n then some x else l.find? (fun y => name y = n) := by
  induction l with
  | nil => by_cases hx : name x = n <;> simp [putByName, hx]
  | cons z l ih =>
      rw [putByName]
      by_cases hz : name z = name x <;> by_cases hx : name x = n <;> simp_all [List.find?_cons]

/-- With distinct names, what is written last prevails. -/
theorem find?_foldl_putByName {xs : List α} (hxs : (xs.map name).Nodup) (n : String) (l : List α) :
    (xs.foldl (fun l x => putByName name x l) l).find? (fun y => name y = n) =
      (xs.find? fun y => name y = n).or (l.find? fun y => name y = n) := by
  induction xs generalizing l with
  | nil => rfl
  | cons x xs ih =>
      obtain ⟨hx, hxs⟩ := List.nodup_cons.mp hxs
      rw [List.foldl_cons, ih hxs, find?_putByName]
      by_cases hn : name x = n
      · have hnone : xs.find? (fun y => name y = n) = none := by
          refine List.find?_eq_none.mpr fun y hy hyn => hx ?_
          rw [hn, ← of_decide_eq_true hyn]
          exact List.mem_map_of_mem hy
        simp [hn, hnone]
      · simp [hn]

/-! ## Collecting by name -/

theorem collectByName_concat (entries : List α) (x : α) :
    collectByName name (entries ++ [x]) = putByName name x (collectByName name entries) := by
  rw [collectByName, List.foldl_append]
  rfl

/-- Collected entries have the names of all entries, each in the place where it is first met. -/
theorem map_name_collectByName (entries : List α) :
    (collectByName name entries).map name = (entries.map name).eraseDups := by
  induction entries using List.reverseRecOn with
  | nil => rfl
  | append_singleton entries x ih =>
      rw [collectByName_concat, map_putByName, ih, List.map_append, List.map_singleton,
        List.eraseDups_append]
      split
      · next hmem =>
          rw [List.mem_eraseDups] at hmem
          have hknown : [name x].removeAll (entries.map name) = [] :=
            List.filter_eq_nil_iff.mpr (by simpa using hmem)
          rw [hknown, List.eraseDups_nil, List.append_nil]
      · next hmem =>
          rw [List.mem_eraseDups] at hmem
          have hnew : [name x].removeAll (entries.map name) = [name x] :=
            List.filter_eq_self.mpr (by simpa using hmem)
          rw [hnew]
          rfl

/-- What is found among collected entries is the last one of the name. -/
theorem find?_collectByName (n : String) (entries : List α) :
    (collectByName name entries).find? (fun y => name y = n) =
      entries.reverse.find? fun y => name y = n := by
  induction entries using List.reverseRecOn with
  | nil => rfl
  | append_singleton entries x ih =>
      rw [collectByName_concat, find?_putByName, ih, List.reverse_concat, List.find?_cons]
      by_cases hx : name x = n <;> simp [hx]

theorem nodup_collectByName (entries : List α) : ((collectByName name entries).map name).Nodup :=
  nodup_foldl_putByName entries List.nodup_nil

/-- Entries with distinct names are found under their names. -/
theorem filterMap_find?_of_nodup (h : (l.map name).Nodup) :
    (l.map name).filterMap (fun n => l.find? fun y => name y = n) = l := by
  induction l with
  | nil => rfl
  | cons x l ih =>
      obtain ⟨hx, hl⟩ := List.nodup_cons.mp h
      have hrest : (l.map name).filterMap (fun n => (x :: l).find? fun y => name y = n) =
          (l.map name).filterMap fun n => l.find? fun y => name y = n := by
        refine List.filterMap_congr fun n hn => List.find?_cons_of_neg ?_
        rw [decide_eq_true_iff]
        rintro rfl
        exact hx hn
      rw [List.map_cons, List.filterMap_cons, List.find?_cons_of_pos (by simp), hrest, ih hl]

/-- The last entry of every name, in the place of the first one. -/
def lastOfEach (name : α → String) (entries : List α) : List α :=
  (entries.map name).eraseDups.filterMap fun n => entries.reverse.find? fun y => name y = n

theorem collectByName_eq_lastOfEach (entries : List α) :
    collectByName name entries = lastOfEach name entries := by
  calc collectByName name entries
      = ((collectByName name entries).map name).filterMap fun n =>
          (collectByName name entries).find? fun y => name y = n :=
        (filterMap_find?_of_nodup (nodup_collectByName entries)).symm
    _ = lastOfEach name entries := by
        simp only [map_name_collectByName, find?_collectByName, lastOfEach]

end ByName

end WidgetStyle
