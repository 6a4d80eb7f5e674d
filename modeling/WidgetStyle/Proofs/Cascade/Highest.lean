import Mathlib.Data.List.Induction
import WidgetStyle.Cascade.Winners
import WidgetStyle.Proofs.Sheet.Candidates

/-!
# WidgetStyle.Proofs.Cascade.Highest — who wins a competition

Declarations compete for keys and variables for names in one and the same way: they are met one
after the other, and each takes the place of the one before it unless it is lower (`Assoc.raise`).
Under every key stands then the last of the highest that were met (`IsLastHighest`,
`get?_foldl_raise_eq_some_iff`), and this is all that later modules need to know.

In this form the order of meeting hardly matters: two lists with the same members have the same
winner as soon as equals stand in the same order (`IsLastHighest.congr`).  In a list that ascends,
the winner is simply the last member (`getLast?_eq_some_iff_isLastHighest`).
-/

namespace WidgetStyle

variable {κ α : Type} {cmp : α → α → Ordering} {l l' : List α} {v w x : α}

/-! ## The last of the highest -/

/-- `v` is the last of the highest members of a list. -/
structure IsLastHighest (cmp : α → α → Ordering) (l : List α) (v : α) : Prop where
  highest : ∀ x ∈ l, cmp x v ≠ .gt
  last : (l.filter fun x => cmp x v == .eq).getLast? = some v

namespace IsLastHighest

theorem mem (h : IsLastHighest cmp l v) : v ∈ l :=
  (List.mem_filter.mp (List.mem_of_getLast? h.last)).1

/-- Only the members and the order of equals count. -/
theorem congr (mem : ∀ x, x ∈ l ↔ x ∈ l')
    (ties : ∀ v, (l.filter fun x => cmp x v == .eq) = l'.filter fun x => cmp x v == .eq) :
    IsLastHighest cmp l v ↔ IsLastHighest cmp l' v := by
  constructor
  · intro h
    exact ⟨fun x hx => h.highest x ((mem x).mpr hx), ties v ▸ h.last⟩
  · intro h
    exact ⟨fun x hx => h.highest x ((mem x).mp hx), (ties v).symm ▸ h.last⟩

/-- What is met behind a winner and is lower changes nothing. -/
theorem append_of_lt (h : IsLastHighest cmp l w) (hl' : ∀ x ∈ l', cmp x w = .lt) :
    IsLastHighest cmp (l ++ l') w where
  highest := by
    intro x hx
    rcases List.mem_append.mp hx with hx | hx
    · exact h.highest x hx
    · rw [hl' x hx]
      exact nofun
  last := by
    have hnone : (l'.filter fun x => cmp x w == .eq) = [] :=
      List.filter_eq_nil_iff.mpr fun x hx => by rw [hl' x hx]; exact nofun
    rw [List.filter_append, hnone, List.append_nil]
    exact h.last

/-- Who wins the second part of a list wins the whole list unless the first part has a higher
member. -/
theorem append_left_iff (h : IsLastHighest cmp l' v) :
    IsLastHighest cmp (l ++ l') v ↔ ∀ x ∈ l, cmp x v ≠ .gt := by
  refine ⟨fun hall x hx => hall.highest x (List.mem_append_left _ hx), fun hl => ⟨?_, ?_⟩⟩
  · intro x hx
    exact (List.mem_append.mp hx).elim (hl x) (h.highest x)
  · rw [List.filter_append, List.getLast?_append, h.last, Option.some_or]

section

variable [Std.TransCmp cmp]

/-- A member without others wins. -/
theorem of_forall_eq (hv : v ∈ l) (h : ∀ x ∈ l, x = v) : IsLastHighest cmp l v := by
  have hself : cmp v v = .eq := Std.ReflCmp.compare_self
  refine ⟨fun x hx => by rw [h x hx, hself]; exact nofun, ?_⟩
  rw [List.filter_eq_self.mpr fun x hx => by rw [h x hx, hself]; rfl]
  cases hl : l.getLast? with
  | none => exact absurd hv (List.getLast?_eq_none_iff.mp hl ▸ List.not_mem_nil)
  | some w => rw [h w (List.mem_of_getLast? hl)]

theorem singleton (v : α) : IsLastHighest cmp [v] v :=
  of_forall_eq List.mem_cons_self fun _ => List.mem_singleton.mp

/-- There is one winner at most. -/
theorem unique (h : IsLastHighest cmp l v) (k : IsLastHighest cmp l w) : v = w := by
  have hvw : cmp v w = .eq := by
    refine Std.OrientedCmp.isLE_antisymm ?_ ?_
    · exact Ordering.isLE_iff_ne_gt.mpr (k.highest v h.mem)
    · exact Ordering.isLE_iff_ne_gt.mpr (h.highest w k.mem)
  have hlast := h.last
  simp only [Std.TransCmp.congr_right hvw] at hlast
  exact Option.some.inj (hlast.symm.trans k.last)

/-- Who wins the second part of a list, and is not lower than the winner of the first, wins the whole
list. -/
theorem append_of_ge (h : IsLastHighest cmp l w) (k : IsLastHighest cmp l' v) (hv : cmp v w ≠ .lt) :
    IsLastHighest cmp (l ++ l') v := by
  refine k.append_left_iff.mpr fun x hx => Ordering.isLE_iff_ne_gt.mp ?_
  have hwv : (cmp w v).isLE = true :=
    Ordering.isLE_iff_ne_gt.mpr fun hgt => hv (Std.OrientedCmp.gt_iff_lt.mp hgt)
  exact Std.TransCmp.isLE_trans (Ordering.isLE_iff_ne_gt.mpr (h.highest x hx)) hwv

end

end IsLastHighest

/-! ## Meeting one after the other -/

/-- The one that holds the place when everything has been met. -/
def lastHighest? (cmp : α → α → Ordering) (l : List α) : Option α :=
  l.foldl (fun best x => some (best.elim x fun w => if cmp x w = .lt then w else x)) none

theorem lastHighest?_append_singleton (cmp : α → α → Ordering) (l : List α) (x : α) :
    lastHighest? cmp (l ++ [x]) =
      some ((lastHighest? cmp l).elim x fun w => if cmp x w = .lt then w else x) := by
  simp [lastHighest?]

theorem lastHighest?_eq_none_iff : lastHighest? cmp l = none ↔ l = [] := by
  induction l using List.reverseRecOn with
  | nil => simp [lastHighest?]
  | append_singleton l x _ => simp [lastHighest?_append_singleton]

theorem lastHighest?_eq_some_iff [Std.TransCmp cmp] :
    lastHighest? cmp l = some v ↔ IsLastHighest cmp l v := by
  -- The holder of the place is the last of the highest; there is no other.
  have holder : ∀ w, lastHighest? cmp l = some w → IsLastHighest cmp l w := by
    induction l using List.reverseRecOn with
    | nil => intro w hw; simp [lastHighest?] at hw
    | append_singleton l x ih =>
        intro w hw
        rw [lastHighest?_append_singleton] at hw
        cases hl : lastHighest? cmp l with
        | none =>
            obtain rfl := lastHighest?_eq_none_iff.mp hl
            rw [hl] at hw
            obtain rfl := Option.some.inj hw
            exact .singleton x
        | some best =>
            rw [hl, Option.elim_some, Option.some.injEq] at hw
            split at hw
            · next hlt =>
                exact hw ▸ (ih best hl).append_of_lt fun y hy => List.mem_singleton.mp hy ▸ hlt
            · next hge => exact hw ▸ (ih best hl).append_of_ge (.singleton x) hge
  refine ⟨holder v, fun h => ?_⟩
  cases hl : lastHighest? cmp l with
  | none => exact absurd h.mem (lastHighest?_eq_none_iff.mp hl ▸ List.not_mem_nil)
  | some w => rw [h.unique (holder w hl)]

theorem lastHighest?_congr {cmp' : α → α → Ordering} [Std.TransCmp cmp] [Std.TransCmp cmp']
    (h : ∀ v, IsLastHighest cmp l v ↔ IsLastHighest cmp' l' v) :
    lastHighest? cmp l = lastHighest? cmp' l' := by
  refine Option.ext fun v => ?_
  rw [lastHighest?_eq_some_iff, lastHighest?_eq_some_iff, h v]

theorem lastHighest?_map {β : Type} (f : β → α) (l : List β) :
    lastHighest? cmp (l.map f) = (lastHighest? (fun x y => cmp (f x) (f y)) l).map f := by
  induction l using List.reverseRecOn with
  | nil => rfl
  | append_singleton l x ih =>
      rw [List.map_append, List.map_singleton, lastHighest?_append_singleton,
        lastHighest?_append_singleton, ih]
      cases lastHighest? (fun x y => cmp (f x) (f y)) l with
      | none => rfl
      | some w => simp [apply_ite f]

/-- Among any members at all one wins. -/
theorem exists_isLastHighest [Std.TransCmp cmp] (h : l ≠ []) : ∃ v, IsLastHighest cmp l v := by
  obtain ⟨v, hv⟩ := Option.ne_none_iff_exists'.mp (mt lastHighest?_eq_none_iff.mp h)
  exact ⟨v, lastHighest?_eq_some_iff.mp hv⟩

/-- In a list that ascends the winner is the last member. -/
theorem getLast?_eq_some_iff_isLastHighest [Std.TransCmp cmp]
    (h : l.Pairwise fun x y => cmp x y ≠ .gt) : l.getLast? = some v ↔ IsLastHighest cmp l v := by
  have holder : ∀ w, l.getLast? = some w → IsLastHighest cmp l w := by
    intro w hw
    obtain ⟨front, rfl⟩ := List.getLast?_eq_some_iff.mp hw
    refine ⟨fun x hx => ?_, by simp [List.filter_append, Std.ReflCmp.compare_self]⟩
    rcases List.mem_append.mp hx with hx | hx
    · exact (List.pairwise_append.mp h).2.2 x hx w List.mem_cons_self
    · exact (IsLastHighest.singleton w).highest x hx
  refine ⟨holder v, fun hv => ?_⟩
  cases hl : l.getLast? with
  | none => exact absurd hv.mem (List.getLast?_eq_none_iff.mp hl ▸ List.not_mem_nil)
  | some w => rw [hv.unique (holder w hl)]

/-! ## Two lists, two orders -/

/-- The winner of two lists: that of the second unless it is lower than that of the first. -/
theorem lastHighest?_append [Std.TransCmp cmp] (l l' : List α) :
    lastHighest? cmp (l ++ l') =
      Option.merge (fun a b => if cmp b a = .lt then a else b) (lastHighest? cmp l)
        (lastHighest? cmp l') := by
  cases hl : lastHighest? cmp l with
  | none => rw [lastHighest?_eq_none_iff.mp hl, List.nil_append, Option.merge_none_left]
  | some a =>
      cases hl' : lastHighest? cmp l' with
      | none => rw [lastHighest?_eq_none_iff.mp hl', List.append_nil, Option.merge_none_right, hl]
      | some b =>
          have ha := lastHighest?_eq_some_iff.mp hl
          have hb := lastHighest?_eq_some_iff.mp hl'
          rw [Option.merge_some_some, lastHighest?_eq_some_iff]
          split
          case isTrue hlt =>
            -- All of the second list lie below the first winner.
            exact ha.append_of_lt fun x hx =>
              Std.TransCmp.lt_of_isLE_of_lt (Ordering.isLE_iff_ne_gt.mpr (hb.highest x hx)) hlt
          case isFalse hge => exact ha.append_of_ge hb hge

/-- Who wins a list wins it also when ties are settled by something that never descends along it. -/
theorem IsLastHighest.of_refines {cmp' tie : α → α → Ordering} [Std.TransCmp cmp]
    (refines : ∀ x ∈ l, ∀ y ∈ l, cmp x y = (cmp' x y).then (tie x y))
    (ascend : l.Pairwise fun x y => tie x y ≠ .gt) (h : IsLastHighest cmp' l w) :
    IsLastHighest cmp l w := by
  have hself : tie w w = .eq := by
    have hrefl : cmp w w = .eq := Std.ReflCmp.compare_self
    rw [refines w h.mem w h.mem] at hrefl
    exact (Ordering.then_eq_eq.mp hrefl).2
  obtain ⟨front, hfront⟩ := List.getLast?_eq_some_iff.mp h.last
  -- Those that tie with the winner come before it.
  have htie : ∀ x ∈ l, cmp' x w = .eq → tie x w ≠ .gt := by
    intro x hx heq
    have hmem : x ∈ front ++ [w] := hfront ▸ List.mem_filter.mpr ⟨hx, beq_iff_eq.mpr heq⟩
    rcases List.mem_append.mp hmem with hx | hx
    · have hpair := ascend.filter fun x => cmp' x w == .eq
      rw [hfront] at hpair
      exact (List.pairwise_append.mp hpair).2.2 x hx w List.mem_cons_self
    · rw [List.mem_singleton.mp hx, hself]
      exact nofun
  refine ⟨fun x hx => ?_, ?_⟩
  · rw [refines x hx w h.mem]
    cases heq : cmp' x w with
    | lt => exact nofun
    | eq => exact htie x hx heq
    | gt => exact absurd heq (h.highest x hx)
  · have hfilter : (l.filter fun x => cmp x w == .eq) =
        (l.filter fun x => cmp' x w == .eq).filter fun x => tie x w == .eq := by
      rw [List.filter_filter]
      refine List.filter_congr fun x hx => ?_
      rw [refines x hx w h.mem]
      cases cmp' x w <;> simp
    rw [hfilter, hfront, List.filter_append]
    simp [hself]

/-- Where ties are settled by something that never descends along the list, the last one wins them
anyway. -/
theorem isLastHighest_iff_of_refines {cmp' tie : α → α → Ordering} [Std.TransCmp cmp]
    [Std.TransCmp cmp'] (refines : ∀ x ∈ l, ∀ y ∈ l, cmp x y = (cmp' x y).then (tie x y))
    (ascend : l.Pairwise fun x y => tie x y ≠ .gt) :
    IsLastHighest cmp l v ↔ IsLastHighest cmp' l v := by
  refine ⟨fun h => ?_, .of_refines refines ascend⟩
  have hwinner : ∃ w, IsLastHighest cmp' l w := exists_isLastHighest (List.ne_nil_of_mem h.mem)
  obtain ⟨w, hw⟩ := hwinner
  exact h.unique (.of_refines refines ascend hw) ▸ hw

/-! ## Competing for keys -/

section Keys

variable [DecidableEq κ] {key : α → κ} {k : κ}

/-- Enters a value under its key, unless a higher one holds it. -/
def Assoc.raise (cmp : α → α → Ordering) (key : α → κ) (m : Assoc κ α) (v : α) : Assoc κ α :=
  if (m.get? (key v)).all fun w => cmp v w != .lt then m.insert (key v) v else m

theorem get?_raise (m : Assoc κ α) (x : α) (k : κ) :
    (m.raise cmp key x).get? k =
      if key x = k then some ((m.get? k).elim x fun w => if cmp x w = .lt then w else x)
      else m.get? k := by
  unfold Assoc.raise
  by_cases hk : key x = k
  · subst hk
    cases hm : m.get? (key x) with
    | none => simp
    | some w => by_cases hw : cmp x w = .lt <;> simp [hw, hm]
  · rw [if_neg hk]
    split
    · rw [Assoc.get?_insert_of_ne _ _ (Ne.symm hk)]
    · rfl

theorem get?_foldl_raise (l : List α) (k : κ) :
    (l.foldl (Assoc.raise cmp key) .empty).get? k =
      lastHighest? cmp (l.filter fun x => key x = k) := by
  induction l using List.reverseRecOn with
  | nil => rfl
  | append_singleton l x ih =>
      rw [List.foldl_append, List.foldl_cons, List.foldl_nil, get?_raise, ih, List.filter_append]
      by_cases hk : key x = k <;> simp [hk, lastHighest?_append_singleton]

/-- Under every key stands the last of the highest that were met. -/
theorem get?_foldl_raise_eq_some_iff [Std.TransCmp cmp] :
    (l.foldl (Assoc.raise cmp key) .empty).get? k = some v ↔
      IsLastHighest cmp (l.filter fun x => key x = k) v := by
  rw [get?_foldl_raise, lastHighest?_eq_some_iff]

/-- Overwriting leaves the last value under every key. -/
theorem get?_foldl_insert (l : List α) (k : κ) :
    (l.foldl (fun m x => m.insert (key x) x) (Assoc.empty : Assoc κ α)).get? k =
      (l.filter fun x => key x = k).getLast? := by
  induction l using List.reverseRecOn with
  | nil => rfl
  | append_singleton l x ih =>
      rw [List.foldl_append, List.foldl_cons, List.foldl_nil, Assoc.get?_insert, ih,
        List.filter_append]
      by_cases hk : key x = k
      · simp [hk]
      · simp [hk, Ne.symm hk]

end Keys

end WidgetStyle
