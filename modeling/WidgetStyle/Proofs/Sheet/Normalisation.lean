import Mathlib.Data.List.Forall2
import Mathlib.Data.Set.Card
import Mathlib.Logic.Relation
import WidgetStyle.Proofs.Property.Registration
import WidgetStyle.Proofs.Value.Pieces
import WidgetStyle.Sheet.Block

/-!
# WidgetStyle.Proofs.Sheet.Normalisation — when the shorthands of a declaration end

A shorthand may have shorthands among its longhands, itself included: registering asks only that the
longhands are known properties.  `Registry.LeadsTo` says which names a declaration of a name is
spread over.  Each of them gets a single word, and a single word fits every shorthand, so once the
first shorthand is expanded nothing but the names decides how it goes on.

Normalising ends exactly when it does not run into a circle of shorthands (`push_ends_iff`).  Along a
circle no number of steps is enough (`normaliseWithin?_eq_none_of_isCircular`).  Off a circle every
step leaves a shorthand behind (`ncard_reached_lt`), and a registry has only so many.
-/

namespace WidgetStyle

open Text Value

/-- A list is mapped to a list of results when every member has one. -/
theorem mapM_eq_some_iff {α β : Type} {f : α → Option β} {l : List α} {ys : List β} :
    l.mapM f = some ys ↔ List.Forall₂ (fun x y => f x = some y) l ys := by
  induction l generalizing ys with
  | nil => simp [eq_comm]
  | cons x l ih =>
      rw [List.mapM_cons, List.forall₂_cons_left_iff]
      constructor
      · intro h
        obtain ⟨y, hy, h⟩ := Option.bind_eq_some_iff.mp h
        obtain ⟨zs, hzs, h⟩ := Option.bind_eq_some_iff.mp h
        cases h
        exact ⟨y, zs, hy, ih.mp hzs, rfl⟩
      · rintro ⟨y, zs, hy, hzs, rfl⟩
        rw [hy, ih.mpr hzs]
        rfl

theorem exists_related_of_mem {α β : Type} {R : α → β → Prop} {l : List α} {ys : List β}
    (h : List.Forall₂ R l ys) {x : α} (hx : x ∈ l) : ∃ y ∈ ys, R x y := by
  induction h with
  | nil => cases hx
  | cons hxy _ ih =>
      rcases List.mem_cons.mp hx with rfl | hx
      · exact ⟨_, List.mem_cons_self, hxy⟩
      · obtain ⟨y, hy, hR⟩ := ih hx
        exact ⟨y, List.mem_cons_of_mem _ hy, hR⟩

theorem exists_mapM_eq_some {α β : Type} {f : α → Option β} {l : List α}
    (h : ∀ x ∈ l, ∃ y, f x = some y) : ∃ ys, l.mapM f = some ys := by
  induction l with
  | nil => exact ⟨[], rfl⟩
  | cons x l ih =>
      obtain ⟨y, hy⟩ := h x List.mem_cons_self
      obtain ⟨ys, hys⟩ := ih fun z hz => h z (List.mem_cons_of_mem _ hz)
      exact ⟨y :: ys, mapM_eq_some_iff.mpr (.cons hy (mapM_eq_some_iff.mp hys))⟩

namespace Shorthand

/-- Whether the shorthand has as many longhands as its kind asks for. -/
def IsFitted (s : Shorthand) : Prop := s.longhands.length = s.kind.size

variable {s : Shorthand} {value : String} {ds : List (String × String)}

theorem kind_choice?_one (kind : ShorthandKind) :
    kind.choice? 1 = some (List.replicate kind.size 0) := by
  cases kind <;> rfl

/-- Every place of a kind takes one of the words. -/
theorem kind_choice?_bounded {kind : ShorthandKind} {n : Nat} {choice : List Nat}
    (h : kind.choice? n = some choice) : choice.length = kind.size ∧ ∀ i ∈ choice, i < n := by
  cases kind with
  | box =>
      match n, h with
      | 1, rfl => decide
      | 2, rfl => decide
      | 3, rfl => decide
      | 4, rfl => decide
  | pair =>
      match n, h with
      | 1, rfl => decide
      | 2, rfl => decide

/-- The longhands get words of the value. -/
theorem mem_of_expand? (h : s.expand? value = some ds) {d : String × String} (hd : d ∈ ds) :
    d.1 ∈ s.longhands ∧ ∃ word ∈ splitWords value.toList, d.2 = String.ofList word := by
  obtain ⟨choice, -, rfl⟩ := Option.map_eq_some_iff.mp h
  obtain ⟨⟨longhand, i⟩, hmem, hd⟩ := List.mem_filterMap.mp hd
  obtain ⟨word, hword, rfl⟩ := Option.map_eq_some_iff.mp hd
  exact ⟨(List.of_mem_zip hmem).1, word, List.mem_of_getElem? hword, rfl⟩

/-- Every longhand gets a word. -/
theorem IsFitted.exists_mem_of_expand? (hs : s.IsFitted) (h : s.expand? value = some ds)
    {longhand : String} (hmem : longhand ∈ s.longhands) : ∃ word, (longhand, word) ∈ ds := by
  obtain ⟨choice, hchoice, rfl⟩ := Option.map_eq_some_iff.mp h
  obtain ⟨hlength, hbound⟩ := kind_choice?_bounded hchoice
  obtain ⟨i, hi, rfl⟩ := List.getElem_of_mem hmem
  have hi' : i < choice.length := by rw [hlength, ← hs]; exact hi
  have hword := List.getElem?_eq_getElem (hbound choice[i] (List.getElem_mem hi'))
  have hzip : (s.longhands[i], choice[i]) ∈ s.longhands.zip choice :=
    List.mem_iff_getElem.mpr ⟨i, by simpa using ⟨hi, hi'⟩, by simp⟩
  exact ⟨_, List.mem_filterMap.mpr ⟨_, hzip, congrArg (Option.map _) hword⟩⟩

/-- A single word fits every shorthand. -/
theorem exists_expand?_of_word {word : List Char} (h : splitWords word = [word]) :
    ∃ ds, s.expand? (String.ofList word) = some ds := by
  rw [expand?, String.toList_ofList, h]
  simp only [List.length_singleton, kind_choice?_one, Option.map_some]
  exact ⟨_, rfl⟩

end Shorthand

namespace Registry

variable {r : Registry} {name value : String}

/-! ## Names that shorthands lead to -/

/-- The shorthand that a declaration of a name is spread by. -/
def spreading? (r : Registry) (name : String) : Option Shorthand :=
  if isVariableName (trimmed name) then none
  else r.shorthand? (r.canonicalName (lower (trimmed name)))

/-- Whether a declaration of a name is spread over another name. -/
def LeadsTo (r : Registry) (name longhand : String) : Prop :=
  ∃ s, r.spreading? name = some s ∧ longhand ∈ s.longhands

/-- Whether a value has as many words as the shorthand of a name can take. -/
def Fits (r : Registry) (name value : String) : Prop :=
  ∃ s ds, r.spreading? name = some s ∧ s.expand? value = some ds

/-- Whether the shorthands of a name lead to one that leads back to itself. -/
def IsCircular (r : Registry) (name : String) : Prop :=
  ∃ m, Relation.ReflTransGen r.LeadsTo name m ∧ Relation.TransGen r.LeadsTo m m

theorem read_eq_longhands_iff {ds : List (String × String)} :
    r.read name value = .longhands ds ↔
      ∃ s, r.spreading? name = some s ∧ s.expand? value = some ds := by
  rw [read, spreading?]
  split
  · simp
  · simp only [longhands?.eq_def]
    cases r.shorthand? (r.canonicalName (lower (trimmed name))) with
    | none => simp
    | some s => cases hds : s.expand? value <;> simp [hds]

theorem fits_iff : r.Fits name value ↔ ∃ ds, r.read name value = .longhands ds := by
  simp only [read_eq_longhands_iff, Fits]
  exact exists_comm

theorem IsCircular.of_leadsTo {longhand : String} (h : r.IsCircular longhand)
    (hstep : r.LeadsTo name longhand) : r.IsCircular name := by
  obtain ⟨m, hm, hcircle⟩ := h
  exact ⟨m, hm.head hstep, hcircle⟩

/-- A circular name leads to a circular name. -/
theorem IsCircular.exists_leadsTo (h : r.IsCircular name) :
    ∃ longhand, r.LeadsTo name longhand ∧ r.IsCircular longhand := by
  obtain ⟨m, hm, hcircle⟩ := h
  rcases Relation.ReflTransGen.cases_head hm with rfl | ⟨longhand, hstep, hrest⟩
  · obtain ⟨longhand, hstep, hrest⟩ := Relation.TransGen.head'_iff.mp hcircle
    exact ⟨longhand, hstep, name, hrest, hcircle⟩
  · exact ⟨longhand, hstep, m, hrest, hcircle⟩

/-! ## Names without a circle -/

/-- The shorthands that a name leads to, its own included. -/
def reached (r : Registry) (name : String) : Set Shorthand :=
  {s | ∃ m, Relation.ReflTransGen r.LeadsTo name m ∧ r.spreading? m = some s}

theorem reached_subset (r : Registry) (name : String) :
    r.reached name ⊆ {s | s ∈ r.shorthands.values} := by
  rintro s ⟨m, -, hs⟩
  rw [spreading?] at hs
  split at hs
  · cases hs
  · exact List.mem_map.mpr ⟨_, Assoc.get?_eq_some_iff.mp hs, rfl⟩

theorem finite_reached (r : Registry) (name : String) : (r.reached name).Finite :=
  r.shorthands.values.finite_toSet.subset (r.reached_subset name)

/-- There are no more of them than the registry has. -/
theorem ncard_reached_le (r : Registry) (name : String) :
    (r.reached name).ncard ≤ r.shorthands.size := by
  have hvalues : {s | s ∈ r.shorthands.values} = (r.shorthands.values.toFinset : Set Shorthand) := by
    ext s
    simp
  calc (r.reached name).ncard ≤ {s | s ∈ r.shorthands.values}.ncard :=
        Set.ncard_le_ncard (r.reached_subset name) r.shorthands.values.finite_toSet
    _ ≤ r.shorthands.values.length := by
        rw [hvalues, Set.ncard_coe_finset]
        exact List.toFinset_card_le _
    _ = r.shorthands.size := List.length_map _

/-- Off a circle, every step leaves a shorthand behind for good. -/
theorem ncard_reached_lt {longhand : String} (h : r.LeadsTo name longhand)
    (hcircle : ¬ r.IsCircular name) : (r.reached longhand).ncard < (r.reached name).ncard := by
  obtain ⟨s, hs, hlonghand⟩ := h
  refine Set.ncard_lt_ncard ⟨?_, fun hall => ?_⟩ (r.finite_reached name)
  · rintro t ⟨m, hm, ht⟩
    exact ⟨m, hm.head ⟨s, hs, hlonghand⟩, ht⟩
  · -- Met again, the shorthand leads back to the same longhand.
    obtain ⟨m, hm, hagain⟩ := hall ⟨name, .refl, hs⟩
    have hback : r.LeadsTo m longhand := ⟨s, hagain, hlonghand⟩
    exact hcircle ⟨longhand, .single ⟨s, hs, hlonghand⟩, Relation.TransGen.tail' hm hback⟩

/-- Off a circle, a step for every shorthand that is reached is enough. -/
theorem exists_normaliseWithin? (hcircle : ¬ r.IsCircular name) {steps : Nat}
    (hsteps : (r.reached name).ncard < steps) (value : String) :
    ∃ es, r.normaliseWithin? steps name value = some es := by
  induction steps generalizing name value with
  | zero => exact absurd hsteps (Nat.not_lt_zero _)
  | succ steps ih =>
      rw [normaliseWithin?]
      cases hread : r.read name value with
      | entry e => exact ⟨[e], rfl⟩
      | longhands ds =>
          obtain ⟨s, hs, hds⟩ := read_eq_longhands_iff.mp hread
          have hparts : ∀ d ∈ ds, ∃ es, r.normaliseWithin? steps d.1 d.2 = some es := by
            intro d hd
            have hstep : r.LeadsTo name d.1 := ⟨s, hs, (Shorthand.mem_of_expand? hds hd).1⟩
            have hlt := ncard_reached_lt hstep hcircle
            exact ih (fun hagain => hcircle (hagain.of_leadsTo hstep)) (by omega) d.2
          obtain ⟨parts, hparts⟩ := exists_mapM_eq_some hparts
          exact ⟨parts.flatten, by simp [hparts]⟩

/-! ## Registries that can be built -/

theorem shorthands_register (r : Registry) (name default : String) (inherited : Bool) :
    (r.register name default inherited).shorthands = r.shorthands := by
  unfold register
  simp only
  split <;> rfl

theorem shorthands_addAlias (r : Registry) (name newName : String) :
    (r.addAlias name newName).shorthands = r.shorthands := by
  unfold addAlias
  split <;> rfl

namespace Built

/-- The shorthands of a registry have as many longhands as their kinds ask for. -/
theorem isFitted (h : r.Built) {id : PropertyId} {s : Shorthand} (hs : r.shorthands.get? id = some s) :
    s.IsFitted := by
  induction h with
  | empty => cases hs
  | register _ name default inherited ih => exact ih (shorthands_register _ _ _ _ ▸ hs)
  | setIndexed _ _ _ ih => exact ih hs
  | addAlias _ name newName ih => exact ih (shorthands_addAlias _ _ _ ▸ hs)
  | @addShorthand r _ name longhands kind ih =>
      rw [Registry.addShorthand] at hs
      split at hs
      case isFalse => exact ih hs
      case isTrue haccepts =>
        simp only [acceptsShorthand, Bool.and_eq_true, decide_eq_true_eq] at haccepts
        rw [Assoc.get?_insert] at hs
        split at hs
        · rw [← Option.some.inj hs]
          exact (List.length_map _).trans haccepts.1
        · exact ih hs

theorem isFitted_of_spreading? (h : r.Built) {s : Shorthand} (hs : r.spreading? name = some s) :
    s.IsFitted := by
  rw [spreading?] at hs
  split at hs
  · cases hs
  · exact h.isFitted hs

/-- A circle of shorthands has no end: every step hands a single word to a circular name again. -/
theorem normaliseWithin?_eq_none_of_isCircular (h : r.Built) (hfits : r.Fits name value)
    (hcircle : r.IsCircular name) (steps : Nat) : r.normaliseWithin? steps name value = none := by
  induction steps generalizing name value with
  | zero => rfl
  | succ steps ih =>
      obtain ⟨s, ds, hs, hds⟩ := hfits
      obtain ⟨longhand, ⟨s', hs', hmem⟩, hlonghand⟩ := hcircle.exists_leadsTo
      obtain rfl := Option.some.inj (hs.symm.trans hs')
      obtain ⟨word, hword⟩ := (h.isFitted_of_spreading? hs).exists_mem_of_expand? hds hmem
      have hfitsWord : r.Fits longhand word := by
        obtain ⟨-, ⟨s', hs', -⟩, -⟩ := hlonghand.exists_leadsTo
        obtain ⟨-, w, hw, rfl⟩ := Shorthand.mem_of_expand? hds hword
        obtain ⟨ds', hds'⟩ :=
          Shorthand.exists_expand?_of_word (s := s') (splitWords_of_mem_splitWords hw)
        exact ⟨s', ds', hs', hds'⟩
      rw [normaliseWithin?, read_eq_longhands_iff.mpr ⟨s, hs, hds⟩]
      refine Option.eq_none_iff_forall_ne_some.mpr fun es hes => ?_
      obtain ⟨parts, hparts, -⟩ := Option.bind_eq_some_iff.mp hes
      obtain ⟨part, -, hpart⟩ := exists_related_of_mem (mapM_eq_some_iff.mp hparts) hword
      exact absurd ((ih hfitsWord hlonghand).symm.trans hpart) nofun

end Built

/-! ## When normalising ends -/

/-- **Normalising a declaration ends exactly when it runs into no circle of shorthands**, and what it
ends with is written to the block.  Registering accepts a shorthand among its own longhands, so a
circle can be built; it is not entered when the words of the value do not fit the first shorthand. -/
theorem Built.push_ends_iff (h : r.Built) (d : Source.Declaration) :
    (∃ steps es, r.normaliseWithin? steps d.name d.value = some es ∧
        ∀ (b : Block) (specificity : Specificity),
          b.push r specificity d = es.foldl (fun b e => b.put specificity d.important e) b) ↔
      ¬ (r.Fits d.name d.value ∧ r.IsCircular d.name) := by
  constructor
  · rintro ⟨steps, es, hes, -⟩ ⟨hfits, hcircle⟩
    exact absurd ((h.normaliseWithin?_eq_none_of_isCircular hfits hcircle steps).symm.trans hes) nofun
  · intro hends
    obtain ⟨es, hes⟩ : ∃ es, r.normaliseWithin? (r.shorthands.size + endlessSteps + 1) d.name d.value =
        some es := by
      by_cases hcircle : r.IsCircular d.name
      case neg =>
        have hsize := r.ncard_reached_le d.name
        exact exists_normaliseWithin? hcircle (by omega) d.value
      case pos =>
        rw [normaliseWithin?]
        cases hread : r.read d.name d.value with
        | entry e => exact ⟨[e], rfl⟩
        | longhands ds => exact absurd ⟨fits_iff.mpr ⟨ds, hread⟩, hcircle⟩ hends
    refine ⟨_, es, hes, fun b specificity => ?_⟩
    rw [Block.push, entries, hes, Option.getD_some]

/-- A registry in which `space` has the shorthand `gap` among its longhands. -/
def nestedGap : Registry :=
  (["row-gap", "column-gap", "gap", "inset"].foldl (fun r name => register r name "0" false) empty)
    |>.addShorthand "gap" ["row-gap", "column-gap"] .pair
    |>.addShorthand "space" ["gap", "inset"] .pair

theorem built_nestedGap : nestedGap.Built :=
  ((Built.empty.foldl _ fun _ name hr => hr.register name "0" false).addShorthand _ _ _).addShorthand
    _ _ _

/-- `space: 1px 2px` ends with the gaps of rows and columns and the inset. -/
theorem push_ends_iff_nestedGap :
    nestedGap.Built ∧ ¬ (nestedGap.Fits "space" "1px 2px" ∧ nestedGap.IsCircular "space") ∧
      ∃ steps es, nestedGap.normaliseWithin? steps "space" "1px 2px" = some es ∧
        ∀ (b : Block) (specificity : Specificity),
          b.push nestedGap specificity ⟨"space", "1px 2px", false⟩ =
            es.foldl (fun b e => b.put specificity false e) b := by
  have hspace : ∀ s ∈ nestedGap.spreading? "space", s.longhands = ["gap", "inset"] := by decide +kernel
  have hgap : ∀ s ∈ nestedGap.spreading? "gap", s.longhands = ["row-gap", "column-gap"] := by
    decide +kernel
  have hends : ∀ name ∈ ["inset", "row-gap", "column-gap"], nestedGap.spreading? name = none := by
    decide +kernel
  have hstop : ∀ name, nestedGap.spreading? name = none → ¬ nestedGap.IsCircular name := by
    intro name hnone hcircle
    obtain ⟨-, ⟨s, hs, -⟩, -⟩ := hcircle.exists_leadsTo
    exact absurd (hnone.symm.trans hs) nofun
  have hcircle : ¬ nestedGap.IsCircular "space" := by
    intro hcircle
    obtain ⟨name, ⟨s, hs, hname⟩, hcircle⟩ := hcircle.exists_leadsTo
    rw [hspace s hs] at hname
    rcases List.mem_pair.mp hname with rfl | rfl
    · obtain ⟨name, ⟨s, hs, hname⟩, hcircle⟩ := hcircle.exists_leadsTo
      rw [hgap s hs] at hname
      exact hstop name (hends name (List.mem_cons_of_mem _ hname)) hcircle
    · exact hstop _ (hends _ List.mem_cons_self) hcircle
  have hright : ¬ (nestedGap.Fits "space" "1px 2px" ∧ nestedGap.IsCircular "space") := fun h =>
    hcircle h.2
  exact ⟨built_nestedGap, hright,
    (built_nestedGap.push_ends_iff ⟨"space", "1px 2px", false⟩).mpr hright⟩

/-- A registry in which the shorthand `gap` has itself among its longhands. -/
def circularGap : Registry :=
  Registry.empty.register "gap" "0" false |>.addShorthand "gap" ["gap", "gap"] .pair

/-- `gap: 1px` never ends where `gap` is one of its own longhands. -/
theorem normalising_gap_never_ends :
    circularGap.Built ∧ ∀ steps, circularGap.normaliseWithin? steps "gap" "1px" = none := by
  have hbuilt : circularGap.Built := (Built.empty.register _ _ _).addShorthand _ _ _
  have hgap : circularGap.spreading? "gap" = some ⟨"gap", ["gap", "gap"], .pair⟩ := by decide +kernel
  have hcircle : circularGap.LeadsTo "gap" "gap" := ⟨_, hgap, List.mem_cons_self⟩
  have hfits : circularGap.Fits "gap" "1px" :=
    ⟨_, [("gap", "1px"), ("gap", "1px")], hgap, by decide +kernel⟩
  exact ⟨hbuilt, hbuilt.normaliseWithin?_eq_none_of_isCircular hfits ⟨"gap", .refl, .single hcircle⟩⟩

end Registry

end WidgetStyle
