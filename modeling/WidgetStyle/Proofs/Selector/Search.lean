import Mathlib.Logic.Relation
import WidgetStyle.Proofs.Tree.Forest
import WidgetStyle.Proofs.Tree.Siblings
import WidgetStyle.Selector.Match

/-!
# WidgetStyle.Proofs.Selector.Search — what the search for a match finds

A selector speaks of several nodes at once: one for each compound, with the subject on the node in
question, each satisfying its compound, and neighbours related as the combinator between them asks.
`Selector.IsPlacement` says this without any search, by parents and child lists alone
(`Tree.Joined`, `Tree.Holds`).  Matching is sound and complete for it in every forest.

Matching is also carried out one node at a time (`Selector.search?`): the nearest candidate is
tried together with all that is left of it, and when that fails the search goes on from there in the
same direction.  Such a walk has to come to an end, and in a forest it does: the candidates of a
combinator are at most as many as there are nodes (`length_related_le_size`), so the nesting of the
search has a bound (`searchLeftward_of_searchDepth_lt`), and its answer is the answer of
`Selector.selects`.
-/

namespace WidgetStyle

namespace Tree

/-! ## What selectors ask of nodes -/

/-- How a combinator relates the node on its left to the node on its right. -/
def Joined (t : Tree) : Combinator → NodeId → NodeId → Prop
  | .descendant => Relation.TransGen fun m n => t.parent? n = some m
  | .child => fun m n => t.parent? n = some m
  | .adjacentSibling => t.Neighbours
  | .generalSibling => t.Precedes

/-- The pseudo-classes of a node, from its place in the tree and its states. -/
def HasPseudo (t : Tree) (n : NodeId) : PseudoClass → Prop
  | .root => t.parent? n = none
  | .empty => t.children n = []
  | .firstChild => ∀ m, ¬ t.Neighbours m n
  | .lastChild => ∀ m, ¬ t.Neighbours n m
  | .onlyChild => ∀ m, ¬ t.Neighbours m n ∧ ¬ t.Neighbours n m
  | .enabled => .disabled ∉ (t.state n).toList
  | p => p ∈ (t.state n).toList

/-- What a simple selector asks of a node. -/
def Holds (t : Tree) (mode : MatchMode) (n : NodeId) : SimpleSelector → Prop
  | .universal => True
  | .hasTag name => Text.lower (t.tag n) = Text.lower name
  | .hasClass name => ∃ x, t.node? n = some x ∧ name ∈ x.classes
  | .hasId name => t.idOf? n = some name
  | .hasAttribute name => ∃ value, t.attribute? n name = some value
  | .attributeIs name value => t.attribute? n name = some value
  | .pseudo p => mode = .loose ∨ t.HasPseudo n p

variable {t : Tree}

theorem isNone_eq_true_iff_of_eq_some_iff {α : Type} {o : Option α} {P : α → Prop}
    (h : ∀ x, o = some x ↔ P x) : o.isNone = true ↔ ∀ x, ¬ P x := by
  rw [Option.isNone_iff_eq_none, Option.eq_none_iff_forall_ne_some]
  exact forall_congr' fun x => not_congr (h x)

namespace IsForest

variable (h : t.IsForest) {n m : NodeId}
include h

theorem hasPseudo_eq_true_iff (p : PseudoClass) : t.hasPseudo n p = true ↔ t.HasPseudo n p := by
  have hfirst := isNone_eq_true_iff_of_eq_some_iff
    fun m => h.previousSibling?_eq_some_iff (n := n) (m := m)
  have hlast := isNone_eq_true_iff_of_eq_some_iff
    fun m => h.nextSibling?_eq_some_iff (n := n) (m := m)
  cases p with
  | firstChild => exact hfirst
  | lastChild => exact hlast
  | onlyChild =>
      simp only [hasPseudo, HasPseudo, Bool.and_eq_true, hfirst, hlast, forall_and]
  | root => simp [hasPseudo, HasPseudo]
  | empty => simp [hasPseudo, HasPseudo]
  | _ => simp [hasPseudo, HasPseudo]

theorem satisfies_eq_true_iff {mode : MatchMode} (x : SimpleSelector) :
    t.satisfies mode n x = true ↔ t.Holds mode n x := by
  cases x with
  | pseudo p => simp [satisfies, Holds, h.hasPseudo_eq_true_iff p]
  | hasTag name => simp [satisfies, Holds, Text.sameLetters]
  | hasClass name => simp [satisfies, Holds, hasClass, Option.any_eq_true]
  | hasAttribute name => simp [satisfies, Holds, Option.isSome_iff_exists]
  | _ => simp [satisfies, Holds]

/-! ## The candidates of a combinator -/

/-- The ancestors are the nodes above, however far. -/
theorem mem_ancestors_iff :
    m ∈ t.ancestors n ↔ Relation.TransGen (fun m n => t.parent? n = some m) m n := by
  induction n using h.induction with
  | root n hp =>
      rw [ancestors_of_root hp]
      refine iff_of_false List.not_mem_nil fun hbelow => ?_
      obtain ⟨k, -, hk⟩ := Relation.TransGen.tail'_iff.mp hbelow
      rw [hp] at hk
      cases hk
  | child n p hp ih =>
      rw [h.ancestors_of_parent hp, List.mem_cons, ih]
      constructor
      · rintro (rfl | hbelow)
        · exact .single hp
        · exact hbelow.tail hp
      · intro hbelow
        cases hbelow with
        | single hm => exact Or.inl (Option.some.inj (hm.symm.trans hp))
        | tail hbelow hk => exact Or.inr (Option.some.inj (hk.symm.trans hp) ▸ hbelow)

theorem mem_related_iff_joined (joint : Combinator) : m ∈ t.related n joint ↔ t.Joined joint m n := by
  cases joint with
  | descendant => exact h.mem_ancestors_iff
  | child => exact Option.mem_toList
  | adjacentSibling => exact Option.mem_toList.trans h.previousSibling?_eq_some_iff
  | generalSibling => exact h.mem_earlierSiblings_iff_precedes

theorem lt_size_of_mem_related {joint : Combinator} (hm : m ∈ t.related n joint) : m < t.size := by
  cases joint with
  | descendant => exact h.lt_size_of_mem_ancestorsWithin hm
  | child => exact h.parent_lt n m (Option.mem_toList.mp hm)
  | adjacentSibling =>
      exact h.earlierSiblings_lt_size (List.mem_of_mem_head? (Option.mem_toList.mp hm))
  | generalSibling => exact h.earlierSiblings_lt_size hm

/-- A combinator has at most as many candidates as there are nodes. -/
theorem length_related_le_size (joint : Combinator) : (t.related n joint).length ≤ t.size := by
  cases joint with
  | descendant => exact h.length_ancestorsWithin_le_size t.size n
  | generalSibling => exact h.length_earlierSiblings_le_size n
  | child =>
      cases hp : t.parent? n with
      | none => simp [related, hp]
      | some p =>
          have hlt := h.parent_lt n p hp
          simp only [related, hp, Option.toList_some, List.length_singleton]
          exact Nat.succ_le_of_lt (Nat.zero_lt_of_lt hlt)
  | adjacentSibling =>
      cases hm : t.previousSibling? n with
      | none => simp [related, hm]
      | some m =>
          have hlt := h.earlierSiblings_lt_size (List.mem_of_mem_head? hm)
          simp only [related, hm, Option.toList_some, List.length_singleton]
          exact Nat.succ_le_of_lt (Nat.zero_lt_of_lt hlt)

end IsForest

/-! ## The search, one node at a time -/

/-- The candidate that is tried first: the parent, or the sibling right before. -/
def nearest? (t : Tree) (n : NodeId) : Combinator → Option NodeId
  | .child | .descendant => t.parent? n
  | .adjacentSibling | .generalSibling => t.previousSibling? n

end Tree

/-- Whether the search goes on past a candidate that failed. -/
def Combinator.goesOn : Combinator → Bool
  | .descendant | .generalSibling => true
  | .child | .adjacentSibling => false

namespace Tree

/-- Looks for nodes for the compounds to the left of `n`.  The nearest candidate is tried together
with all that is left of it; when that fails, the search starts again from the candidate in the same
direction, if the combinator allows it.  `none` says that the given number of nested steps did not
suffice. -/
def searchLeftward (t : Tree) (mode : MatchMode) :
    Nat → List (Combinator × Compound) → NodeId → Option Bool
  | 0, _, _ => none
  | _ + 1, [], _ => some true
  | steps + 1, (joint, c) :: more, n =>
    match t.nearest? n joint with
    | none => some false
    | some m =>
      match if t.satisfiesAll mode m c then searchLeftward t mode steps more m else some false with
      | some false =>
        if joint.goesOn then searchLeftward t mode steps ((joint, c) :: more) m else some false
      | answer => answer

/-- The nesting that the search needs: for every compound but the next one it may pass all nodes, and
for the next one the candidates that are still ahead. -/
def searchDepth (t : Tree) : List (Combinator × Compound) → NodeId → Nat
  | [], _ => 0
  | (joint, _) :: more, n => more.length * (t.size + 1) + (t.related n joint).length

variable {t : Tree}

namespace IsForest

variable (h : t.IsForest) {n : NodeId}
include h

theorem searchDepth_le (links : List (Combinator × Compound)) (n : NodeId) :
    t.searchDepth links n ≤ links.length * (t.size + 1) := by
  cases links with
  | nil => exact Nat.zero_le _
  | cons link more =>
      have hlen := h.length_related_le_size (n := n) link.1
      rw [searchDepth, List.length_cons, Nat.add_mul]
      omega

/-- The candidates from a node on: the nearest one, and when the search goes on the candidates from
there. -/
theorem related_eq (joint : Combinator) :
    t.related n joint =
      match t.nearest? n joint with
      | none => []
      | some m => m :: if joint.goesOn then t.related m joint else [] := by
  cases joint with
  | child => cases hp : t.parent? n <;> simp [related, nearest?, hp, Combinator.goesOn]
  | adjacentSibling =>
      cases hm : t.previousSibling? n <;> simp [related, nearest?, hm, Combinator.goesOn]
  | descendant =>
      cases hp : t.parent? n with
      | none => simp [related, nearest?, hp, ancestors_of_root hp]
      | some p => simp [related, nearest?, hp, Combinator.goesOn, h.ancestors_of_parent hp]
  | generalSibling =>
      cases hm : t.previousSibling? n with
      | none =>
          have hnone : t.earlierSiblings n = [] := List.head?_eq_none_iff.mp hm
          simp [related, nearest?, hm, hnone]
      | some m =>
          simp [related, nearest?, hm, Combinator.goesOn, h.earlierSiblings_of_previousSibling? hm]

/-- The answer at a node, from the answers at its nearest candidate. -/
theorem matchLeftward_cons {mode : MatchMode} {joint : Combinator} {c : Compound}
    {more : List (Combinator × Compound)} :
    t.matchLeftward mode ((joint, c) :: more) n =
      match t.nearest? n joint with
      | none => false
      | some m =>
        (t.satisfiesAll mode m c && t.matchLeftward mode more m) ||
          (joint.goesOn && t.matchLeftward mode ((joint, c) :: more) m) := by
  rw [matchLeftward, h.related_eq joint]
  cases t.nearest? n joint with
  | none => rfl
  | some m => cases joint.goesOn <;> simp [matchLeftward]

/-- The search finds the answer when it may nest deep enough. -/
theorem searchLeftward_of_searchDepth_lt {mode : MatchMode} {steps : Nat}
    {links : List (Combinator × Compound)} (hsteps : t.searchDepth links n < steps) :
    t.searchLeftward mode steps links n = some (t.matchLeftward mode links n) := by
  induction steps generalizing links n with
  | zero => exact absurd hsteps (Nat.not_lt_zero _)
  | succ steps ih =>
      cases links with
      | nil => rfl
      | cons link more =>
          obtain ⟨joint, c⟩ := link
          rw [searchLeftward, h.matchLeftward_cons]
          rw [searchDepth, h.related_eq joint] at hsteps
          cases hm : t.nearest? n joint with
          | none => rfl
          | some m =>
              rw [hm] at hsteps
              simp only [List.length_cons] at hsteps ⊢
              -- What is left of the candidate needs less, whatever it is.
              have hmore : t.searchLeftward mode steps more m = some (t.matchLeftward mode more m) :=
                ih (Nat.lt_of_le_of_lt (h.searchDepth_le more m) (by omega))
              have htried : (if t.satisfiesAll mode m c then t.searchLeftward mode steps more m
                  else some false) = some (t.satisfiesAll mode m c && t.matchLeftward mode more m) := by
                cases t.satisfiesAll mode m c <;> simp [hmore]
              rw [htried]
              cases t.satisfiesAll mode m c && t.matchLeftward mode more m with
              | true => rfl
              | false =>
                  cases hon : joint.goesOn with
                  | false => rfl
                  | true =>
                      -- One candidate less is ahead.
                      simp only [hon, if_true] at hsteps
                      have hrest : t.searchLeftward mode steps ((joint, c) :: more) m =
                          some (t.matchLeftward mode ((joint, c) :: more) m) :=
                        ih (by rw [searchDepth]; omega)
                      simpa using hrest

end IsForest

end Tree

/-! ## Placements -/

namespace Selector

/-- The search of `selects`, one node at a time. -/
def search? (s : Selector) (t : Tree) (mode : MatchMode) (steps : Nat) (n : NodeId) : Option Bool :=
  if s.isEmpty then some false
  else if t.satisfiesAll mode n s.subject then t.searchLeftward mode steps s.leftward n
  else some false

/-- A choice of one node for each compound, with the subject on `n`. -/
structure IsPlacement (s : Selector) (t : Tree) (mode : MatchMode) (n : NodeId)
    (place : Nat → NodeId) : Prop where
  subject : place s.rest.length = n
  inTree : ∀ i < s.rest.length, place i < t.size
  holds : ∀ i c, s.compounds[i]? = some c → ∀ x ∈ c.simples, t.Holds mode (place i) x
  joined : ∀ i joint c, s.rest[i]? = some (joint, c) → t.Joined joint (place i) (place (i + 1))

theorem getElem?_compounds_length (s : Selector) : s.compounds[s.rest.length]? = some s.subject := by
  unfold compounds subject
  cases hrest : s.rest.reverse with
  | nil => simp [List.reverse_eq_nil_iff.mp hrest]
  | cons link links =>
      rw [List.reverse_eq_cons_iff.mp hrest]
      simp

@[simp] theorem length_leftward (s : Selector) : s.leftward.length = s.rest.length := by
  simp [leftward, compounds]

@[simp] theorem length_compounds (s : Selector) : s.compounds.length = s.rest.length + 1 := by
  simp [compounds]

/-- Leftwards from the subject stand the compounds with the combinators on their right. -/
theorem getElem?_leftward_eq_some_iff {s : Selector} {i : Nat} (hi : i < s.rest.length)
    {joint : Combinator} {c : Compound} :
    s.leftward[s.rest.length - 1 - i]? = some (joint, c) ↔
      (∃ right, s.rest[i]? = some (joint, right)) ∧ s.compounds[i]? = some c := by
  have hzip : ((s.rest.map Prod.fst).zip s.compounds).length = s.rest.length := by simp
  rw [leftward, List.getElem?_reverse (by omega), hzip,
    show s.rest.length - 1 - (s.rest.length - 1 - i) = i by omega, List.getElem?_zip_eq_some]
  simp

/-- A choice of nodes to the left of `n`, as a walk that begins there. -/
theorem chain_iff_exists_walk {t : Tree} {mode : MatchMode} {links : List (Combinator × Compound)}
    {n : NodeId} :
    Chain t mode links n ↔
      ∃ walk : Nat → NodeId, walk 0 = n ∧
        ∀ i joint c, links[i]? = some (joint, c) →
          walk (i + 1) ∈ t.related (walk i) joint ∧
            ∀ x ∈ c.simples, t.satisfies mode (walk (i + 1)) x = true := by
  induction links generalizing n with
  | nil => exact ⟨fun _ => ⟨fun _ => n, rfl, by simp⟩, fun _ => .nil n⟩
  | cons link links ih =>
      obtain ⟨joint, c⟩ := link
      constructor
      · intro hchain
        cases hchain with
        | cons hm hc hmore =>
            obtain ⟨walk, rfl, hwalk⟩ := ih.mp hmore
            refine ⟨fun | 0 => n | i + 1 => walk i, rfl, fun i joint' c' hi => ?_⟩
            cases i with
            | zero =>
                obtain ⟨rfl, rfl⟩ := Prod.mk.inj (Option.some.inj hi)
                exact ⟨hm, hc⟩
            | succ i => exact hwalk i joint' c' hi
      · rintro ⟨walk, rfl, hwalk⟩
        obtain ⟨hm, hc⟩ := hwalk 0 joint c rfl
        refine .cons hm hc (ih.mpr ⟨fun i => walk (i + 1), rfl, fun i joint' c' hi => ?_⟩)
        exact hwalk (i + 1) joint' c' hi

/-- A node is selected exactly when there is a placement with the subject on it. -/
theorem selects_iff_isPlacement {t : Tree} (h : t.IsForest) {s : Selector} {mode : MatchMode}
    {n : NodeId} :
    s.selects t mode n = true ↔ s.isEmpty = false ∧ ∃ place, s.IsPlacement t mode n place := by
  simp only [selects, Tree.satisfiesAll, Bool.and_eq_true, Bool.not_eq_true', List.all_eq_true,
    matchLeftward_eq_true_iff, chain_iff_exists_walk, and_assoc]
  refine and_congr_right fun _ => ?_
  constructor
  · rintro ⟨hsubject, walk, rfl, hwalk⟩
    -- The walk passes the compounds from the right, so it meets compound `i` after `length - i` steps.
    have step : ∀ i joint right c, s.rest[i]? = some (joint, right) → s.compounds[i]? = some c →
        walk (s.rest.length - i) ∈ t.related (walk (s.rest.length - (i + 1))) joint ∧
          ∀ x ∈ c.simples, t.satisfies mode (walk (s.rest.length - i)) x = true := by
      intro i joint right c hlink hc
      have hi : i < s.rest.length := (List.getElem?_eq_some_iff.mp hlink).1
      have := hwalk (s.rest.length - 1 - i) joint c
        ((getElem?_leftward_eq_some_iff hi).mpr ⟨⟨right, hlink⟩, hc⟩)
      rwa [show s.rest.length - 1 - i + 1 = s.rest.length - i by omega,
        show s.rest.length - 1 - i = s.rest.length - (i + 1) by omega] at this
    have stepAt : ∀ i (hi : i < s.rest.length), _ := fun i hi =>
      step i _ _ _ (List.getElem?_eq_getElem hi)
        (List.getElem?_eq_getElem (by rw [length_compounds]; omega))
    refine ⟨fun i => walk (s.rest.length - i), ⟨by simp, ?_, ?_, ?_⟩⟩
    · intro i hi
      exact h.lt_size_of_mem_related (stepAt i hi).1
    · intro i c hc x hx
      rw [← h.satisfies_eq_true_iff]
      have hi : i < s.rest.length + 1 := by
        rw [← length_compounds]
        exact (List.getElem?_eq_some_iff.mp hc).1
      rcases Nat.lt_succ_iff_lt_or_eq.mp hi with hi | rfl
      · exact (step i _ _ c (List.getElem?_eq_getElem hi) hc).2 x hx
      · rw [getElem?_compounds_length] at hc
        obtain rfl := Option.some.inj hc
        rw [Nat.sub_self]
        exact hsubject x hx
    · intro i joint right hlink
      have hi : i < s.rest.length := (List.getElem?_eq_some_iff.mp hlink).1
      rw [← h.mem_related_iff_joined]
      exact (step i joint right _ hlink
        (List.getElem?_eq_getElem (by rw [length_compounds]; omega))).1
  · rintro ⟨place, hplace⟩
    refine ⟨?_, fun k => place (s.rest.length - k), hplace.subject, ?_⟩
    · intro x hx
      rw [h.satisfies_eq_true_iff, ← hplace.subject]
      exact hplace.holds _ _ s.getElem?_compounds_length x hx
    · intro k joint c hk
      have hlt : k < s.rest.length := by
        rw [← length_leftward]
        exact (List.getElem?_eq_some_iff.mp hk).1
      rw [show k = s.rest.length - 1 - (s.rest.length - 1 - k) by omega,
        getElem?_leftward_eq_some_iff (by omega)] at hk
      obtain ⟨⟨right, hlink⟩, hc⟩ := hk
      have hjoined := hplace.joined _ joint right hlink
      rw [show s.rest.length - 1 - k + 1 = s.rest.length - k by omega,
        show s.rest.length - 1 - k = s.rest.length - (k + 1) by omega] at hjoined
      rw [show s.rest.length - 1 - k = s.rest.length - (k + 1) by omega] at hc
      refine ⟨(h.mem_related_iff_joined joint).mpr hjoined, fun x hx => ?_⟩
      exact (h.satisfies_eq_true_iff x).mpr (hplace.holds _ c hc x hx)

/-- The search finds the answer of `selects` when it may nest deep enough. -/
theorem search?_eq_selects {t : Tree} (h : t.IsForest) (s : Selector) (mode : MatchMode)
    (n : NodeId) {steps : Nat} (hsteps : s.rest.length * (t.size + 1) < steps) :
    s.search? t mode steps n = some (s.selects t mode n) := by
  have hleft : t.searchLeftward mode steps s.leftward n = some (t.matchLeftward mode s.leftward n) := by
    refine h.searchLeftward_of_searchDepth_lt (Nat.lt_of_le_of_lt (h.searchDepth_le _ n) ?_)
    rwa [length_leftward]
  unfold search? selects
  rw [hleft]
  cases s.isEmpty <;> cases t.satisfiesAll mode n s.subject <;> simp

/-- **Matching is sound and complete, and the search ends.**  In a forest a selector selects a node
exactly when it is not empty and its compounds can be placed on nodes, the subject on the node, so
that each holds where it stands and neighbours are joined by their combinator; and the search that
goes from node to node finds that answer within a nesting that the sizes of selector and tree
bound. -/
theorem selects_iff_exists_placement {t : Tree} (h : t.IsForest) (s : Selector) (mode : MatchMode)
    (n : NodeId) :
    (s.selects t mode n = true ↔ s.isEmpty = false ∧ ∃ place, s.IsPlacement t mode n place) ∧
      ∀ steps, s.rest.length * (t.size + 1) < steps →
        s.search? t mode steps n = some (s.selects t mode n) :=
  ⟨selects_iff_isPlacement h, fun _ hsteps => search?_eq_selects h s mode n hsteps⟩

/-- The statement where the nearest candidate fails: of two nested `b` only the outer one is a child
of `a`. -/
theorem selects_iff_exists_placement_nested :
    let t := (((Tree.empty.addRoot "a").addChild 0 "b").addChild 1 "b").addChild 2 "c"
    let s : Selector :=
      ⟨⟨[.hasTag "a"]⟩, [(.child, ⟨[.hasTag "b"]⟩), (.descendant, ⟨[.hasTag "c"]⟩)], "a > b c"⟩
    t.IsForest ∧ (∃ place, s.IsPlacement t .strict 3 place) ∧
      s.rest.length * (t.size + 1) < 11 ∧ s.search? t .strict 11 3 = some true := by
  intro t s
  have ht : t.IsForest := by
    refine (((Tree.isForest_empty.addRoot "a").addChild ?_ ?_ "b").addChild ?_ ?_ "b").addChild
      ?_ ?_ "c" <;> decide
  have hselects : s.selects t .strict 3 = true := by decide
  have hsteps : s.rest.length * (t.size + 1) < 11 := by decide
  obtain ⟨hplaced, hfound⟩ := selects_iff_exists_placement ht s .strict 3
  exact ⟨ht, (hplaced.mp hselects).2, hsteps, hselects ▸ hfound 11 hsteps⟩

end Selector

end WidgetStyle
