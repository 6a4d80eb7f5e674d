import WidgetStyle.Proofs.Selector.Dropped
import WidgetStyle.Proofs.Selector.Search

/-!
# WidgetStyle.Proofs.Selector.Weakening — when dropping pieces weakens a selector

Where reading drops a piece, a weaker selector should remain: one that selects all that the chain selects
with `*` in the place of the piece (`starredChain`).  It does when only single simple selectors are
dropped, or compounds in front.  When a compound vanishes between two others, one combinator stands for
two or more, and it may ask for something else than they do: `a > :x > b` asks for a grandchild of `a`,
and `a > b`, which remains, for a child.

Combinators one behind the other relate nodes along a path (`Tree.Path`).  Whatever the path, the
combinator that remains relates its ends just in case the combinators are `harmless`
(`joined_iff_harmless`): there is one only, or all are blanks, or they go from sibling to sibling and end
with `~`.  A chain with harmless combinators around what has vanished, whose subject has not, is read
as a weaker one (`Selector.selects_of_dropped`).
-/

namespace WidgetStyle

/-! ## Chains from left to right -/

namespace Tree

/-- Whether nodes can be found from `m` on for the compounds to its right, the last one being `n`. -/
def Leads (t : Tree) (mode : MatchMode) : List (Combinator × Compound) → NodeId → NodeId → Prop
  | [], m, n => m = n
  | (k, c) :: links, m, n =>
    ∃ next, t.Joined k m next ∧ (∀ x ∈ c.simples, t.Holds mode next x) ∧ t.Leads mode links next n

/-- The nodes of a choice with one more in front. -/
def inFront (m : NodeId) (place : Nat → NodeId) : Nat → NodeId
  | 0 => m
  | i + 1 => place i

variable {t : Tree} {mode : MatchMode} {n m : NodeId}

/-- The nodes of such a choice, counted from the left. -/
theorem leads_iff_exists_place {links : List (Combinator × Compound)} :
    t.Leads mode links m n ↔
      ∃ place : Nat → NodeId, place 0 = m ∧ place links.length = n ∧
        ∀ i k c, links[i]? = some (k, c) →
          t.Joined k (place i) (place (i + 1)) ∧ ∀ x ∈ c.simples, t.Holds mode (place (i + 1)) x := by
  induction links generalizing m with
  | nil =>
      constructor
      · rintro rfl
        exact ⟨fun _ => m, rfl, rfl, by simp⟩
      · rintro ⟨place, rfl, rfl, -⟩
        rfl
  | cons link links ih =>
      obtain ⟨k, c⟩ := link
      rw [Leads]
      constructor
      · rintro ⟨next, hjoined, hholds, hleads⟩
        obtain ⟨place, rfl, hend, hplace⟩ := ih.mp hleads
        refine ⟨inFront m place, rfl, hend, fun i k' c' hi => ?_⟩
        cases i with
        | zero =>
            obtain ⟨rfl, rfl⟩ := Prod.mk.inj (Option.some.inj hi)
            exact ⟨hjoined, hholds⟩
        | succ i => exact hplace i k' c' hi
      · rintro ⟨place, rfl, hend, hplace⟩
        obtain ⟨hjoined, hholds⟩ := hplace 0 k c rfl
        exact ⟨place 1, hjoined, hholds, ih.mpr ⟨fun i => place (i + 1), rfl, hend,
          fun i k' c' hi => hplace (i + 1) k' c' hi⟩⟩

end Tree

/-- A selector selects a node when there is one for its first compound that leads there. -/
theorem Selector.selects_iff_leads {t : Tree} (h : t.IsForest) (s : Selector) {mode : MatchMode}
    {n : NodeId} :
    s.selects t mode n = true ↔ s.isEmpty = false ∧
      ∃ m, (∀ x ∈ s.first.simples, t.Holds mode m x) ∧ t.Leads mode s.rest m n := by
  rw [selects_iff_isPlacement h]
  refine and_congr_right fun _ => ?_
  simp only [Tree.leads_iff_exists_place]
  constructor
  · rintro ⟨place, hplace⟩
    refine ⟨place 0, hplace.holds 0 s.first rfl, place, rfl, hplace.subject, fun i k c hi => ?_⟩
    refine ⟨hplace.joined i k c hi, hplace.holds (i + 1) c ?_⟩
    simp [compounds, hi]
  · rintro ⟨m, hfirst, place, rfl, hsubject, hlinks⟩
    refine ⟨place, hsubject, fun i hi => ?_, fun i c hc => ?_, fun i k c hi => (hlinks i k c hi).1⟩
    · obtain ⟨hjoined, -⟩ := hlinks i _ _ (List.getElem?_eq_getElem hi)
      exact h.lt_size_of_mem_related ((h.mem_related_iff_joined _).mpr hjoined)
    · cases i with
      | zero =>
          obtain rfl := Option.some.inj hc
          exact hfirst
      | succ i =>
          obtain ⟨⟨k, c'⟩, hi, rfl⟩ : ∃ link, s.rest[i]? = some link ∧ link.2 = c := by
            simpa [compounds, Option.map_eq_some_iff] using hc
          exact (hlinks i k c' hi).2

/-! ## Combinators one behind the other -/

/-- Whether the combinator relates siblings. -/
def Combinator.isSibling : Combinator → Bool
  | .adjacentSibling | .generalSibling => true
  | .descendant | .child => false

/-- What remains of combinators when the compounds between them have vanished. -/
def remainingJoint (joints : List Combinator) : Option Combinator :=
  joints.foldl (fun pending k => some (pending.elim k (·.over k))) none

/-- Whether the combinator that remains is implied: there is one only, or all are blanks, or they go
from sibling to sibling and end with `~`. -/
def harmless (joints : List Combinator) : Bool :=
  joints.length = 1 || joints.all (· = .descendant) ||
    joints.all Combinator.isSibling && joints.getLast? = some .generalSibling

/-- Whether nodes are related by combinators one behind the other. -/
def Tree.Path (t : Tree) : List Combinator → NodeId → NodeId → Prop
  | [], m, n => m = n
  | k :: joints, m, n => ∃ next, t.Joined k m next ∧ t.Path joints next n

theorem remainingJoint_append_singleton (joints : List Combinator) (k : Combinator) :
    remainingJoint (joints ++ [k]) = some ((remainingJoint joints).elim k (·.over k)) := by
  rw [remainingJoint, List.foldl_append, List.foldl_cons, List.foldl_nil]
  rfl

/-- The last sign remains, and a blank if there is no sign. -/
theorem remainingJoint_eq_some {joints : List Combinator} {k : Combinator}
    (h : remainingJoint joints = some k) :
    (k = .descendant ∧ ∀ j ∈ joints, j = .descendant) ∨
      ∃ front back, joints = front ++ k :: back ∧ k ≠ .descendant ∧ ∀ j ∈ back, j = .descendant := by
  induction joints using List.reverseRecOn generalizing k with
  | nil => cases h
  | append_singleton joints j ih =>
      rw [remainingJoint_append_singleton] at h
      by_cases hj : j = .descendant
      case neg =>
        have hk : k = j := by
          cases hpending : remainingJoint joints <;> simp_all [Combinator.over]
        exact .inr ⟨joints, [], by rw [hk], hk ▸ hj, List.forall_mem_nil _⟩
      case pos =>
        subst hj
        cases hpending : remainingJoint joints with
        | none =>
            have hnil : joints = [] := by
              cases joints using List.reverseRecOn with
              | nil => rfl
              | append_singleton joints j =>
                  rw [remainingJoint_append_singleton] at hpending
                  cases hpending
            rw [hpending] at h
            exact .inl ⟨(Option.some.inj h).symm, by simp [hnil]⟩
        | some pending =>
            rw [hpending] at h
            have hk : pending = k := by simpa [Combinator.over] using h
            rcases ih (hk ▸ hpending) with ⟨rfl, hall⟩ | ⟨front, back, rfl, hsign, hback⟩
            · refine .inl ⟨rfl, fun j hmem => ?_⟩
              rcases List.mem_append.mp hmem with hmem | hmem
              · exact hall j hmem
              · exact List.mem_singleton.mp hmem
            · refine .inr ⟨front, back ++ [.descendant], by simp, hsign, fun j hmem => ?_⟩
              rcases List.mem_append.mp hmem with hmem | hmem
              · exact hback j hmem
              · exact List.mem_singleton.mp hmem

namespace Tree

variable {t : Tree} {joints : List Combinator} {m n : NodeId}

theorem path_append_singleton {k : Combinator} :
    t.Path (joints ++ [k]) m n ↔ ∃ last, t.Path joints m last ∧ t.Joined k last n := by
  induction joints generalizing m with
  | nil =>
      constructor
      · rintro ⟨next, hjoined, rfl⟩
        exact ⟨m, rfl, hjoined⟩
      · rintro ⟨last, rfl, hjoined⟩
        exact ⟨n, hjoined, rfl⟩
  | cons j joints ih =>
      constructor
      · rintro ⟨next, hfirst, hpath⟩
        obtain ⟨last, hpath, hjoined⟩ := ih.mp hpath
        exact ⟨last, ⟨next, hfirst, hpath⟩, hjoined⟩
      · rintro ⟨last, ⟨next, hfirst, hpath⟩, hjoined⟩
        exact ⟨next, hfirst, ih.mpr ⟨last, hpath, hjoined⟩⟩

/-- A path of blanks goes down. -/
theorem descendant_of_path (hall : ∀ k ∈ joints, k = .descendant) (hne : joints ≠ [])
    (h : t.Path joints m n) : t.Joined .descendant m n := by
  induction joints generalizing m with
  | nil => exact absurd rfl hne
  | cons k joints ih =>
      obtain ⟨next, hjoined, hpath⟩ := h
      obtain rfl := hall k List.mem_cons_self
      cases joints with
      | nil =>
          obtain rfl := hpath
          exact hjoined
      | cons j joints =>
          have hrest := ih (fun i hi => hall i (List.mem_cons_of_mem _ hi)) (List.cons_ne_nil _ _) hpath
          exact Relation.TransGen.trans hjoined hrest

theorem precedes_of_joined {k : Combinator} (hk : k.isSibling = true) (h : t.Joined k m n) :
    t.Precedes m n := by
  cases k with
  | generalSibling => exact h
  | adjacentSibling =>
      obtain ⟨p, before, after, hcut⟩ := h
      exact ⟨p, before, [], after, hcut⟩
  | child => cases hk
  | descendant => cases hk

namespace IsForest

variable (h : t.IsForest)
include h

theorem precedes_trans {k : NodeId} (hmk : t.Precedes m k) (hkn : t.Precedes k n) : t.Precedes m n :=
  h.mem_earlierSiblings_iff_precedes.mp (h.earlierSiblings_trans
    (h.mem_earlierSiblings_iff_precedes.mpr hkn) (h.mem_earlierSiblings_iff_precedes.mpr hmk))

theorem not_precedes_self : ¬ t.Precedes n n := by
  rintro ⟨p, before, between, after, hcut⟩
  have hnodup := h.nodup_children p
  rw [hcut] at hnodup
  exact (List.nodup_cons.mp (List.nodup_append.mp hnodup).2.1).1 (by simp)

/-- A path from sibling to sibling leads to a later sibling. -/
theorem precedes_of_path (hall : ∀ k ∈ joints, k.isSibling = true) (hne : joints ≠ [])
    (hpath : t.Path joints m n) : t.Precedes m n := by
  induction joints generalizing m with
  | nil => exact absurd rfl hne
  | cons k joints ih =>
      obtain ⟨next, hjoined, hpath⟩ := hpath
      have hfirst := precedes_of_joined (hall k List.mem_cons_self) hjoined
      cases joints with
      | nil =>
          obtain rfl := hpath
          exact hfirst
      | cons j joints =>
          exact h.precedes_trans hfirst
            (ih (fun i hi => hall i (List.mem_cons_of_mem _ hi)) (List.cons_ne_nil _ _) hpath)

/-! ### Levels -/

theorem length_ancestors_of_precedes (hprecedes : t.Precedes m n) :
    (t.ancestors m).length = (t.ancestors n).length := by
  obtain ⟨p, before, between, after, hcut⟩ := hprecedes
  have hm : t.parent? m = some p := (h.child_iff m p).mp (by simp [hcut])
  have hn : t.parent? n = some p := (h.child_iff n p).mp (by simp [hcut])
  rw [h.ancestors_of_parent hm, h.ancestors_of_parent hn]

theorem length_ancestors_lt (hbelow : Relation.TransGen (fun m n => t.parent? n = some m) m n) :
    (t.ancestors m).length < (t.ancestors n).length := by
  induction hbelow with
  | single hm => simp [h.ancestors_of_parent hm]
  | tail _ hk ih =>
      rw [h.ancestors_of_parent hk, List.length_cons]
      omega

/-- A path goes down at least as many levels as it has combinators that do. -/
theorem length_ancestors_of_path (hpath : t.Path joints m n) :
    (t.ancestors m).length + joints.countP (!·.isSibling) ≤ (t.ancestors n).length := by
  induction joints generalizing m with
  | nil =>
      obtain rfl := hpath
      simp
  | cons k joints ih =>
      obtain ⟨next, hjoined, hpath⟩ := hpath
      have hrest := ih hpath
      cases hk : k.isSibling with
      | true =>
          have hlevel := h.length_ancestors_of_precedes (precedes_of_joined hk hjoined)
          simp only [List.countP_cons, hk, Bool.not_true, Bool.false_eq_true, if_false]
          omega
      | false =>
          have hlevel : (t.ancestors m).length < (t.ancestors next).length := by
            cases k with
            | child => exact h.length_ancestors_lt (.single hjoined)
            | descendant => exact h.length_ancestors_lt hjoined
            | adjacentSibling => cases hk
            | generalSibling => cases hk
          simp only [List.countP_cons, hk, Bool.not_false, if_true]
          omega

/-! ### The combinator that remains -/

theorem joined_of_harmless {k : Combinator} (hk : remainingJoint joints = some k)
    (hharmless : harmless joints = true) (hpath : t.Path joints m n) : t.Joined k m n := by
  have hne : joints ≠ [] := by
    rintro rfl
    cases hk
  simp only [harmless, Bool.or_eq_true, Bool.and_eq_true, decide_eq_true_eq, List.all_eq_true] at hharmless
  rcases hharmless with (hsingle | hblank) | ⟨hsibling, hlast⟩
  · obtain ⟨j, rfl⟩ := List.length_eq_one_iff.mp hsingle
    obtain rfl : j = k := Option.some.inj hk
    obtain ⟨next, hjoined, rfl⟩ := hpath
    exact hjoined
  · rcases remainingJoint_eq_some hk with ⟨rfl, -⟩ | ⟨front, back, rfl, hsign, -⟩
    · exact descendant_of_path hblank hne hpath
    · exact absurd (hblank k (by simp)) hsign
  · have hprecedes := h.precedes_of_path hsibling hne hpath
    rcases remainingJoint_eq_some hk with ⟨-, hblank⟩ | ⟨front, back, rfl, -, hback⟩
    · have hmem := List.mem_of_getLast? hlast
      exact absurd (hblank _ hmem) nofun
    · -- Behind the last sign there are blanks only, and here there is none.
      cases back with
      | nil =>
          obtain rfl : k = .generalSibling := by simpa using hlast
          exact hprecedes
      | cons j back =>
          have hdescends := hback j List.mem_cons_self
          have hsiblings := hsibling j (by simp)
          rw [hdescends] at hsiblings
          cases hsiblings

/-- What a path goes down besides the last sign, it goes down for the ends as well. -/
theorem siblings_of_path {front back : List Combinator} {k : Combinator}
    (hback : ∀ j ∈ back, j = .descendant) (hpath : t.Path (front ++ k :: back) m n)
    (hends : (t.ancestors n).length ≤ (t.ancestors m).length + if k.isSibling then 0 else 1) :
    (∀ j ∈ front, j.isSibling = true) ∧ back = [] := by
  have hlevels := h.length_ancestors_of_path hpath
  have hbackLevels : back.countP (!·.isSibling) = back.length := by
    refine List.countP_eq_length.mpr fun j hj => ?_
    rw [hback j hj]
    rfl
  have hlast : (if !k.isSibling then 1 else 0) = if k.isSibling then 0 else 1 := by
    cases k.isSibling <;> rfl
  simp only [List.countP_append, List.countP_cons, hbackLevels, hlast] at hlevels
  have hfront : front.countP (!·.isSibling) = 0 := by omega
  refine ⟨fun j hj => ?_, List.eq_nil_of_length_eq_zero (by omega)⟩
  simpa using List.countP_eq_zero.mp hfront j hj

theorem harmless_of_joined {k : Combinator} (hk : remainingJoint joints = some k)
    (hpath : t.Path joints m n) (hjoined : t.Joined k m n) : harmless joints = true := by
  rcases remainingJoint_eq_some hk with ⟨-, hblank⟩ | ⟨front, back, rfl, hsign, hback⟩
  case inl => simp [harmless, List.all_eq_true.mpr fun j hj => decide_eq_true (hblank j hj)]
  case inr =>
    have hends : (t.ancestors n).length ≤ (t.ancestors m).length + if k.isSibling then 0 else 1 := by
      cases k with
      | descendant => exact absurd rfl hsign
      | child =>
          rw [h.ancestors_of_parent hjoined]
          exact Nat.le_refl _
      | adjacentSibling =>
          exact Nat.le_of_eq (h.length_ancestors_of_precedes (precedes_of_joined rfl hjoined)).symm
      | generalSibling => exact Nat.le_of_eq (h.length_ancestors_of_precedes hjoined).symm
    obtain ⟨hfront, rfl⟩ := h.siblings_of_path hback hpath hends
    obtain ⟨last, hpath, hlast⟩ := path_append_singleton.mp hpath
    -- With more than one combinator, the last step begins at a later sibling of the first node.
    have hlater : front ≠ [] → last ≠ m := by
      rintro hne rfl
      exact h.not_precedes_self (h.precedes_of_path hfront hne hpath)
    cases k with
    | descendant => exact absurd rfl hsign
    | child =>
        have hsame : last = m := Option.some.inj (hlast.symm.trans hjoined)
        rw [show front = [] from not_not.mp fun hne => hlater hne hsame]
        rfl
    | adjacentSibling =>
        have hsame : last = m := Option.some.inj
          ((h.previousSibling?_eq_some_iff.mpr hlast).symm.trans
            (h.previousSibling?_eq_some_iff.mpr hjoined))
        rw [show front = [] from not_not.mp fun hne => hlater hne hsame]
        rfl
    | generalSibling =>
        simp [harmless, List.all_eq_true.mpr hfront, Combinator.isSibling]

/-- Whatever path combinators relate two nodes by, the one that remains relates them just in case the
combinators are harmless. -/
theorem joined_iff_harmless {k : Combinator} (hk : remainingJoint joints = some k)
    (hpath : t.Path joints m n) : t.Joined k m n ↔ harmless joints = true :=
  ⟨h.harmless_of_joined hk hpath, fun hharmless => h.joined_of_harmless hk hharmless hpath⟩

end IsForest

end Tree

/-! ## Chains with stars -/

/-- The compound with `*` in the place of every piece that is dropped. -/
def Pieces.starred (ps : Pieces) : Compound := ⟨ps.map fun p => p.getD .universal⟩

/-- The chain with `*` in the place of every piece that is dropped. -/
def starredChain (first : Pieces) (links : List (Combinator × Pieces)) (text : String) : Selector :=
  ⟨first.starred, links.map fun (k, ps) => (k, ps.starred), text⟩

/-- Whether the combinators around vanished compounds are harmless, and the subject has not vanished.
The first argument has the combinators behind the last compound that remains. -/
def harmlessLinks : List Combinator → List (Combinator × Pieces) → Bool
  | joints, [] => joints.isEmpty
  | joints, (k, ps) :: links =>
    if ps.known.simples.isEmpty then harmlessLinks (joints ++ [k]) links
    else harmless (joints ++ [k]) && harmlessLinks [] links

/-- Whether the combinators of a chain are harmless; those in front of the first compound that remains
always are. -/
def harmlessChain : Pieces → List (Combinator × Pieces) → Bool
  | ps, [] => !ps.known.simples.isEmpty
  | ps, (k, qs) :: links =>
    if ps.known.simples.isEmpty then harmlessChain qs links else harmlessLinks [] ((k, qs) :: links)

/-- What the starred compound asks for covers what remains. -/
theorem mem_starred_of_mem_known {ps : Pieces} {x : SimpleSelector} (h : x ∈ ps.known.simples) :
    x ∈ ps.starred.simples := by
  obtain ⟨p, hp, hx⟩ := List.mem_filterMap.mp h
  exact List.mem_map.mpr ⟨p, hp, by rw [show p = some x from hx]; rfl⟩

namespace Tree

variable {t : Tree} (h : t.IsForest) {mode : MatchMode} {n : NodeId}
include h

/-- From a compound that remains on: what leads to a node in the starred chain leads to it in what
remains. -/
theorem leads_remainingLinks (links : List (Combinator × Pieces)) {joints : List Combinator}
    {m last : NodeId} (hpath : t.Path joints m last) (hharmless : harmlessLinks joints links = true)
    (hleads : t.Leads mode (links.map fun (k, ps) => (k, ps.starred)) last n) :
    t.Leads mode (remainingLinks (remainingJoint joints) links) m n := by
  induction links generalizing joints m last with
  | nil =>
      obtain rfl := List.isEmpty_iff.mp hharmless
      exact Eq.trans hpath hleads
  | cons link links ih =>
      obtain ⟨k, ps⟩ := link
      obtain ⟨next, hjoined, hholds, hleads⟩ := hleads
      have hmore : t.Path (joints ++ [k]) m next := path_append_singleton.mpr ⟨last, hpath, hjoined⟩
      have hjoint := remainingJoint_append_singleton joints k
      rw [harmlessLinks] at hharmless
      rw [remainingLinks]
      by_cases hknown : ps.known.simples.isEmpty = true
      case pos =>
        rw [if_pos hknown] at hharmless
        simp only [hknown, if_true]
        rw [← hjoint]
        exact ih hmore hharmless hleads
      case neg =>
        rw [if_neg hknown, Bool.and_eq_true] at hharmless
        simp only [hknown]
        refine ⟨next, (h.joined_iff_harmless hjoint hmore).mpr hharmless.1,
          fun x hx => hholds x (mem_starred_of_mem_known hx), ?_⟩
        exact ih (show t.Path [] next next from rfl) hharmless.2 hleads

theorem exists_leads_remaining {first : Pieces} {links : List (Combinator × Pieces)} {m : NodeId}
    (hharmless : harmlessChain first links = true) (hfirst : ∀ x ∈ first.starred.simples, t.Holds mode m x)
    (hleads : t.Leads mode (links.map fun (k, ps) => (k, ps.starred)) m n) :
    (remaining first links).1.simples ≠ [] ∧
      ∃ m, (∀ x ∈ (remaining first links).1.simples, t.Holds mode m x) ∧
        t.Leads mode (remaining first links).2 m n := by
  induction links generalizing first m with
  | nil =>
      have hknown : first.known.simples ≠ [] := by simpa [harmlessChain] using hharmless
      exact ⟨hknown, m, fun x hx => hfirst x (mem_starred_of_mem_known hx), hleads⟩
  | cons link links ih =>
      obtain ⟨k, ps⟩ := link
      rw [harmlessChain] at hharmless
      rw [remaining]
      by_cases hknown : first.known.simples.isEmpty = true
      case pos =>
        obtain ⟨next, -, hholds, hleads⟩ := hleads
        rw [if_pos hknown] at hharmless ⊢
        exact ih hharmless hholds hleads
      case neg =>
        rw [if_neg hknown] at hharmless ⊢
        refine ⟨by simpa using hknown, m, fun x hx => hfirst x (mem_starred_of_mem_known hx), ?_⟩
        exact leads_remainingLinks h _ (show t.Path [] m m from rfl) hharmless hleads

end Tree

/-- A text whose vanished compounds stand between harmless combinators, and whose subject has not
vanished, is read as a weaker selector: in every forest it selects each node that the chain selects with
`*` in the place of what is dropped. -/
theorem Selector.selects_of_dropped {s : String} {first : Pieces} {links : List (Combinator × Pieces)}
    (hspelled : SelectorGrammar.SpellsPartly first links s.toList)
    (hharmless : harmlessChain first links = true) {t : Tree} (ht : t.IsForest) {mode : MatchMode}
    {n : NodeId} (hstarred : (starredChain first links s).selects t mode n = true) :
    (parse s).selects t mode n = true := by
  rw [selects_iff_leads ht] at hstarred
  obtain ⟨-, m, hfirst, hleads⟩ := hstarred
  obtain ⟨hne, hremaining⟩ := Tree.exists_leads_remaining ht hharmless hfirst hleads
  rw [parse_of_spellsPartly hspelled, selects_iff_leads ht]
  refine ⟨?_, hremaining⟩
  rw [isEmpty, compounds, List.all_cons]
  simp [hne]

namespace SelectorGrammar

theorem spellsPartial_tag (name : String) (identifier : IsIdentifier name) (lower : IsLower name) :
    SpellsPartial [some (.hasTag name)] (name.toList ++ []) :=
  .typed (.tag name identifier lower) .nil

theorem spellsPartial_unknown (name : String) (identifier : IsIdentifier name)
    (unknown : PseudoClass.ofName? name = none) : SpellsPartial [none] (':' :: name.toList ++ []) :=
  .untyped (.dropped (.unknown name .none identifier unknown)) .nil

end SelectorGrammar

/-- Compounds that vanish in front and between siblings, and pieces that are dropped elsewhere. -/
theorem Selector.selects_of_dropped_siblings :
    let t := ((((Tree.empty.addRoot "r").addChild 0 "a").addChild 1 "b").addChild 1 "x").addChild 1 "c"
    let s := ":x( 1) a::visited>b + :y ~ c"
    let links : List (Combinator × Pieces) :=
      [(.descendant, [some (.hasTag "a"), none]), (.child, [some (.hasTag "b")]),
        (.adjacentSibling, [none]), (.generalSibling, [some (.hasTag "c")])]
    SelectorGrammar.SpellsPartly [none] links s.toList ∧ harmlessChain [none] links = true ∧ t.IsForest ∧
      (starredChain [none] links s).selects t .strict 4 = true ∧ (parse s).selects t .strict 4 = true := by
  intro t s links
  have hspelled : SelectorGrammar.SpellsPartly [none] links ":x( 1) a::visited>b + :y ~ c".toList := by
    have x : SelectorGrammar.SpellsPartial [none] ":x( 1)".toList :=
      .untyped (.dropped (.functional "x" " 1".toList .none (by decide) (by decide))) .nil
    have a : SelectorGrammar.SpellsPartial [some (.hasTag "a"), none] "a::visited".toList :=
      .typed (.tag "a" (by decide) (by decide))
        (.cons (.dropped (.unknown "visited" .second (by decide) (by decide))) .nil)
    have b := SelectorGrammar.spellsPartial_tag "b" (by decide) (by decide)
    have y := SelectorGrammar.spellsPartial_unknown "y" (by decide) (by decide)
    have c := SelectorGrammar.spellsPartial_tag "c" (by decide) (by decide)
    exact .chain [] [] nofun x
      (.cons (.descendant [' '] (by decide) (List.all_eq_true.mp rfl)) a
        (.cons (.sign [] [] .child nofun nofun) b
          (.cons (.sign [' '] [' '] .adjacentSibling (List.all_eq_true.mp rfl)
              (List.all_eq_true.mp rfl)) y
            (.cons (.sign [' '] [' '] .generalSibling (List.all_eq_true.mp rfl)
                (List.all_eq_true.mp rfl)) c .nil)))) nofun
  have ht : t.IsForest := by
    refine ((((Tree.isForest_empty.addRoot "r").addChild ?_ ?_ "a").addChild ?_ ?_ "b").addChild
      ?_ ?_ "x").addChild ?_ ?_ "c" <;> decide
  have hharmless : harmlessChain [none] links = true := by decide
  have hstarred : (starredChain [none] links s).selects t .strict 4 = true := by decide
  exact ⟨hspelled, hharmless, ht, hstarred, selects_of_dropped hspelled hharmless ht hstarred⟩

/-- A compound vanishes between two signs, and one of them with it: what remains asks for a child where
the chain asks for a grandchild. -/
theorem Selector.dropped_compound_keeps_one_sign :
    let t := ((Tree.empty.addRoot "a").addChild 0 "x").addChild 1 "b"
    let s := "a > :visited > b"
    let links : List (Combinator × Pieces) := [(.child, [none]), (.child, [some (.hasTag "b")])]
    SelectorGrammar.SpellsPartly [some (.hasTag "a")] links s.toList ∧ t.IsForest ∧
      (starredChain [some (.hasTag "a")] links s).selects t .strict 2 = true ∧
      parse s = ⟨⟨[.hasTag "a"]⟩, [(.child, ⟨[.hasTag "b"]⟩)], s⟩ ∧
      (parse s).selects t .strict 2 = false := by
  intro t s links
  have ht : t.IsForest := by
    refine ((Tree.isForest_empty.addRoot "a").addChild ?_ ?_ "x").addChild ?_ ?_ "b" <;> decide
  have a := SelectorGrammar.spellsPartial_tag "a" (by decide) (by decide)
  have b := SelectorGrammar.spellsPartial_tag "b" (by decide) (by decide)
  have visited := SelectorGrammar.spellsPartial_unknown "visited" (by decide) (by decide)
  have child : SelectorGrammar.SpellsJoint .child " > ".toList :=
    .sign [' '] [' '] .child (List.all_eq_true.mp rfl) (List.all_eq_true.mp rfl)
  have hspelled : SelectorGrammar.SpellsPartly [some (.hasTag "a")] links
      "a > :visited > b".toList :=
    .chain [] [] nofun a (.cons child visited (.cons child b .nil)) nofun
  exact ⟨hspelled, ht, by decide, by decide, by decide⟩

end WidgetStyle
