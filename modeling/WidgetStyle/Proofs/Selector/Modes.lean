import WidgetStyle.Selector.Match

/-!
# WidgetStyle.Proofs.Selector.Modes — the two modes of matching

Loose matching takes pseudo-classes for granted.  Three facts tie it to strict matching, and they
are all that a style sheet needs to match in two steps:

* what is selected strictly is selected loosely (`selects_loose_of_strict`);
* without pseudo-classes the modes agree (`selects_loose_eq_strict`);
* loose matching never looks at a state (`selects_loose_withStates`).

All of them compare two walks through a tree, and rest on one induction (`matchLeftward_mono`).

The states of a whole tree are set by `Tree.withStates`, of which `Tree.setState` is the case of a
single node (`setState_eq_withStates`).
-/

namespace WidgetStyle

/-! ## Sets of pseudo-classes -/

namespace PseudoSet

theorem contains_foldl_insert (ps : List PseudoClass) (s : PseudoSet) (q : PseudoClass) :
    (ps.foldl insert s).contains q = (s.contains q || decide (q ∈ ps)) := by
  induction ps generalizing s with
  | nil => simp
  | cons p ps ih =>
      rw [List.foldl_cons, ih, contains_insert]
      by_cases hq : q = p <;> simp [hq]

theorem contains_ofList (ps : List PseudoClass) (q : PseudoClass) :
    (ofList ps).contains q = decide (q ∈ ps) := by
  rw [ofList, contains_foldl_insert, contains_empty, Bool.false_or]

/-- Only the empty list gives the set without members. -/
theorem isEmpty_ofList_iff {ps : List PseudoClass} : (ofList ps).isEmpty = true ↔ ps = [] := by
  constructor
  · intro h
    refine List.eq_nil_iff_forall_not_mem.mpr fun q hq => ?_
    have hmask : (ofList ps).mask = 0 := by simpa [isEmpty] using h
    have hcontains := contains_ofList ps q
    simp [contains, hmask, hq] at hcontains
  · rintro rfl
    simp [ofList, isEmpty, empty]

end PseudoSet

/-! ## States of a tree -/

namespace Tree

/-- The tree with the given states at all nodes. -/
def withStates (t : Tree) (states : NodeId → PseudoSet) : Tree :=
  ⟨t.nodes.mapIdx fun n x => { x with state := states n }⟩

section WithStates

variable (t : Tree) (states : NodeId → PseudoSet) (n : NodeId)

theorem node?_withStates :
    (t.withStates states).node? n = (t.node? n).map fun x => { x with state := states n } := by
  simp [node?, withStates]

@[simp] theorem size_withStates : (t.withStates states).size = t.size := by
  simp [size, withStates]

@[simp] theorem parent?_withStates : (t.withStates states).parent? n = t.parent? n := by
  rw [parent?, parent?, node?_withStates]
  cases t.node? n <;> rfl

@[simp] theorem children_withStates : (t.withStates states).children n = t.children n := by
  rw [children, children, node?_withStates]
  cases t.node? n <;> rfl

@[simp] theorem tag_withStates : (t.withStates states).tag n = t.tag n := by
  rw [tag, tag, node?_withStates]
  cases t.node? n <;> rfl

@[simp] theorem idOf?_withStates : (t.withStates states).idOf? n = t.idOf? n := by
  rw [idOf?, idOf?, node?_withStates]
  cases t.node? n <;> rfl

@[simp] theorem hasClass_withStates (name : String) :
    (t.withStates states).hasClass n name = t.hasClass n name := by
  rw [hasClass, hasClass, node?_withStates]
  cases t.node? n <;> rfl

@[simp] theorem attribute?_withStates (name : String) :
    (t.withStates states).attribute? n name = t.attribute? n name := by
  rw [attribute?, attribute?, node?_withStates]
  cases t.node? n <;> rfl

@[simp] theorem family_withStates : (t.withStates states).family n = t.family n := by
  simp [family]

@[simp] theorem earlierSiblings_withStates :
    (t.withStates states).earlierSiblings n = t.earlierSiblings n := by
  simp [earlierSiblings]

@[simp] theorem ancestors_withStates : (t.withStates states).ancestors n = t.ancestors n := by
  have within : ∀ steps n,
      (t.withStates states).ancestorsWithin steps n = t.ancestorsWithin steps n := by
    intro steps
    induction steps with
    | zero => intro n; rfl
    | succ steps ih => intro n; simp [ancestorsWithin, ih]
  simp [ancestors, within]

@[simp] theorem related_withStates (joint : Combinator) :
    (t.withStates states).related n joint = t.related n joint := by
  cases joint <;> simp [related, previousSibling?]

end WithStates

/-- Setting a state of one node, as states of the whole tree. -/
theorem setState_eq_withStates (t : Tree) (n : NodeId) (p : PseudoClass) (on : Bool) :
    t.setState n p on =
      t.withStates fun m => if m = n then (t.state n).set p on else t.state m := by
  unfold setState modify withStates
  refine congrArg Tree.mk ?_
  apply Array.ext
  · simp
  · intro i h _
    have hi : i < t.nodes.size := by simpa using h
    have hnode : t.node? i = some t.nodes[i] := by simp [node?, hi]
    have hstate : t.state i = t.nodes[i].state := by simp [state, hnode]
    simp only [Array.getElem_modify, Array.getElem_mapIdx]
    by_cases hin : n = i
    · subst hin
      simp [hstate]
    · simp [hin, Ne.symm hin, hstate]

end Tree

/-! ## Comparing two matches -/

section Compare

variable {t u : Tree} {mode mode' : MatchMode} {V : NodeId → Prop}

/-- If every node that a walk in `t` reaches from `V` stays in `V`, is also reached in `u`, and
satisfies there what it satisfies in `t`, then a match in `t` is a match in `u`. -/
theorem Tree.matchLeftward_mono
    (reach : ∀ m, V m → ∀ joint, ∀ k ∈ t.related m joint, V k ∧ k ∈ u.related m joint)
    {links : List (Combinator × Compound)}
    (sat : ∀ m, V m → ∀ link ∈ links,
      t.satisfiesAll mode m link.2 = true → u.satisfiesAll mode' m link.2 = true)
    {n : NodeId} (hn : V n) (h : t.matchLeftward mode links n = true) :
    u.matchLeftward mode' links n = true := by
  induction links generalizing n with
  | nil => rfl
  | cons link links ih =>
      obtain ⟨joint, c⟩ := link
      simp only [Tree.matchLeftward, List.any_eq_true, Bool.and_eq_true] at h ⊢
      obtain ⟨m, hm, hc, hmore⟩ := h
      obtain ⟨hVm, hmu⟩ := reach n hn joint m hm
      refine ⟨m, hmu, sat m hVm (joint, c) List.mem_cons_self hc, ?_⟩
      exact ih (fun k hk link hlink => sat k hk link (List.mem_cons_of_mem _ hlink)) hVm hmore

namespace Selector

theorem snd_mem_compounds_of_mem_leftward {s : Selector} {link : Combinator × Compound}
    (h : link ∈ s.leftward) : link.2 ∈ s.compounds := by
  rw [leftward, List.mem_reverse] at h
  exact (List.of_mem_zip h).2

theorem subject_mem_compounds (s : Selector) : s.subject ∈ s.compounds := by
  unfold subject compounds
  cases h : s.rest.getLast? with
  | none => simp
  | some link =>
      refine List.mem_cons_of_mem _ ?_
      exact List.mem_map_of_mem (List.mem_of_getLast? h)

theorem selects_mono {s : Selector}
    (reach : ∀ m, V m → ∀ joint, ∀ k ∈ t.related m joint, V k ∧ k ∈ u.related m joint)
    (sat : ∀ m, V m → ∀ c ∈ s.compounds,
      t.satisfiesAll mode m c = true → u.satisfiesAll mode' m c = true)
    {n : NodeId} (hn : V n) (h : s.selects t mode n = true) : s.selects u mode' n = true := by
  simp only [selects, Bool.and_eq_true] at h ⊢
  obtain ⟨⟨hs, hsubject⟩, hleft⟩ := h
  refine ⟨⟨hs, sat n hn _ s.subject_mem_compounds hsubject⟩, ?_⟩
  exact Tree.matchLeftward_mono reach
    (fun m hm link hlink => sat m hm _ (snd_mem_compounds_of_mem_leftward hlink)) hn hleft

/-- Trees that agree on what a walk from `n` can reach agree on whether `n` is selected. -/
theorem selects_congr {s : Selector}
    (closed : ∀ m, V m → ∀ joint, ∀ k ∈ t.related m joint, V k)
    (related : ∀ m, V m → ∀ joint, t.related m joint = u.related m joint)
    (sat : ∀ m, V m → ∀ c ∈ s.compounds, t.satisfiesAll mode m c = u.satisfiesAll mode' m c)
    {n : NodeId} (hn : V n) : s.selects t mode n = s.selects u mode' n := by
  rw [Bool.eq_iff_iff]
  constructor
  · refine selects_mono (fun m hm joint k hk => ⟨closed m hm joint k hk, ?_⟩)
      (fun m hm c hc h => (sat m hm c hc).symm.trans h) hn
    exact related m hm joint ▸ hk
  · refine selects_mono (fun m hm joint k hk => ?_)
      (fun m hm c hc h => (sat m hm c hc).trans h) hn
    rw [← related m hm joint] at hk
    exact ⟨closed m hm joint k hk, hk⟩

end Selector

end Compare

/-! ## Strict and loose matching -/

namespace Tree

theorem satisfies_loose_of_strict {t : Tree} {n : NodeId} {x : SimpleSelector}
    (h : t.satisfies .strict n x = true) : t.satisfies .loose n x = true := by
  cases x with
  | pseudo p => simp [satisfies]
  | _ => exact h

theorem satisfies_loose_eq_strict (t : Tree) (n : NodeId) {x : SimpleSelector}
    (h : ∀ p, x ≠ .pseudo p) : t.satisfies .loose n x = t.satisfies .strict n x := by
  cases x with
  | pseudo p => exact absurd rfl (h p)
  | _ => rfl

theorem satisfies_loose_withStates (t : Tree) (states : NodeId → PseudoSet) (n : NodeId)
    (x : SimpleSelector) :
    (t.withStates states).satisfies .loose n x = t.satisfies .loose n x := by
  cases x <;> simp [satisfies]

end Tree

namespace Selector

/-- What is selected with its pseudo-classes is selected without them. -/
theorem selects_loose_of_strict {s : Selector} {t : Tree} {n : NodeId}
    (h : s.selects t .strict n = true) : s.selects t .loose n = true := by
  refine selects_mono (V := fun _ => True) (fun _ _ _ k hk => ⟨trivial, hk⟩) ?_ trivial h
  intro m _ c _ hc
  simp only [Tree.satisfiesAll, List.all_eq_true] at hc ⊢
  exact fun x hx => Tree.satisfies_loose_of_strict (hc x hx)

/-- No compound of a selector without pseudo-classes asks for one. -/
theorem ne_pseudo_of_hasPseudoClasses_eq_false {s : Selector} (h : s.hasPseudoClasses = false)
    {c : Compound} (hc : c ∈ s.compounds) {x : SimpleSelector} (hx : x ∈ c.simples)
    (p : PseudoClass) : x ≠ .pseudo p := by
  rintro rfl
  -- The set of pseudo-classes is empty, and so is the list that it was made from.
  have hempty : c.pseudoClasses.isEmpty = true := by
    simpa using List.any_eq_false.mp h c hc
  have hnil := PseudoSet.isEmpty_ofList_iff.mp hempty
  exact absurd (List.filterMap_eq_nil_iff.mp hnil _ hx) (by simp)

/-- Without pseudo-classes the two modes are one. -/
theorem selects_loose_eq_strict {s : Selector} (h : s.hasPseudoClasses = false) (t : Tree)
    (n : NodeId) : s.selects t .loose n = s.selects t .strict n := by
  refine selects_congr (V := fun _ => True) (fun _ _ _ _ _ => trivial) (fun _ _ _ => rfl) ?_ trivial
  intro m _ c hc
  refine Bool.eq_iff_iff.mpr ?_
  simp only [Tree.satisfiesAll, List.all_eq_true]
  refine forall₂_congr fun x hx => ?_
  rw [Tree.satisfies_loose_eq_strict t m (ne_pseudo_of_hasPseudoClasses_eq_false h hc hx)]

/-- Loose matching does not look at states. -/
theorem selects_loose_withStates (s : Selector) (t : Tree) (states : NodeId → PseudoSet)
    (n : NodeId) : s.selects (t.withStates states) .loose n = s.selects t .loose n := by
  refine selects_congr (V := fun _ => True) (fun _ _ _ _ _ => trivial) ?_ ?_ trivial
  · intro m _ joint
    exact Tree.related_withStates t states m joint
  · intro m _ c _
    have hsame : (t.withStates states).satisfies .loose m = t.satisfies .loose m :=
      funext fun x => Tree.satisfies_loose_withStates t states m x
    rw [Tree.satisfiesAll, Tree.satisfiesAll, hsame]

end Selector

end WidgetStyle
