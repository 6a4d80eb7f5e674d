import WidgetStyle.Proofs.Engine.Refresh

/-!
# WidgetStyle.Proofs.Engine.Answers — answers are plain styles

`refresh` works from the root downwards and leaves every result on the way current
(`Refreshed`).  A current result of a current lineage is the plain style of its node
(`Coherent.style_eq`).  Since every action keeps the invariant (`Coherent.step`), every answer of
every run is the plain style at that moment: keeping results cannot be told from computing them anew
(`computedStyle_eq_plainStyle`).
-/

namespace WidgetStyle

namespace Engine

variable {t : Tree} (e : Engine) {n p : NodeId}

theorem refresh_of_root (hp : t.parent? n = none) : e.refresh t n = refreshNode t e n := by
  rw [refresh, Tree.pathFromRoot_eq, Tree.lineage_of_root hp]
  rfl

theorem refresh_of_parent (ht : t.IsForest) (hp : t.parent? n = some p) :
    e.refresh t n = refreshNode t (e.refresh t p) n := by
  rw [refresh, refresh, Tree.pathFromRoot_eq, Tree.pathFromRoot_eq, ht.lineage_of_parent hp,
    List.reverse_cons, List.foldl_append]
  rfl

theorem bare_refresh (t : Tree) (n : NodeId) : (e.refresh t n).bare = e.bare := by
  unfold refresh
  refine List.foldlRecOn (motive := fun e' : Engine => e'.bare = e.bare) _ _ rfl ?_
  exact fun e' he' m _ => (bare_refreshNode t e' m).trans he'

/-- A question takes at most two numbers for each node on the way. -/
theorem generation_refresh_le (t : Tree) (n : NodeId) :
    (e.refresh t n).generation ≤ e.generation + 2 * (t.pathFromRoot n).length := by
  unfold refresh
  induction t.pathFromRoot n generalizing e with
  | nil => exact Nat.le_refl _
  | cons m path ih =>
      have hstep := generation_refreshNode_le t e m
      have hrest := ih (refreshNode t e m)
      rw [List.foldl_cons, List.length_cons]
      omega

/-- The engine after a report is the one that is up to date, with the style of the node as its
report. -/
theorem report_fst (t : Tree) (n : NodeId) :
    (e.report t n).1 =
      (e.refresh t n).modifyKept n fun kept => { kept with reported := kept.style } := by
  unfold report modifyKept
  simp only
  cases (e.refresh t n).kept.get? n <;> rfl

theorem bare_report (t : Tree) (n : NodeId) : (e.report t n).1.bare = e.bare := by
  rw [report_fst, bare_modifyKept, bare_refresh]

theorem generation_report (t : Tree) (n : NodeId) :
    (e.report t n).1.generation = (e.refresh t n).generation := by
  rw [report_fst, modifyKept_eq]

end Engine

namespace Session

variable {e : Engine} {t : Tree} {n : NodeId}

/-! ## Bringing a lineage up to date -/

/-- What bringing a node up to date does: its whole lineage is current; reports there stay, or are
the first style; everything else is what it was. -/
structure Refreshed (t : Tree) (e e' : Engine) (n : NodeId) : Prop where
  coherent : (settled e' t).Coherent
  current : ∀ m ∈ t.lineage n, e'.IsCurrent t m
  bare : e'.bare = e.bare
  others : ∀ m, m ∉ t.lineage n → e'.kept.get? m = e.kept.get? m
  reported : ∀ m ∈ t.lineage n, ∀ k', e'.kept.get? m = some k' →
    k'.reported = ((e.kept.get? m).map KeptStyle.reported).getD k'.style

/-- Once the ancestors are up to date, one more node makes the lineage so. -/
theorem Refreshed.refreshNode {e₁ : Engine} (ht : t.IsForest) (hn : n < t.size)
    (coherent : (settled e₁ t).Coherent) (above : ∀ m ∈ t.ancestors n, e₁.IsCurrent t m)
    (bare : e₁.bare = e.bare)
    (others : ∀ m, m ∉ t.ancestors n → e₁.kept.get? m = e.kept.get? m)
    (reported : ∀ m ∈ t.ancestors n, ∀ k', e₁.kept.get? m = some k' →
      k'.reported = ((e.kept.get? m).map KeptStyle.reported).getD k'.style)
    (hlimit : (Engine.refreshNode t e₁ n).generation < counterLimit) :
    Refreshed t e (Engine.refreshNode t e₁ n) n := by
  have hnode := Engine.nodeRefreshed_refreshNode ht e₁ n
  have hne : ∀ m ∈ t.ancestors n, m ≠ n := fun m hm heq => ht.not_mem_ancestors n (heq ▸ hm)
  constructor
  case coherent => exact coherent.refreshNode hn above hlimit
  case current =>
    intro m hm
    rcases List.mem_cons.mp hm with rfl | hm
    · exact hnode.current
    · refine (above m hm).congr (Engine.bare_refreshNode t e₁ n) (hnode.others m (hne m hm)) ?_
      unfold Engine.keptParent?
      cases hp : t.parent? m with
      | none => rfl
      | some p => exact hnode.others p (hne p (ht.parent_mem_ancestors hm hp))
  case bare => exact (Engine.bare_refreshNode t e₁ n).trans bare
  case others =>
    intro m hm
    rw [Tree.lineage, List.mem_cons, not_or] at hm
    exact (hnode.others m hm.1).trans (others m hm.2)
  case reported =>
    intro m hm k' hk'
    rcases List.mem_cons.mp hm with rfl | hm
    · rw [hnode.reported k' hk', others m (ht.not_mem_ancestors m)]
    · rw [hnode.others m (hne m hm)] at hk'
      exact reported m hm k' hk'

/-- **Bringing a node up to date** brings its lineage up to date and disturbs nothing else. -/
theorem Coherent.refresh (h : (settled e t).Coherent) (hn : n < t.size)
    (hlimit : (e.refresh t n).generation < counterLimit) : Refreshed t e (e.refresh t n) n := by
  have ht : t.IsForest := h.forest
  induction n using ht.induction with
  | root n hp =>
      rw [e.refresh_of_root hp] at hlimit ⊢
      have hnone := Tree.ancestors_of_root hp
      refine Refreshed.refreshNode ht hn h ?_ rfl (fun _ _ => rfl) ?_ hlimit
      · simp [hnone]
      · simp [hnone]
  | child n p hp ih =>
      rw [e.refresh_of_parent ht hp] at hlimit ⊢
      have hle := Engine.generation_le_refreshNode hlimit
      have hparent := ih (ht.parent_lt n p hp) (by omega)
      have hancestors : t.ancestors n = t.lineage p := ht.ancestors_of_parent hp
      refine Refreshed.refreshNode ht hn hparent.coherent ?_ hparent.bare ?_ ?_ hlimit
      · rw [hancestors]
        exact hparent.current
      · rw [hancestors]
        exact hparent.others
      · rw [hancestors]
        exact hparent.reported

/-! ## Current results are plain styles -/

/-- A current result on a current lineage is computed from the kept style of the parent and what is
in use now. -/
theorem Coherent.style_of_current (h : (settled e t).Coherent)
    (current : ∀ m ∈ t.lineage n, e.IsCurrent t m) {k : KeptStyle}
    (hk : e.kept.get? n = some k) :
    k.style = e.styleBelow t n ((e.keptParent? t n).map KeptStyle.style) := by
  obtain ⟨used, hused, hstyle⟩ := h.style n k hk
  have hline : (settled e t).StyleLine n := fun m hm =>
    ⟨⟨List.not_mem_nil, List.not_mem_nil⟩, (current m hm).holdsStyle⟩
  obtain ⟨k', hk', -, -, hbasis⟩ := current n (t.mem_lineage_self n)
  obtain rfl : k' = k := Option.some.inj (hk'.symm.trans hk)
  have hinline : used = e.inline? n := hused.2 (by rw [hbasis]; rfl)
  rw [hstyle hline, hinline]
  rfl

/-- A current result on a current lineage is the plain style of its node. -/
theorem Coherent.style_eq (h : (settled e t).Coherent)
    (current : ∀ m ∈ t.lineage n, e.IsCurrent t m) {k : KeptStyle}
    (hk : e.kept.get? n = some k) : k.style = e.plainStyle t n := by
  have ht : t.IsForest := h.forest
  induction n using ht.induction generalizing k with
  | root n hp =>
      have hparent : e.keptParent? t n = none := by rw [Engine.keptParent?, hp]; rfl
      rw [h.style_of_current current hk, hparent, e.plainStyle_of_root hp]
      rfl
  | child n p hp ih =>
      -- The parent's lineage is part of the node's, so its result is a plain style already.
      have hlineage : ∀ m ∈ t.lineage p, m ∈ t.lineage n := fun m hm =>
        (ht.mem_lineage_of_parent hp).mpr (Or.inr hm)
      obtain ⟨kp, hkp, -⟩ := current p (hlineage p (t.mem_lineage_self p))
      have hparent : e.keptParent? t n = some kp := by rw [Engine.keptParent?, hp]; exact hkp
      have hstyle : kp.style = e.plainStyle t p := ih (fun m hm => current m (hlineage m hm)) hkp
      rw [h.style_of_current current hk, hparent, e.plainStyle_of_parent ht hp, Option.map_some,
        hstyle]

/-- What bringing a node up to date leaves for a node of its lineage. -/
theorem Refreshed.kept_eq {e' : Engine} (h : Refreshed t e e' n) {m : NodeId}
    (hm : m ∈ t.lineage n) :
    ∃ k, e'.kept.get? m = some k ∧ k.style = e.plainStyle t m ∧
      k.reported = ((e.kept.get? m).map KeptStyle.reported).getD (e.plainStyle t m) := by
  have ht : t.IsForest := h.coherent.forest
  obtain ⟨k, hk, -⟩ := h.current m hm
  have hstyle : k.style = e.plainStyle t m := by
    rw [h.coherent.style_eq (fun x hx => h.current x (ht.lineage_subset hm hx)) hk,
      Engine.plainStyle_congr h.bare]
  refine ⟨k, hk, hstyle, ?_⟩
  rw [h.reported m hm k hk, hstyle]

/-! ## Every action keeps the invariant -/

/-- Taking note of a report leaves a result as it is. -/
theorem Coherent.noteReport (h : (settled e t).Coherent) (n : NodeId) :
    (settled (e.modifyKept n fun kept => { kept with reported := kept.style }) t).Coherent := by
  refine h.modifyKept (s := settled e t) ?_ (fun _ hdue => Or.inl hdue) fun _ hdue => Or.inl hdue
  exact fun k => ⟨rfl, rfl, rfl, rfl, rfl, rfl, id, id⟩

/-- A question that the host may ask brings its node up to date, and makes no other difference than
that a report is noted. -/
theorem Coherent.refreshed {s : Session} (h : s.Coherent) {a : Action} {n : NodeId}
    (ha : a.queried? = some n) (hallows : s.Allows a) (hu : (s.step a).Unsaturated) :
    Refreshed s.tree s.engine (s.engine.refresh s.tree n) n := by
  obtain ⟨hdue, hn⟩ := hallows.of_queried ha
  obtain ⟨e, t, due⟩ := s
  obtain rfl : due = [] := hdue
  refine Coherent.refresh h hn ?_
  cases a with
  | computedStyle m => cases ha; exact hu.generation
  | animations m => cases ha; exact hu.generation
  | report m =>
      cases ha
      rw [← e.generation_report]
      exact hu.generation
  | _ => simp [Action.queried?] at ha

/-- A question leaves the counters as they are, except for the numbers it takes. -/
theorem Unsaturated.of_question {s : Session} (h : s.Unsaturated) {a : Action} {n : NodeId}
    (ha : a.queried? = some n)
    (hlt : s.engine.generation + 2 * (s.tree.pathFromRoot n).length < counterLimit) :
    (s.step a).Unsaturated := by
  have hle := s.engine.generation_refresh_le s.tree n
  have hquestion : (s.step a).engine.bare = s.engine.bare ∧
      (s.step a).engine.generation = (s.engine.refresh s.tree n).generation := by
    cases a with
    | computedStyle m => cases ha; exact ⟨s.engine.bare_refresh s.tree n, rfl⟩
    | animations m => cases ha; exact ⟨s.engine.bare_refresh s.tree n, rfl⟩
    | report m =>
        cases ha
        exact ⟨s.engine.bare_report s.tree n, s.engine.generation_report s.tree n⟩
    | _ => simp [Action.queried?] at ha
  obtain ⟨hbare, hgeneration⟩ := hquestion
  obtain ⟨-, -, hsheet, hexchanges, -, hglobals, -, hinline⟩ := Engine.bare_eq_bare_iff.mp hbare
  constructor
  case exchanges => rw [hexchanges]; exact h.exchanges
  case version => rw [hsheet]; exact h.version
  case globals => rw [hglobals]; exact h.globals
  case inline => rw [hinline]; exact h.inline
  case generation => omega

/-- **Every action keeps the invariant.** -/
theorem Coherent.step {s : Session} (h : s.Coherent) {a : Action} (hallows : s.Allows a)
    (hu : (s.step a).Unsaturated) : (s.step a).Coherent := by
  cases ha : a.queried? with
  | none => exact h.step_of_queried?_eq_none ha hallows hu
  | some n =>
      have hrefreshed := (h.refreshed ha hallows hu).coherent
      obtain ⟨hdue, -⟩ := hallows.of_queried ha
      obtain ⟨e, t, due⟩ := s
      obtain rfl : due = [] := hdue
      cases a with
      | computedStyle m => cases ha; exact hrefreshed
      | animations m => cases ha; exact hrefreshed
      | report m =>
          cases ha
          show (settled (e.report t n).1 t).Coherent
          rw [e.report_fst]
          exact hrefreshed.noteReport n
      | _ => simp [Action.queried?] at ha

/-- Every run from the start keeps the invariant. -/
theorem coherent_run {registry : Registry} {config : EngineConfig} {t : Tree} (ht : t.IsForest)
    {actions : List Action} (h : (start registry config t).Follows actions) :
    ((start registry config t).run actions).Coherent :=
  h.invariant (fun _ _ hs hallows hu => hs.step hallows hu) (coherent_start registry config ht)

/-- **Keeping results cannot be told from computing them anew.**  Let an engine start beside a
forest, and let its host do what it likes: exchange and change the sheet, inline styles and global
variables, change the tree, forget nodes, and ask, as long as it gives the notices that it owes
before it asks.  Every style that it is told is the plain style at that moment: the one computed
from the plain style of the parent, the rules that select the node, its inline style, and the global
variables. -/
theorem computedStyle_eq_plainStyle {registry : Registry} {config : EngineConfig} {t : Tree}
    (ht : t.IsForest) {actions : List Action} {n : NodeId}
    (h : (start registry config t).Follows (actions ++ [.computedStyle n])) :
    let s := (start registry config t).run actions
    (s.step (.computedStyle n)).engine.keptStyle? n = some (s.engine.plainStyle s.tree n) ∧
      ∀ m, s.engine.plainStyle s.tree m =
        (s.engine.context ((s.tree.parent? m).map (s.engine.plainStyle s.tree))).compute
          (cascade (s.engine.rulesFor s.tree .strict m) (s.engine.inline? m)) := by
  intro s
  obtain ⟨hactions, hallows, hu, -⟩ := follows_append.mp h
  have hs : s.Coherent := coherent_run ht hactions
  refine ⟨?_, s.engine.plainStyle_eq hs.forest⟩
  obtain ⟨k, hk, hstyle, -⟩ :=
    (hs.refreshed rfl hallows hu).kept_eq (s.tree.mem_lineage_self n)
  show ((s.engine.refresh s.tree n).kept.get? n).map KeptStyle.style = _
  rw [hk, Option.map_some, hstyle]

/-- The statement for a child that is asked about before and after it is hovered over. -/
theorem computedStyle_eq_plainStyle_hovered :
    let t := (Tree.empty.addRoot "a").addChild 0 "b"
    let registry := Registry.empty.register "color" "black" true
    let rule : StyleRule := ⟨⟨⟨[.hasTag "b", .pseudo .hover]⟩, [], "b:hover"⟩,
      { declarations := [⟨"color", some (.ofName "color"), "red", .zero, false⟩] }, 0, 0⟩
    let actions : List Action := [.editSheet (.append rule), .computedStyle 1,
      .edit (.setState 1 .hover true), .stateChanged 1]
    let s := (start registry {} t).run actions
    t.IsForest ∧ (start registry {} t).Follows (actions ++ [.computedStyle 1]) ∧
      (s.step (.computedStyle 1)).engine.keptStyle? 1 = some (s.engine.plainStyle s.tree 1) := by
  intro t registry rule actions s
  have ht : t.IsForest := (Tree.isForest_empty.addRoot "a").addChild (by decide) (by decide) "b"
  have hfollows : (start registry {} t).Follows (actions ++ [.computedStyle 1]) := by
    refine ⟨trivial, by decide +kernel, ⟨rfl, by decide +kernel⟩, by decide +kernel, ?_,
      by decide +kernel, trivial, by decide +kernel, ⟨by decide +kernel, by decide +kernel⟩,
      by decide +kernel, trivial⟩
    exact ht.modify 1 (fun _ => rfl) fun _ => rfl
  exact ⟨ht, hfollows, (computedStyle_eq_plainStyle ht hfollows).1⟩

end Session

end WidgetStyle
