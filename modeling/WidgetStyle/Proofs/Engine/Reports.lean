import WidgetStyle.Proofs.Engine.Baselines

/-!
# WidgetStyle.Proofs.Engine.Reports — every change is reported once

A report of a node gives the requests from its baseline to its plain style.  Both are found from the
run without a look at what is kept, and this is what makes reports independent of other questions.
Questions can be put into a run at any place (`AddsQuestions`): as long as they are no reports of
the node and not the first to compute it, they leave its baseline alone, and every report of the
node stays the same.  And since a report makes the plain style the baseline, a second report finds
nothing before something has changed.

All three are said by `reports_exactly_once`.
-/

namespace WidgetStyle

/-- Whether an action changes nothing that styles are computed from: it is a question or a
notice. -/
def Action.isIdle : Action → Bool
  | .invalidate _ | .stateChanged _ | .invalidateAll => true
  | .computedStyle _ | .animations _ | .report _ => true
  | _ => false

namespace Session

/-! ## What plain styles are computed from -/

/-- The engine with nothing kept, and the tree. -/
def sources (s : Session) : Engine × Tree := (s.engine.bare, s.tree)

theorem tree_congr {s₀ s : Session} (h : s₀.sources = s.sources) : s₀.tree = s.tree :=
  (Prod.mk.inj h).2

theorem plainStyle_congr {s₀ s : Session} (h : s₀.sources = s.sources) :
    s₀.engine.plainStyle s₀.tree = s.engine.plainStyle s.tree := by
  obtain ⟨hbare, htree⟩ := Prod.mk.inj h
  rw [Engine.plainStyle_congr hbare, htree]

/-- Questions and notices change nothing that styles are computed from. -/
theorem sources_step_of_isIdle (s : Session) {a : Action} (ha : a.isIdle = true) :
    (s.step a).sources = s.sources := by
  refine Prod.ext ?_ ?_
  · cases a with
    | invalidate n => exact s.engine.bare_modifyKept n _
    | stateChanged n => exact s.engine.bare_modifyKept n _
    | invalidateAll => rfl
    | computedStyle n => exact s.engine.bare_refresh s.tree n
    | animations n => exact s.engine.bare_refresh s.tree n
    | report n => exact s.engine.bare_report s.tree n
    | _ => simp [Action.isIdle] at ha
  · cases a with
    | _ => first | rfl | simp [Action.isIdle] at ha

/-- What styles are computed from after an action depends on what they are computed from before. -/
theorem sources_step (s : Session) (a : Action) :
    (s.step a).sources = ((settled s.engine.bare s.tree).step a).sources := by
  by_cases ha : a.isIdle = true
  · rw [s.sources_step_of_isIdle ha, sources_step_of_isIdle _ ha]
    rfl
  · cases a with
    | clearInline n =>
        simp only [step, Engine.clearInline]
        show _ = sources { engine := if s.engine.inline.contains n then _ else _, tree := _ }
        split <;> rfl
    | removeGlobal name =>
        simp only [step, Engine.removeGlobal]
        show _ = sources { engine := if s.engine.globals.contains name then _ else _, tree := _ }
        split <;> rfl
    | _ => first | rfl | simp [Action.isIdle] at ha

theorem sources_step_congr {s₀ s : Session} (h : s₀.sources = s.sources) (a : Action) :
    (s₀.step a).sources = (s.step a).sources := by
  obtain ⟨hbare, htree⟩ := Prod.mk.inj h
  rw [sources_step s₀, sources_step s, hbare, htree]

/-- Baselines change alike where styles are computed from the same. -/
theorem after_congr {s₀ s : Session} (hsources : s₀.sources = s.sources) {base₀ base : Baselines}
    {n : NodeId} (hbase : base₀ n = base n) (a : Action) :
    base₀.after s₀ a n = base.after s a n := by
  have hask : ∀ x, base₀.ask s₀ x n = base.ask s x n := by
    intro x
    unfold Baselines.ask
    rw [tree_congr hsources, hbase]
    have hplain := congrFun (plainStyle_congr hsources) n
    rw [tree_congr hsources] at hplain
    rw [hplain]
  cases a with
  | computedStyle x => exact hask x
  | animations x => exact hask x
  | report x =>
      show (if n = x then some _ else _) = if n = x then some _ else _
      rw [plainStyle_congr hsources, hask x]
  | forget x =>
      show (if n = x then none else _) = if n = x then none else _
      rw [hbase]
  | _ => exact hbase

/-! ## Questions put in -/

/-- What an action gives as a report of `n`, if it is one. -/
def reportOf (n : NodeId) (s : Session) : Action → List (List TransitionRequest)
  | .report m => if m = n then [(s.engine.report s.tree m).2] else []
  | _ => []

/-- All reports of `n` in a run, in order. -/
def reportsOf (n : NodeId) : Session → List Action → List (List TransitionRequest)
  | _, [] => []
  | s, a :: actions => reportOf n s a ++ reportsOf n (s.step a) actions

/-- The second list is the first with questions put in, each of which is no report of `n` and
computes `n` only if there is a result of `n` already. -/
inductive AddsQuestions (n : NodeId) : Session → List Action → List Action → Prop
  | nil (s : Session) : AddsQuestions n s [] []
  | keep {s : Session} (a : Action) {actions more : List Action}
      (h : AddsQuestions n (s.step a) actions more) :
      AddsQuestions n s (a :: actions) (a :: more)
  | add {s : Session} {a : Action} {x : NodeId} {actions more : List Action}
      (question : a.queried? = some x) (other : ∀ m, a = .report m → m ≠ n)
      (computed : n ∈ s.tree.lineage x → (s.engine.kept.get? n).isSome)
      (h : AddsQuestions n (s.step a) actions more) : AddsQuestions n s actions (a :: more)

section Runs

variable {r : Registry} {c : EngineConfig} {s₀ s : Session} {base₀ base : Baselines} {n : NodeId}

/-- A baseline that there is already stays, but for a report or `forget`. -/
theorem Tracks.after_eq_of_question (h : Tracks r c s base) {a : Action} {x : NodeId}
    (question : a.queried? = some x) (other : ∀ m, a = .report m → m ≠ n)
    (computed : n ∈ s.tree.lineage x → (s.engine.kept.get? n).isSome) :
    base.after s a n = base n := by
  have hask : base.ask s x n = base n := by
    unfold Baselines.ask
    split
    · rename_i hn
      obtain ⟨k, hk⟩ := Option.isSome_iff_exists.mp (computed hn)
      rw [← h.reported n, hk]
      rfl
    · rfl
  cases a with
  | computedStyle m => cases question; exact hask
  | animations m => cases question; exact hask
  | report m =>
      cases question
      show (if n = x then some _ else base.ask s x n) = base n
      rw [if_neg (Ne.symm (other x rfl)), hask]
  | _ => simp [Action.queried?] at question

theorem reportOf_eq_nil {a : Action} (other : ∀ m, a = .report m → m ≠ n) :
    reportOf n s a = [] := by
  cases a with
  | report m => exact if_neg (other m rfl)
  | _ => rfl

/-- Where styles are computed from the same and baselines agree, an action gives the same report. -/
theorem Tracks.reportOf_congr (h₀ : Tracks r c s₀ base₀) (h : Tracks r c s base)
    (hsources : s₀.sources = s.sources) (hbase : base₀ n = base n) {a : Action}
    (hallows₀ : s₀.Allows a) (hallows : s.Allows a) (hu₀ : (s₀.step a).Unsaturated)
    (hu : (s.step a).Unsaturated) : reportOf n s₀ a = reportOf n s a := by
  cases a with
  | report m =>
      show (if m = n then [_] else []) = if m = n then [_] else []
      split
      · rename_i hm
        subst hm
        rw [h₀.report_snd hallows₀ hu₀, h.report_snd hallows hu, hbase, plainStyle_congr hsources]
      · rfl
  | _ => rfl

/-- **Questions that are put in change no report.** -/
theorem Tracks.reportsOf_eq (h₀ : Tracks r c s₀ base₀) (h : Tracks r c s base)
    (hsources : s₀.sources = s.sources) (hbase : base₀ n = base n) {actions more : List Action}
    (adds : AddsQuestions n s actions more) (hfollows₀ : s₀.Follows actions)
    (hfollows : s.Follows more) : reportsOf n s₀ actions = reportsOf n s more := by
  induction adds generalizing s₀ base₀ base with
  | nil => rfl
  | keep a adds ih =>
      obtain ⟨hallows₀, hu₀, hmore₀⟩ := hfollows₀
      obtain ⟨hallows, hu, hmore⟩ := hfollows
      have hhead := h₀.reportOf_congr h hsources hbase hallows₀ hallows hu₀ hu
      have htail := ih (h₀.step hallows₀ hu₀) (h.step hallows hu)
        (sources_step_congr hsources a)
        (after_congr hsources hbase a) hmore₀ hmore
      rw [reportsOf, reportsOf, hhead, htail]
  | @add s a x actions more question other computed adds ih =>
      -- Only the run with the question moves on; its sources and the baseline stay.
      obtain ⟨hallows, hu, hmore⟩ := hfollows
      have hidle : a.isIdle = true := by
        cases a with
        | _ => first | rfl | simp [Action.queried?] at question
      have hstay := h.after_eq_of_question question other computed
      rw [reportsOf, reportOf_eq_nil other, List.nil_append]
      exact ih h₀ (h.step hallows hu)
        (hsources.trans (s.sources_step_of_isIdle hidle).symm)
        (hbase.trans hstay.symm) hfollows₀ hmore

/-! ## Reports with nothing to say -/

/-- A baseline that is the plain style stays so while nothing changes. -/
theorem after_eq_of_isIdle (hbase : base n = some (s.engine.plainStyle s.tree n)) {a : Action}
    (ha : a.isIdle = true) : base.after s a n = some (s.engine.plainStyle s.tree n) := by
  have hask : ∀ x, base.ask s x n = some (s.engine.plainStyle s.tree n) := by
    intro x
    unfold Baselines.ask
    split
    · rw [hbase]
      rfl
    · exact hbase
  cases a with
  | computedStyle x => exact hask x
  | animations x => exact hask x
  | report x =>
      show (if n = x then some _ else base.ask s x n) = _
      rw [hask x]
      split <;> rfl
  | invalidate x => exact hbase
  | stateChanged x => exact hbase
  | invalidateAll => exact hbase
  | _ => simp [Action.isIdle] at ha

/-- **While nothing changes, nothing is reported** of a node whose baseline is its plain style. -/
theorem Tracks.report_eq_nil (h : Tracks r c s base)
    (hbase : base n = some (s.engine.plainStyle s.tree n)) {idle : List Action}
    (hidle : ∀ a ∈ idle, a.isIdle = true) (hfollows : s.Follows (idle ++ [.report n])) :
    ((s.run idle).engine.report (s.run idle).tree n).2 = [] := by
  induction idle generalizing s base with
  | nil =>
      obtain ⟨hallows, hu, -⟩ := hfollows
      show (s.engine.report s.tree n).2 = []
      rw [h.report_snd hallows hu, hbase]
      unfold requestsSince
      simp [ComputedStyle.requests_self]
  | cons a idle ih =>
      obtain ⟨hallows, hu, hmore⟩ := hfollows
      have ha := hidle a List.mem_cons_self
      have hsources := s.sources_step_of_isIdle ha
      refine ih (h.step hallows hu) ?_ (fun b hb => hidle b (List.mem_cons_of_mem a hb)) hmore
      rw [after_eq_of_isIdle hbase ha, plainStyle_congr hsources]

end Runs

/-! ## Exactly once -/

/-- **Every change is reported exactly once.**  Take any run that ends with a report of `n`.

The report gives, in the order of registration, the requests of the properties that differ between
the baseline of `n` and its plain style (`ComputedStyle.request?_eq_some_iff`), and none when there
is no baseline or transitions are off.  Questions that are put into the run, and that are neither
reports of a node `m` nor the first to compute it, change no report of `m`.  And a second report
of `n` gives nothing when only questions and notices came in between. -/
theorem reports_exactly_once {registry : Registry} {config : EngineConfig} {t : Tree}
    (ht : t.IsForest) {actions : List Action} {n : NodeId}
    (h : (start registry config t).Follows (actions ++ [.report n])) :
    let s₀ := start registry config t
    let s := s₀.run actions
    (s.engine.report s.tree n).2 =
        requestsSince registry config (s₀.baselines (fun _ => none) actions n)
          (s.engine.plainStyle s.tree n) ∧
      (∀ m more, AddsQuestions m s₀ (actions ++ [.report n]) more → s₀.Follows more →
        reportsOf m s₀ more = reportsOf m s₀ (actions ++ [.report n])) ∧
      ∀ idle : List Action, (∀ a ∈ idle, a.isIdle = true) →
        s₀.Follows ((actions ++ [.report n]) ++ (idle ++ [.report n])) →
        let s' := s₀.run ((actions ++ [.report n]) ++ idle)
        (s'.engine.report s'.tree n).2 = [] := by
  intro s₀ s
  have hstart := tracks_start registry config ht
  obtain ⟨hactions, hallows, hu, -⟩ := follows_append.mp h
  have hs : Tracks registry config s (s₀.baselines (fun _ => none) actions) := hstart.run hactions
  refine ⟨hs.report_snd hallows hu, ?_, ?_⟩
  · intro m more adds hmore
    exact (hstart.reportsOf_eq hstart rfl rfl adds h hmore).symm
  · intro idle hidle hfollows
    -- The first report makes the plain style the baseline, and nothing changes either after it.
    have hrun : s₀.run (actions ++ [.report n]) = s.step (.report n) := by
      rw [run_append]
      rfl
    intro s'
    have hs' : s' = (s.step (.report n)).run idle := by
      show s₀.run ((actions ++ [.report n]) ++ idle) = _
      rw [run_append, hrun]
    obtain ⟨-, hidleFollows⟩ := follows_append.mp hfollows
    rw [hrun] at hidleFollows
    rw [hs']
    have hnext := hs.step hallows hu
    refine hnext.report_eq_nil ?_ hidle hidleFollows
    rw [plainStyle_congr (s.sources_step_of_isIdle (a := .report n) rfl)]
    exact if_pos rfl

/-- The statement for a node that gets an inline style with a transition: with a question about its
animations put in before the report, and with a notice before it is reported again. -/
theorem reports_exactly_once_inline :
    let registry := Registry.empty.register "color" "black" true
    let red : InlineStyle := ⟨{ declarations :=
      [⟨"color", some (.ofName "color"), "red", .inline, false⟩,
        ⟨"transition", none, "all 1s", .inline, false⟩] }⟩
    let actions : List Action := [.computedStyle 0, .setInline 0 red]
    let more : List Action := [.computedStyle 0, .setInline 0 red, .animations 0, .report 0]
    let s₀ := start registry {} (Tree.empty.addRoot "a")
    let s := s₀.run actions
    let s' := s₀.run ((actions ++ [.report 0]) ++ [.invalidate 0])
    (Tree.empty.addRoot "a").IsForest ∧ s₀.Follows (actions ++ [.report 0]) ∧
      (s.engine.report s.tree 0).2 =
        requestsSince registry {} (s₀.baselines (fun _ => none) actions 0)
          (s.engine.plainStyle s.tree 0) ∧
      reportsOf 0 s₀ more = reportsOf 0 s₀ (actions ++ [.report 0]) ∧
      (s'.engine.report s'.tree 0).2 = [] := by
  intro registry red actions more s₀ s s'
  have ht : (Tree.empty.addRoot "a").IsForest := Tree.isForest_empty.addRoot "a"
  have hasked : (s₀.step (.computedStyle 0)).Unsaturated := by decide +kernel
  have hset : s.Unsaturated := by decide +kernel
  have hanimated : (s.step (.animations 0)).Unsaturated := by decide +kernel
  have hreported : (s.step (.report 0)).Unsaturated := by decide +kernel
  have hnoticed : s'.Unsaturated := by decide +kernel
  have hreport : s₀.Follows (actions ++ [.report 0]) :=
    ⟨⟨rfl, by decide⟩, hasked, trivial, hset, ⟨rfl, by decide +kernel⟩, hreported, trivial⟩
  have hmore : s₀.Follows more :=
    ⟨⟨rfl, by decide⟩, hasked, trivial, hset, ⟨rfl, by decide +kernel⟩, hanimated,
      ⟨rfl, by decide +kernel⟩, hanimated.of_question rfl (by decide +kernel), trivial⟩
  have hagain : s₀.Follows ((actions ++ [.report 0]) ++ ([.invalidate 0] ++ [.report 0])) :=
    ⟨⟨rfl, by decide⟩, hasked, trivial, hset, ⟨rfl, by decide +kernel⟩, hreported, trivial,
      hnoticed, ⟨rfl, by decide +kernel⟩, hnoticed.of_question rfl (by decide +kernel), trivial⟩
  have hadds : AddsQuestions 0 s₀ (actions ++ [.report 0]) more := by
    refine .keep _ (.keep _ (.add rfl ?_ ?_ (.keep _ (.nil _))))
    · intro m hm
      cases hm
    · intro _
      decide +kernel
  obtain ⟨hfirst, hput, hsecond⟩ := reports_exactly_once ht hreport
  exact ⟨ht, hreport, hfirst, hput 0 more hadds hmore, hsecond [.invalidate 0] (by decide) hagain⟩

end Session

end WidgetStyle
