import WidgetStyle.Proofs.Cascade.Requests
import WidgetStyle.Proofs.Engine.Answers

/-!
# WidgetStyle.Proofs.Engine.Baselines — what reports compare with

A report compares the style of a node with that of its last report or, if there was none, with the
style that the first question about the node or something below it found.  Both are plain styles, so
the baseline of every node can be told from the run alone (`Session.baselines`), without a look at
what the engine keeps.

The engine's record agrees with it throughout every run (`Tracks`).  What is reported is then the
requests from the baseline to the plain style of the moment (`Tracks.report_snd`).
-/

namespace WidgetStyle

/-- For each node the style that its next report compares with; none before the first question. -/
abbrev Baselines := NodeId → Option ComputedStyle

namespace Baselines

/-- A question about `x` settles the baselines of its lineage where there are none. -/
def ask (base : Baselines) (s : Session) (x : NodeId) : Baselines := fun m =>
  if m ∈ s.tree.lineage x then some ((base m).getD (s.engine.plainStyle s.tree m)) else base m

/-- The baselines after an action. -/
def after (base : Baselines) (s : Session) : Action → Baselines
  | .computedStyle x | .animations x => base.ask s x
  | .report x => fun m =>
    if m = x then some (s.engine.plainStyle s.tree m) else base.ask s x m
  | .forget x => fun m => if m = x then none else base m
  | _ => base

end Baselines

namespace Session

/-- The baselines after a run. -/
def baselines : Session → Baselines → List Action → Baselines
  | _, base, [] => base
  | s, base, a :: actions => (s.step a).baselines (base.after s a) actions

/-! ## The engine's record -/

/-- The invariant together with the baselines: what the engine has recorded as reported are the
baselines, and these have values for all properties. -/
structure Tracks (r : Registry) (c : EngineConfig) (s : Session) (base : Baselines) : Prop where
  coherent : s.Coherent
  registry : s.engine.registry = r
  config : s.engine.config = c
  reported : ∀ n, (s.engine.kept.get? n).map KeptStyle.reported = base n
  values : ∀ n style, base n = some style → style.HasValues r

theorem tracks_start (registry : Registry) (config : EngineConfig) {t : Tree} (ht : t.IsForest) :
    Tracks registry config (start registry config t) fun _ => none where
  coherent := coherent_start registry config ht
  registry := rfl
  config := rfl
  reported := fun _ => rfl
  values := fun _ _ h => absurd h (by simp)

variable {registry : Registry} {config : EngineConfig} {s : Session} {base : Baselines}

theorem hasValues_plainStyle (e : Engine) (t : Tree) (n : NodeId) :
    (e.plainStyle t n).HasValues e.registry :=
  ComputedStyle.hasValues_compute _ _

/-- Records are not touched by changes of results that leave reports alone. -/
theorem reported_modifyKept (e : Engine) (x : NodeId) {f : KeptStyle → KeptStyle}
    (hf : ∀ k, (f k).reported = k.reported) (n : NodeId) :
    ((e.modifyKept x f).kept.get? n).map KeptStyle.reported =
      (e.kept.get? n).map KeptStyle.reported := by
  rw [Engine.get?_modifyKept]
  split
  · cases e.kept.get? n with
    | none => rfl
    | some k => exact congrArg some (hf k)
  · rfl

/-- A question leaves records as it leaves baselines. -/
theorem Refreshed.reported_eq {t : Tree} {e e' : Engine} {x : NodeId} (h : Refreshed t e e' x)
    (n : NodeId) :
    (e'.kept.get? n).map KeptStyle.reported =
      if n ∈ t.lineage x then
        some (((e.kept.get? n).map KeptStyle.reported).getD (e.plainStyle t n))
      else (e.kept.get? n).map KeptStyle.reported := by
  by_cases hn : n ∈ t.lineage x
  · obtain ⟨k, hk, -, hreported⟩ := h.kept_eq hn
    rw [if_pos hn, hk, Option.map_some, hreported]
  · rw [if_neg hn, h.others n hn]

/-- Registry and configuration never change. -/
theorem registry_config_step (s : Session) (a : Action) :
    (s.step a).engine.registry = s.engine.registry ∧
      (s.step a).engine.config = s.engine.config := by
  have ofBare : ∀ e : Engine, e.bare = s.engine.bare →
      e.registry = s.engine.registry ∧ e.config = s.engine.config := by
    intro e he
    obtain ⟨hregistry, hconfig, -⟩ := Engine.bare_eq_bare_iff.mp he
    exact ⟨hregistry, hconfig⟩
  cases a with
  | clearInline n =>
      simp only [step, Engine.clearInline]
      split <;> exact ⟨rfl, rfl⟩
  | removeGlobal name =>
      simp only [step, Engine.removeGlobal]
      split <;> exact ⟨rfl, rfl⟩
  | invalidate n => exact ofBare _ (s.engine.bare_modifyKept n _)
  | stateChanged n => exact ofBare _ (s.engine.bare_modifyKept n _)
  | computedStyle n => exact ofBare _ (s.engine.bare_refresh s.tree n)
  | animations n => exact ofBare _ (s.engine.bare_refresh s.tree n)
  | report n => exact ofBare _ (s.engine.bare_report s.tree n)
  | _ => exact ⟨rfl, rfl⟩

/-- Records change as baselines do. -/
theorem reported_step (h : s.Coherent)
    (hbase : ∀ n, (s.engine.kept.get? n).map KeptStyle.reported = base n) {a : Action}
    (hallows : s.Allows a) (hu : (s.step a).Unsaturated) (n : NodeId) :
    ((s.step a).engine.kept.get? n).map KeptStyle.reported = base.after s a n := by
  have question : ∀ x, a.queried? = some x →
      ((s.engine.refresh s.tree x).kept.get? n).map KeptStyle.reported = base.ask s x n := by
    intro x ha
    rw [(h.refreshed ha hallows hu).reported_eq n, hbase n]
    rfl
  cases a with
  | clearInline x =>
      simp only [step, Engine.clearInline]
      split <;> exact hbase n
  | removeGlobal name =>
      simp only [step, Engine.removeGlobal]
      split <;> exact hbase n
  | invalidate x =>
      refine (reported_modifyKept s.engine x ?_ n).trans (hbase n)
      exact fun _ => rfl
  | stateChanged x =>
      refine (reported_modifyKept s.engine x (fun k => ?_) n).trans (hbase n)
      split <;> rfl
  | invalidateAll =>
      show (s.engine.invalidateAll.kept.get? n).map KeptStyle.reported = base n
      rw [Engine.invalidateAll, Assoc.get?_mapValues, Option.map_map, ← hbase n]
      rfl
  | forget x =>
      show ((s.engine.kept.erase x).get? n).map KeptStyle.reported = if n = x then none else base n
      split
      · rename_i hn
        rw [hn, Assoc.get?_erase_self]
        rfl
      · rename_i hn
        rw [Assoc.get?_erase_of_ne _ hn, hbase n]
  | computedStyle x => exact question x rfl
  | animations x => exact question x rfl
  | report x =>
      show ((s.engine.report s.tree x).1.kept.get? n).map KeptStyle.reported =
        if n = x then some (s.engine.plainStyle s.tree n) else base.ask s x n
      rw [Engine.report_fst, Engine.get?_modifyKept]
      split
      · rename_i hn
        subst hn
        obtain ⟨k, hk, hstyle, -⟩ :=
          (h.refreshed rfl hallows hu).kept_eq (s.tree.mem_lineage_self n)
        rw [hk]
        exact congrArg some hstyle
      · exact question x rfl
  | _ => exact hbase n

/-- **The engine's record and the baselines agree** after every action. -/
theorem Tracks.step (h : Tracks registry config s base) {a : Action} (hallows : s.Allows a)
    (hu : (s.step a).Unsaturated) : Tracks registry config (s.step a) (base.after s a) := by
  obtain ⟨hregistry, hconfig⟩ := registry_config_step s a
  have hplain : ∀ n, (s.engine.plainStyle s.tree n).HasValues registry := fun n =>
    h.registry ▸ hasValues_plainStyle s.engine s.tree n
  have hask : ∀ x n style, base.ask s x n = some style → style.HasValues registry := by
    intro x n style hstyle
    unfold Baselines.ask at hstyle
    split at hstyle
    · obtain rfl := Option.some.inj hstyle
      cases hn : base n with
      | none => exact hplain n
      | some old => exact h.values n old hn
    · exact h.values n style hstyle
  refine ⟨h.coherent.step hallows hu, hregistry.trans h.registry, hconfig.trans h.config,
    reported_step h.coherent h.reported hallows hu, ?_⟩
  intro n style hstyle
  cases a with
  | computedStyle x => exact hask x n style hstyle
  | animations x => exact hask x n style hstyle
  | report x =>
      simp only [Baselines.after] at hstyle
      split at hstyle
      · exact Option.some.inj hstyle ▸ hplain n
      · exact hask x n style hstyle
  | forget x =>
      simp only [Baselines.after] at hstyle
      split at hstyle
      · exact absurd hstyle (by simp)
      · exact h.values n style hstyle
  | _ => exact h.values n style hstyle

theorem Tracks.run (h : Tracks registry config s base) {actions : List Action}
    (hfollows : s.Follows actions) :
    Tracks registry config (s.run actions) (s.baselines base actions) := by
  induction actions generalizing s base with
  | nil => exact h
  | cons a actions ih =>
      obtain ⟨hallows, hu, hmore⟩ := hfollows
      exact ih (h.step hallows hu) hmore

/-! ## What is reported -/

/-- The requests from a baseline, if there is one and transitions are reported at all. -/
def requestsSince (registry : Registry) (config : EngineConfig) (base? : Option ComputedStyle)
    (current : ComputedStyle) : List TransitionRequest :=
  match base? with
  | some base => if config.transitions then ComputedStyle.requests registry base current else []
  | none => []

/-- A report gives the requests from the baseline to the plain style. -/
theorem Tracks.report_snd (h : Tracks registry config s base) {n : NodeId}
    (hallows : s.Allows (.report n)) (hu : (s.step (.report n)).Unsaturated) :
    (s.engine.report s.tree n).2 =
      requestsSince registry config (base n) (s.engine.plainStyle s.tree n) := by
  have hrefreshed := h.coherent.refreshed rfl hallows hu
  -- What is compared is the plain style, and the baseline where there is one.
  obtain ⟨k, hk, hstyle, hreported⟩ := hrefreshed.kept_eq (s.tree.mem_lineage_self n)
  obtain ⟨hregistry, hconfig, -⟩ :=
    Engine.bare_eq_bare_iff.mp (s.engine.bare_refresh s.tree n)
  have hplain : (s.engine.plainStyle s.tree n).HasValues registry :=
    h.registry ▸ hasValues_plainStyle s.engine s.tree n
  have hvalues : k.reported.HasValues registry := by
    rw [hreported, h.reported n]
    cases hn : base n with
    | none => exact hplain
    | some old => exact h.values n old hn
  unfold Engine.report
  simp only [hk, Engine.pendingRequests, hregistry, hconfig, h.registry, h.config]
  rw [ComputedStyle.ofChanges_changes hvalues (hstyle ▸ hplain), hreported, h.reported n, hstyle]
  unfold requestsSince
  cases base n with
  | none => simp [ComputedStyle.requests_self]
  | some old => rfl

end Session

end WidgetStyle
