import WidgetStyle.Proofs.Engine.Coherence

/-!
# WidgetStyle.Proofs.Engine.Changes — what is no question keeps the invariant

Changes of the sheet, of inline styles, of the global variables and of the tree, and the notices
about them, keep `Session.Coherent`.  A change of the sheet breaks every line, one of the global
variables every line of styles: what they are numbered with was never given out before.  A notice
breaks the lines through its node, and so may be struck off.  A change of the tree breaks nothing,
but makes notices due that stand in the way of every line it could have an effect on.
-/

namespace WidgetStyle

namespace Tree

theorem SameSight.refl (t : Tree) (mode : MatchMode) (n : NodeId) : t.SameSight t mode n :=
  ⟨rfl, fun _ _ => rfl, fun _ => rfl⟩

end Tree

namespace Engine

/-- Changing a kept result changes nothing else. -/
theorem modifyKept_eq (e : Engine) (n : NodeId) (f : KeptStyle → KeptStyle) :
    e.modifyKept n f = { e with kept := (e.modifyKept n f).kept } := by
  unfold modifyKept
  split <;> rfl

theorem bare_modifyKept (e : Engine) (n : NodeId) (f : KeptStyle → KeptStyle) :
    (e.modifyKept n f).bare = e.bare := by
  rw [modifyKept_eq]
  rfl

theorem get?_modifyKept (e : Engine) (n : NodeId) (f : KeptStyle → KeptStyle) (m : NodeId) :
    (e.modifyKept n f).kept.get? m =
      if m = n then (e.kept.get? m).map f else e.kept.get? m := by
  unfold modifyKept
  split
  · rename_i hnone
    split
    · rename_i hm
      rw [hm, hnone]
      rfl
    · rfl
  · rename_i k hk
    rw [Assoc.get?_insert]
    split
    · rename_i hm
      rw [hm, hk]
      rfl
    · rfl

end Engine

namespace Session

variable {s : Session}

/-- Doing nothing retains everything. -/
theorem Retains.refl (h : s.Coherent) : Retains s s where
  forest := h.forest
  size := Nat.le_refl _
  kept := fun _ k hk => ⟨k, hk, KeptStyle.IsStaler.refl k⟩
  counts := Engine.CountsTo.refl _
  inline := fun _ _ _ hv => Or.inl hv
  due := fun _ _ hdue => hdue
  dueStates := fun _ _ hdue => hdue
  scan := fun n _ _ => ⟨rfl, rfl, Tree.SameSight.refl _ _ n⟩
  style := fun n _ _ => ⟨rfl, rfl, Tree.SameSight.refl _ _ n⟩

namespace Coherent

variable (h : s.Coherent)
include h

/-! ## The sheet -/

/-- With a sheet that was not in use before, every line is broken. -/
theorem newSheet (sheet : Stylesheet) (exchanges : Nat)
    (newer : s.engine.exchanges < exchanges ∨
      exchanges = s.engine.exchanges ∧ s.engine.sheet.version < sheet.version) :
    Coherent { s with engine := { s.engine with sheet, exchanges } } := by
  have broken : ∀ n,
      ¬ ({ s with engine := { s.engine with sheet, exchanges } } : Session).ScanLine n := by
    intro n hline
    obtain ⟨-, k, hk, -, hbasis⟩ := hline n (s.tree.mem_lineage_self n)
    exact @KeptStyle.IsWithin.edition_ne k s.engine { s.engine with sheet, exchanges }
      (h.within n k hk) newer (by rw [hbasis]; rfl)
  refine Retains.coherent (s := s) ?_ h
  exact
    { Retains.refl h with
      counts :=
        { Engine.CountsTo.refl s.engine with
          exchanges := by
            rcases newer with hlt | ⟨heq, -⟩
            · exact Nat.le_of_lt hlt
            · exact Nat.le_of_eq heq.symm
          version := by
            intro heq
            change exchanges = s.engine.exchanges at heq
            rcases newer with hlt | ⟨-, hlt⟩
            · omega
            · exact Nat.le_of_lt hlt }
      due := fun _ _ hdue => hdue
      dueStates := fun _ _ hdue => hdue
      scan := fun n _ hline => absurd hline (broken n)
      style := fun n _ hline => absurd hline.scanLine (broken n) }

theorem replaceSheet (sheet : Stylesheet)
    (hu : nextCount s.engine.exchanges < counterLimit) :
    Coherent { s with engine := s.engine.replaceSheet sheet } :=
  h.newSheet sheet _ (Or.inl (lt_nextCount hu))

theorem editSheet (edit : Stylesheet.Edit)
    (hu : (edit.apply s.engine.sheet).version < counterLimit) :
    Coherent { s with engine := s.engine.modifySheet edit.apply } := by
  show Coherent { s with engine := { s.engine with sheet := edit.apply s.engine.sheet } }
  rcases edit.apply_moves s.engine.sheet with hsame | hlt | hlimit
  · rw [hsame]
    exact h
  · exact h.newSheet _ _ (Or.inr ⟨rfl, hlt⟩)
  · omega

/-! ## Inline styles and global variables -/

theorem setInline (n : NodeId) (style : InlineStyle)
    (hu : nextCount s.engine.inlineCounter < counterLimit) :
    Coherent { s with engine := s.engine.setInline n style } := by
  have hlt := lt_nextCount hu
  refine Retains.coherent (s := s) ?_ h
  exact
    { Retains.refl h with
      counts := { Engine.CountsTo.refl s.engine with inline := Nat.le_of_lt hlt }
      inline := by
        intro m other version hv
        change (s.engine.inline.insert n _).get? m = _ at hv
        rw [Assoc.get?_insert] at hv
        split at hv
        · obtain ⟨-, rfl⟩ := Prod.mk.inj (Option.some.inj hv)
          exact Or.inr ⟨hlt, Nat.le_refl _⟩
        · exact Or.inl hv }

/-- An inline style can be taken away while the counter stays or grows. -/
theorem eraseInline (n : NodeId) {counter : Nat} (hle : s.engine.inlineCounter ≤ counter) :
    Coherent { s with engine :=
      { s.engine with inline := s.engine.inline.erase n, inlineCounter := counter } } := by
  refine Retains.coherent (s := s) ?_ h
  exact
    { Retains.refl h with
      counts := { Engine.CountsTo.refl s.engine with inline := hle }
      inline := fun _ _ _ hv => Or.inl (Assoc.get?_filter.mp hv).1 }

theorem clearInline (n : NodeId) (hu : (s.engine.clearInline n).inlineCounter < counterLimit) :
    Coherent { s with engine := s.engine.clearInline n } := by
  unfold Engine.clearInline at hu ⊢
  by_cases hn : s.engine.inline.contains n = true
  · rw [if_pos hn] at hu ⊢
    exact h.eraseInline n (Nat.le_of_lt (lt_nextCount hu))
  · rw [if_neg hn]
    exact h

/-- With other global variables, every line of styles is broken. -/
theorem newGlobals (globals : Scope) (version : Nat) (hlt : s.engine.globalsVersion < version) :
    Coherent { s with engine := { s.engine with globals, globalsVersion := version } } := by
  refine Retains.coherent (s := s) ?_ h
  exact
    { Retains.refl h with
      counts := { Engine.CountsTo.refl s.engine with globals := Nat.le_of_lt hlt }
      dueStates := fun _ _ hdue => hdue
      style := by
        -- The result of `n` itself would have noted the new number.
        intro n _ hline
        obtain ⟨-, k, hk, -, -, hglobals, -⟩ := hline n (s.tree.mem_lineage_self n)
        change k.valueBasis.globals = version at hglobals
        have := (h.within n k hk).globals
        omega }

theorem setGlobal (name value : String)
    (hu : nextCount s.engine.globalsVersion < counterLimit) :
    Coherent { s with engine := s.engine.setGlobal name value } :=
  h.newGlobals _ _ (lt_nextCount hu)

theorem removeGlobal (name : String)
    (hu : (s.engine.removeGlobal name).globalsVersion < counterLimit) :
    Coherent { s with engine := s.engine.removeGlobal name } := by
  unfold Engine.removeGlobal at hu ⊢
  by_cases hname : s.engine.globals.contains name = true
  · rw [if_pos hname] at hu ⊢
    exact h.newGlobals _ _ (lt_nextCount hu)
  · rw [if_neg hname]
    exact h

/-! ## Notices -/

/-- Results may become less fresh, and the notices be struck off that break their lines then. -/
theorem stale {kept : Assoc NodeId KeptStyle} {due : List Notice}
    (staler : ∀ n k', kept.get? n = some k' →
      ∃ k, s.engine.kept.get? n = some k ∧ k'.IsStaler k)
    (changed : ∀ n k', kept.get? n = some k' → k'.freshness ≠ .invalid → .changed n ∉ due →
      .changed n ∉ s.due)
    (stateChanged : ∀ n k', kept.get? n = some k' → k'.freshness = .fresh →
      .stateChanged n ∉ due → .stateChanged n ∉ s.due) :
    Coherent { s with engine := { s.engine with kept }, due } := by
  refine Retains.coherent (s := s) ?_ h
  exact
    { Retains.refl h with
      kept := staler
      counts := { Engine.CountsTo.refl s.engine with generation := Nat.le_refl _ }
      due := by
        rintro n ⟨k', hk', hvalid, -⟩ hdue
        exact changed n k' hk' hvalid hdue
      dueStates := by
        rintro n ⟨k', hk', hfresh, -⟩ hdue
        exact stateChanged n k' hk' hfresh hdue
      scan := fun n _ _ => ⟨rfl, rfl, Tree.SameSight.refl _ _ n⟩
      style := fun n _ _ => ⟨rfl, rfl, Tree.SameSight.refl _ _ n⟩ }

/-- One kept result may become less fresh, and the notices about it be struck off that break its
lines then. -/
theorem modifyKept {n : NodeId} {f : KeptStyle → KeptStyle} {due : List Notice}
    (staler : ∀ k, (f k).IsStaler k)
    (changed : ∀ m, .changed m ∉ due →
      .changed m ∉ s.due ∨ (m = n ∧ ∀ k, (f k).freshness = .invalid))
    (stateChanged : ∀ m, .stateChanged m ∉ due →
      .stateChanged m ∉ s.due ∨ (m = n ∧ ∀ k, (f k).freshness ≠ .fresh)) :
    Coherent { s with engine := s.engine.modifyKept n f, due } := by
  -- What is found at `n` afterwards has gone through `f`.
  have hself : ∀ m k', (s.engine.modifyKept n f).kept.get? m = some k' → m = n →
      ∃ k, k' = f k := by
    rintro m k' hk' rfl
    rw [Engine.get?_modifyKept, if_pos rfl] at hk'
    obtain ⟨k, -, rfl⟩ := Option.map_eq_some_iff.mp hk'
    exact ⟨k, rfl⟩
  rw [Engine.modifyKept_eq]
  refine h.stale ?_ ?_ ?_
  · intro m k' hk'
    rw [Engine.get?_modifyKept] at hk'
    split at hk'
    · obtain ⟨k, hk, rfl⟩ := Option.map_eq_some_iff.mp hk'
      exact ⟨k, hk, staler k⟩
    · exact ⟨k', hk', KeptStyle.IsStaler.refl k'⟩
  · intro m k' hk' hvalid hdue
    rcases changed m hdue with hold | ⟨rfl, hinvalid⟩
    · exact hold
    · obtain ⟨k, rfl⟩ := hself m k' hk' rfl
      exact absurd (hinvalid k) hvalid
  · intro m k' hk' hfresh hdue
    rcases stateChanged m hdue with hold | ⟨rfl, hstale⟩
    · exact hold
    · obtain ⟨k, rfl⟩ := hself m k' hk' rfl
      exact absurd hfresh (hstale k)

theorem invalidate (n : NodeId) :
    Coherent { s with
      engine := s.engine.invalidate n, due := s.due.filter fun notice => notice.node ≠ n } := by
  have struck : ∀ notice : Notice, notice ∉ s.due.filter (fun notice => notice.node ≠ n) →
      notice ∉ s.due ∨ notice.node = n := by
    intro notice hdue
    by_cases hn : notice.node = n
    · exact Or.inr hn
    · exact Or.inl fun hmem => hdue (List.mem_filter.mpr ⟨hmem, by simpa using hn⟩)
  refine h.modifyKept ?_ ?_ ?_
  · exact fun k => ⟨rfl, rfl, rfl, rfl, rfl, rfl, fun hvalid => absurd rfl hvalid, by simp⟩
  · exact fun m hdue => (struck _ hdue).imp_right fun hm => ⟨hm, fun _ => rfl⟩
  · exact fun m hdue => (struck _ hdue).imp_right fun hm => ⟨hm, fun _ => by simp⟩

theorem stateChanged (n : NodeId) :
    Coherent { s with
      engine := s.engine.stateChanged n
      due := s.due.filter fun notice => notice ≠ .stateChanged n } := by
  refine h.modifyKept ?_ ?_ ?_
  · intro k
    split
    · rename_i hfresh
      exact ⟨rfl, rfl, rfl, rfl, rfl, rfl, fun _ => by simp [hfresh], by simp⟩
    · exact KeptStyle.IsStaler.refl k
  · intro m hdue
    refine Or.inl fun hmem => hdue (List.mem_filter.mpr ⟨hmem, ?_⟩)
    simp
  · intro m hdue
    by_cases hm : m = n
    · refine Or.inr ⟨hm, fun k => ?_⟩
      by_cases hfresh : k.freshness = .fresh
      · simp [hfresh]
      · simp [hfresh]
    · refine Or.inl fun hmem => hdue (List.mem_filter.mpr ⟨hmem, ?_⟩)
      simpa using hm

theorem invalidateAll : Coherent { s with engine := s.engine.invalidateAll, due := [] } := by
  have hall : ∀ n k', s.engine.invalidateAll.kept.get? n = some k' →
      ∃ k, s.engine.kept.get? n = some k ∧ k' = { k with freshness := .invalid } := by
    intro n k' hk'
    rw [Engine.invalidateAll, Assoc.get?_mapValues] at hk'
    obtain ⟨k, hk, rfl⟩ := Option.map_eq_some_iff.mp hk'
    exact ⟨k, hk, rfl⟩
  refine h.stale ?_ ?_ ?_
  · intro n k' hk'
    obtain ⟨k, hk, rfl⟩ := hall n k' hk'
    exact ⟨k, hk, rfl, rfl, rfl, rfl, rfl, rfl, fun hvalid => absurd rfl hvalid, by simp⟩
  · intro n k' hk' hvalid
    obtain ⟨k, -, rfl⟩ := hall n k' hk'
    exact absurd rfl hvalid
  · intro n k' hk' hfresh
    obtain ⟨k, -, rfl⟩ := hall n k' hk'
    simp at hfresh

theorem forget (n : NodeId) : Coherent { s with engine := s.engine.forget n } := by
  have hkept : Coherent { s with engine := { s.engine with kept := s.engine.kept.erase n } } := by
    refine h.stale ?_ (fun _ _ _ _ hdue => hdue) fun _ _ _ _ hdue => hdue
    intro m k hk
    exact ⟨k, (Assoc.get?_filter.mp hk).1, KeptStyle.IsStaler.refl k⟩
  exact hkept.eraseInline n (Nat.le_refl _)

/-! ## The tree -/

theorem edit (edit : Tree.Edit) (hforest : (edit.apply s.tree).IsForest) :
    Coherent { s with tree := edit.apply s.tree, due := s.due ++ edit.owed s.tree } := by
  refine Retains.coherent (s := s) ?_ h
  exact
    { Retains.refl h with
      forest := hforest
      size := edit.size_le_apply s.tree
      -- Notices are added, so what is not due now was not due before.
      due := fun n _ hdue hmem => hdue (List.mem_append_left _ hmem)
      dueStates := fun n _ hdue hmem => hdue (List.mem_append_left _ hmem)
      scan := by
        intro n hn hline
        refine ⟨rfl, rfl, Tree.Edit.sameSight_loose h.forest hforest hn fun m hm howed => ?_⟩
        exact (hline m hm).1 (List.mem_append_right _ howed)
      style := by
        intro n hn hline
        refine ⟨rfl, rfl, Tree.Edit.sameSight_strict h.forest hforest hn fun m hm => ?_⟩
        exact ⟨fun howed => (hline m hm).1.1 (List.mem_append_right _ howed),
          fun howed => (hline m hm).1.2 (List.mem_append_right _ howed)⟩ }

/-! ## Every action that is no question -/

/-- **What is no question keeps the invariant.** -/
theorem step_of_queried?_eq_none {a : Action} (ha : a.queried? = none) (hallows : s.Allows a)
    (hu : (s.step a).Unsaturated) : (s.step a).Coherent := by
  cases a with
  | replaceSheet sheet => exact h.replaceSheet sheet hu.exchanges
  | editSheet edit => exact h.editSheet edit hu.version
  | setInline n style => exact h.setInline n style hu.inline
  | clearInline n => exact h.clearInline n hu.inline
  | setGlobal name value => exact h.setGlobal name value hu.globals
  | removeGlobal name => exact h.removeGlobal name hu.globals
  | invalidate n => exact h.invalidate n
  | stateChanged n => exact h.stateChanged n
  | invalidateAll => exact h.invalidateAll
  | forget n => exact h.forget n
  | edit edit => exact h.edit edit hallows
  | computedStyle n => simp [Action.queried?] at ha
  | animations n => simp [Action.queried?] at ha
  | report n => simp [Action.queried?] at ha

end Coherent

end Session

end WidgetStyle
