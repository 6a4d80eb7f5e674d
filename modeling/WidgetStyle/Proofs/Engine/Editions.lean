import WidgetStyle.Proofs.Engine.Answers
import WidgetStyle.Proofs.Sheet.Versions

/-!
# WidgetStyle.Proofs.Engine.Editions — an edition stands for one content of the sheet

Results that are kept carry the edition of the sheet they were computed from: how often the sheet was
exchanged, and its version.  Neither number alone would do.  The version starts anew with every
exchanged sheet, and the number of exchanges does not see a change in place.  Together they tell any
two contents of a run apart (`Session.editions_tell_contents_apart`): an exchange raises the one, and
without an exchange every change of the sheet raises the other.
-/

namespace WidgetStyle

/-- The elementary steps of an action at the sheet.  An exchanged sheet counts with its version, which
the steps it was built in have raised, and with the exchange itself. -/
def Action.sheetSteps : Action → Nat
  | .replaceSheet sheet => sheet.version + 1
  | .editSheet change => change.steps
  | _ => 0

namespace Engine

/-- As long as the counters have room for `n` steps: the sheet was exchanged, or it is the same sheet
or has a higher version; and the counters rise by `n` at most. -/
def GrowsWithin (n : Nat) (e e' : Engine) : Prop :=
  e.exchanges + n ≤ counterLimit → e.sheet.version + n ≤ counterLimit →
    (e.exchanges < e'.exchanges ∨
      e'.exchanges = e.exchanges ∧ (e'.sheet = e.sheet ∨ e.sheet.version < e'.sheet.version)) ∧
    e'.exchanges ≤ e.exchanges + n ∧ e'.sheet.version ≤ e.sheet.version + n

theorem GrowsWithin.trans {n m : Nat} {e e' e'' : Engine} (h : GrowsWithin n e e')
    (k : GrowsWithin m e' e'') : GrowsWithin (n + m) e e'' := by
  intro hexchanges hversion
  obtain ⟨hfirst, hle, hle'⟩ := h (by omega) (by omega)
  obtain ⟨hsecond, hmore, hmore'⟩ := k (by omega) (by omega)
  refine ⟨?_, by omega, by omega⟩
  rcases hfirst with hlt | ⟨heq, hsheet⟩
  · exact Or.inl (by omega)
  · rcases hsecond with hlt | ⟨heq', hsheet'⟩
    · exact Or.inl (by omega)
    · refine Or.inr ⟨heq'.trans heq, ?_⟩
      rcases hsheet' with hsame | hlt
      · rw [hsame]
        exact hsheet
      · rcases hsheet with hsame | hlt'
        · exact Or.inr (hsame ▸ hlt)
        · exact Or.inr (Nat.lt_trans hlt' hlt)

/-- What leaves the sheet alone takes no steps. -/
theorem growsWithin_of_sheet_eq {e e' : Engine} (hsheet : e'.sheet = e.sheet)
    (hexchanges : e'.exchanges = e.exchanges) : GrowsWithin 0 e e' := by
  intro _ _
  rw [hsheet, hexchanges]
  exact ⟨Or.inr ⟨rfl, Or.inl rfl⟩, Nat.le_refl _, Nat.le_refl _⟩

theorem growsWithin_of_bare_eq {e e' : Engine} (h : e'.bare = e.bare) : GrowsWithin 0 e e' := by
  obtain ⟨-, -, hsheet, hexchanges, -⟩ := bare_eq_bare_iff.mp h
  exact growsWithin_of_sheet_eq hsheet hexchanges

/-- Engines with one edition, the later of which has come from the earlier, have one sheet. -/
theorem GrowsWithin.sheet_eq {n : Nat} {e e' : Engine} (h : GrowsWithin n e e')
    (hexchanges : e.exchanges + n ≤ counterLimit) (hversion : e.sheet.version + n ≤ counterLimit)
    (hedition : e'.edition = e.edition) : e'.sheet = e.sheet := by
  obtain ⟨hsame, hsame'⟩ := SheetEdition.mk.inj hedition
  rcases (h hexchanges hversion).1 with hlt | ⟨-, hsheet | hlt⟩
  · omega
  · exact hsheet
  · omega

end Engine

namespace Session

/-- The elementary steps of a list of actions at the sheet. -/
def sheetStepsOf : List Action → Nat
  | [] => 0
  | a :: actions => a.sheetSteps + sheetStepsOf actions

theorem sheetStepsOf_append (actions more : List Action) :
    sheetStepsOf (actions ++ more) = sheetStepsOf actions + sheetStepsOf more := by
  induction actions with
  | nil => rw [List.nil_append, sheetStepsOf, Nat.zero_add]
  | cons a actions ih => rw [List.cons_append, sheetStepsOf, sheetStepsOf, ih, Nat.add_assoc]

/-- **One action.**  It exchanges the sheet, leaves it as it is, or raises its version. -/
theorem step_growsWithin (s : Session) (a : Action) :
    Engine.GrowsWithin a.sheetSteps s.engine (s.step a).engine := by
  cases a with
  | replaceSheet sheet =>
      intro hexchanges _
      simp only [Action.sheetSteps] at hexchanges ⊢
      show (_ < nextCount s.engine.exchanges ∨ _) ∧ nextCount s.engine.exchanges ≤ _ ∧
        sheet.version ≤ _
      unfold nextCount
      omega
  | editSheet change =>
      intro _ hversion
      obtain ⟨hsheet, hle⟩ := change.apply_growsWithin s.engine.sheet hversion
      exact ⟨Or.inr ⟨rfl, hsheet⟩, Nat.le_add_right _ _, hle⟩
  | computedStyle n => exact Engine.growsWithin_of_bare_eq (s.engine.bare_refresh s.tree n)
  | animations n => exact Engine.growsWithin_of_bare_eq (s.engine.bare_refresh s.tree n)
  | report n => exact Engine.growsWithin_of_bare_eq (s.engine.bare_report s.tree n)
  | invalidate n => exact Engine.growsWithin_of_bare_eq (s.engine.bare_modifyKept n _)
  | stateChanged n => exact Engine.growsWithin_of_bare_eq (s.engine.bare_modifyKept n _)
  | clearInline n =>
      simp only [step, Engine.clearInline]
      split <;> exact Engine.growsWithin_of_sheet_eq rfl rfl
  | removeGlobal name =>
      simp only [step, Engine.removeGlobal]
      split <;> exact Engine.growsWithin_of_sheet_eq rfl rfl
  | _ => exact Engine.growsWithin_of_sheet_eq rfl rfl

/-- **A run of actions.** -/
theorem run_growsWithin (s : Session) (actions : List Action) :
    Engine.GrowsWithin (sheetStepsOf actions) s.engine (s.run actions).engine := by
  induction actions generalizing s with
  | nil => exact Engine.growsWithin_of_bare_eq rfl
  | cons a actions ih => exact (s.step_growsWithin a).trans (ih (s.step a))

/-- Two moments of a run of a new engine, the later one after `more`. -/
theorem sheet_eq_of_edition_eq (registry : Registry) (config : EngineConfig) (t : Tree)
    {actions more : List Action} (h : sheetStepsOf (actions ++ more) ≤ counterLimit)
    (hedition : ((start registry config t).run (actions ++ more)).engine.edition =
      ((start registry config t).run actions).engine.edition) :
    ((start registry config t).run (actions ++ more)).engine.sheet =
      ((start registry config t).run actions).engine.sheet := by
  rw [sheetStepsOf_append] at h
  rw [run_append] at hedition ⊢
  have hexchanges : (start registry config t).engine.exchanges = 0 := rfl
  have hversion : (start registry config t).engine.sheet.version = 0 := rfl
  obtain ⟨-, hle, hle'⟩ := (start registry config t).run_growsWithin actions
    (by omega) (by omega)
  exact (run_growsWithin _ more).sheet_eq (by omega) (by omega) hedition

/-- **Editions tell contents apart.**  While one sheet is changed in place, in fewer than `2 ^ 64`
steps, its version never goes back, and it goes up whenever the sheet is not what it was.  And at any
two moments of a run of a new engine, in which sheets are changed and exchanged in fewer than `2 ^ 64`
steps, the same edition means the same sheet, with its rules, their positions, and its keyframe
sets. -/
theorem editions_tell_contents_apart :
    (∀ (s : Stylesheet) (edits more : List Stylesheet.Edit),
      s.version + Stylesheet.stepsOf (edits ++ more) < UInt64.size →
        (s.edited edits).version ≤ (s.edited (edits ++ more)).version ∧
          (s.edited (edits ++ more) ≠ s.edited edits →
            (s.edited edits).version < (s.edited (edits ++ more)).version)) ∧
      ∀ (registry : Registry) (config : EngineConfig) (t : Tree) (actions : List Action),
        sheetStepsOf actions < UInt64.size →
          ∀ i j, ((start registry config t).run (actions.take i)).engine.edition =
              ((start registry config t).run (actions.take j)).engine.edition →
            ((start registry config t).run (actions.take i)).engine.sheet =
              ((start registry config t).run (actions.take j)).engine.sheet := by
  have hlimit : counterLimit = UInt64.size - 1 := rfl
  refine ⟨fun s edits more hroom => ?_, fun registry config t actions hroom i j => ?_⟩
  · rw [Stylesheet.stepsOf_append] at hroom
    obtain ⟨-, hle⟩ := s.edited_growsWithin edits (by omega)
    obtain ⟨hgrows, -⟩ := (s.edited edits).edited_growsWithin more (by omega)
    rw [Stylesheet.edited_append]
    refine ⟨?_, fun hchanged => hgrows.resolve_left hchanged⟩
    rcases hgrows with hsame | hlt
    · rw [hsame]
    · exact Nat.le_of_lt hlt
  · -- The later moment comes after what is done between the two.
    have hordered : ∀ {i j}, i ≤ j →
        ((start registry config t).run (actions.take j)).engine.edition =
          ((start registry config t).run (actions.take i)).engine.edition →
        ((start registry config t).run (actions.take j)).engine.sheet =
          ((start registry config t).run (actions.take i)).engine.sheet := by
      intro i j hij
      have hsplit : actions.take j = actions.take i ++ (actions.take j).drop i := by
        have hfront : (actions.take j).take i = actions.take i := by
          rw [List.take_take, Nat.min_eq_left hij]
        rw [← hfront, List.take_append_drop]
      have hle : sheetStepsOf (actions.take j) ≤ counterLimit := by
        have htotal := sheetStepsOf_append (actions.take j) (actions.drop j)
        rw [List.take_append_drop] at htotal
        omega
      rw [hsplit] at hle ⊢
      exact sheet_eq_of_edition_eq registry config t hle
    intro hedition
    rcases Nat.le_total i j with hij | hji
    · exact (hordered hij hedition.symm).symm
    · exact hordered hji hedition

/-- The statement at a sheet with a rule that takes in another, and at a run in which the sheet is
marked, marked again and exchanged.  Marking it again changes nothing.  The exchanged sheet has the
version that the first one had behind its first rule, and another edition. -/
theorem editions_tell_contents_apart_theme :
    let rule : StyleRule :=
      .ofDeclarations .empty ⟨⟨[.hasTag "label"]⟩, [], "label"⟩ [⟨"color", "red", false⟩]
    let theme := Stylesheet.empty.append rule
    let actions : List Action :=
      [.editSheet (.append rule), .editSheet (.setMarker 7), .computedStyle 0,
        .editSheet (.setMarker 7), .replaceSheet theme]
    let after (i : Nat) := (start .empty {} (Tree.empty.addRoot "label")).run (actions.take i)
    Stylesheet.empty.version + Stylesheet.stepsOf ([.append rule] ++ [.combine theme]) < UInt64.size ∧
      sheetStepsOf actions < UInt64.size ∧
      (Stylesheet.empty.edited [.append rule]).version <
        (Stylesheet.empty.edited ([.append rule] ++ [.combine theme])).version ∧
      (after 2).engine.edition = (after 4).engine.edition ∧
      (after 2).engine.sheet = (after 4).engine.sheet ∧
      (after 1).engine.sheet.version = (after 5).engine.sheet.version ∧
      (after 1).engine.edition ≠ (after 5).engine.edition := by
  intro rule theme actions after
  have hsteps : Stylesheet.empty.version +
      Stylesheet.stepsOf ([.append rule] ++ [.combine theme]) < UInt64.size := by decide +kernel
  have hactions : sheetStepsOf actions < UInt64.size := by decide +kernel
  obtain ⟨hsheet, hrun⟩ := editions_tell_contents_apart
  have hchanged : Stylesheet.empty.edited ([.append rule] ++ [.combine theme]) ≠
      Stylesheet.empty.edited [.append rule] := fun hsame =>
    absurd (congrArg (fun s => s.rules.length) hsame) (by decide +kernel)
  have hedition : (after 2).engine.edition = (after 4).engine.edition := by decide +kernel
  exact ⟨hsteps, hactions, (hsheet .empty [.append rule] [.combine theme] hsteps).2 hchanged, hedition,
    hrun .empty {} (Tree.empty.addRoot "label") actions hactions 2 4 hedition, by decide +kernel,
    by decide +kernel⟩

end Session

end WidgetStyle
