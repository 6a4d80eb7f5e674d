import WidgetStyle.Proofs.Engine.Session

/-!
# WidgetStyle.Proofs.Engine.Coherence — what can be believed of a kept result

A kept result is not right at all times; it only has to be right when a question is answered from
it.  The invariant `Session.Coherent` says when that is.  Candidates are right while the whole
lineage holds scans that fit together and no notice about it is due (`ScanLine`).  A style is the
one that the rules, and the kept style of the parent, give now, while the whole lineage holds
computations that fit together (`StyleLine`).  Nothing is said about results further down, whose
lines are broken: they are not used.

What keeps a broken line from closing again are the numbers.  Every number that a result has noted
was given out before (`KeptStyle.IsWithin`), so that a number given out now is noted nowhere.

`Retains` collects what an action has to leave alone, or to break, for the invariant to survive
(`Retains.coherent`).  This module shows it for every action that is no question.
-/

namespace WidgetStyle

/-! ## Results and their numbers -/

namespace KeptStyle

/-- What a kept result has noted was given out by the engine before. -/
structure IsWithin (k : KeptStyle) (e : Engine) : Prop where
  generation : k.generation ≤ e.generation
  scan : k.scan ≤ e.generation
  parent : k.valueBasis.parent ≤ e.generation
  parentScan : k.scanBasis.parentScan ≤ e.generation
  globals : k.valueBasis.globals ≤ e.globalsVersion
  inline : k.valueBasis.inline ≤ e.inlineCounter
  exchanges : k.scanBasis.edition.exchanges ≤ e.exchanges
  version : k.scanBasis.edition.exchanges = e.exchanges →
    k.scanBasis.edition.version ≤ e.sheet.version

/-- The result `k'` is `k`, at most less fresh, with any report. -/
structure IsStaler (k' k : KeptStyle) : Prop where
  style : k'.style = k.style
  candidates : k'.candidates = k.candidates
  scanBasis : k'.scanBasis = k.scanBasis
  valueBasis : k'.valueBasis = k.valueBasis
  generation : k'.generation = k.generation
  scan : k'.scan = k.scan
  valid : k'.freshness ≠ .invalid → k.freshness ≠ .invalid
  fresh : k'.freshness = .fresh → k.freshness = .fresh

theorem IsStaler.refl (k : KeptStyle) : k.IsStaler k := ⟨rfl, rfl, rfl, rfl, rfl, rfl, id, id⟩

theorem IsStaler.isWithin {k' k : KeptStyle} {e : Engine} (h : k'.IsStaler k)
    (hk : k.IsWithin e) : k'.IsWithin e := by
  obtain ⟨-, -, hscanBasis, hvalueBasis, hgeneration, hscan, -, -⟩ := h
  constructor
  all_goals simp only [hscanBasis, hvalueBasis, hgeneration, hscan]
  · exact hk.generation
  · exact hk.scan
  · exact hk.parent
  · exact hk.parentScan
  · exact hk.globals
  · exact hk.inline
  · exact hk.exchanges
  · exact hk.version

end KeptStyle

namespace Engine

/-- No counter of the engine `e'` stands lower than in `e`. -/
structure CountsTo (e e' : Engine) : Prop where
  generation : e.generation ≤ e'.generation
  globals : e.globalsVersion ≤ e'.globalsVersion
  inline : e.inlineCounter ≤ e'.inlineCounter
  exchanges : e.exchanges ≤ e'.exchanges
  version : e'.exchanges = e.exchanges → e.sheet.version ≤ e'.sheet.version

theorem CountsTo.refl (e : Engine) : e.CountsTo e :=
  ⟨Nat.le_refl _, Nat.le_refl _, Nat.le_refl _, Nat.le_refl _, fun _ => Nat.le_refl _⟩

end Engine

theorem KeptStyle.IsWithin.mono {k : KeptStyle} {e e' : Engine} (h : k.IsWithin e)
    (counts : e.CountsTo e') : k.IsWithin e' where
  generation := Nat.le_trans h.generation counts.generation
  scan := Nat.le_trans h.scan counts.generation
  parent := Nat.le_trans h.parent counts.generation
  parentScan := Nat.le_trans h.parentScan counts.generation
  globals := Nat.le_trans h.globals counts.globals
  inline := Nat.le_trans h.inline counts.inline
  exchanges := Nat.le_trans h.exchanges counts.exchanges
  version := by
    intro heq
    have := h.exchanges
    have := counts.exchanges
    have hversion := h.version (by omega)
    have hcounts := counts.version (by omega)
    omega

/-- Nothing that was kept before a change of the sheet is taken for a result of the sheet now. -/
theorem KeptStyle.IsWithin.edition_ne {k : KeptStyle} {e e' : Engine} (h : k.IsWithin e)
    (newer : e.exchanges < e'.exchanges ∨
      e'.exchanges = e.exchanges ∧ e.sheet.version < e'.sheet.version) :
    k.scanBasis.edition ≠ e'.edition := by
  intro heq
  -- Noted numbers are at most the old ones, and one of the new ones is greater.
  have hexchanges : k.scanBasis.edition.exchanges = e'.exchanges := by rw [heq]; rfl
  have hversion : k.scanBasis.edition.version = e'.sheet.version := by rw [heq]; rfl
  have hle := h.exchanges
  rcases newer with hlt | ⟨hsame, hlt⟩
  · omega
  · have := h.version (by omega)
    omega

namespace Engine

/-- The candidates of a node were found in the sheet in use, below the parent it has now, and after
the parent's last scan. -/
def HoldsScan (e : Engine) (t : Tree) (n : NodeId) : Prop :=
  ∃ k, e.kept.get? n = some k ∧ k.freshness ≠ .invalid ∧ k.scanBasis = e.scanBasis t n

/-- The style of a node was computed from such candidates, with the global variables in use and the
parent's last style.  The inline style may have been another. -/
def HoldsStyle (e : Engine) (t : Tree) (n : NodeId) : Prop :=
  ∃ k, e.kept.get? n = some k ∧ k.freshness = .fresh ∧ k.scanBasis = e.scanBasis t n ∧
    k.valueBasis.globals = e.globalsVersion ∧ k.valueBasis.parent = (e.valueBasis t n).parent

theorem HoldsStyle.holdsScan {e : Engine} {t : Tree} {n : NodeId} (h : e.HoldsStyle t n) :
    e.HoldsScan t n := by
  obtain ⟨k, hk, hfresh, hscan, -⟩ := h
  exact ⟨k, hk, by simp [hfresh], hscan⟩

/-- What the inline style `used` of a computation has to do with the version noted: version zero
stands for no inline style, and the version in use for the one in use. -/
def IsInlineOf (e : Engine) (n : NodeId) (version : Nat) (used : Option InlineStyle) : Prop :=
  (version = 0 → used = none) ∧ (version = e.inlineVersion n → used = e.inline? n)

end Engine

namespace Session

/-! ## The invariant -/

/-- Every scan on the lineage fits to the next, and no notice of a change there is due. -/
def ScanLine (s : Session) (n : NodeId) : Prop :=
  ∀ m ∈ s.tree.lineage n, .changed m ∉ s.due ∧ s.engine.HoldsScan s.tree m

/-- Every style on the lineage fits to the next, and no notice about the lineage is due. -/
def StyleLine (s : Session) (n : NodeId) : Prop :=
  ∀ m ∈ s.tree.lineage n, (.changed m ∉ s.due ∧ .stateChanged m ∉ s.due) ∧
    s.engine.HoldsStyle s.tree m

theorem StyleLine.scanLine {s : Session} {n : NodeId} (h : s.StyleLine n) : s.ScanLine n :=
  fun m hm => ⟨(h m hm).1.1, (h m hm).2.holdsScan⟩

/-- On a line of scans the parent of every node is kept. -/
theorem ScanLine.exists_kept_parent {s : Session} (hforest : s.tree.IsForest) {n m p : NodeId}
    (h : s.ScanLine n) (hm : m ∈ s.tree.lineage n) (hp : s.tree.parent? m = some p) :
    ∃ k, s.engine.kept.get? p = some k := by
  obtain ⟨-, k, hk, -⟩ := h p (hforest.parent_mem_lineage hm hp)
  exact ⟨k, hk⟩

/-- What can be believed of the kept results. -/
structure Coherent (s : Session) : Prop where
  forest : s.tree.IsForest
  known : ∀ n k, s.engine.kept.get? n = some k → n < s.tree.size
  within : ∀ n k, s.engine.kept.get? n = some k → k.IsWithin s.engine
  inline : ∀ n style version, s.engine.inline.get? n = some (style, version) →
    0 < version ∧ version ≤ s.engine.inlineCounter
  candidates : ∀ n k, s.engine.kept.get? n = some k → s.ScanLine n →
    k.candidates = s.engine.sheet.candidates s.tree .loose n
  style : ∀ n k, s.engine.kept.get? n = some k →
    ∃ used, s.engine.IsInlineOf n k.valueBasis.inline used ∧
      (s.StyleLine n → k.style =
        (s.engine.context ((s.engine.keptParent? s.tree n).map KeptStyle.style)).compute
          (cascade (s.engine.rulesFor s.tree .strict n) used))

theorem coherent_start (registry : Registry) (config : EngineConfig) {t : Tree} (h : t.IsForest) :
    (start registry config t).Coherent where
  forest := h
  known := by intro n k hk; simp [start] at hk
  within := by intro n k hk; simp [start] at hk
  inline := by intro n style version hv; simp [start] at hv
  candidates := by intro n k hk; simp [start] at hk
  style := by intro n k hk; simp [start] at hk

/-! ## Actions that retain what is kept -/

/-- What an action leaves alone or breaks.  Results stay, drop out or become less fresh, and numbers
grow.  A line that is whole after the action was whole before, and neither the sheet nor the sight
of its node was changed; for a line of styles also the global variables are those from before. -/
structure Retains (s s' : Session) : Prop where
  forest : s'.tree.IsForest
  size : s.tree.size ≤ s'.tree.size
  kept : ∀ n k', s'.engine.kept.get? n = some k' →
    ∃ k, s.engine.kept.get? n = some k ∧ k'.IsStaler k
  counts : s.engine.CountsTo s'.engine
  inline : ∀ n style version, s'.engine.inline.get? n = some (style, version) →
    s.engine.inline.get? n = some (style, version) ∨
      (s.engine.inlineCounter < version ∧ version ≤ s'.engine.inlineCounter)
  due : ∀ n, s'.engine.HoldsScan s'.tree n → .changed n ∉ s'.due → .changed n ∉ s.due
  dueStates : ∀ n, s'.engine.HoldsStyle s'.tree n → .stateChanged n ∉ s'.due →
    .stateChanged n ∉ s.due
  scan : ∀ n, n < s.tree.size → s'.ScanLine n →
    s'.engine.sheet = s.engine.sheet ∧ s'.engine.exchanges = s.engine.exchanges ∧
      s'.tree.SameSight s.tree .loose n
  style : ∀ n, n < s.tree.size → s'.StyleLine n →
    s'.engine.context = s.engine.context ∧
      s'.engine.globalsVersion = s.engine.globalsVersion ∧ s'.tree.SameSight s.tree .strict n

namespace Retains

variable {s s' : Session} (r : Retains s s')
include r

/-- The kept parent of a node whose parent is kept is what it was, at most less fresh. -/
theorem keptParent? {n : NodeId} (parent : s'.tree.parent? n = s.tree.parent? n)
    (kept : ∀ p, s'.tree.parent? n = some p → ∃ k, s'.engine.kept.get? p = some k) :
    (s'.engine.keptParent? s'.tree n = none ∧ s.engine.keptParent? s.tree n = none) ∨
      ∃ k' k, s'.engine.keptParent? s'.tree n = some k' ∧ s.engine.keptParent? s.tree n = some k ∧
        k'.IsStaler k := by
  unfold Engine.keptParent?
  rw [← parent]
  cases hp : s'.tree.parent? n with
  | none => exact Or.inl ⟨rfl, rfl⟩
  | some p =>
      obtain ⟨k', hk'⟩ := kept p hp
      obtain ⟨k, hk, hstaler⟩ := r.kept p k' hk'
      exact Or.inr ⟨k', k, hk', hk, hstaler⟩

/-- Bases are what they were where the parent is what it was. -/
theorem bases {n : NodeId} (parent : s'.tree.parent? n = s.tree.parent? n)
    (kept : ∀ p, s'.tree.parent? n = some p → ∃ k, s'.engine.kept.get? p = some k)
    (sheet : s'.engine.sheet = s.engine.sheet)
    (exchanges : s'.engine.exchanges = s.engine.exchanges) :
    s'.engine.scanBasis s'.tree n = s.engine.scanBasis s.tree n ∧
      (s'.engine.valueBasis s'.tree n).parent = (s.engine.valueBasis s.tree n).parent := by
  unfold Engine.scanBasis Engine.valueBasis Engine.edition
  rw [sheet, exchanges, parent]
  rcases r.keptParent? parent kept with ⟨hnone', hnone⟩ | ⟨k', k, hk', hk, hstaler⟩
  · rw [hnone', hnone]
    exact ⟨rfl, rfl⟩
  · rw [hk', hk]
    simp [hstaler.scan, hstaler.generation]

theorem scanLine {n : NodeId} (hn : n < s.tree.size) (h : s'.ScanLine n) : s.ScanLine n := by
  obtain ⟨hsheet, hexchanges, hsight⟩ := r.scan n hn h
  intro m hm
  -- The lineage is the one from before, and the parent of each of its nodes is kept.
  rw [← hsight.lineage] at hm
  obtain ⟨hdue, hscan⟩ := h m hm
  refine ⟨r.due m hscan hdue, ?_⟩
  obtain ⟨k', hk', hvalid, hbasis⟩ := hscan
  obtain ⟨k, hk, hstaler⟩ := r.kept m k' hk'
  refine ⟨k, hk, hstaler.valid hvalid, ?_⟩
  rw [← hstaler.scanBasis, hbasis]
  exact (r.bases (hsight.parent m hm) (fun p => h.exists_kept_parent r.forest hm) hsheet
    hexchanges).1

theorem styleLine {n : NodeId} (hn : n < s.tree.size) (h : s'.StyleLine n) : s.StyleLine n := by
  obtain ⟨-, hglobals, -⟩ := r.style n hn h
  obtain ⟨hsheet, hexchanges, hsight⟩ := r.scan n hn h.scanLine
  intro m hm
  rw [← hsight.lineage] at hm
  obtain ⟨⟨hdue, hdueStates⟩, hstyle⟩ := h m hm
  refine ⟨⟨r.due m hstyle.holdsScan hdue, r.dueStates m hstyle hdueStates⟩, ?_⟩
  obtain ⟨k', hk', hfresh, hbasis, hkglobals, hkparent⟩ := hstyle
  obtain ⟨k, hk, hstaler⟩ := r.kept m k' hk'
  obtain ⟨hscanBasis, hvalueBasis⟩ := r.bases (hsight.parent m hm)
    (fun p => h.scanLine.exists_kept_parent r.forest hm) hsheet hexchanges
  refine ⟨k, hk, hstaler.fresh hfresh, ?_, ?_, ?_⟩
  · rw [← hstaler.scanBasis, hbasis, hscanBasis]
  · rw [← hstaler.valueBasis, hkglobals, hglobals]
  · rw [← hstaler.valueBasis, hkparent, hvalueBasis]

/-- An inline style that is new or taken away is not mistaken for the one of a computation. -/
theorem isInlineOf {n : NodeId} {version : Nat} {used : Option InlineStyle}
    (hversion : version ≤ s.engine.inlineCounter) (h : s.engine.IsInlineOf n version used) :
    s'.engine.IsInlineOf n version used := by
  refine ⟨h.1, fun heq => ?_⟩
  unfold Engine.inlineVersion at heq
  unfold Engine.inline?
  cases hget : s'.engine.inline.get? n with
  | none =>
      rw [hget] at heq
      exact h.1 heq
  | some entry =>
      -- A new entry has a number that no computation can have noted.
      obtain ⟨style, v⟩ := entry
      rw [hget] at heq
      have hv : version = v := heq
      rcases r.inline n style v hget with hold | ⟨hlt, -⟩
      · have := h.2 (by rw [Engine.inlineVersion, hold]; exact hv)
        rw [this, Engine.inline?, hold]
      · omega

/-- **What is retained stays right.** -/
theorem coherent (h : s.Coherent) : s'.Coherent where
  forest := r.forest
  known := by
    intro n k' hk'
    obtain ⟨k, hk, -⟩ := r.kept n k' hk'
    exact Nat.lt_of_lt_of_le (h.known n k hk) r.size
  within := by
    intro n k' hk'
    obtain ⟨k, hk, hstaler⟩ := r.kept n k' hk'
    exact (hstaler.isWithin (h.within n k hk)).mono r.counts
  inline := by
    intro n style version hv
    rcases r.inline n style version hv with hold | ⟨hlt, hle⟩
    · obtain ⟨hpos, hle⟩ := h.inline n style version hold
      exact ⟨hpos, Nat.le_trans hle r.counts.inline⟩
    · exact ⟨by omega, hle⟩
  candidates := by
    intro n k' hk' hline
    obtain ⟨k, hk, hstaler⟩ := r.kept n k' hk'
    have hn := h.known n k hk
    obtain ⟨hsheet, -, hsight⟩ := r.scan n hn hline
    rw [hstaler.candidates, h.candidates n k hk (r.scanLine hn hline), hsheet, hsight.candidates]
  style := by
    intro n k' hk'
    obtain ⟨k, hk, hstaler⟩ := r.kept n k' hk'
    have hn := h.known n k hk
    obtain ⟨used, hused, hstyle⟩ := h.style n k hk
    rw [hstaler.valueBasis]
    refine ⟨used, r.isInlineOf (h.within n k hk).inline hused, fun hline => ?_⟩
    obtain ⟨hcontext, -, hsight⟩ := r.style n hn hline
    obtain ⟨hsheet, -, -⟩ := r.scan n hn hline.scanLine
    have hparent : (s'.engine.keptParent? s'.tree n).map KeptStyle.style =
        (s.engine.keptParent? s.tree n).map KeptStyle.style := by
      have hself := s'.tree.mem_lineage_self n
      rcases r.keptParent? (hsight.parent n hself)
          (fun p => hline.scanLine.exists_kept_parent r.forest hself) with
        ⟨hnone', hnone⟩ | ⟨k', k, hk', hk, hstaler⟩
      · rw [hnone', hnone]
      · rw [hk', hk, Option.map_some, Option.map_some, hstaler.style]
    have hrules : s'.engine.rulesFor s'.tree .strict n = s.engine.rulesFor s.tree .strict n := by
      unfold Engine.rulesFor Stylesheet.rulesFor
      rw [hsheet, hsight.candidates]
    rw [hstaler.style, hstyle (r.styleLine hn hline), hcontext, hparent, hrules]

end Retains

end Session

end WidgetStyle
