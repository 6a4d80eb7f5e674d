import WidgetStyle.Proofs.Engine.Changes

/-!
# WidgetStyle.Proofs.Engine.Refresh — bringing a node up to date

Keeping a new result of a node gives it a number that no other result has noted, and so breaks the
lines of all that hangs below it; the lines elsewhere are untouched (`Coherent.keep`).  A new scan
does the same to the lines of scans, while candidates that are kept once more leave these whole.

Bringing a node up to date keeps the invariant once its ancestors are up to date
(`Coherent.refreshNode`).  It leaves the node current, and the results of all other nodes alone
(`NodeRefreshed`).
-/

namespace WidgetStyle

namespace Engine

/-- Nothing of what is kept for a node is out of date. -/
def IsCurrent (e : Engine) (t : Tree) (n : NodeId) : Prop :=
  ∃ k, e.kept.get? n = some k ∧ k.freshness = .fresh ∧ k.scanBasis = e.scanBasis t n ∧
    k.valueBasis = e.valueBasis t n

theorem IsCurrent.holdsStyle {e : Engine} {t : Tree} {n : NodeId} (h : e.IsCurrent t n) :
    e.HoldsStyle t n := by
  obtain ⟨k, hk, hfresh, hscan, hvalue⟩ := h
  exact ⟨k, hk, hfresh, hscan, by rw [hvalue]; rfl, by rw [hvalue]⟩

/-- What of a node is used again: everything, when it is current; its candidates, when its scan
holds; or nothing. -/
theorem refreshNode_cases (e : Engine) (t : Tree) (n : NodeId) :
    (e.IsCurrent t n ∧ refreshNode t e n = e) ∨
      (∃ k, e.kept.get? n = some k ∧ e.HoldsScan t n ∧
        refreshNode t e n = e.keep t n k.candidates k.scan) ∨
      refreshNode t e n = e.scan t n := by
  unfold refreshNode reuse
  cases hk : e.kept.get? n with
  | none => exact Or.inr (Or.inr rfl)
  | some k =>
      simp only
      by_cases hscan : (decide (k.freshness = .invalid) || decide (k.scanBasis ≠ e.scanBasis t n)) =
          true
      · rw [if_pos hscan]
        exact Or.inr (Or.inr rfl)
      · rw [if_neg hscan]
        have hvalid : k.freshness ≠ .invalid ∧ k.scanBasis = e.scanBasis t n := by
          simpa using hscan
        by_cases hvalue : (decide (k.freshness = .stateChanged) ||
            decide (k.valueBasis ≠ e.valueBasis t n)) = true
        · rw [if_pos hvalue]
          exact Or.inr (Or.inl ⟨k, rfl, ⟨k, hk, hvalid⟩, rfl⟩)
        · rw [if_neg hvalue]
          have hcurrent : k.freshness ≠ .stateChanged ∧ k.valueBasis = e.valueBasis t n := by
            simpa using hvalue
          refine Or.inl ⟨⟨k, hk, ?_, hvalid.2, hcurrent.2⟩, rfl⟩
          cases hfreshness : k.freshness with
          | fresh => rfl
          | stateChanged => exact absurd hfreshness hcurrent.1
          | invalid => exact absurd hfreshness hvalid.1

end Engine

/-- The result that `Engine.keep` keeps. -/
structure KeptStyle.IsResult (k : KeptStyle) (e : Engine) (t : Tree) (n : NodeId)
    (candidates : List Nat) (scan : Nat) : Prop where
  style : k.style = e.styleFrom t n candidates
  reported : k.reported = ((e.kept.get? n).map KeptStyle.reported).getD k.style
  candidates : k.candidates = candidates
  scanBasis : k.scanBasis = e.scanBasis t n
  valueBasis : k.valueBasis = e.valueBasis t n
  generation : k.generation = nextCount e.generation
  scan : k.scan = scan
  freshness : k.freshness = .fresh

namespace Engine

/-- The engine that keeps one more result. -/
def withResult (e : Engine) (n : NodeId) (k : KeptStyle) : Engine :=
  { e with kept := e.kept.insert n k, generation := nextCount e.generation }

theorem exists_keep (e : Engine) (t : Tree) (n : NodeId) (candidates : List Nat) (scan : Nat) :
    ∃ k, KeptStyle.IsResult k e t n candidates scan ∧
      e.keep t n candidates scan = e.withResult n k :=
  ⟨_, ⟨rfl, rfl, rfl, rfl, rfl, rfl, rfl, rfl⟩, rfl⟩

/-! ## One more result -/

section WithResult

variable {e : Engine} {t : Tree} {n m : NodeId} {k : KeptStyle}

theorem get?_withResult_self : (e.withResult n k).kept.get? n = some k :=
  Assoc.get?_insert_self _ _ _

theorem get?_withResult_of_ne (h : m ≠ n) : (e.withResult n k).kept.get? m = e.kept.get? m :=
  Assoc.get?_insert_of_ne _ _ h

theorem keptParent?_withResult (h : t.parent? m = some n) :
    (e.withResult n k).keptParent? t m = some k := by
  unfold keptParent?
  rw [h]
  exact get?_withResult_self

theorem keptParent?_withResult_of_ne (h : t.parent? m ≠ some n) :
    (e.withResult n k).keptParent? t m = e.keptParent? t m := by
  unfold keptParent?
  cases hp : t.parent? m with
  | none => rfl
  | some p => exact get?_withResult_of_ne fun hpn => h (hpn ▸ hp)

theorem scanBasis_withResult_of_ne (h : t.parent? m ≠ some n) :
    (e.withResult n k).scanBasis t m = e.scanBasis t m := by
  unfold scanBasis
  rw [keptParent?_withResult_of_ne h]
  rfl

theorem valueBasis_withResult_of_ne (h : t.parent? m ≠ some n) :
    (e.withResult n k).valueBasis t m = e.valueBasis t m := by
  unfold valueBasis
  rw [keptParent?_withResult_of_ne h]
  rfl

/-- Nodes that are not below the node hold the scans that they held. -/
theorem holdsScan_of_withResult (hm : m ≠ n) (hp : t.parent? m ≠ some n)
    (h : (e.withResult n k).HoldsScan t m) : e.HoldsScan t m := by
  obtain ⟨x, hx, hvalid, hbasis⟩ := h
  rw [get?_withResult_of_ne hm] at hx
  rw [scanBasis_withResult_of_ne hp] at hbasis
  exact ⟨x, hx, hvalid, hbasis⟩

theorem holdsStyle_of_withResult (hm : m ≠ n) (hp : t.parent? m ≠ some n)
    (h : (e.withResult n k).HoldsStyle t m) : e.HoldsStyle t m := by
  obtain ⟨x, hx, hfresh, hbasis, hglobals, hparent⟩ := h
  rw [get?_withResult_of_ne hm] at hx
  rw [scanBasis_withResult_of_ne hp] at hbasis
  rw [valueBasis_withResult_of_ne hp] at hparent
  exact ⟨x, hx, hfresh, hbasis, hglobals, hparent⟩

/-- A child that holds its scan has noted the number of the node's scan. -/
theorem parentScan_of_withResult (hm : m ≠ n) (hp : t.parent? m = some n)
    (h : (e.withResult n k).HoldsScan t m) :
    ∃ x, e.kept.get? m = some x ∧ x.scanBasis.parentScan = k.scan := by
  obtain ⟨x, hx, -, hbasis⟩ := h
  rw [get?_withResult_of_ne hm] at hx
  refine ⟨x, hx, ?_⟩
  rw [hbasis, scanBasis, keptParent?_withResult hp]
  rfl

/-- A child that holds its style has noted the number of the node's computation. -/
theorem parent_of_withResult (hm : m ≠ n) (hp : t.parent? m = some n)
    (h : (e.withResult n k).HoldsStyle t m) :
    ∃ x, e.kept.get? m = some x ∧ x.valueBasis.parent = k.generation := by
  obtain ⟨x, hx, -, -, -, hparent⟩ := h
  rw [get?_withResult_of_ne hm] at hx
  refine ⟨x, hx, ?_⟩
  rw [hparent, valueBasis, keptParent?_withResult hp]
  rfl

/-- If the number of the node's scan is the old one, its children hold the scans they held. -/
theorem holdsScan_of_withResult_of_same (hm : m ≠ n) (hp : t.parent? m = some n) {old : KeptStyle}
    (hold : e.kept.get? n = some old) (hsame : old.scan = k.scan)
    (h : (e.withResult n k).HoldsScan t m) : e.HoldsScan t m := by
  obtain ⟨x, hx, hvalid, hbasis⟩ := h
  rw [get?_withResult_of_ne hm] at hx
  refine ⟨x, hx, hvalid, ?_⟩
  have hparent : e.keptParent? t m = some old := by
    rw [keptParent?, hp]
    exact hold
  rw [hbasis, scanBasis, scanBasis, keptParent?_withResult hp, hparent, Option.map_some,
    Option.map_some, hsame]
  rfl

end WithResult

end Engine

namespace Session

section WithResult

variable {e : Engine} {t : Tree} {n m : NodeId} {k : KeptStyle}

/-- The number of a scan may be used: it is that of the node's last scan, which still holds, or it
has been noted nowhere. -/
def ScanFits (e : Engine) (t : Tree) (n : NodeId) (scan : Nat) : Prop :=
  (∃ old, e.kept.get? n = some old ∧ old.scan = scan ∧ e.HoldsScan t n) ∨
    ∀ m x, e.kept.get? m = some x → x.scanBasis.parentScan < scan

theorem scanLine_of_withResult (ht : t.IsForest) (hscan : ScanFits e t n k.scan) (hm : m ≠ n)
    (h : (settled (e.withResult n k) t).ScanLine m) : (settled e t).ScanLine m := by
  by_cases hmem : n ∈ t.lineage m
  · -- The way from `m` up to `n` passes through a child of `n`.
    obtain ⟨c, hc, hp⟩ := ht.exists_child_of_mem_lineage hmem (Ne.symm hm)
    have hcn : c ≠ n := fun heq => ht.parent?_ne_self n (heq ▸ hp)
    obtain ⟨x, hx, hnoted⟩ := Engine.parentScan_of_withResult hcn hp (h c hc).2
    rcases hscan with ⟨old, hold, hsame, hholds⟩ | hnew
    · intro y hy
      refine ⟨List.not_mem_nil, ?_⟩
      by_cases hyn : y = n
      · exact hyn ▸ hholds
      · by_cases hyp : t.parent? y = some n
        · exact Engine.holdsScan_of_withResult_of_same hyn hyp hold hsame (h y hy).2
        · exact Engine.holdsScan_of_withResult hyn hyp (h y hy).2
    · -- The number is new, and the child of `n` on the way would have noted it.
      have := hnew c x hx
      omega
  · intro y hy
    have hyn : y ≠ n := fun heq => hmem (heq ▸ hy)
    have hyp : t.parent? y ≠ some n := fun hp => hmem (ht.parent_mem_lineage hy hp)
    exact ⟨List.not_mem_nil, Engine.holdsScan_of_withResult hyn hyp (h y hy).2⟩

theorem styleLine_of_withResult (h : (settled e t).Coherent)
    (hgeneration : e.generation < k.generation) (hm : m ≠ n)
    (hline : (settled (e.withResult n k) t).StyleLine m) :
    n ∉ t.lineage m ∧ (settled e t).StyleLine m := by
  have ht : t.IsForest := h.forest
  -- A child of `n` on the way would have noted a number that was not given out yet.
  have hmem : n ∉ t.lineage m := by
    intro hmem
    obtain ⟨c, hc, hp⟩ := ht.exists_child_of_mem_lineage hmem (Ne.symm hm)
    have hcn : c ≠ n := fun heq => ht.parent?_ne_self n (heq ▸ hp)
    obtain ⟨x, hx, hnoted⟩ := Engine.parent_of_withResult hcn hp (hline c hc).2
    have hle : x.valueBasis.parent ≤ e.generation := (h.within c x hx).parent
    omega
  refine ⟨hmem, fun y hy => ⟨⟨List.not_mem_nil, List.not_mem_nil⟩, ?_⟩⟩
  have hyn : y ≠ n := fun heq => hmem (heq ▸ hy)
  have hyp : t.parent? y ≠ some n := fun hp => hmem (ht.parent_mem_lineage hy hp)
  exact Engine.holdsStyle_of_withResult hyn hyp (hline y hy).2

/-- An inline style is found again by the version it has now. -/
theorem Coherent.isInlineOf_self {s : Session} (h : s.Coherent) (n : NodeId) :
    s.engine.IsInlineOf n (s.engine.inlineVersion n) (s.engine.inline? n) := by
  refine ⟨fun hzero => ?_, fun _ => rfl⟩
  unfold Engine.inlineVersion at hzero
  unfold Engine.inline?
  cases hget : s.engine.inline.get? n with
  | none => rfl
  | some entry =>
      rw [hget] at hzero
      have hpos := (h.inline n entry.1 entry.2 hget).1
      have : entry.2 = 0 := hzero
      omega

/-- A version in use is at most the counter. -/
theorem Coherent.inlineVersion_le {s : Session} (h : s.Coherent) (n : NodeId) :
    s.engine.inlineVersion n ≤ s.engine.inlineCounter := by
  unfold Engine.inlineVersion
  cases hget : s.engine.inline.get? n with
  | none => exact Nat.zero_le _
  | some entry => exact (h.inline n entry.1 entry.2 hget).2

theorem Coherent.keptParent?_within {s : Session} (h : s.Coherent) {n : NodeId} {k : KeptStyle}
    (hk : s.engine.keptParent? s.tree n = some k) : k.IsWithin s.engine := by
  obtain ⟨p, -, hp⟩ := Option.bind_eq_some_iff.mp hk
  exact h.within p k hp

/-- What a new result has noted was given out. -/
theorem Coherent.isWithin_of_isResult (h : (settled e t).Coherent) {candidates : List Nat}
    {scan : Nat} (hk : k.IsResult e t n candidates scan) (hle : scan ≤ e.generation)
    (hlimit : nextCount e.generation < counterLimit) : k.IsWithin (e.withResult n k) := by
  have hlt : e.generation < (e.withResult n k).generation := lt_nextCount hlimit
  -- What is noted of the parent is a number of the parent's result, or zero.
  have hparent : ∀ f : KeptStyle → Nat, (∀ p : KeptStyle, p.IsWithin e → f p ≤ e.generation) →
      ((e.keptParent? t n).map f).getD 0 ≤ e.generation := by
    intro f hf
    cases hp : e.keptParent? t n with
    | none => exact Nat.zero_le _
    | some p => exact hf p (h.keptParent?_within hp)
  constructor
  case generation => exact Nat.le_of_eq hk.generation
  case scan =>
    have := hk.scan
    omega
  case parent =>
    rw [hk.valueBasis]
    exact Nat.le_trans (hparent _ fun p hp => hp.generation) (Nat.le_of_lt hlt)
  case parentScan =>
    rw [hk.scanBasis]
    exact Nat.le_trans (hparent _ fun p hp => hp.scan) (Nat.le_of_lt hlt)
  case globals =>
    rw [hk.valueBasis]
    exact Nat.le_refl _
  case inline =>
    rw [hk.valueBasis]
    exact h.inlineVersion_le n
  case exchanges =>
    rw [hk.scanBasis]
    exact Nat.le_refl _
  case version =>
    intro _
    rw [hk.scanBasis]
    exact Nat.le_refl _

/-- **One more result keeps the invariant**, when its candidates are right and it is numbered so
that no line closes by mistake. -/
theorem Coherent.keep (h : (settled e t).Coherent) (hn : n < t.size) {candidates : List Nat}
    {scan : Nat} (hlimit : nextCount e.generation < counterLimit)
    (hcandidates : candidates = e.sheet.candidates t .loose n) (hle : scan ≤ e.generation)
    (hscan : ScanFits e t n scan) : (settled (e.keep t n candidates scan) t).Coherent := by
  have hlt := lt_nextCount hlimit
  have ht : t.IsForest := h.forest
  obtain ⟨k, hk, hkeep⟩ := e.exists_keep t n candidates scan
  have hgeneration : e.generation < k.generation := hk.generation ▸ hlt
  have counts : e.CountsTo (e.withResult n k) :=
    { Engine.CountsTo.refl e with generation := Nat.le_of_lt hlt }
  have hself : ∀ x, (e.withResult n k).kept.get? n = some x → x = k := by
    intro x hx
    rw [Engine.get?_withResult_self] at hx
    exact (Option.some.inj hx).symm
  rw [hkeep]
  constructor
  case forest => exact ht
  case known =>
    intro m x hx
    by_cases hm : m = n
    · exact hm ▸ hn
    · exact h.known m x (Engine.get?_withResult_of_ne hm ▸ hx)
  case within =>
    intro m x hx
    by_cases hm : m = n
    · subst hm
      rw [hself x hx]
      exact h.isWithin_of_isResult hk hle hlimit
    · exact (h.within m x (Engine.get?_withResult_of_ne hm ▸ hx)).mono counts
  case inline => exact h.inline
  case candidates =>
    intro m x hx hline
    by_cases hm : m = n
    · subst hm
      rw [hself x hx, hk.candidates]
      exact hcandidates
    · exact h.candidates m x (Engine.get?_withResult_of_ne hm ▸ hx)
        (scanLine_of_withResult ht (hk.scan ▸ hscan) hm hline)
  case style =>
    intro m x hx
    by_cases hm : m = n
    · subst hm
      rw [hself x hx, hk.valueBasis]
      -- The new result: narrowing right candidates gives the rules that select the node now.
      refine ⟨e.inline? m, h.isInlineOf_self m, fun _ => ?_⟩
      have hparent : (e.withResult m k).keptParent? t m = e.keptParent? t m :=
        Engine.keptParent?_withResult_of_ne (ht.parent?_ne_self m)
      rw [hk.style, hparent, Engine.styleFrom, hcandidates, Stylesheet.narrow_candidates]
      rfl
    · obtain ⟨used, hused, hstyle⟩ := h.style m x (Engine.get?_withResult_of_ne hm ▸ hx)
      refine ⟨used, hused, fun hline => ?_⟩
      obtain ⟨hmem, hold⟩ := styleLine_of_withResult h hgeneration hm hline
      have hparent : (e.withResult n k).keptParent? t m = e.keptParent? t m :=
        Engine.keptParent?_withResult_of_ne fun hp =>
          hmem (ht.parent_mem_lineage (t.mem_lineage_self m) hp)
      rw [hparent, hstyle hold]
      rfl

end WithResult

end Session

/-! ## Bringing one node up to date -/

namespace Engine

variable {e e' : Engine} {t : Tree} {n m : NodeId}

/-- What is current stays current while its result and its parent's stay. -/
theorem IsCurrent.congr (h : e.IsCurrent t m) (bare : e'.bare = e.bare)
    (self : e'.kept.get? m = e.kept.get? m) (parent : e'.keptParent? t m = e.keptParent? t m) :
    e'.IsCurrent t m := by
  obtain ⟨-, -, hsheet, hexchanges, -, hglobals, hinline, -⟩ := bare_eq_bare_iff.mp bare
  have hedition : e'.edition = e.edition := by
    rw [edition, edition, hsheet, hexchanges]
  obtain ⟨k, hk, hfresh, hscan, hvalue⟩ := h
  refine ⟨k, self.trans hk, hfresh, ?_, ?_⟩
  · rw [hscan, scanBasis, scanBasis, hedition, parent]
  · rw [hvalue, valueBasis, valueBasis, hglobals, parent, inlineVersion, inlineVersion, hinline]

/-- What bringing a node up to date does to what is kept, when its parent is up to date: the node is
current, its report stays or is its first style, and every other result is what it was. -/
structure NodeRefreshed (t : Tree) (e e' : Engine) (n : NodeId) : Prop where
  current : e'.IsCurrent t n
  others : ∀ m, m ≠ n → e'.kept.get? m = e.kept.get? m
  reported : ∀ k', e'.kept.get? n = some k' →
    k'.reported = ((e.kept.get? n).map KeptStyle.reported).getD k'.style

theorem nodeRefreshed_of_current (h : e.IsCurrent t n) : NodeRefreshed t e e n where
  current := h
  others := fun _ _ => rfl
  reported := by
    intro k hk
    rw [hk]
    rfl

theorem nodeRefreshed_keep (ht : t.IsForest) (e : Engine) (n : NodeId) (candidates : List Nat)
    (scan : Nat) : NodeRefreshed t e (e.keep t n candidates scan) n := by
  obtain ⟨k, hk, hkeep⟩ := e.exists_keep t n candidates scan
  rw [hkeep]
  constructor
  case current =>
    refine ⟨k, get?_withResult_self, hk.freshness, ?_, ?_⟩
    · rw [hk.scanBasis, scanBasis_withResult_of_ne (ht.parent?_ne_self n)]
    · rw [hk.valueBasis, valueBasis_withResult_of_ne (ht.parent?_ne_self n)]
  case others => exact fun m hm => get?_withResult_of_ne hm
  case reported =>
    intro k' hk'
    rw [get?_withResult_self] at hk'
    obtain rfl := Option.some.inj hk'
    exact hk.reported

theorem nodeRefreshed_refreshNode (ht : t.IsForest) (e : Engine) (n : NodeId) :
    NodeRefreshed t e (refreshNode t e n) n := by
  rcases e.refreshNode_cases t n with ⟨hcurrent, heq⟩ | ⟨k, -, -, heq⟩ | heq
  · rw [heq]
    exact nodeRefreshed_of_current hcurrent
  · rw [heq]
    exact nodeRefreshed_keep ht e n _ _
  · -- A scan takes a number first, which is not seen in what is kept.
    rw [heq]
    have h := nodeRefreshed_keep ht { e with generation := nextCount e.generation } n
      (e.sheet.candidates t .loose n) (nextCount e.generation)
    exact ⟨h.current, h.others, h.reported⟩

/-- Only what is kept and the counter change. -/
theorem bare_refreshNode (t : Tree) (e : Engine) (n : NodeId) :
    (refreshNode t e n).bare = e.bare := by
  rcases e.refreshNode_cases t n with ⟨-, heq⟩ | ⟨k, -, -, heq⟩ | heq
  · rw [heq]
  · rw [heq]
    rfl
  · rw [heq]
    rfl

/-- One number is taken for a scan and one for a computation. -/
theorem generation_refreshNode_le (t : Tree) (e : Engine) (n : NodeId) :
    (refreshNode t e n).generation ≤ e.generation + 2 := by
  have hnext : ∀ k, nextCount k ≤ k + 1 := fun k => Nat.min_le_left _ _
  rcases e.refreshNode_cases t n with ⟨-, heq⟩ | ⟨k, -, -, heq⟩ | heq
  · rw [heq]
    omega
  · rw [heq]
    have : (e.keep t n k.candidates k.scan).generation ≤ e.generation + 1 := hnext _
    omega
  · rw [heq]
    have hfirst := hnext e.generation
    have hsecond : (e.scan t n).generation ≤ nextCount e.generation + 1 := hnext _
    omega

/-- Below its limit the counter only grows. -/
theorem generation_le_refreshNode (h : (refreshNode t e n).generation < counterLimit) :
    e.generation ≤ (refreshNode t e n).generation := by
  rcases e.refreshNode_cases t n with ⟨-, heq⟩ | ⟨k, -, -, heq⟩ | heq
  · rw [heq]
  · rw [heq] at h ⊢
    exact Nat.le_of_lt (lt_nextCount h)
  · rw [heq] at h ⊢
    have hsecond : nextCount e.generation < nextCount (nextCount e.generation) := lt_nextCount h
    change nextCount (nextCount e.generation) < counterLimit at h
    have hfirst : e.generation < nextCount e.generation := lt_nextCount (by omega)
    show e.generation ≤ nextCount (nextCount e.generation)
    omega

end Engine

namespace Session

variable {e : Engine} {t : Tree} {n : NodeId}

/-- A number may be taken at any time. -/
theorem Coherent.nextGeneration (h : (settled e t).Coherent)
    (hlimit : nextCount e.generation < counterLimit) :
    (settled { e with generation := nextCount e.generation } t).Coherent := by
  refine Retains.coherent (s := settled e t) ?_ h
  exact
    { Retains.refl h with
      counts := { Engine.CountsTo.refl e with generation := Nat.le_of_lt (lt_nextCount hlimit) } }

/-- Bringing a node up to date whose ancestors are keeps the invariant. -/
theorem Coherent.refreshNode (h : (settled e t).Coherent) (hn : n < t.size)
    (above : ∀ m ∈ t.ancestors n, e.IsCurrent t m)
    (hlimit : (Engine.refreshNode t e n).generation < counterLimit) :
    (settled (Engine.refreshNode t e n) t).Coherent := by
  rcases e.refreshNode_cases t n with ⟨-, heq⟩ | ⟨k, hk, hholds, heq⟩ | heq
  · rw [heq]
    exact h
  · -- The candidates are used again: the scan holds, and so do those of the ancestors.
    rw [heq] at hlimit ⊢
    have hline : (settled e t).ScanLine n := by
      intro m hm
      refine ⟨List.not_mem_nil, ?_⟩
      rcases List.mem_cons.mp hm with rfl | hm
      · exact hholds
      · exact (above m hm).holdsStyle.holdsScan
    exact h.keep hn hlimit (h.candidates n k hk hline) (h.within n k hk).scan
      (Or.inl ⟨k, hk, rfl, hholds⟩)
  · -- A new scan takes a number of its own, which nothing has noted.
    rw [heq] at hlimit ⊢
    change nextCount (nextCount e.generation) < counterLimit at hlimit
    have hsecond := lt_nextCount hlimit
    have hfirst : nextCount e.generation < counterLimit := by omega
    refine (h.nextGeneration hfirst).keep hn hlimit rfl (Nat.le_refl _) (Or.inr ?_)
    intro m x hx
    exact Nat.lt_of_le_of_lt (h.within m x hx).parentScan (lt_nextCount hfirst)

end Session

end WidgetStyle
