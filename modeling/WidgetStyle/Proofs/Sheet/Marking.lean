import WidgetStyle.Proofs.Sheet.Concatenation
import WidgetStyle.Proofs.Sheet.Removal
import WidgetStyle.Proofs.Sheet.Versions

/-!
# WidgetStyle.Proofs.Sheet.Marking — when marking a sheet marks everything in it

A sheet remembers the marker that was set last, and asking for that marker again changes nothing.
This is right as long as everything in the sheet carries it (`IsUniform`).  A new sheet and one that was
read from a text are uniform, and so is every sheet that they are changed into by putting in only what
carries the marker of the sheet (`IsUniform.edited`).  Nothing enforces that, though: what comes in
brings its own marker along, and the sheet's marker does not say so.

So marking marks everything just in case the marker is new to the sheet or was on everything before
(`setMarker_marks_all_iff`).
-/

namespace WidgetStyle

namespace Stylesheet

/-! ## What marking and removing leave -/

/-- Nothing is in the sheet, neither a rule nor a keyframe set. -/
def IsBare (s : Stylesheet) : Prop := s.rules = [] ∧ s.keyframes = .empty

/-- Everything is marked when the marker is a new one or was on everything. -/
theorem isLayer_setMarker_iff (s : Stylesheet) (marker : Nat) :
    (s.setMarker marker).IsLayer marker ↔ marker ≠ s.marker ∨ s.IsLayer marker := by
  by_cases hnew : marker = s.marker
  · rw [setMarker, if_pos hnew, or_iff_right (fun hne => hne hnew)]
  · exact iff_of_true (isLayer_setMarker hnew) (Or.inl hnew)

theorem keyframes_eq_empty_iff {s : Stylesheet} :
    s.keyframes = .empty ↔ ∀ name, s.keyframes.get? name = none := by
  constructor
  · intro h name
    rw [h]
    rfl
  · intro h
    refine Assoc.ext (List.eq_nil_iff_forall_not_mem.mpr fun entry hentry => ?_)
    have hfound : s.keyframes.get? entry.1 = some entry.2 := Assoc.get?_eq_some_iff.mpr hentry
    rw [h] at hfound
    exact absurd hfound nofun

/-- Removing a marker leaves nothing just in case everything carries it. -/
theorem isBare_removeMarker_iff (s : Stylesheet) (marker : Nat) :
    (s.removeMarker marker).IsBare ↔ s.IsLayer marker := by
  have hrules : (s.removeMarker marker).rules = [] ↔ ∀ rule ∈ s.rules, rule.marker = marker := by
    rw [rules_removeMarker, List.filter_eq_nil_iff]
    exact forall₂_congr fun rule _ => by rw [bne_iff_ne, not_not]
  have hkeyframes : (s.removeMarker marker).keyframes = .empty ↔
      ∀ name set, s.keyframes.get? name = some set → set.marker = marker := by
    rw [keyframes_eq_empty_iff]
    refine forall_congr' fun name => ?_
    rw [get?_keyframes_removeMarker, Option.filter_eq_none_iff]
    exact forall₂_congr fun set _ => by rw [bne_iff_ne, not_not]
  rw [IsBare, hrules, hkeyframes]
  exact ⟨fun h => ⟨h.1, h.2⟩, fun h => ⟨h.rules, h.keyframes⟩⟩

/-! ## Sheets that carry their own marker -/

/-- Everything in the sheet carries the marker that was set last. -/
def IsUniform (s : Stylesheet) : Prop := s.IsLayer s.marker

/-- What a change puts into a sheet carries a marker.  Rules that declare nothing and keyframe sets
without a name of their own are not put in. -/
def Edit.Brings (marker : Nat) : Edit → Prop
  | .add rule | .append rule => rule.isEmpty = false → rule.marker = marker
  | .putKeyframes set => KeepsName set.name → set.marker = marker
  | .combine other => other.IsLayer marker
  | .setMarker _ | .removeMarker _ | .clear => True

/-- Along the changes, everything that is put in carries the marker that the sheet has then. -/
def BringsOwn : Stylesheet → List Edit → Prop
  | _, [] => True
  | s, e :: edits => e.Brings s.marker ∧ BringsOwn (e.apply s) edits

theorem isUniform_empty : IsUniform .empty :=
  ⟨fun _ hrule => absurd hrule List.not_mem_nil, fun _ _ hset => absurd hset nofun⟩

section

variable {s : Stylesheet} {marker : Nat} (h : s.IsLayer marker)
include h

theorem IsLayer.append {rule : StyleRule} (hrule : rule.isEmpty = false → rule.marker = marker) :
    (s.append rule).IsLayer marker := by
  rw [Stylesheet.append]
  split
  · exact h
  · next hempty =>
      refine ⟨fun x hx => ?_, h.keyframes⟩
      rcases List.mem_append.mp hx with hx | hx
      · exact h.rules x hx
      · rw [List.mem_singleton.mp hx]
        exact hrule (Bool.eq_false_iff.mpr hempty)

theorem IsLayer.putKeyframes {set : KeyframeSet} (hset : KeepsName set.name → set.marker = marker) :
    (s.putKeyframes set).IsLayer marker := by
  by_cases hname : KeepsName set.name
  · rw [putKeyframes_of_keepsName hname]
    refine ⟨h.rules, fun name found hfound => ?_⟩
    rw [touch, Assoc.get?_insert] at hfound
    split at hfound
    · rw [← Option.some.inj hfound]
      exact hset hname
    · exact h.keyframes name found hfound
  · have hskip : s.putKeyframes set = s := by
      rw [Stylesheet.putKeyframes, if_pos]
      simpa [KeepsName, Decidable.or_iff_not_imp_left] using hname
    rw [hskip]
    exact h

/-- Rules and keyframe sets that carry the marker can be put in one after another. -/
theorem IsLayer.foldl {rules : List StyleRule} {sets : List KeyframeSet}
    (hrules : ∀ rule ∈ rules, rule.marker = marker) (hsets : ∀ set ∈ sets, set.marker = marker) :
    (sets.foldl Stylesheet.putKeyframes (rules.foldl Stylesheet.append s)).IsLayer marker := by
  refine List.foldlRecOn (motive := fun u : Stylesheet => u.IsLayer marker) sets _
    (List.foldlRecOn (motive := fun u : Stylesheet => u.IsLayer marker) rules _ h ?_) ?_
  · exact fun u hu rule hrule => hu.append fun _ => hrules rule hrule
  · exact fun u hu set hset => hu.putKeyframes fun _ => hsets set hset

theorem IsLayer.combine {other : Stylesheet} (hother : other.IsLayer marker) :
    (s.combine other).IsLayer marker := by
  refine h.foldl (fun rule hrule => hother.rules rule (List.mem_mergeSort.mp hrule)) ?_
  intro set hset
  obtain ⟨⟨name, _⟩, hentry, rfl⟩ := List.mem_map.mp hset
  exact hother.keyframes name _ (Assoc.get?_eq_some_iff.mpr hentry)

omit h in
/-- Merging keeps the markers of all rules. -/
theorem map_marker_mergeRule? {rule : StyleRule} {rules merged : List StyleRule}
    (hmerge : mergeRule? rule rules = some merged) :
    merged.map StyleRule.marker = rules.map StyleRule.marker := by
  obtain ⟨before, target, after, rfl, -, -, rfl⟩ := exists_target_of_mergeRule? hmerge
  rw [List.map_append, List.map_append]
  rfl

theorem IsLayer.add {rule : StyleRule} (hrule : rule.isEmpty = false → rule.marker = marker) :
    (s.add rule).IsLayer marker := by
  unfold Stylesheet.add
  split
  · next merged hmerge =>
      refine ⟨fun x hx => ?_, h.keyframes⟩
      have hmarker : x.marker ∈ s.rules.map StyleRule.marker :=
        map_marker_mergeRule? hmerge ▸ List.mem_map_of_mem hx
      obtain ⟨old, hold, hsame⟩ := List.mem_map.mp hmarker
      rw [← hsame]
      exact h.rules old hold
  · exact h.append hrule

theorem IsLayer.removeMarker (other : Nat) : (s.removeMarker other).IsLayer marker := by
  refine ⟨fun rule hrule => ?_, fun name set hset => ?_⟩
  · rw [rules_removeMarker] at hrule
    exact h.rules rule (List.mem_filter.mp hrule).1
  · rw [get?_keyframes_removeMarker] at hset
    exact h.keyframes name set (Option.filter_eq_some_iff.mp hset).1

end

/-- What only puts something in leaves the marker of the sheet. -/
theorem marker_append (s : Stylesheet) (rule : StyleRule) : (s.append rule).marker = s.marker := by
  unfold append
  split <;> rfl

theorem marker_putKeyframes (s : Stylesheet) (set : KeyframeSet) :
    (s.putKeyframes set).marker = s.marker := by
  unfold putKeyframes
  split <;> rfl

theorem marker_foldl (s : Stylesheet) (rules : List StyleRule) (sets : List KeyframeSet) :
    (sets.foldl putKeyframes (rules.foldl append s)).marker = s.marker := by
  refine List.foldlRecOn (motive := fun u : Stylesheet => u.marker = s.marker) sets _
    (List.foldlRecOn (motive := fun u : Stylesheet => u.marker = s.marker) rules _ rfl ?_) ?_
  · exact fun u hu rule _ => (marker_append u rule).trans hu
  · exact fun u hu set _ => (marker_putKeyframes u set).trans hu

/-- **One change.**  A uniform sheet stays uniform when what is put in carries its marker. -/
theorem IsUniform.apply {s : Stylesheet} (h : s.IsUniform) {e : Edit} (he : e.Brings s.marker) :
    (e.apply s).IsUniform := by
  have keeps : ∀ {u : Stylesheet}, u.IsLayer s.marker → u.marker = s.marker → u.IsUniform :=
    fun hlayer hmarker => by rwa [IsUniform, hmarker]
  cases e with
  | add rule =>
      refine keeps (h.add he) ?_
      show (s.add rule).marker = s.marker
      unfold Stylesheet.add
      split
      · rfl
      · exact marker_append s rule
  | append rule => exact keeps (h.append he) (marker_append s rule)
  | combine other => exact keeps (h.combine he) (marker_foldl s _ _)
  | putKeyframes set => exact keeps (h.putKeyframes he) (marker_putKeyframes s set)
  | setMarker marker =>
      show (s.setMarker marker).IsUniform
      by_cases hnew : marker = s.marker
      · rwa [setMarker, if_pos hnew]
      · have hmarker : (s.setMarker marker).marker = marker := by rw [setMarker, if_neg hnew]; rfl
        rw [IsUniform, hmarker]
        exact isLayer_setMarker hnew
  | removeMarker marker =>
      refine keeps (h.removeMarker marker) ?_
      show (s.removeMarker marker).marker = s.marker
      simp only [Stylesheet.removeMarker]
      split <;> rfl
  | clear => exact ⟨isUniform_empty.rules, isUniform_empty.keyframes⟩

/-- **A run of changes.** -/
theorem IsUniform.edited {s : Stylesheet} (h : s.IsUniform) {edits : List Edit}
    (hedits : s.BringsOwn edits) : (s.edited edits).IsUniform := by
  induction edits generalizing s with
  | nil => exact h
  | cons e edits ih => exact ih (h.apply hedits.1) hedits.2

/-- A sheet that is read from a text is uniform. -/
theorem isUniform_parse (r : Registry) (text : String) : (parse r text).IsUniform := by
  have hpush : ∀ (rule : StyleRule) d, (rule.push r d).marker = rule.marker := fun rule d => by
    rw [StyleRule.push]
  have hrule : ∀ (selector : Selector) (ds : List Source.Declaration),
      (StyleRule.ofDeclarations r selector ds).marker = 0 := fun selector ds =>
    List.foldlRecOn (motive := fun rule : StyleRule => rule.marker = 0) ds _ rfl
      fun rule hrule d _ => (hpush rule d).trans hrule
  have hwrite : ∀ (set : KeyframeSet) offset block,
      (set.writeAt offset block).marker = set.marker := by
    intro set offset block
    rw [KeyframeSet.writeAt]
    cases KeyframeSet.mergeAt? (clampUnit offset) block set.frames <;> rfl
  have hset : ∀ source, (KeyframeSet.ofSource r source).marker = 0 := by
    intro source
    rw [KeyframeSet.ofSource]
    refine List.foldlRecOn (motive := fun set : KeyframeSet => set.marker = 0) _ _ rfl ?_
    intro set hset frame _
    refine List.foldlRecOn (motive := fun set : KeyframeSet => set.marker = 0) _ _ hset ?_
    exact fun set hset offset _ => (hwrite set offset _).trans hset
  have hlayer : (parse r text).IsLayer 0 := by
    rw [parse_eq]
    refine isUniform_empty.foldl (fun rule hmem => ?_) (fun set hmem => ?_)
    · obtain ⟨source, -, hmem⟩ := List.mem_flatMap.mp hmem
      obtain ⟨selector, -, rfl⟩ := List.mem_map.mp hmem
      exact hrule selector _
    · obtain ⟨source, -, rfl⟩ := List.mem_map.mp hmem
      exact hset source
  have hmarker : (parse r text).marker = 0 := marker_foldl .empty _ _
  rwa [IsUniform, hmarker]

/-! ## Marking everything -/

/-- **When marking marks everything.**  For every sheet and every marker: after the marker is set
everything carries it just in case it is not the one that was set last, or everything carries it
already; and just in these cases nothing is left when the marker is removed after that.  If the sheet
is uniform, as an empty or a parsed one, one of the two holds behind all changes that put in only what
carries the marker of the sheet. -/
theorem setMarker_marks_all_iff (s : Stylesheet) (marker : Nat) :
    ((s.setMarker marker).IsLayer marker ↔ marker ≠ s.marker ∨ s.IsLayer marker) ∧
      (((s.setMarker marker).removeMarker marker).IsBare ↔
        marker ≠ s.marker ∨ s.IsLayer marker) ∧
      ∀ edits : List Edit, s.IsUniform → s.BringsOwn edits →
        ((s.edited edits).setMarker marker).IsLayer marker ∧
          (((s.edited edits).setMarker marker).removeMarker marker).IsBare := by
  have hremoved : ∀ s : Stylesheet,
      ((s.setMarker marker).removeMarker marker).IsBare ↔ marker ≠ s.marker ∨ s.IsLayer marker :=
    fun s => (isBare_removeMarker_iff _ _).trans (isLayer_setMarker_iff s marker)
  refine ⟨isLayer_setMarker_iff s marker, hremoved s, fun edits hs hedits => ?_⟩
  have hone : marker ≠ (s.edited edits).marker ∨ (s.edited edits).IsLayer marker := by
    by_cases hnew : marker = (s.edited edits).marker
    · exact Or.inr (hnew ▸ hs.edited hedits)
    · exact Or.inl hnew
  exact ⟨(isLayer_setMarker_iff _ _).mpr hone, (hremoved _).mpr hone⟩

/-- The statement at a parsed sheet that is marked before a rule with that marker is put in. -/
theorem setMarker_marks_all_iff_theme :
    let base := parse .empty "label\x7bcolor:red\x7d@keyframes pulse\x7b\x7d"
    let rule : StyleRule :=
      { StyleRule.ofDeclarations .empty ⟨⟨[.hasTag "button"]⟩, [], "button"⟩
          [⟨"color", "blue", false⟩] with marker := 7 }
    let edits : List Edit := [.setMarker 7, .append rule]
    let s := base.edited edits
    base.IsUniform ∧ base.BringsOwn edits ∧ s.rules.length = 2 ∧ s.keyframes.size = 1 ∧
      (s.setMarker 7).IsLayer 7 ∧ ((s.setMarker 3).removeMarker 3).IsBare := by
  intro base rule edits s
  have hbase : base.IsUniform := isUniform_parse _ _
  have hedits : base.BringsOwn edits := ⟨trivial, fun _ => by decide +kernel, trivial⟩
  have hseven := (setMarker_marks_all_iff base 7).2.2 edits hbase hedits
  have hthree := (setMarker_marks_all_iff base 3).2.2 edits hbase hedits
  exact ⟨hbase, hedits, by decide +kernel, by decide +kernel, hseven.1, hthree.2⟩

/-- **A rule that came later stays unmarked.**  Mark an empty sheet, put in a rule with another marker,
and mark the sheet once more: the rule keeps its marker, and it is still there when everything with
the marker of the sheet has been removed. -/
theorem setMarker_leaves_later_rule :
    let rule : StyleRule :=
      .ofDeclarations .empty ⟨⟨[.hasTag "label"]⟩, [], "label"⟩ [⟨"color", "red", false⟩]
    let s := (Stylesheet.empty.setMarker 7).append rule
    s.Reachable ∧ (s.setMarker 7).rules.map StyleRule.marker = [0] ∧ ¬ (s.setMarker 7).IsLayer 7 ∧
      ((s.setMarker 7).removeMarker 7).rules.length = 1 := by
  intro rule s
  have hmarkers : (s.setMarker 7).rules.map StyleRule.marker = [0] := by decide +kernel
  refine ⟨(Reachable.empty.setMarker 7).append rule, hmarkers, fun hlayer => ?_, by decide +kernel⟩
  obtain ⟨found, hfound, hzero⟩ := List.mem_map.mp (hmarkers ▸ List.mem_singleton_self (0 : Nat))
  have hseven := hlayer.rules found hfound
  rw [hzero] at hseven
  exact absurd hseven (by decide)

end Stylesheet

end WidgetStyle
