import WidgetStyle.Proofs.Sheet.Combination
import WidgetStyle.Proofs.Sheet.Index

/-!
# WidgetStyle.Proofs.Sheet.Removal — taking a layer out again

A layer is a sheet in which everything carries one marker (`IsLayer`).  It is put over a sheet by
combining the two, and taken out again by removing the marker.  What is left of the rules is found
by one filter (`rules_removeMarker`), and the index is the one that these rules ask for
(`candidates_eq_of_rules`), so the rules behave as if the layer had never been there
(`removeMarker_combine`).

Keyframe sets do not come back that easily.  Rules of a layer stand behind the rules below them, but
a keyframe set takes the place of the one of its name.  After the removal the name is free
(`removeMarker_combine_frees_keyframes`).
-/

namespace WidgetStyle

namespace Stylesheet

/-! ## Removing -/

/-- The rules without the marker stay as they are, in their order. -/
theorem rules_removeMarker (s : Stylesheet) (marker : Nat) :
    (s.removeMarker marker).rules = s.rules.filter fun rule => rule.marker != marker := by
  rw [removeMarker]
  split
  · next hsame =>
      rw [Bool.and_eq_true, decide_eq_true_iff] at hsame
      exact (List.filter_sublist.eq_of_length hsame.1).symm
  · rfl

/-- A keyframe set is found after the removal if it is found before and lacks the marker. -/
theorem get?_keyframes_removeMarker (s : Stylesheet) (marker : Nat) (name : String) :
    (s.removeMarker marker).keyframes.get? name =
      (s.keyframes.get? name).filter fun set => set.marker != marker := by
  have hkept : (s.removeMarker marker).keyframes =
      s.keyframes.filter fun _ set => set.marker != marker := by
    rw [removeMarker]
    split
    · next hsame =>
        rw [Bool.and_eq_true, decide_eq_true_iff, decide_eq_true_iff] at hsame
        exact (Assoc.ext (List.filter_sublist.eq_of_length hsame.2)).symm
    · rfl
  refine Option.ext fun set => ?_
  rw [hkept, Assoc.get?_filter, Option.filter_eq_some_iff]

/-- Sheets that keep their index and have the same rules have the same candidates. -/
theorem candidates_eq_of_rules {s u : Stylesheet} (hs : s.IsIndexed) (hu : u.IsIndexed)
    (hrules : s.rules = u.rules) (t : Tree) (mode : MatchMode) (n : NodeId) :
    s.candidates t mode n = u.candidates t mode n := by
  have hrule? : s.rule? = u.rule? := funext fun i => by rw [rule?, rule?, hrules]
  have hprecedes : s.precedes = u.precedes := by
    funext i j
    rw [precedes, precedes, hrule?]
  have hselects : s.selectsAt t mode n = u.selectsAt t mode n := by
    funext i
    rw [selectsAt, selectsAt, hrule?]
  have hfiled : ∀ key, (s.index.get? key).getD [] = (u.index.get? key).getD [] := by
    intro key
    show filedUnder s.index key = filedUnder u.index key
    rw [hs key, hu key, hrules]
  rw [candidates, candidates, hprecedes, hselects]
  simp only [hfiled]

theorem rulesFor_eq_of_rules {s u : Stylesheet} (hs : s.IsIndexed) (hu : u.IsIndexed)
    (hrules : s.rules = u.rules) (t : Tree) (mode : MatchMode) (n : NodeId) :
    s.rulesFor t mode n = u.rulesFor t mode n := by
  have hrule? : s.rule? = u.rule? := funext fun i => by rw [rule?, rule?, hrules]
  rw [rulesFor, rulesFor, candidates_eq_of_rules hs hu hrules, rulesAt, rulesAt, hrule?]

/-! ## Layers -/

/-- Everything in the sheet carries the marker. -/
structure IsLayer (s : Stylesheet) (marker : Nat) : Prop where
  rules : ∀ rule ∈ s.rules, rule.marker = marker
  keyframes : ∀ name set, s.keyframes.get? name = some set → set.marker = marker

/-- A sheet becomes a layer by being marked anew. -/
theorem isLayer_setMarker {s : Stylesheet} {marker : Nat} (h : marker ≠ s.marker) :
    (s.setMarker marker).IsLayer marker := by
  rw [setMarker, if_neg h]
  constructor
  · intro rule hrule
    obtain ⟨old, -, rfl⟩ := List.mem_map.mp hrule
    rfl
  · intro name set hset
    rw [touch, Assoc.get?_mapValues] at hset
    obtain ⟨old, -, rfl⟩ := Option.map_eq_some_iff.mp hset
    rfl

/-- A marker is missing if neither a rule nor a keyframe set carries it. -/
theorem hasMarker_eq_false_iff {s : Stylesheet} {marker : Nat} :
    s.hasMarker marker = false ↔ (∀ rule ∈ s.rules, rule.marker ≠ marker) ∧
      ∀ name set, s.keyframes.get? name = some set → set.marker ≠ marker := by
  have hvalues : (∀ set ∈ s.keyframes.values, set.marker ≠ marker) ↔
      ∀ name set, s.keyframes.get? name = some set → set.marker ≠ marker := by
    constructor
    · intro h name set hset
      exact h set (List.mem_map.mpr ⟨(name, set), Assoc.get?_eq_some_iff.mp hset, rfl⟩)
    · intro h set hset
      obtain ⟨⟨name, _⟩, hentry, rfl⟩ := List.mem_map.mp hset
      exact h name _ (Assoc.get?_eq_some_iff.mpr hentry)
  rw [← hvalues, hasMarker, Bool.or_eq_false_iff, List.any_eq_false, List.any_eq_false]
  simp only [decide_eq_true_iff]

theorem mem_placeFrom {order : Nat} {rules : List StyleRule} {x : StyleRule}
    (h : x ∈ placeFrom order rules) : ∃ rule ∈ rules, ∃ place, x = rule.withOrder place := by
  induction rules generalizing order with
  | nil => exact absurd h List.not_mem_nil
  | cons rule rules ih =>
      rcases List.mem_cons.mp h with rfl | h
      · exact ⟨rule, List.mem_cons_self, order, rfl⟩
      · obtain ⟨found, hfound, place, rfl⟩ := ih h
        exact ⟨found, List.mem_cons_of_mem _ hfound, place, rfl⟩

section

variable {base layer : Stylesheet} (hlayer : layer.Reachable) {marker : Nat}
  (hbelow : base.hasMarker marker = false) (habove : layer.IsLayer marker)
include hlayer hbelow habove

/-- The rules below a layer are what is left when it is removed. -/
theorem rules_removeMarker_combine :
    ((base.combine layer).removeMarker marker).rules = base.rules := by
  have hkeep : (base.rules.filter fun rule => rule.marker != marker) = base.rules :=
    List.filter_eq_self.mpr fun rule hrule =>
      bne_iff_ne.mpr ((hasMarker_eq_false_iff.mp hbelow).1 rule hrule)
  have hdrop : ((placeFrom base.nextOrder (declaring layer.rules)).filter
      fun rule => rule.marker != marker) = [] := by
    refine List.filter_eq_nil_iff.mpr fun x hx => ?_
    obtain ⟨rule, hrule, place, rfl⟩ := mem_placeFrom hx
    have hmarker : (rule.withOrder place).marker = marker :=
      habove.rules rule (List.mem_filter.mp hrule).1
    simp [hmarker]
  rw [rules_removeMarker, (hlayer.rules_combine base).1, List.filter_append, hkeep, hdrop,
    List.append_nil]

/-- Of the keyframe sets below a layer those are left whose names the layer does not have. -/
theorem get?_keyframes_removeMarker_combine (hbase : base.Reachable) (name : String) :
    ((base.combine layer).removeMarker marker).keyframes.get? name =
      if layer.keyframes.contains name then none else base.keyframes.get? name := by
  rw [get?_keyframes_removeMarker, hbase.get?_keyframes_combine hlayer, Assoc.contains]
  cases hset : layer.keyframes.get? name with
  | some set =>
      have hmarker := habove.keyframes name set hset
      simp [hmarker]
  | none =>
      simp only [Option.none_or, Option.isSome_none, Bool.false_eq_true, if_false]
      refine Option.ext fun set => ?_
      rw [Option.filter_eq_some_iff, and_iff_left_iff_imp]
      exact fun hfound => bne_iff_ne.mpr ((hasMarker_eq_false_iff.mp hbelow).2 name set hfound)

end

/-- **A layer is taken out without a trace in the rules.**  Put a layer over a sheet that does not
have its marker, and remove the marker: the rules are those of the sheet, at the same places, and
every node has the same candidates and the same rules.  Keyframe sets are found as before, except
under the names that the layer has sets for; under these nothing is found. -/
theorem removeMarker_combine {base layer : Stylesheet} (hbase : base.Reachable)
    (hlayer : layer.Reachable) {marker : Nat} (hbelow : base.hasMarker marker = false)
    (habove : layer.IsLayer marker) :
    ((base.combine layer).removeMarker marker).rules = base.rules ∧
      (∀ t mode n,
        ((base.combine layer).removeMarker marker).candidates t mode n = base.candidates t mode n ∧
          ((base.combine layer).removeMarker marker).rulesFor t mode n = base.rulesFor t mode n) ∧
      ∀ name, ((base.combine layer).removeMarker marker).keyframes.get? name =
        if layer.keyframes.contains name then none else base.keyframes.get? name := by
  have hrules := rules_removeMarker_combine hlayer hbelow habove
  have hindexed := ((hbase.combine hlayer).removeMarker marker).isIndexed
  refine ⟨hrules, fun t mode n => ⟨?_, ?_⟩, ?_⟩
  · exact candidates_eq_of_rules hindexed hbase.isIndexed hrules t mode n
  · exact rulesFor_eq_of_rules hindexed hbase.isIndexed hrules t mode n
  · exact get?_keyframes_removeMarker_combine hlayer hbelow habove hbase

/-- The statement at a layer of one rule and two keyframe sets, one of which has the name of a set
below. -/
theorem removeMarker_combine_theme :
    let rule (text value : String) : StyleRule :=
      .ofDeclarations .empty ⟨⟨[.hasTag text]⟩, [], text⟩ [⟨"color", value, false⟩]
    let base := ((Stylesheet.empty.append (rule "label" "red")).putKeyframes
      { name := "pulse" }).putKeyframes { name := "spin" }
    let theme := (((Stylesheet.empty.append (rule "label" "blue")).putKeyframes
      { name := "pulse" }).putKeyframes { name := "fade" }).setMarker 7
    let s := (base.combine theme).removeMarker 7
    base.hasMarker 7 = false ∧ theme.IsLayer 7 ∧ (base.combine theme).rules.length = 2 ∧
      s.rules = base.rules ∧
      s.candidates (Tree.empty.addRoot "label") .strict 0 =
        base.candidates (Tree.empty.addRoot "label") .strict 0 ∧
      (s.keyframes.get? "spin").map KeyframeSet.marker = some 0 ∧
      s.keyframes.get? "pulse" = none ∧ s.keyframes.get? "fade" = none := by
  intro rule base theme s
  have hbase : base.Reachable := ((Reachable.empty.append _).putKeyframes _).putKeyframes _
  have htheme : theme.Reachable :=
    (((Reachable.empty.append _).putKeyframes _).putKeyframes _).setMarker 7
  have hbelow : base.hasMarker 7 = false := by decide +kernel
  have habove : theme.IsLayer 7 := isLayer_setMarker (by decide +kernel)
  obtain ⟨hrules, hfound, hkeyframes⟩ := removeMarker_combine hbase htheme hbelow habove
  refine ⟨hbelow, habove, by decide +kernel, hrules, (hfound _ _ _).1, ?_, ?_, ?_⟩
  · rw [hkeyframes, if_neg (by decide +kernel)]
    rfl
  · rw [hkeyframes, if_pos (by decide +kernel)]
  · rw [hkeyframes, if_pos (by decide +kernel)]

/-- **Keyframe sets do not come back.**  Put a layer with a keyframe set over a sheet with one of the
same name, and remove its marker: the sheet has lost its own. -/
theorem removeMarker_combine_frees_keyframes :
    let base := Stylesheet.empty.putKeyframes { name := "pulse" }
    let layer := (Stylesheet.empty.putKeyframes { name := "pulse" }).setMarker 7
    base.Reachable ∧ layer.Reachable ∧ base.hasMarker 7 = false ∧ layer.rules = [] ∧
      (∀ set ∈ layer.keyframes.values, set.marker = 7) ∧
      base.keyframes.contains "pulse" = true ∧
      ((base.combine layer).removeMarker 7).keyframes.contains "pulse" = false := by
  intro base layer
  have hbase : base.Reachable := Reachable.empty.putKeyframes _
  have hlayer : layer.Reachable := (Reachable.empty.putKeyframes _).setMarker 7
  exact ⟨hbase, hlayer, by decide +kernel, by decide +kernel, by decide +kernel, by decide +kernel,
    by decide +kernel⟩

end Stylesheet

end WidgetStyle
