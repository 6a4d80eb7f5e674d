import WidgetStyle.Proofs.Cascade.Layers
import WidgetStyle.Proofs.Sheet.Combination

/-!
# WidgetStyle.Proofs.Cascade.Combination — the cascade over two sheets

Places only settle ties, and the rules of a sheet stand in the order of their places.  So the
winner for a key can be told without looking at places at all: it is the last of the strongest
declarations, in the order in which the sheet declares them (`Reachable.winner?_eq`).

Put in this way the winner of two sheets is easily told.  A combined sheet declares what the first
declares and then what the second declares (`declared_combine`), and the last of the strongest of
two lists is that of the second unless the first has a stronger one.
-/

namespace WidgetStyle

/-- Declarations compare by importance, then specificity. -/
abbrev Declaration.byStrength : Declaration → Declaration → Ordering :=
  compareLex (compareOn Declaration.important) (compareOn Declaration.specificity)

/-- The second declaration, unless it is weaker than the first. -/
def Declaration.stronger (d e : Declaration) : Declaration :=
  if Declaration.byStrength e d = .lt then d else e

namespace Stylesheet

/-! ## What rules declare for a node -/

/-- What rules declare for a node, rule after rule. -/
def declared (t : Tree) (mode : MatchMode) (n : NodeId) (rules : List StyleRule) :
    List Declaration :=
  (rules.filter fun rule => rule.selector.selects t mode n).flatMap fun rule =>
    rule.block.declarations

section

variable (t : Tree) (mode : MatchMode) (n : NodeId)

theorem declared_cons (rule : StyleRule) (rules : List StyleRule) :
    declared t mode n (rule :: rules) =
      (if rule.selector.selects t mode n then rule.block.declarations else []) ++
        declared t mode n rules := by
  rw [declared, List.filter_cons]
  split
  · rw [List.flatMap_cons]
    rfl
  · rfl

theorem declared_append (rules rules' : List StyleRule) :
    declared t mode n (rules ++ rules') = declared t mode n rules ++ declared t mode n rules' := by
  rw [declared, List.filter_append, List.flatMap_append]
  rfl

/-- Other places do not change what is declared. -/
theorem declared_placeFrom (order : Nat) (rules : List StyleRule) :
    declared t mode n (placeFrom order rules) = declared t mode n rules := by
  induction rules generalizing order with
  | nil => rfl
  | cons rule rules ih =>
      rw [placeFrom, declared_cons, declared_cons, ih]
      rfl

/-- Empty rules can be left out. -/
theorem declared_declaring (rules : List StyleRule) :
    declared t mode n (declaring rules) = declared t mode n rules := by
  induction rules with
  | nil => rfl
  | cons rule rules ih =>
      rw [declaring, List.filter_cons, declared_cons, ← ih]
      cases hempty : rule.isEmpty with
      | false => exact declared_cons t mode n rule (declaring rules)
      | true =>
          have hnone : rule.block.declarations = [] :=
            List.isEmpty_iff.mp ((Bool.and_eq_true _ _).mp hempty).1
          rw [hnone, ite_self]
          rfl

theorem declared_combine (s : Stylesheet) {other : Stylesheet} (h : Reachable other) :
    declared t mode n (s.combine other).rules =
      declared t mode n s.rules ++ declared t mode n other.rules := by
  rw [(h.rules_combine s).1, declared_append, declared_placeFrom, declared_declaring]

end

/-! ## Winners without places -/

/-- The entrants of rules, in the order of the rules, come in the order of their places. -/
theorem pairwise_order_ruleEntries {rules : List StyleRule}
    (h : (rules.map StyleRule.order).Pairwise (· ≤ ·)) :
    (rules.flatMap Cascaded.ruleEntries).Pairwise fun x y =>
      compareOn (fun e : Entrant => e.2.order) x y ≠ .gt := by
  have horder : ∀ {rule : StyleRule} {x : Entrant}, x ∈ Cascaded.ruleEntries rule →
      x.2.order = rule.order := fun hx => by rw [(Cascaded.mem_ruleEntries.mp hx).2]; rfl
  refine List.pairwise_flatMap.mpr ⟨fun rule _ => ?_, (List.pairwise_map.mp h).imp ?_⟩
  · refine List.pairwise_of_forall_mem_list fun x hx y hy => ?_
    rw [compareOn, horder hx, horder hy, Nat.compare_eq_eq.mpr rfl]
    exact nofun
  · intro a b hab x hx y hy
    rw [compareOn, horder hx, horder hy]
    exact Nat.compare_ne_gt.mpr hab

/-- The rank of an entrant is its declaration's strength, then the place of its rule. -/
theorem byRank_eq_byStrength_then {rules : List StyleRule} {x y : Entrant}
    (hx : x ∈ rules.flatMap Cascaded.ruleEntries) (hy : y ∈ rules.flatMap Cascaded.ruleEntries) :
    Entrant.byRank x y =
      (Declaration.byStrength x.1 y.1).then (compareOn (fun e : Entrant => e.2.order) x y) := by
  have hrank : ∀ {z : Entrant}, z ∈ rules.flatMap Cascaded.ruleEntries →
      z.2.important = z.1.important ∧ z.2.specificity = z.1.specificity := by
    intro z hz
    obtain ⟨rule, -, hz⟩ := List.mem_flatMap.mp hz
    rw [(Cascaded.mem_ruleEntries.mp hz).2]
    exact ⟨rfl, rfl⟩
  change (compare x.2.important y.2.important).then ((compare x.2.specificity y.2.specificity).then
    (compare x.2.order y.2.order)) = _
  rw [(hrank hx).1, (hrank hx).2, (hrank hy).1, (hrank hy).2]
  exact (Ordering.then_assoc _ _ _).symm

/-- What competes for a key, rule after rule. -/
def contenders (t : Tree) (mode : MatchMode) (n : NodeId) (key : PropertyId)
    (rules : List StyleRule) : List Entrant :=
  ((rules.filter fun rule => rule.selector.selects t mode n).flatMap
    Cascaded.ruleEntries).filter fun e => e.key = key

section

variable (t : Tree) (mode : MatchMode) (n : NodeId) (key : PropertyId)

theorem map_contenders (rules : List StyleRule) :
    (contenders t mode n key rules).map Prod.fst =
      (declared t mode n rules).filter fun d => d.key = key := by
  have hblock : ∀ rule : StyleRule, (Cascaded.ruleEntries rule).map Prod.fst =
      rule.block.declarations := fun rule => by
    simp [Cascaded.ruleEntries, Cascaded.enter, Function.comp_def]
  calc (contenders t mode n key rules).map Prod.fst
      = (((rules.filter fun rule => rule.selector.selects t mode n).flatMap
          Cascaded.ruleEntries).map Prod.fst).filter fun d => d.key = key := by
        rw [List.filter_map]
        rfl
    _ = (declared t mode n rules).filter fun d => d.key = key := by
        simp only [List.map_flatMap, hblock, declared]

/-- Where rules stand in order, places settle nothing that the order of the rules does not settle. -/
theorem lastHighest?_contenders {rules : List StyleRule}
    (h : (rules.map StyleRule.order).Pairwise (· ≤ ·)) :
    lastHighest? Entrant.byRank (contenders t mode n key rules) =
      lastHighest? (fun x y => Declaration.byStrength x.1 y.1) (contenders t mode n key rules) := by
  have : Std.TransCmp fun x y : Entrant => Declaration.byStrength x.1 y.1 :=
    inferInstanceAs (Std.TransCmp (compareLex (compareOn fun e : Entrant => e.1.important)
      (compareOn fun e : Entrant => e.1.specificity)))
  have hselected := h.sublist ((List.filter_sublist
    (p := fun rule : StyleRule => rule.selector.selects t mode n)).map StyleRule.order)
  refine lastHighest?_congr fun v => isLastHighest_iff_of_refines (fun x hx y hy => ?_)
    ((pairwise_order_ruleEntries hselected).filter _)
  exact byRank_eq_byStrength_then (List.mem_filter.mp hx).1 (List.mem_filter.mp hy).1

/-- The cascade meets the rules in its own order, but the same one wins. -/
theorem Reachable.winners_eq {s : Stylesheet} (h : Reachable s) (hnext : s.nextOrder < counterLimit) :
    (cascade (s.rulesFor t mode n) none).winners.get? key =
      lastHighest? Entrant.byRank (contenders t mode n key s.rules) := by
  have hnodup : (s.rules.map StyleRule.order).Nodup := (h.orders hnext).1.imp Nat.ne_of_lt
  rw [(Cascaded.cascade_eq _ _).1, get?_foldl_raise, Cascaded.entries, Option.elim_none,
    List.append_nil]
  refine lastHighest?_congr fun v => isLastHighest_flatMap_perm (rulesFor_perm h.isIndexed t mode n)
    (fun a ha b hb x hx y hy w hxw hyw => ?_) _ v
  exact List.inj_on_of_nodup_map hnodup (s.mem_of_mem_rulesFor ha) (s.mem_of_mem_rulesFor hb)
    (Cascaded.order_eq_of_byRank_eq hx hy hxw hyw)

/-- **The winner for a key** is the last of the strongest declarations, in the order of the sheet. -/
theorem Reachable.winner?_eq {s : Stylesheet} (h : Reachable s)
    (hnext : s.nextOrder < counterLimit) :
    (cascade (s.rulesFor t mode n) none).winner? key =
      lastHighest? Declaration.byStrength
        ((declared t mode n s.rules).filter fun d => d.key = key) := by
  rw [Cascaded.winner?, h.winners_eq t mode n key hnext,
    lastHighest?_contenders t mode n key h.ordersLe.1, ← lastHighest?_map, map_contenders]

end

/-! ## Combining -/

/-- **Combining is associative and means one sheet after the other.**  Which two of three reachable
sheets are combined first makes no difference to the rules, with their blocks, markers and places,
nor to the keyframe set of any name; also where removed layers have left gaps between places.
And while the counters of places have not reached their limit, the winner for a key in two combined
sheets is that of the second, unless it is weaker, by importance and then specificity, than that of
the first. -/
theorem combine_assoc_winner {a b c : Stylesheet} (ha : Reachable a) (hb : Reachable b)
    (hc : Reachable c) :
    ((a.combine b).combine c).rules = (a.combine (b.combine c)).rules ∧
      (∀ name, ((a.combine b).combine c).keyframes.get? name =
        (a.combine (b.combine c)).keyframes.get? name) ∧
      (b.nextOrder < counterLimit → (a.combine b).nextOrder < counterLimit →
        ∀ t mode n key, (cascade ((a.combine b).rulesFor t mode n) none).winner? key =
          Option.merge Declaration.stronger
            ((cascade (a.rulesFor t mode n) none).winner? key)
            ((cascade (b.rulesFor t mode n) none).winner? key)) := by
  refine ⟨combine_assoc_rules a hb hc, fun name => ?_, fun hbnext hnext t mode n key => ?_⟩
  · rw [(ha.combine hb).get?_keyframes_combine hc, ha.get?_keyframes_combine hb,
      ha.get?_keyframes_combine (hb.combine hc), hb.get?_keyframes_combine hc, Option.or_assoc]
  · have hanext : a.nextOrder < counterLimit := by
      rw [(hb.rules_combine a).2] at hnext
      exact Nat.lt_of_le_of_lt (le_placeAfter ha.nextOrder_le _) hnext
    rw [(ha.combine hb).winner?_eq t mode n key hnext, ha.winner?_eq t mode n key hanext,
      hb.winner?_eq t mode n key hbnext,
      declared_combine t mode n a hb, List.filter_append, lastHighest?_append]
    rfl

/-- The statement at three sheets of one rule each, the first with a gap before its rule: its
important color is stronger than the normal one of the second sheet. -/
theorem combine_assoc_winner_gap :
    let tagged : StyleRule := { selector := ⟨⟨[.hasTag "a"]⟩, [], "a"⟩ }
    let normal := tagged.push .empty ⟨"color", "blue", false⟩
    let important := tagged.push .empty ⟨"color", "red", true⟩
    let a := (((empty.append normal).setMarker 1).append important).removeMarker 1
    let b := (empty.append normal).putKeyframes { name := "spin" }
    let c := empty.append normal
    a.Reachable ∧ b.Reachable ∧ c.Reachable ∧ a.rules = [important.withOrder 1] ∧
      b.nextOrder < counterLimit ∧ (a.combine b).nextOrder < counterLimit ∧
      (a.combine (b.combine c)).rules =
        [important.withOrder 1, normal.withOrder 2, normal.withOrder 3] ∧
      ((a.combine b).combine c).rules = (a.combine (b.combine c)).rules ∧
      ((a.combine b).combine c).keyframes.get? "spin" =
        (a.combine (b.combine c)).keyframes.get? "spin" ∧
      (cascade ((a.combine b).rulesFor (Tree.empty.addRoot "a") .strict 0) none).winner?
        (.ofName "color") = some ⟨"color", none, "red", ⟨0, 0, 1⟩, true⟩ := by
  intro tagged normal important a b c
  have ha : a.Reachable := (((Reachable.empty.append normal).setMarker 1).append important).removeMarker 1
  have hb : b.Reachable := (Reachable.empty.append normal).putKeyframes _
  have hc : c.Reachable := Reachable.empty.append normal
  have harules : a.rules = [important.withOrder 1] := by decide +kernel
  have hanext : a.nextOrder = 2 := by decide +kernel
  have hbnext : b.nextOrder < counterLimit := by decide +kernel
  have hnext : (a.combine b).nextOrder < counterLimit := by
    rw [(hb.rules_combine a).2, hanext]
    decide +kernel
  have hrules : (a.combine (b.combine c)).rules =
      [important.withOrder 1, normal.withOrder 2, normal.withOrder 3] := by
    rw [((hb.combine hc).rules_combine a).1, (hc.rules_combine b).1, harules, hanext]
    decide +kernel
  obtain ⟨hassoc, hkeyframes, hwinner⟩ := combine_assoc_winner ha hb hc
  refine ⟨ha, hb, hc, harules, hbnext, hnext, hrules, hassoc, hkeyframes "spin", ?_⟩
  rw [hwinner hbnext hnext, ha.winner?_eq _ _ _ _ (by rw [hanext]; decide),
    hb.winner?_eq _ _ _ _ hbnext]
  decide +kernel

end Stylesheet

end WidgetStyle
