import Mathlib.Data.List.Perm.Basic
import Mathlib.Data.List.Nodup
import WidgetStyle.Proofs.Cascade.Contest
import WidgetStyle.Proofs.Sheet.Index
import WidgetStyle.Proofs.Sheet.Rules

/-!
# WidgetStyle.Proofs.Cascade.Layers — the cascade as writing over

The rules of a node come in an order of their own, ascending by specificity and place.  Whoever
walks along it and writes every declaration over what its key held, first all normal declarations
and then all important ones, gets the winners of the cascade (`layers`); and for a variable it is
enough to look for the last rule that declares it (`lastVariable?`).  The cascade itself does not
need the order: it gives the same result for the rules in any order (`cascade_perm_eq_layers`).

Two orders have to agree for this: the one that rules are sorted by, and the one that declarations
compete by.  They do because what stands in a rule of a sheet carries the rule's specificity and
place, and because rules of a sheet never share a place.
-/

namespace WidgetStyle

/-! ## Lists put together from parts -/

/-- When one part at most is not empty, the order of the parts makes no difference. -/
theorem flatMap_eq_of_perm {α β : Type} {f : α → List β} {l l' : List α} (h : l.Perm l')
    (one : ∀ a ∈ l, ∀ b ∈ l, f a ≠ [] → f b ≠ [] → a = b) : l.flatMap f = l'.flatMap f := by
  induction h with
  | nil => rfl
  | cons a _ ih =>
      rw [List.flatMap_cons, List.flatMap_cons, ih fun x hx y hy =>
        one x (List.mem_cons_of_mem _ hx) y (List.mem_cons_of_mem _ hy)]
  | swap a b l =>
      simp only [List.flatMap_cons, ← List.append_assoc]
      congr 1
      -- Either the two are the same, or one of them contributes nothing.
      by_cases ha : f a = []
      · simp [ha]
      · by_cases hb : f b = []
        · simp [hb]
        · rw [one a (by simp) b (by simp) ha hb]
  | trans h _ ih ih' =>
      exact (ih one).trans (ih' fun x hx y hy => one x (h.mem_iff.mpr hx) y (h.mem_iff.mpr hy))

/-- Moving the members that pass a test behind the others keeps the order of those that agree on
the test. -/
theorem filter_partition {α : Type} {l : List α} {p q : α → Bool} {b : Bool}
    (h : ∀ x ∈ l, q x = true → p x = b) :
    ((l.filter fun x => !p x) ++ l.filter p).filter q = l.filter q := by
  -- What the test sends to its own side stays, and nothing reaches the other side.
  have stays : ∀ keep : α → Bool, (∀ x ∈ l, q x = true → keep x = true) →
      (l.filter keep).filter q = l.filter q := by
    intro keep hkeep
    rw [List.filter_filter]
    refine List.filter_congr fun x hx => ?_
    cases hq : q x with
    | false => rfl
    | true => rw [hkeep x hx hq, Bool.and_self]
  have leaves : ∀ keep : α → Bool, (∀ x ∈ l, q x = true → keep x = false) →
      (l.filter keep).filter q = [] := by
    intro keep hkeep
    refine List.filter_eq_nil_iff.mpr fun x hx hq => ?_
    obtain ⟨hx, hpass⟩ := List.mem_filter.mp hx
    exact Bool.false_ne_true ((hkeep x hx hq).symm.trans hpass)
  rw [List.filter_append]
  cases b with
  | false =>
      rw [stays _ fun x hx hq => by rw [h x hx hq, Bool.not_false], leaves _ h, List.append_nil]
  | true =>
      rw [stays _ h, leaves _ fun x hx hq => by rw [h x hx hq, Bool.not_true], List.nil_append]

/-- Where names are distinct, the first of a name is the last. -/
theorem find?_eq_getLast?_filter {α β : Type} [DecidableEq β] {name : α → β} {l : List α}
    (h : (l.map name).Nodup) (k : β) :
    (l.find? fun x => name x = k) = (l.filter fun x => name x = k).getLast? := by
  induction l with
  | nil => rfl
  | cons x l ih =>
      rw [List.map_cons, List.nodup_cons] at h
      by_cases hx : name x = k
      · have hnone : (l.filter fun y => name y = k) = [] := by
          refine List.filter_eq_nil_iff.mpr fun y hy hk => h.1 ?_
          rw [hx, ← of_decide_eq_true hk]
          exact List.mem_map_of_mem hy
        simp [hx, hnone]
      · simp [hx, ih h.2]

/-! ## Writing over -/

/-- Writes entrants over what their keys held, one after the other. -/
def overwrite (winners : Assoc PropertyId Entrant) (entries : List Entrant) :
    Assoc PropertyId Entrant :=
  entries.foldl (fun winners e => winners.insert e.key e) winners

/-- The winners of rules in ascending order: rule after rule and block after block the normal
declarations are written over, and then the important ones. -/
def layers (rules : List StyleRule) : Assoc PropertyId Entrant :=
  let entries := rules.flatMap Cascaded.ruleEntries
  overwrite (overwrite .empty (entries.filter fun e => !e.1.important))
    (entries.filter fun e => e.1.important)

/-- The variable of a name in the last rule that declares it. -/
def lastVariable? (rules : List StyleRule) (name : String) : Option Variable :=
  rules.reverse.findSome? fun rule => rule.block.vars.find? fun v => v.name = name

theorem get?_layers (rules : List StyleRule) (key : PropertyId) :
    (layers rules).get? key =
      ((((rules.flatMap Cascaded.ruleEntries).filter fun e => !e.1.important) ++
        (rules.flatMap Cascaded.ruleEntries).filter fun e => e.1.important).filter
          fun e : Entrant => e.key = key).getLast? := by
  rw [layers, overwrite, overwrite, ← List.foldl_append]
  exact get?_foldl_insert _ key

theorem lastVariable?_eq_getLast? {rules : List StyleRule}
    (h : ∀ rule ∈ rules, rule.block.NamesDistinct) (name : String) :
    lastVariable? rules name =
      ((rules.flatMap fun rule => rule.block.vars).filter fun v => v.name = name).getLast? := by
  induction rules using List.reverseRecOn with
  | nil => rfl
  | append_singleton rules rule ih =>
      have hrules := ih fun rule hrule => h rule (List.mem_append_left _ hrule)
      have hrule := find?_eq_getLast?_filter (h rule (by simp)).vars name
      rw [lastVariable?] at hrules ⊢
      rw [List.flatMap_append, List.filter_append, List.getLast?_append, ← hrules,
        List.flatMap_singleton, ← hrule, List.reverse_append, List.reverse_singleton,
        List.singleton_append, List.findSome?_cons]
      cases rule.block.vars.find? fun v => v.name = name <;> rfl

/-! ## The two orders -/

/-- Rules in ascending order, no two at one place, whose declarations and variables carry their
specificity and place. -/
structure StyleRule.Ascend (rules : List StyleRule) : Prop where
  stamped : ∀ rule ∈ rules, rule.IsStamped
  placed : ∀ rule ∈ rules, rule.IsPlaced
  ascend : rules.Pairwise fun a b => (a.cascadeOrder b).isLE = true
  distinct : ∀ a ∈ rules, ∀ b ∈ rules, a.order = b.order → a = b

/-- The rules of a node of a built sheet ascend. -/
theorem Stylesheet.Built.ascend {s : Stylesheet} (h : s.Built) (hnext : s.nextOrder < counterLimit)
    (t : Tree) (mode : MatchMode) (n : NodeId) : StyleRule.Ascend (s.rulesFor t mode n) := by
  have mem : ∀ rule ∈ s.rulesFor t mode n, rule ∈ s.rules := fun _ => s.mem_of_mem_rulesFor
  have hnodup : (s.rules.map StyleRule.order).Nodup :=
    (h.reachable.orders hnext).1.imp fun hlt => Nat.ne_of_lt hlt
  exact ⟨fun rule hrule => h.isStamped (mem rule hrule),
    fun rule hrule => h.isPlaced (mem rule hrule), s.rulesFor_ascend t mode n,
    fun a ha b hb => List.inj_on_of_nodup_map hnodup (mem a ha) (mem b hb)⟩

/-- Entrants of equal importance compare as their rules do. -/
theorem StyleRule.IsStamped.byRank_eq {a b : StyleRule} (ha : a.IsStamped) (hb : b.IsStamped)
    {x y : Entrant} (hx : x ∈ Cascaded.ruleEntries a) (hy : y ∈ Cascaded.ruleEntries b)
    (h : x.1.important = y.1.important) : Entrant.byRank x y = a.cascadeOrder b := by
  obtain ⟨hx, hxrank⟩ := Cascaded.mem_ruleEntries.mp hx
  obtain ⟨hy, hyrank⟩ := Cascaded.mem_ruleEntries.mp hy
  have himportant : compareOn Rank.important x.2 y.2 = .eq := by
    rw [compareOn, hxrank, hyrank]
    exact Std.LawfulEqOrd.compare_eq_iff_eq.mpr h
  have hspecificity : x.2.specificity = a.specificity ∧ y.2.specificity = b.specificity := by
    rw [hxrank, hyrank]
    exact ⟨ha.declarations _ hx, hb.declarations _ hy⟩
  have horder : x.2.order = a.order ∧ y.2.order = b.order := by rw [hxrank, hyrank]; exact ⟨rfl, rfl⟩
  change (compareOn Rank.important x.2 y.2).then ((compare x.2.specificity y.2.specificity).then
    (compare x.2.order y.2.order)) = _
  rw [himportant, hspecificity.1, hspecificity.2, horder.1, horder.2]
  rfl

/-- Variables compare as their rules do. -/
theorem StyleRule.IsStamped.byRule_eq {a b : StyleRule} (ha : a.IsStamped) (hb : b.IsStamped)
    (hpa : a.IsPlaced) (hpb : b.IsPlaced) {x y : Variable} (hx : x ∈ a.block.vars)
    (hy : y ∈ b.block.vars) : Variable.byRule x y = a.cascadeOrder b := by
  change (compare x.specificity y.specificity).then (compare x.order y.order) = _
  rw [ha.vars x hx, hb.vars y hy, hpa x hx, hpb y hy]
  rfl

/-! ## Any order of rules -/

/-- Where equals come from one rule, the rules may come in any order. -/
theorem isLastHighest_flatMap_perm {β : Type} {cmp : β → β → Ordering}
    {parts : StyleRule → List β} {l l' : List StyleRule} (hperm : l.Perm l')
    (one : ∀ a ∈ l, ∀ b ∈ l, ∀ x ∈ parts a, ∀ y ∈ parts b, ∀ v,
      cmp x v = .eq → cmp y v = .eq → a = b)
    (keep : β → Bool) (v : β) :
    IsLastHighest cmp ((l.flatMap parts).filter keep) v ↔
      IsLastHighest cmp ((l'.flatMap parts).filter keep) v := by
  refine IsLastHighest.congr (fun x => ?_) fun v => ?_
  · simp only [List.mem_filter, (hperm.flatMap_right parts).mem_iff]
  · simp only [List.filter_filter, List.filter_flatMap]
    refine flatMap_eq_of_perm hperm fun a ha b hb hxs hys => ?_
    obtain ⟨x, hx⟩ := List.exists_mem_of_ne_nil _ hxs
    obtain ⟨y, hy⟩ := List.exists_mem_of_ne_nil _ hys
    obtain ⟨hx, htie⟩ := List.mem_filter.mp hx
    obtain ⟨hy, htie'⟩ := List.mem_filter.mp hy
    exact one a ha b hb x hx y hy v (beq_iff_eq.mp ((Bool.and_eq_true _ _).mp htie).1)
      (beq_iff_eq.mp ((Bool.and_eq_true _ _).mp htie').1)

theorem Cascaded.important_of_mem_flatMap {rules : List StyleRule} {x : Entrant}
    (hx : x ∈ rules.flatMap ruleEntries) : x.2.important = x.1.important :=
  @important_of_mem_entries rules none x (List.mem_append_left _ hx)

/-- Entrants of equal rank come from rules at one place. -/
theorem Cascaded.order_eq_of_byRank_eq {a b : StyleRule} {x y v : Entrant} (hx : x ∈ ruleEntries a)
    (hy : y ∈ ruleEntries b) (hxv : Entrant.byRank x v = .eq) (hyv : Entrant.byRank y v = .eq) :
    a.order = b.order := by
  have hxorder : x.2.order = a.order := by rw [(mem_ruleEntries.mp hx).2]; rfl
  have hyorder : y.2.order = b.order := by rw [(mem_ruleEntries.mp hy).2]; rfl
  rw [← hxorder, ← hyorder, (Rank.eq_of_compare_eq hxv).2, (Rank.eq_of_compare_eq hyv).2]

namespace StyleRule.Ascend

variable {rules : List StyleRule} (h : Ascend rules)
include h

/-- Variables of equal rank come from one rule. -/
theorem eq_of_byRule_eq {a b : StyleRule} (ha : a ∈ rules) (hb : b ∈ rules) {x y v : Variable}
    (hx : x ∈ a.block.vars) (hy : y ∈ b.block.vars)
    (hxv : Variable.byRule x v = .eq) (hyv : Variable.byRule y v = .eq) : a = b := by
  refine h.distinct a ha b hb ?_
  have hxorder : x.order = v.order :=
    Std.LawfulEqOrd.eq_of_compare (Ordering.then_eq_eq.mp hxv).2
  have hyorder : y.order = v.order :=
    Std.LawfulEqOrd.eq_of_compare (Ordering.then_eq_eq.mp hyv).2
  rw [← h.placed a ha x hx, ← h.placed b hb y hy, hxorder, hyorder]

/-- What holds between the parts of a rule, and from a rule to all later ones, holds along the
list. -/
theorem pairwise_flatMap {β : Type} {parts : StyleRule → List β} {R : β → β → Prop}
    (step : ∀ a ∈ rules, ∀ b ∈ rules, a.cascadeOrder b ≠ .gt →
      ∀ x ∈ parts a, ∀ y ∈ parts b, R x y) : (rules.flatMap parts).Pairwise R := by
  refine List.pairwise_flatMap.mpr ⟨fun a ha => ?_, h.ascend.imp_of_mem fun ha hb hab => ?_⟩
  · have hself : a.cascadeOrder a = .eq := Std.ReflCmp.compare_self
    exact List.pairwise_of_forall_mem_list (step a ha a ha (by rw [hself]; exact nofun))
  · exact step _ ha _ hb (Ordering.isLE_iff_ne_gt.mp hab)

/-- Entrants of equal importance stand in ascending order. -/
theorem pairwise_byRank : (rules.flatMap Cascaded.ruleEntries).Pairwise fun x y =>
    x.1.important = y.1.important → Entrant.byRank x y ≠ .gt := by
  refine h.pairwise_flatMap fun a ha b hb hab x hx y hy himportant => ?_
  rw [(h.stamped a ha).byRank_eq (h.stamped b hb) hx hy himportant]
  exact hab

/-- Variables stand in ascending order. -/
theorem pairwise_byRule : (rules.flatMap fun rule => rule.block.vars).Pairwise fun x y =>
    Variable.byRule x y ≠ .gt := by
  refine h.pairwise_flatMap fun a ha b hb hab x hx y hy => ?_
  rw [(h.stamped a ha).byRule_eq (h.stamped b hb) (h.placed a ha) (h.placed b hb) hx hy]
  exact hab

/-- First the normal entrants and then the important ones: the whole list ascends. -/
theorem pairwise_layers :
    (((rules.flatMap Cascaded.ruleEntries).filter fun e => !e.1.important) ++
      (rules.flatMap Cascaded.ruleEntries).filter fun e => e.1.important).Pairwise fun x y =>
        Entrant.byRank x y ≠ .gt := by
  -- One part has equal importance throughout.
  have part : ∀ (keep : Entrant → Bool) (b : Bool), (∀ x, keep x = true → x.1.important = b) →
      ((rules.flatMap Cascaded.ruleEntries).filter keep).Pairwise fun x y =>
        Entrant.byRank x y ≠ .gt := by
    intro keep b hkeep
    refine (h.pairwise_byRank.filter _).imp_of_mem fun hx hy hxy => hxy ?_
    rw [hkeep _ (List.mem_filter.mp hx).2, hkeep _ (List.mem_filter.mp hy).2]
  refine List.pairwise_append.mpr
    ⟨part _ false fun x hx => by simpa using hx, part _ true fun x hx => hx, ?_⟩
  intro x hx y hy
  obtain ⟨hx, hnormal⟩ := List.mem_filter.mp hx
  obtain ⟨hy, himportant⟩ := List.mem_filter.mp hy
  have hlt : compareOn Rank.important x.2 y.2 = .lt := by
    rw [compareOn, Cascaded.important_of_mem_flatMap hx, Cascaded.important_of_mem_flatMap hy,
      himportant, (Bool.not_eq_true' _).mp hnormal]
    rfl
  change (compareOn Rank.important x.2 y.2).then _ ≠ .gt
  rw [hlt]
  exact nofun

theorem winners_eq_layers {permuted : List StyleRule} (hperm : permuted.Perm rules)
    (key : PropertyId) : (cascade permuted none).winners.get? key = (layers rules).get? key := by
  refine Option.ext fun e => ?_
  rw [Cascaded.winners_eq_some_iff, Cascaded.entries, Option.elim_none, List.append_nil,
    isLastHighest_flatMap_perm hperm, get?_layers,
    getLast?_eq_some_iff_isLastHighest (h.pairwise_layers.filter _)]
  · refine IsLastHighest.congr (fun x => ?_) fun v => ?_
    · cases himportant : x.1.important <;> simp [himportant]
    · simp only [List.filter_filter]
      refine (filter_partition (b := v.2.important) fun x hx htie => ?_).symm
      have htie := beq_iff_eq.mp ((Bool.and_eq_true _ _).mp htie).1
      exact (Cascaded.important_of_mem_flatMap hx).symm.trans (Rank.eq_of_compare_eq htie).1
  · intro a ha b hb x hx y hy v hxv hyv
    exact h.distinct a (hperm.mem_iff.mp ha) b (hperm.mem_iff.mp hb)
      (Cascaded.order_eq_of_byRank_eq hx hy hxv hyv)

theorem scope_eq_lastVariable? {permuted : List StyleRule} (hperm : permuted.Perm rules)
    (name : String) : (cascade permuted none).scope.get? name = lastVariable? rules name := by
  refine Option.ext fun v => ?_
  rw [Cascaded.scope_eq_some_iff, Cascaded.vars, Option.elim_none, List.append_nil,
    isLastHighest_flatMap_perm hperm,
    lastVariable?_eq_getLast? fun rule hrule => (h.stamped rule hrule).names,
    getLast?_eq_some_iff_isLastHighest (h.pairwise_byRule.filter _)]
  intro a ha b hb x hx y hy v
  exact h.eq_of_byRule_eq (hperm.mem_iff.mp ha) (hperm.mem_iff.mp hb) hx hy

end StyleRule.Ascend

/-- **The order of rules makes no difference.**  In a built sheet whose counter of places has not
reached its limit, the rules of a node have one result in all orders: under every key the
declaration, with its rank, that writing over leaves there, rule after rule in ascending order,
first the normal declarations and then the important ones; and under every name the variable of the
last rule that declares it. -/
theorem Stylesheet.cascade_perm_eq_layers {s : Stylesheet} (h : s.Built)
    (hnext : s.nextOrder < counterLimit) (t : Tree) (n : NodeId) {rules : List StyleRule}
    (hperm : rules.Perm (s.rulesFor t .strict n)) :
    (∀ key, (cascade rules none).winners.get? key =
        (layers (s.rulesFor t .strict n)).get? key) ∧
      ∀ name, (cascade rules none).scope.get? name =
        lastVariable? (s.rulesFor t .strict n) name :=
  ⟨(h.ascend hnext t .strict n).winners_eq_layers hperm,
    (h.ascend hnext t .strict n).scope_eq_lastVariable? hperm⟩

/-- The statement at two rules of one selector in reverse order: the color of the first rule is
important, and the variable of the second rule comes later. -/
theorem Stylesheet.cascade_perm_eq_layers_reversed :
    let tagged : StyleRule := { selector := ⟨⟨[.hasTag "a"]⟩, [], "a"⟩ }
    let first := (tagged.push .empty ⟨"color", "red", true⟩).push .empty ⟨"--gap", "1", false⟩
    let second := (tagged.push .empty ⟨"color", "blue", false⟩).push .empty ⟨"--gap", "2", false⟩
    let s := (Stylesheet.empty.append first).append second
    let rules := (s.rulesFor (Tree.empty.addRoot "a") .strict 0).reverse
    s.Built ∧ s.nextOrder < counterLimit ∧
      rules = [second.withOrder 1, first.withOrder 0] ∧
      (cascade rules none).winners.get? (.ofName "color") =
        some (⟨"color", none, "red", ⟨0, 0, 1⟩, true⟩, ⟨true, ⟨0, 0, 1⟩, 0⟩) ∧
      (cascade rules none).scope.get? "--gap" = some ⟨"--gap", "2", ⟨0, 0, 1⟩, 1⟩ := by
  intro tagged first second s rules
  have htagged : tagged.Built := .ofSelector _
  have h : s.Built :=
    (Built.empty.append ((htagged.push _ _).push _ _)).append ((htagged.push _ _).push _ _)
  have hnext : s.nextOrder < counterLimit := by decide +kernel
  have hrules : s.rulesFor (Tree.empty.addRoot "a") .strict 0 =
      [first.withOrder 0, second.withOrder 1] := by
    have hfiled : (((FilingKey.ofNode (Tree.empty.addRoot "a") 0).flatMap fun key =>
        (s.index.get? key).getD []).filter (s.selectsAt (Tree.empty.addRoot "a") .strict 0)) =
          [0, 1] := by decide +kernel
    have hprecedes : s.precedes 0 1 = true := by decide +kernel
    rw [rulesFor, candidates, hfiled, List.mergeSort_of_pairwise (by simpa using hprecedes)]
    rfl
  obtain ⟨hwinners, hscope⟩ := cascade_perm_eq_layers h hnext (Tree.empty.addRoot "a") 0
    (List.reverse_perm (s.rulesFor (Tree.empty.addRoot "a") .strict 0))
  have hreverse : rules = [second.withOrder 1, first.withOrder 0] := congrArg List.reverse hrules
  refine ⟨h, hnext, hreverse, (hwinners (.ofName "color")).trans ?_, (hscope "--gap").trans ?_⟩
  · rw [hrules]
    decide +kernel
  · rw [hrules]
    decide +kernel

end WidgetStyle
