import Mathlib.Data.List.Nodup
import WidgetStyle.Proofs.Cascade.Contest
import WidgetStyle.Proofs.Sheet.Headings
import WidgetStyle.Proofs.Sheet.Index
import WidgetStyle.Proofs.Sheet.Rules

/-!
# WidgetStyle.Proofs.Cascade.Inline — inline styles against the rules of a sheet

Inline declarations have a specificity of their own, a thousand ids, and a place after all rules.
That is enough against every rule whose selector is not above it, and only against those: what an
inline style declares wins exactly when no rule of the node that declares the same thing with the
same importance has a selector above a thousand ids (`inline_wins_iff`).  No bound on selectors
helps out here: the parser reads any number of ids (`isAboveInline_idRun`).
-/

namespace WidgetStyle

/-! ## Inline styles -/

/-- The inline styles that can be built. -/
inductive InlineStyle.Built : InlineStyle → Prop
  | empty : Built {}
  | push {style : InlineStyle} (h : Built style) (r : Registry) (d : Source.Declaration) :
      Built (style.push r d)

theorem InlineStyle.block_push (style : InlineStyle) (r : Registry) (d : Source.Declaration) :
    (style.push r d).block = (style.block.push r .inline d).withOrder counterLimit := by
  rw [push]

namespace InlineStyle.Built

variable {style : InlineStyle}

theorem parse (r : Registry) (text : String) : Built (.parse r text) :=
  List.foldlRecOn _ _ Built.empty fun _ h d _ => h.push r d

/-- Variables of an inline style carry its specificity and its place. -/
theorem vars_stamped (h : style.Built) :
    ∀ v ∈ style.block.vars, v.specificity = .inline ∧ v.order = counterLimit := by
  induction h with
  | empty => simp
  | @push style _ r d ih =>
      intro v hv
      rw [block_push] at hv
      obtain ⟨w, hw, rfl⟩ := Block.mem_vars_withOrder hv
      refine ⟨?_, rfl⟩
      rcases Block.mem_vars_push hw with hw | ⟨name, value, -, rfl⟩
      · exact (ih w hw).1
      · rfl

theorem namesDistinct (h : style.Built) : style.block.NamesDistinct := by
  induction h with
  | empty => exact .empty
  | push _ r d ih =>
      rw [block_push]
      exact (ih.push r d).withOrder counterLimit

end InlineStyle.Built

/-! ## Rules and inline styles -/

/-- Whether the selector of a rule is above the specificity of inline declarations. -/
def StyleRule.IsAboveInline (rule : StyleRule) : Prop := compare rule.specificity .inline = .gt

instance (rule : StyleRule) : Decidable rule.IsAboveInline :=
  inferInstanceAs (Decidable (compare rule.specificity .inline = .gt))

namespace Cascaded

theorem forall_mem_filter_flatMap {α β : Type} {l : List α} {parts : α → List β} {keep : β → Bool}
    {P : β → Prop} :
    (∀ x ∈ (l.flatMap parts).filter keep, P x) ↔ ∀ a ∈ l, ∀ x ∈ parts a, keep x = true → P x := by
  simp only [List.mem_filter, List.mem_flatMap]
  exact ⟨fun h a ha x hx hkeep => h x ⟨⟨a, ha, hx⟩, hkeep⟩,
    fun h x hx => hx.1.elim fun a ha => h a ha.1 x ha.2 hx.2⟩

variable {rules : List StyleRule} {style : InlineStyle}

/-- What an inline style by itself has for a key that it declares: one of its declarations, an
important one if there is any. -/
theorem exists_winner_inline {d : Declaration} (hd : d ∈ style.block.declarations) :
    ∃ own, (cascade [] (some style)).winners.get? d.key = some own ∧
      own.1 ∈ style.block.declarations ∧ own.2 = .inline own.1.important ∧
      (d.important = true → own.1.important = true) := by
  have hmem : (d, Rank.inline d.important) ∈ (inlineEntries style).filter fun x => x.key = d.key :=
    List.mem_filter.mpr ⟨mem_inlineEntries.mpr ⟨hd, rfl⟩, decide_eq_true rfl⟩
  obtain ⟨own, hown⟩ : ∃ own, IsLastHighest Entrant.byRank _ own :=
    exists_isLastHighest (List.ne_nil_of_mem hmem)
  obtain ⟨howndecl, hownrank⟩ := mem_inlineEntries.mp (List.mem_filter.mp hown.mem).1
  refine ⟨own, winners_eq_some_iff.mpr hown, howndecl, hownrank, fun himportant => ?_⟩
  have hle : compare (Rank.inline d.important) own.2 ≠ .gt := hown.highest _ hmem
  rw [hownrank, himportant] at hle
  cases hb : own.1.important with
  | true => rfl
  | false =>
      rw [hb] at hle
      exact absurd rfl hle

/-- What an inline style declares for a key wins unless a rule is above it. -/
theorem winners_inline_iff {key : PropertyId} {e : Entrant}
    (h : (cascade [] (some style)).winners.get? key = some e) :
    (cascade rules (some style)).winners.get? key = some e ↔
      ∀ rule ∈ rules, ∀ d ∈ rule.block.declarations, d.key = key →
        compare (ruleRank rule d) e.2 ≠ .gt := by
  rw [winners_eq_some_iff, entries, List.flatMap_nil, List.nil_append] at h
  rw [winners_eq_some_iff, entries, List.filter_append, h.append_left_iff,
    forall_mem_filter_flatMap]
  refine forall₂_congr fun rule _ => ?_
  rw [ruleEntries, enter, List.forall_mem_map]
  exact forall₂_congr fun d _ => imp_congr decide_eq_true_iff Iff.rfl

/-- A variable of an inline style wins unless a rule is above it. -/
theorem scope_inline_iff (h : style.Built) {v : Variable} (hv : v ∈ style.block.vars) :
    (cascade rules (some style)).scope.get? v.name = some v ↔
      ∀ rule ∈ rules, ∀ x ∈ rule.block.vars, x.name = v.name → Variable.byRule x v ≠ .gt := by
  -- Names are distinct, so nothing else competes inside the style.
  have hown : IsLastHighest Variable.byRule (style.block.vars.filter fun x => x.name = v.name) v := by
    refine .of_forall_eq (List.mem_filter.mpr ⟨hv, decide_eq_true rfl⟩) fun x hx => ?_
    obtain ⟨hx, hname⟩ := List.mem_filter.mp hx
    exact List.inj_on_of_nodup_map h.namesDistinct.vars hx hv (of_decide_eq_true hname)
  rw [scope_eq_some_iff, vars, List.filter_append, Option.elim_some, hown.append_left_iff,
    forall_mem_filter_flatMap]
  simp only [decide_eq_true_iff]

end Cascaded

/-- The place of an inline style decides nothing but ties. -/
theorem StyleRule.compare_inline_ne_gt_iff {rule : StyleRule} (horder : rule.order ≤ counterLimit) :
    (compare rule.specificity .inline).then (compare rule.order counterLimit) ≠ .gt ↔
      ¬ rule.IsAboveInline := by
  have hplace : compare rule.order counterLimit ≠ .gt := Nat.compare_ne_gt.mpr horder
  rw [IsAboveInline]
  cases compare rule.specificity .inline with
  | lt => exact iff_of_true nofun nofun
  | eq => exact iff_of_true hplace nofun
  | gt => exact Iff.rfl

/-- Against a declaration of a rule that is not more important, an inline declaration holds out
unless the rule is above it. -/
theorem StyleRule.IsStamped.ruleRank_inline_iff {rule : StyleRule} (h : rule.IsStamped)
    (horder : rule.order ≤ counterLimit) {d : Declaration} (hd : d ∈ rule.block.declarations)
    {important : Bool} (himportant : d.important = true → important = true) :
    compare (Cascaded.ruleRank rule d) (.inline important) ≠ .gt ↔
      (d.important = important → ¬ rule.IsAboveInline) := by
  have hrank : compare (Cascaded.ruleRank rule d) (.inline important) =
      (compare d.important important).then ((compare rule.specificity .inline).then
        (compare rule.order counterLimit)) := by
    rw [← h.declarations d hd]
    rfl
  rw [hrank]
  by_cases heq : d.important = important
  · have hself : compare d.important important = .eq := Std.LawfulEqOrd.compare_eq_iff_eq.mpr heq
    rw [hself, forall_prop_of_true heq]
    exact compare_inline_ne_gt_iff horder
  · -- The rule's declaration is the normal one.
    obtain ⟨hd, himportant⟩ : d.important = false ∧ important = true := by
      cases hb : d.important <;> simp_all
    refine iff_of_true ?_ fun h => absurd h heq
    rw [hd, himportant]
    exact nofun

theorem StyleRule.IsStamped.byRule_inline_iff {rule : StyleRule} (h : rule.IsStamped)
    (hplaced : rule.IsPlaced) (horder : rule.order ≤ counterLimit) {x v : Variable}
    (hx : x ∈ rule.block.vars) (hv : v.specificity = .inline ∧ v.order = counterLimit) :
    Variable.byRule x v ≠ .gt ↔ ¬ rule.IsAboveInline := by
  have hrank : Variable.byRule x v = (compare rule.specificity .inline).then
      (compare rule.order counterLimit) := by
    rw [← h.vars x hx, ← hplaced x hx, ← hv.1, ← hv.2]
    rfl
  rw [hrank]
  exact compare_inline_ne_gt_iff horder

/-- **When inline styles win.**  Let an inline style declare a key, importantly or with no important
declaration for it in the rules of a node.  Then the winner is what the inline style has for the key,
unless a rule with a selector above inline styles declares the key with the same importance.  An
inline variable wins unless a rule with such a selector declares its name. -/
theorem Stylesheet.inline_wins_iff {s : Stylesheet} (h : s.Built) (t : Tree) (n : NodeId)
    {style : InlineStyle} (k : style.Built) :
    (∀ d ∈ style.block.declarations,
      (d.important = true ∨ ∀ rule ∈ s.rulesFor t .strict n, ∀ x ∈ rule.block.declarations,
        x.key = d.key → x.important = false) →
      ∃ own, (cascade [] (some style)).winners.get? d.key = some own ∧
        own.1 ∈ style.block.declarations ∧
        ((cascade (s.rulesFor t .strict n) (some style)).winners.get? d.key = some own ↔
          ∀ rule ∈ s.rulesFor t .strict n, ∀ x ∈ rule.block.declarations,
            x.key = d.key → x.important = own.1.important → ¬ rule.IsAboveInline)) ∧
      ∀ v ∈ style.block.vars,
        ((cascade (s.rulesFor t .strict n) (some style)).scope.get? v.name = some v ↔
          ∀ rule ∈ s.rulesFor t .strict n, ∀ x ∈ rule.block.vars,
            x.name = v.name → ¬ rule.IsAboveInline) := by
  have mem : ∀ rule ∈ s.rulesFor t .strict n, rule ∈ s.rules := fun _ => s.mem_of_mem_rulesFor
  constructor
  · intro d hd hpremise
    obtain ⟨own, hown, howndecl, hownrank, himportant⟩ := Cascaded.exists_winner_inline hd
    refine ⟨own, hown, howndecl, (Cascaded.winners_inline_iff hown).trans ?_⟩
    refine forall₂_congr fun rule hrule => forall₃_congr fun x hx hkey => ?_
    rw [hownrank]
    refine (h.isStamped (mem rule hrule)).ruleRank_inline_iff
      (h.reachable.order_le rule (mem rule hrule)) hx fun hximportant => ?_
    rcases hpremise with hdimportant | hnone
    · exact himportant hdimportant
    · exact absurd (hximportant.symm.trans (hnone rule hrule x hx hkey)) (by decide)
  · intro v hv
    refine (Cascaded.scope_inline_iff k hv).trans ?_
    refine forall₂_congr fun rule hrule => forall₃_congr fun x hx _ => ?_
    exact (h.isStamped (mem rule hrule)).byRule_inline_iff (h.isPlaced (mem rule hrule))
      (h.reachable.order_le rule (mem rule hrule)) hx (k.vars_stamped v hv)

/-- The statement at a rule for a tag, which is not above inline styles. -/
theorem Stylesheet.inline_wins_iff_tag :
    let rule := (StyleRule.ofDeclarations .empty ⟨⟨[.hasTag "a"]⟩, [], "a"⟩
      [⟨"color", "red", false⟩, ⟨"--gap", "1", false⟩])
    let s := Stylesheet.empty.append rule
    let style : InlineStyle := .parse .empty "color: blue; --gap: 2"
    let c := cascade (s.rulesFor (Tree.empty.addRoot "a") .strict 0) (some style)
    s.Built ∧ style.Built ∧
      c.winner? (.ofName "color") = some ⟨"color", none, "blue", .inline, false⟩ ∧
      c.scope.get? "--gap" = some ⟨"--gap", "2", .inline, counterLimit⟩ := by
  intro rule s style c
  have h : s.Built := Built.empty.append (.ofDeclarations _ _ _)
  have k : style.Built := .parse _ _
  have hrules : s.rulesFor (Tree.empty.addRoot "a") .strict 0 = [rule.withOrder 0] :=
    rulesFor_append_empty (by decide +kernel) (by decide +kernel)
  have hbelow : ∀ rule ∈ s.rulesFor (Tree.empty.addRoot "a") .strict 0, ¬ rule.IsAboveInline := by
    rw [hrules]
    decide +kernel
  obtain ⟨hdeclarations, hvars⟩ := inline_wins_iff h (Tree.empty.addRoot "a") 0 k
  obtain ⟨own, hown, -, hwins⟩ := hdeclarations ⟨"color", none, "blue", .inline, false⟩
    (by decide +kernel) (Or.inr (by rw [hrules]; decide +kernel))
  have hcolor := hwins.mpr fun rule hrule _ _ _ _ => hbelow rule hrule
  have hgap := (hvars ⟨"--gap", "2", .inline, counterLimit⟩ (by decide +kernel)).mpr
    fun rule hrule _ _ _ => hbelow rule hrule
  refine ⟨h, k, ?_, hgap⟩
  change Option.map Prod.fst ((cascade _ _).winners.get? _) = _
  rw [show PropertyId.ofName "color" = Declaration.key ⟨"color", none, "blue", .inline, false⟩ from rfl,
    hcolor, ← hown]
  decide +kernel

/-- The parser lets selectors of ids be above inline styles: all those with more than a thousand. -/
theorem StyleRule.isAboveInline_idRun {rule : StyleRule} {n : Nat}
    (h : rule.selector = .parse (String.ofList (idRun n))) : rule.IsAboveInline ↔ 1000 < n := by
  rw [IsAboveInline, specificity, h, specificity_idRun]
  change (compare (saturate n) 1000).then .eq = .gt ↔ _
  rw [Ordering.then_eq, Nat.compare_eq_gt, saturate, tierLimit]
  omega

/-- **Some selectors are above inline styles.**  A text with a thousand ids and one more in a row
makes a rule whose declarations and variables win over inline ones, although neither is important. -/
theorem Stylesheet.inline_loses_to_ids :
    let s := parse .empty (String.ofList (idRun 1001 ++ "\x7bcolor:red;--gap:1\x7d".toList))
    let t := (Tree.empty.addRoot "button").setId 0 "a"
    let style : InlineStyle := .parse .empty "color:blue;--gap:2"
    let c := cascade (s.rulesFor t .strict 0) (some style)
    style.block.declaration? "color" = some ⟨"color", none, "blue", .inline, false⟩ ∧
      (∀ rule ∈ s.rulesFor t .strict 0, ∀ x ∈ rule.block.declarations, x.important = false) ∧
      c.winner? (.ofName "color") = some ⟨"color", none, "red", ⟨1001, 0, 0⟩, false⟩ ∧
      style.block.vars.map Variable.name = ["--gap"] ∧
      c.scope.get? "--gap" = some ⟨"--gap", "1", ⟨1001, 0, 0⟩, 0⟩ := by
  intro s t style c
  let rule : StyleRule := .ofDeclarations .empty
    ⟨⟨List.replicate 1001 (.hasId "a")⟩, [], String.ofList (idRun 1001)⟩
    [⟨"color", "red", false⟩, ⟨"--gap", "1", false⟩]
  have hs : s = empty.append rule := by
    let body := Source.firstComponent ⟨.opening .curly, ['{']⟩
      (Source.lexemes "color:red;--gap:1\x7d".toList)
    have hparts : Source.components (Source.lexemes ('{' :: "color:red;--gap:1\x7d".toList)) = [body] := by
      decide +kernel
    have hdeclarations : Source.declarationsIn (Source.components body.inside) =
        [⟨"color", "red", false⟩, ⟨"--gap", "1", false⟩] := by decide +kernel
    refine (parse_heading .empty 1000 rfl hparts).trans ?_
    rw [parse_idRun, hdeclarations]
  have hrules : s.rulesFor t .strict 0 = [rule.withOrder 0] := by
    rw [hs]
    exact rulesFor_append_empty (by decide +kernel) (by decide +kernel)
  have hc : c = cascade [rule.withOrder 0] (some style) := congrArg (cascade · (some style)) hrules
  rw [hc, hrules]
  exact ⟨by decide +kernel, by decide +kernel, by decide +kernel, by decide +kernel,
    by decide +kernel⟩

end WidgetStyle
