import WidgetStyle.Proofs.Sheet.Blocks
import WidgetStyle.Proofs.Sheet.Operations

/-!
# WidgetStyle.Proofs.Sheet.Rules — the rules that stand in sheets

A rule starts from a selector and is built by pushing declarations and by merging; a sheet marks
it, gives it a place and merges other rules into it.  `StyleRule.Built` are the rules that come
about in this way, and `Stylesheet.Built` are the sheets that are made of them.

The cascade reads specificity and place off single declarations and variables, and not off the rule
they stand in.  That this is the same thing is an invariant of every way to build: declarations and
variables carry the specificity of the selector (`Built.isStamped`), and in a sheet the variables
carry the place of their rule as well (`Built.isPlaced`).  What can stand in a built sheet is said
once, by `Stylesheet.Built.forall_rules_built_and`.
-/

namespace WidgetStyle

namespace StyleRule

/-! ## Rules -/

/-- The rules that can be built. -/
inductive Built : StyleRule → Prop
  | ofSelector (selector : Selector) : Built { selector }
  | push {rule : StyleRule} (h : Built rule) (r : Registry) (d : Source.Declaration) :
      Built (rule.push r d)
  | merge {rule other : StyleRule} (h : Built rule) (k : Built other) : Built (rule.merge other)
  | mark {rule : StyleRule} (h : Built rule) (marker : Nat) : Built { rule with marker }
  | place {rule : StyleRule} (h : Built rule) (order : Nat) : Built (rule.withOrder order)

theorem Built.ofDeclarations (r : Registry) (selector : Selector) (ds : List Source.Declaration) :
    Built (StyleRule.ofDeclarations r selector ds) :=
  List.foldlRecOn ds _ (Built.ofSelector selector) fun _ h d _ => h.push r d

/-- Declarations and variables carry the specificity of the selector, and each name stands once. -/
structure IsStamped (rule : StyleRule) : Prop where
  declarations : ∀ d ∈ rule.block.declarations, d.specificity = rule.specificity
  vars : ∀ v ∈ rule.block.vars, v.specificity = rule.specificity
  names : rule.block.NamesDistinct

/-- Variables carry the place of their rule. -/
def IsPlaced (rule : StyleRule) : Prop := ∀ v ∈ rule.block.vars, v.order = rule.order

theorem specificity_push (rule : StyleRule) (r : Registry) (d : Source.Declaration) :
    (rule.push r d).specificity = rule.specificity := by
  rw [specificity, push, specificity]

theorem block_push (rule : StyleRule) (r : Registry) (d : Source.Declaration) :
    (rule.push r d).block = rule.block.push r rule.specificity d := by
  rw [push]

namespace IsStamped

variable {rule : StyleRule} (h : rule.IsStamped)
include h

theorem push (r : Registry) (d : Source.Declaration) : (rule.push r d).IsStamped := by
  refine ⟨fun x hx => ?_, fun x hx => ?_, ?_⟩
  · rw [block_push] at hx
    rw [specificity_push]
    rcases Block.mem_declarations_push hx with hx | ⟨name, id?, value, -, rfl⟩
    · exact h.declarations x hx
    · rfl
  · rw [block_push] at hx
    rw [specificity_push]
    rcases Block.mem_vars_push hx with hx | ⟨name, value, -, rfl⟩
    · exact h.vars x hx
    · rfl
  · rw [block_push]
    exact h.names.push r d

/-- What is merged takes the specificity of the rule it is merged into. -/
theorem merge (other : StyleRule) : (rule.merge other).IsStamped where
  declarations := by
    intro x hx
    rcases Block.mem_declarations_merge hx with hx | hx
    · exact h.declarations x hx
    · obtain ⟨d, -, rfl⟩ := List.mem_map.mp hx
      rfl
  vars := by
    intro x hx
    rcases Block.mem_vars_merge hx with hx | hx
    · exact h.vars x hx
    · obtain ⟨v, hv, rfl⟩ := Block.mem_vars_withOrder hx
      obtain ⟨w, -, rfl⟩ := List.mem_map.mp hv
      rfl
  names := h.names.merge _

theorem place (order : Nat) : (rule.withOrder order).IsStamped where
  declarations := h.declarations
  vars := by
    intro x hx
    obtain ⟨v, hv, rfl⟩ := Block.mem_vars_withOrder hx
    exact h.vars v hv
  names := h.names.withOrder order

end IsStamped

theorem Built.isStamped {rule : StyleRule} (h : rule.Built) : rule.IsStamped := by
  induction h with
  | ofSelector selector => exact ⟨by simp, by simp, .empty⟩
  | push _ r d ih => exact ih.push r d
  | @merge _ other _ _ ih _ => exact ih.merge other
  | mark _ marker ih => exact ⟨ih.declarations, ih.vars, ih.names⟩
  | place _ order ih => exact ih.place order

theorem isPlaced_withOrder (rule : StyleRule) (order : Nat) : (rule.withOrder order).IsPlaced := by
  intro v hv
  obtain ⟨w, -, rfl⟩ := Block.mem_vars_withOrder hv
  rfl

/-- What is merged takes the place of the rule it is merged into. -/
theorem IsPlaced.merge {rule : StyleRule} (h : rule.IsPlaced) (other : StyleRule) :
    (rule.merge other).IsPlaced := by
  intro v hv
  rcases Block.mem_vars_merge hv with hv | hv
  · exact h v hv
  · obtain ⟨w, -, rfl⟩ := Block.mem_vars_withOrder hv
    rfl

end StyleRule

namespace Stylesheet

/-! ## Rules in sheets -/

/-- The rules after appending: the old ones and the new one at its place. -/
theorem mem_rules_append {s : Stylesheet} {rule x : StyleRule} (h : x ∈ (s.append rule).rules) :
    x ∈ s.rules ∨ ∃ order, x = rule.withOrder order := by
  unfold append at h
  split at h
  · exact Or.inl h
  · rcases List.mem_append.mp h with h | h
    · exact Or.inl h
    · exact Or.inr ⟨s.nextOrder, List.mem_singleton.mp h⟩

theorem mem_rules_foldl_append {s : Stylesheet} {rules : List StyleRule} {x : StyleRule}
    (h : x ∈ (rules.foldl append s).rules) :
    x ∈ s.rules ∨ ∃ rule ∈ rules, ∃ order, x = rule.withOrder order := by
  refine List.foldlRecOn (motive := fun u => x ∈ Stylesheet.rules u → _) rules _ Or.inl ?_ h
  intro u hu rule hrule hx
  rcases mem_rules_append hx with hx | ⟨order, rfl⟩
  · exact hu hx
  · exact Or.inr ⟨rule, hrule, order, rfl⟩

theorem rules_foldl_putKeyframes (s : Stylesheet) (sets : List KeyframeSet) :
    (sets.foldl putKeyframes s).rules = s.rules :=
  (sameRules_foldl_putKeyframes s sets).1

/-- The rules after merging: the old ones, and the one that was merged into. -/
theorem mem_mergeRule? {rule x : StyleRule} {rules merged : List StyleRule}
    (h : mergeRule? rule rules = some merged) (hx : x ∈ merged) :
    x ∈ rules ∨ ∃ target ∈ rules, sameTarget target rule = true ∧ x = target.merge rule := by
  obtain ⟨before, target, after, rfl, -, htarget, rfl⟩ := exists_target_of_mergeRule? h
  rcases List.mem_append.mp hx with hx | hx
  · exact .inl (List.mem_append_left _ hx)
  · rcases List.mem_cons.mp hx with rfl | hx
    · exact .inr ⟨target, List.mem_append_right _ List.mem_cons_self, htarget, rfl⟩
    · exact .inl (List.mem_append_right _ (List.mem_cons_of_mem _ hx))

/-! ## Sheets made of built rules -/

/-- The sheets that can be built from rules that can be built. -/
inductive Built : Stylesheet → Prop
  | empty : Built .empty
  | parse (r : Registry) (text : String) : Built (.parse r text)
  | add {s : Stylesheet} (h : Built s) {rule : StyleRule} (k : rule.Built) : Built (s.add rule)
  | append {s : Stylesheet} (h : Built s) {rule : StyleRule} (k : rule.Built) :
      Built (s.append rule)
  | combine {s other : Stylesheet} (h : Built s) (k : Built other) : Built (s.combine other)
  | putKeyframes {s : Stylesheet} (h : Built s) (set : KeyframeSet) : Built (s.putKeyframes set)
  | setMarker {s : Stylesheet} (h : Built s) (marker : Nat) : Built (s.setMarker marker)
  | withMarker {s : Stylesheet} (h : Built s) (marker : Nat) : Built (s.withMarker marker)
  | removeMarker {s : Stylesheet} (h : Built s) (marker : Nat) : Built (s.removeMarker marker)
  | clear {s : Stylesheet} (h : Built s) : Built s.clear

theorem Built.reachable {s : Stylesheet} (h : s.Built) : s.Reachable := by
  induction h with
  | empty => exact .empty
  | parse r text => exact .parse r text
  | add _ _ ih => exact ih.add _
  | append _ _ ih => exact ih.append _
  | combine _ _ ih ih' => exact ih.combine ih'
  | putKeyframes _ set ih => exact ih.putKeyframes set
  | setMarker _ marker ih => exact ih.setMarker marker
  | withMarker _ marker ih => exact ih.withMarker marker
  | removeMarker _ marker ih => exact ih.removeMarker marker
  | clear _ ih => exact ih.clear

/-- The rules that are read from a written sheet are built. -/
theorem built_of_mem_rulesOfSource {r : Registry} {source : Source.Rule} {rule : StyleRule}
    (h : rule ∈ rulesOfSource r source) : rule.Built := by
  obtain ⟨selector, hselector, rfl⟩ := List.mem_map.mp h
  exact .ofDeclarations r _ _

/-- **What stands in a built sheet.**  What every built rule has at the place that a sheet gives it,
and what merging a built rule and marking keep, all rules of a built sheet have. -/
theorem Built.forall_rules_built_and {P : StyleRule → Prop}
    (place : ∀ (rule : StyleRule) order, rule.Built → P (rule.withOrder order))
    (merge : ∀ target rule : StyleRule, P target → rule.Built → P (target.merge rule))
    (mark : ∀ (rule : StyleRule) marker, P rule → P { rule with marker })
    {s : Stylesheet} (h : s.Built) : ∀ rule ∈ s.rules, rule.Built ∧ P rule := by
  -- Appending built rules is all that reading, combining and copying a layer do.
  have appendAll : ∀ (s : Stylesheet) (rules : List StyleRule),
      (∀ rule ∈ s.rules, rule.Built ∧ P rule) → (∀ rule ∈ rules, rule.Built) →
        ∀ x ∈ (rules.foldl Stylesheet.append s).rules, x.Built ∧ P x := by
    intro s rules hs hrules x hx
    rcases mem_rules_foldl_append hx with hx | ⟨rule, hrule, order, rfl⟩
    · exact hs x hx
    · exact ⟨(hrules rule hrule).place order, place rule order (hrules rule hrule)⟩
  have none : ∀ rule ∈ Stylesheet.empty.rules, rule.Built ∧ P rule := by simp [Stylesheet.empty]
  induction h with
  | empty => exact none
  | parse r text =>
      rw [Stylesheet.parse, ofSource, rules_foldl_putKeyframes]
      refine appendAll _ _ none fun rule hrule => ?_
      obtain ⟨source, -, hrule⟩ := List.mem_flatMap.mp hrule
      exact built_of_mem_rulesOfSource hrule
  | @add s _ rule hrule ih =>
      unfold Stylesheet.add
      split
      · next rules hmerged =>
          intro x hx
          rcases mem_mergeRule? hmerged hx with hx | ⟨target, htarget, -, rfl⟩
          · exact ih x hx
          · obtain ⟨hbuilt, hP⟩ := ih target htarget
            exact ⟨hbuilt.merge hrule, merge target rule hP hrule⟩
      · exact appendAll s [rule] ih (by simpa using hrule)
  | @append s _ rule hrule ih => exact appendAll s [rule] ih (by simpa using hrule)
  | @combine s other _ _ ih ih' =>
      rw [Stylesheet.combine, rules_foldl_putKeyframes]
      exact appendAll _ _ ih fun rule hrule => (ih' rule (List.mem_mergeSort.mp hrule)).1
  | @putKeyframes s _ set ih =>
      rw [(sameRules_putKeyframes s set).1]
      exact ih
  | @setMarker s _ marker ih =>
      unfold Stylesheet.setMarker
      split
      · exact ih
      · intro x hx
        obtain ⟨rule, hrule, rfl⟩ := List.mem_map.mp hx
        obtain ⟨hbuilt, hP⟩ := ih rule hrule
        exact ⟨hbuilt.mark marker, mark rule marker hP⟩
  | @withMarker s _ marker ih =>
      rw [Stylesheet.withMarker, rules_foldl_putKeyframes]
      exact appendAll _ _ none fun rule hrule => (ih rule (List.mem_filter.mp hrule).1).1
  | @removeMarker s _ marker ih =>
      unfold Stylesheet.removeMarker
      simp only
      split
      · exact ih
      · exact fun x hx => ih x (List.mem_filter.mp hx).1
  | clear _ _ => exact none

section

variable {s : Stylesheet} (h : s.Built) {rule : StyleRule} (hrule : rule ∈ s.rules)
include h hrule

theorem Built.rule_built : rule.Built :=
  (h.forall_rules_built_and (P := fun _ => True) (fun _ _ _ => trivial) (fun _ _ _ _ => trivial)
    (fun _ _ _ => trivial) rule hrule).1

/-- The declarations and variables of a rule in a sheet carry its specificity. -/
theorem Built.isStamped : rule.IsStamped := (h.rule_built hrule).isStamped

/-- The variables of a rule in a sheet carry its place. -/
theorem Built.isPlaced : rule.IsPlaced :=
  (h.forall_rules_built_and (fun rule order _ => rule.isPlaced_withOrder order)
    (fun _ rule htarget _ => htarget.merge rule) (fun _ _ hrule => hrule) rule hrule).2

end

end Stylesheet

end WidgetStyle
