import WidgetStyle.Proofs.Sheet.Normalisation
import WidgetStyle.Proofs.Sheet.Texts

/-!
# WidgetStyle.Proofs.Sheet.Merging — adding a rule in parts, and adding it again

Adding merges a rule into the one of its selector text and marker.  It makes no difference whether the
declarations of a selector are added in one rule or in two (`add_in_parts`): the sheet has one rule for
them either way, of the same block at the same place.  And a rule that is added again in a row finds
everything that it would write (`Built.sameRules_add_again`).

A rule that declares nothing is dropped, so something must be known about the first part: where
normalising ends (`Registry.Terminates`), every written declaration leaves an entry behind
(`Registry.Built.entries_ne_nil`).
-/

namespace WidgetStyle

/-! ## Registries on which normalising ends -/

namespace Registry

variable {r : Registry} {name value : String}

/-- Normalising ends for every declaration. -/
def Terminates (r : Registry) : Prop :=
  ∀ name value, ∃ steps es, r.normaliseWithin? steps name value = some es

/-- A registry in which no longhand is a shorthand. -/
theorem terminates_of_flat
    (h : ∀ s ∈ r.shorthands.values, ∀ longhand ∈ s.longhands, r.spreading? longhand = none) :
    r.Terminates := by
  have hflat : ∀ name, ¬ r.IsCircular name := by
    intro name hcircle
    obtain ⟨longhand, ⟨s, hs, hlonghand⟩, hagain⟩ := hcircle.exists_leadsTo
    obtain ⟨-, ⟨s', hs', -⟩, -⟩ := hagain.exists_leadsTo
    have hvalue : s ∈ r.shorthands.values := r.reached_subset name ⟨name, .refl, hs⟩
    exact absurd ((h s hvalue longhand hlonghand).symm.trans hs') nofun
  intro name value
  obtain ⟨es, hes⟩ := exists_normaliseWithin? (hflat name) (Nat.lt_succ_self _) value
  exact ⟨_, es, hes⟩

namespace Built

variable (h : r.Built)
include h

theorem not_isCircular (hends : r.Terminates) (name : String) : ¬ r.IsCircular name := by
  intro hcircle
  -- A circle is entered with a single word, which fits every shorthand.
  obtain ⟨-, ⟨s, hs, -⟩, -⟩ := hcircle.exists_leadsTo
  have hsingle : Value.splitWords ['x'] = [['x']] := by decide
  obtain ⟨ds, hds⟩ := Shorthand.exists_expand?_of_word (s := s) hsingle
  obtain ⟨steps, es, hes⟩ := hends name (String.ofList ['x'])
  have hnone := h.normaliseWithin?_eq_none_of_isCircular ⟨s, ds, hs, hds⟩ hcircle steps
  exact absurd (hnone.symm.trans hes) nofun

/-- Spreading a declaration leaves some. -/
theorem ne_nil_of_read {ds : List (String × String)} (hread : r.read name value = .longhands ds) :
    ds ≠ [] := by
  obtain ⟨s, hs, hds⟩ := read_eq_longhands_iff.mp hread
  have hfitted := h.isFitted_of_spreading? hs
  obtain ⟨longhand, hmem⟩ : ∃ longhand, longhand ∈ s.longhands := by
    refine List.exists_mem_of_length_pos ?_
    rw [hfitted]
    cases s.kind <;> decide
  obtain ⟨word, hword⟩ := hfitted.exists_mem_of_expand? hds hmem
  exact List.ne_nil_of_mem hword

theorem normaliseWithin?_ne_nil {steps : Nat} {es : List Entry}
    (hes : r.normaliseWithin? steps name value = some es) : es ≠ [] := by
  induction steps generalizing name value es with
  | zero => cases hes
  | succ steps ih =>
      rw [normaliseWithin?] at hes
      cases hread : r.read name value with
      | entry e =>
          rw [hread] at hes
          exact Option.some.inj hes ▸ List.cons_ne_nil e []
      | longhands ds =>
          rw [hread] at hes
          obtain ⟨parts, hparts, hes⟩ := Option.bind_eq_some_iff.mp hes
          obtain ⟨d, hd⟩ := List.exists_mem_of_ne_nil ds (h.ne_nil_of_read hread)
          obtain ⟨part, hmem, hpart⟩ := exists_related_of_mem (mapM_eq_some_iff.mp hparts) hd
          obtain ⟨e, he⟩ := List.exists_mem_of_ne_nil part (ih hpart)
          rw [← Option.some.inj hes]
          exact List.ne_nil_of_mem (List.mem_flatten_of_mem hmem he)

/-- Every written declaration leaves an entry. -/
theorem entries_ne_nil (hends : r.Terminates) (name value : String) : r.entries name value ≠ [] := by
  have hsize := r.ncard_reached_le name
  have hsteps : (r.reached name).ncard < r.shorthands.size + endlessSteps + 1 := by omega
  obtain ⟨es, hes⟩ := exists_normaliseWithin? (h.not_isCircular hends name) hsteps value
  rw [entries, hes, Option.getD_some]
  exact h.normaliseWithin?_ne_nil hes

end Built

end Registry

/-! ## Writing a block once more -/

section ByName

variable {α : Type} {name : α → String} {x : α} {xs l : List α}

/-- Writing what is there changes nothing. -/
theorem putByName_eq_self (h : (l.map name).Nodup) (hx : x ∈ l) : putByName name x l = l := by
  induction l with
  | nil => exact absurd hx List.not_mem_nil
  | cons y l ih =>
      obtain ⟨hy, hl⟩ := List.nodup_cons.mp h
      rw [putByName]
      rcases List.mem_cons.mp hx with rfl | hx
      · rw [if_pos rfl]
      · have hne : name y ≠ name x := fun heq => hy (heq ▸ List.mem_map_of_mem hx)
        rw [if_neg hne, ih hl hx]

theorem foldl_putByName_eq_self (h : (l.map name).Nodup) (hxs : xs ⊆ l) :
    xs.foldl (fun l x => putByName name x l) l = l := by
  induction xs with
  | nil => rfl
  | cons x xs ih =>
      obtain ⟨hx, hxs⟩ := List.cons_subset.mp hxs
      rw [List.foldl_cons, putByName_eq_self h hx, ih hxs]

theorem foldl_putByName_ne_nil (h : xs ≠ []) (l : List α) :
    xs.foldl (fun l x => putByName name x l) l ≠ [] := by
  obtain ⟨front, x, rfl⟩ := (List.eq_nil_or_concat' xs).resolve_left h
  rw [List.foldl_concat]
  exact List.ne_nil_of_mem (mem_putByName_self x _)

/-- Entries of distinct names are all there after they were written. -/
theorem subset_foldl_putByName (h : (xs.map name).Nodup) (l : List α) :
    xs ⊆ xs.foldl (fun l x => putByName name x l) l := by
  induction xs using List.reverseRecOn with
  | nil => exact List.nil_subset _
  | append_singleton xs x ih =>
      rw [List.map_append, List.map_singleton] at h
      obtain ⟨hxs, -, hdistinct⟩ := List.nodup_append.mp h
      rw [List.foldl_append, List.foldl_cons, List.foldl_nil]
      intro y hy
      rcases List.mem_append.mp hy with hy | hy
      · refine mem_putByName_of_ne (ih hxs hy) ?_
        exact hdistinct _ (List.mem_map_of_mem hy) _ (List.mem_singleton_self _)
      · rw [List.mem_singleton.mp hy]
        exact mem_putByName_self x _

end ByName

namespace Block

variable {b other : Block}

/-- Merging a block whose members are there changes nothing. -/
theorem merge_eq_self (h : b.NamesDistinct) (hdeclarations : other.declarations ⊆ b.declarations)
    (hvars : other.vars ⊆ b.vars) : b.merge other = b := by
  rw [merge_eq, foldl_putByName_eq_self h.declarations hdeclarations,
    foldl_putByName_eq_self h.vars hvars]

/-- A block that was merged may be merged again. -/
theorem merge_merge_self (h : b.NamesDistinct) (hother : other.NamesDistinct) :
    (b.merge other).merge other = b.merge other := by
  have hmembers := merge_eq b other
  refine merge_eq_self (h.merge other) ?_ ?_
  · rw [hmembers]
    exact subset_foldl_putByName hother.declarations _
  · rw [hmembers]
    exact subset_foldl_putByName hother.vars _

theorem NamesDistinct.withSpecificity (h : b.NamesDistinct) (specificity : Specificity) :
    (b.withSpecificity specificity).NamesDistinct where
  declarations := by simpa [Block.withSpecificity, Function.comp_def] using h.declarations
  vars := by simpa [Block.withSpecificity, Function.comp_def] using h.vars

end Block

namespace StyleRule

variable {rule other : StyleRule}

/-- The specificity of a stamped rule is there already. -/
theorem IsStamped.withSpecificity_eq (h : rule.IsStamped) :
    rule.block.withSpecificity rule.specificity = rule.block := by
  have hdeclarations : rule.block.declarations.map
      (fun d => { d with specificity := rule.specificity }) = rule.block.declarations := by
    conv_rhs => rw [← List.map_id rule.block.declarations]
    exact List.map_congr_left fun d hd => by rw [← h.declarations d hd]; rfl
  have hvars : rule.block.vars.map (fun v => { v with specificity := rule.specificity }) =
      rule.block.vars := by
    conv_rhs => rw [← List.map_id rule.block.vars]
    exact List.map_congr_left fun v hv => by rw [← h.vars v hv]; rfl
  rw [Block.withSpecificity, hdeclarations, hvars]

/-- A rule that was merged may be merged again. -/
theorem IsStamped.merge_merge (h : rule.IsStamped) (hother : other.IsStamped) :
    (rule.merge other).merge other = rule.merge other := by
  have hstamped : ((other.block.withSpecificity rule.specificity).withOrder rule.order).NamesDistinct :=
    (hother.names.withSpecificity _).withOrder _
  rw [StyleRule.merge, StyleRule.merge, specificity]
  exact congrArg (fun block => { rule with block }) (Block.merge_merge_self h.names hstamped)

/-- A rule may be merged into itself at any place. -/
theorem IsStamped.withOrder_merge_self (h : rule.IsStamped) (order : Nat) :
    (rule.withOrder order).merge rule = rule.withOrder order := by
  have hspecificity : (rule.withOrder order).specificity = rule.specificity := by
    rw [specificity, withOrder, specificity]
  rw [StyleRule.merge, hspecificity, h.withSpecificity_eq]
  refine congrArg (fun block => { rule.withOrder order with block }) ?_
  exact Block.merge_eq_self (h.names.withOrder order) (List.Subset.refl _) (List.Subset.refl _)

end StyleRule

namespace Stylesheet

/-! ## Adding a rule again -/

variable {s : Stylesheet} {rule : StyleRule} {rules merged : List StyleRule}

/-- What was merged into a list of rules may be merged into it again. -/
theorem mergeRule?_merged (h : mergeRule? rule rules = some merged)
    (again : ∀ target ∈ rules, (target.merge rule).merge rule = target.merge rule) :
    mergeRule? rule merged = some merged := by
  obtain ⟨before, target, after, rfl, hbefore, htarget, rfl⟩ := exists_target_of_mergeRule? h
  have hsame : sameTarget (target.merge rule) rule = true := htarget
  rw [mergeRule?_append_of_not_target hbefore, mergeRule?, hsame, if_pos rfl,
    again target (by simp)]
  rfl

theorem sameTarget_withOrder (rule : StyleRule) (order : Nat) :
    sameTarget (rule.withOrder order) rule = true := by
  simp [sameTarget, StyleRule.withOrder]

theorem add_of_some (h : mergeRule? rule s.rules = some merged) :
    s.add rule = touch { s with rules := merged } := by
  rw [add, h]

theorem add_of_none (h : mergeRule? rule s.rules = none) : s.add rule = s.append rule := by
  rw [add, h]

/-- **A rule that was added is there.**  Added once more, it changes no rule of the sheet. -/
theorem Built.sameRules_add_again (h : s.Built) (hrule : rule.Built) :
    SameRules ((s.add rule).add rule) (s.add rule) := by
  cases hmerge : mergeRule? rule s.rules with
  | some merged =>
      have hadded : s.add rule = touch { s with rules := merged } := add_of_some hmerge
      have hagain : mergeRule? rule (s.add rule).rules = some merged := by
        rw [hadded]
        exact mergeRule?_merged hmerge fun target htarget =>
          (h.isStamped htarget).merge_merge hrule.isStamped
      rw [add_of_some hagain, hadded]
      exact ⟨rfl, rfl, rfl⟩
  | none =>
      rw [add_of_none hmerge]
      cases hempty : rule.isEmpty with
      | true =>
          -- A rule that declares nothing is dropped both times.
          have hdropped : s.append rule = s := by rw [Stylesheet.append, hempty, if_pos rfl]
          rw [hdropped, add_of_none hmerge, hdropped]
          exact ⟨rfl, rfl, rfl⟩
      | false =>
          have hrules : (s.append rule).rules = s.rules ++ [rule.withOrder s.nextOrder] := by
            rw [Stylesheet.append, hempty, if_neg Bool.false_ne_true]
            rfl
          have hagain : mergeRule? rule (s.append rule).rules = some (s.append rule).rules := by
            rw [hrules, mergeRule?_append_of_not_target (not_target_of_mergeRule? hmerge), mergeRule?,
              sameTarget_withOrder, if_pos rfl, hrule.isStamped.withOrder_merge_self]
            rfl
          rw [add_of_some hagain]
          exact ⟨rfl, rfl, rfl⟩

end Stylesheet

/-! ## Adding a rule in parts -/

namespace WrittenRule

variable {r : Registry}

/-- An entry of a written declaration stands for a declaration or for a variable. -/
theorem declarationsOf_ne_nil_or {specificity : Specificity} {ds : List Source.Declaration}
    {d : Source.Declaration} (hd : d ∈ ds) {e : Entry} (he : e ∈ r.entries d.name d.value) :
    r.declarationsOf specificity ds ≠ [] ∨ r.variablesOf specificity ds ≠ [] := by
  cases e with
  | property name id? value =>
      have hmem : (⟨name, id?, value, specificity, d.important⟩ : Declaration) ∈
          r.declarationsOf specificity ds :=
        List.mem_flatMap.mpr ⟨d, hd, List.mem_filterMap.mpr ⟨.property name id? value, he, rfl⟩⟩
      exact .inl (List.ne_nil_of_mem hmem)
  | «variable» name value =>
      have hmem : ({ name, value, specificity } : Variable) ∈ r.variablesOf specificity ds :=
        List.mem_flatMap.mpr ⟨d, hd, List.mem_filterMap.mpr ⟨.variable name value, he, rfl⟩⟩
      exact .inr (List.ne_nil_of_mem hmem)

/-- A written rule with a declaration makes a rule that declares something. -/
theorem isEmpty_rule (hr : r.Built) (hends : r.Terminates) {w : WrittenRule} (h : w.declarations ≠ []) :
    (w.rule r).isEmpty = false := by
  obtain ⟨d, hd⟩ := List.exists_mem_of_ne_nil _ h
  obtain ⟨e, he⟩ := List.exists_mem_of_ne_nil _ (hr.entries_ne_nil hends d.name d.value)
  rw [rule_eq, StyleRule.isEmpty, Block.isEmpty, Block.pushAll_eq, Bool.and_eq_false_iff,
    List.isEmpty_eq_false_iff, List.isEmpty_eq_false_iff]
  exact (declarationsOf_ne_nil_or hd he).imp (foldl_putByName_ne_nil · _) (foldl_putByName_ne_nil · _)

end WrittenRule

namespace Stylesheet

variable {r : Registry}

theorem empty_add {rule : StyleRule} (h : rule.isEmpty = false) :
    empty.add rule = touch
      { empty with
        rules := [rule.withOrder 0]
        index := fileAt .empty (.ofRule rule) 0
        nextOrder := nextCount 0 } := by
  have hadded : empty.add rule = empty.append rule := add_of_none rfl
  rw [hadded, append, h, if_neg Bool.false_ne_true]
  rfl

/-- Adding a rule behind another one of its selector and marker is adding one rule of the declarations
of both. -/
theorem sameRules_add_add (hr : r.Built) (hends : r.Terminates) {w v : WrittenRule}
    (h : w.declarations ≠ []) (hselector : v.selector = w.selector) (hmarker : v.marker = w.marker) :
    SameRules ((empty.add (w.rule r)).add (v.rule r)) (empty.add ((w.extend v.declarations).rule r)) := by
  have hmore : (w.extend v.declarations).declarations ≠ [] := List.append_ne_nil_of_left_ne_nil h _
  have hfirst := empty_add (WrittenRule.isEmpty_rule hr hends h)
  have hwhole := empty_add (WrittenRule.isEmpty_rule hr hends hmore)
  have htarget : sameTarget ((w.rule r).withOrder 0) (v.rule r) = true := by
    rw [sameTarget, WrittenRule.rule_eq, WrittenRule.rule_eq]
    simp [StyleRule.withOrder, hselector, hmarker]
  have hmerge : mergeRule? (v.rule r) (empty.add (w.rule r)).rules =
      some [((w.extend v.declarations).rule r).withOrder 0] := by
    rw [hfirst, rules_touch, mergeRule?, htarget, if_pos rfl, WrittenRule.withOrder_merge_rule]
  have hfiled : FilingKey.ofRule (w.rule r) = .ofRule ((w.extend v.declarations).rule r) := by
    rw [FilingKey.ofRule, FilingKey.ofRule, WrittenRule.rule_eq, WrittenRule.rule_eq]
    rfl
  rw [add_of_some hmerge, hfirst, hwhole, hfiled]
  exact ⟨rfl, rfl, rfl⟩

/-- **Adding a rule in parts.**  Where normalising ends, adding the declarations of a selector in two
rules, of which the first has some, gives the same rule as adding them in one.  Names stand once in
every block.  And whatever rule is added to whatever sheet, adding it once more changes nothing. -/
theorem add_in_parts (hr : r.Built) (hends : r.Terminates) (selector : String)
    {first : List Source.Declaration} (h : first ≠ []) (more : List Source.Declaration)
    (marker : Nat) :
    (let rule := fun ds => (WrittenRule.mk (.parse selector) ds marker).rule r
     SameRules ((empty.add (rule first)).add (rule more)) (empty.add (rule (first ++ more))) ∧
       (empty.add (rule (first ++ more))).rules = [(rule (first ++ more)).withOrder 0]) ∧
      (∀ rule : StyleRule, rule.Built → rule.block.NamesDistinct) ∧
        ∀ (s : Stylesheet) (rule : StyleRule), s.Built → rule.Built →
          SameRules ((s.add rule).add rule) (s.add rule) ∧
            ∀ x ∈ (s.add rule).rules, x.block.NamesDistinct := by
  have hmore : first ++ more ≠ [] := List.append_ne_nil_of_left_ne_nil h more
  refine ⟨⟨?parts, ?single⟩, fun rule hrule => hrule.isStamped.names, fun s rule hs hrule => ⟨?_, ?_⟩⟩
  case parts => exact sameRules_add_add hr hends h rfl rfl
  case single => rw [empty_add (WrittenRule.isEmpty_rule hr hends hmore), rules_touch]
  · exact hs.sameRules_add_again hrule
  · exact fun x hx => ((hs.add hrule).isStamped hx).names

/-- A registry of the gaps of rows and columns, with an alias and a shorthand. -/
def gaps : Registry :=
  (["row-gap", "column-gap"].foldl (fun r name => r.register name "0" false) Registry.empty)
    |>.addAlias "row-gap" "rg"
    |>.addShorthand "gap" ["row-gap", "column-gap"] .pair

/-- The alias in the second part finds the longhand that the shorthand in the first part left. -/
theorem add_in_parts_gaps :
    gaps.Built ∧ gaps.Terminates ∧ ([⟨"gap", "1px 2px", false⟩] : List Source.Declaration) ≠ [] ∧
      SameRules
        ((empty.add ((WrittenRule.mk (.parse "a > b") [⟨"gap", "1px 2px", false⟩] 7).rule gaps)).add
          ((WrittenRule.mk (.parse "a > b") [⟨"RG", "3px", true⟩, ⟨"--x", "4", false⟩] 7).rule gaps))
        (empty.add ((WrittenRule.mk (.parse "a > b")
          [⟨"gap", "1px 2px", false⟩, ⟨"RG", "3px", true⟩, ⟨"--x", "4", false⟩] 7).rule gaps)) ∧
      (empty.add ((WrittenRule.mk (.parse "a > b")
          [⟨"gap", "1px 2px", false⟩, ⟨"RG", "3px", true⟩, ⟨"--x", "4", false⟩] 7).rule gaps)).rules.map
        (fun rule => rule.block.declarations.map fun d => (d.name, d.value, d.important)) =
          [[("row-gap", "3px", true), ("column-gap", "2px", false)]] := by
  have hbuilt : gaps.Built :=
    ((Registry.Built.empty.foldl _ fun _ name hr => hr.register name "0" false).addAlias _ _).addShorthand
      _ _ _
  have hends : gaps.Terminates := Registry.terminates_of_flat (by decide +kernel)
  have hsome : ([⟨"gap", "1px 2px", false⟩] : List Source.Declaration) ≠ [] := List.cons_ne_nil _ _
  have hparts := (add_in_parts hbuilt hends "a > b" hsome
    [⟨"RG", "3px", true⟩, ⟨"--x", "4", false⟩] 7).1
  exact ⟨hbuilt, hends, hsome, hparts.1, by decide +kernel⟩

end Stylesheet

end WidgetStyle
