import WidgetStyle.Proofs.Selector.Spacing
import WidgetStyle.Proofs.Sheet.Removal
import WidgetStyle.Proofs.Sheet.Rules

/-!
# WidgetStyle.Proofs.Sheet.Selectors — rules are told apart by the texts of their selectors

Adding a rule looks for the text of its selector in the sheet, and so does asking for the rules of a
selector.  Nothing but reading makes selectors, and a selector that is read is the one that its text is
read as.  So in the sheets that hosts build (`Stylesheet.Read`) two rules of one selector text have one
selector, with everything that follows from it, such as specificity and filing key.

Adding therefore merges rules of one selector only, and a lookup gives the rules that were read from a
text equal to the asked one up to blanks (`Read.told_by_text`).
-/

namespace WidgetStyle

/-! ## Selectors that are read -/

namespace Selector

/-- The selectors that are read from texts. -/
def IsRead (selector : Selector) : Prop := ∃ source, selector = .parse source

variable {a b : Selector}

/-- A selector that is read is the one that its text is read as. -/
theorem IsRead.eq_parse_text (h : a.IsRead) : a = .parse a.text := by
  obtain ⟨source, rfl⟩ := h
  exact (parse_text source).symm

theorem IsRead.text_eq_iff (ha : a.IsRead) (hb : b.IsRead) : a.text = b.text ↔ a = b := by
  constructor
  · intro h
    rw [ha.eq_parse_text, hb.eq_parse_text, h]
  · exact congrArg Selector.text

theorem isRead_of_mem_parseList {heading : String} (h : a ∈ parseList heading) : a.IsRead := by
  obtain ⟨piece, -, hpiece⟩ := List.mem_map.mp (List.mem_filter.mp h).1
  exact ⟨String.ofList piece, hpiece.symm⟩

end Selector

namespace StyleRule

/-- Two rules have one selector and one marker. -/
def Coincides (a b : StyleRule) : Prop := a.selector = b.selector ∧ a.marker = b.marker

/-- The selector of the rule is read from a text that equals another one up to blanks. -/
def IsReadAs (rule : StyleRule) (text : String) : Prop :=
  ∃ source, rule.selector = .parse source ∧ Selector.SameUpToBlanks source text

variable {rule : StyleRule} {text : String}

theorem isReadAs_iff : rule.IsReadAs text ↔ rule.selector = .parse text := by
  constructor
  · rintro ⟨source, hsource, hsame⟩
    rw [hsource, Selector.parse_eq_parse_iff]
    exact hsame
  · intro h
    exact ⟨text, h, Selector.parse_eq_parse_iff.mp rfl⟩

instance (rule : StyleRule) (text : String) : Decidable (rule.IsReadAs text) :=
  decidable_of_iff _ isReadAs_iff.symm

theorem selector_push (rule : StyleRule) (r : Registry) (d : Source.Declaration) :
    (rule.push r d).selector = rule.selector := by rw [push]

theorem selector_ofDeclarations (r : Registry) (selector : Selector) (ds : List Source.Declaration) :
    (ofDeclarations r selector ds).selector = selector := by
  have hfold : ∀ rule : StyleRule, (ds.foldl (fun rule d => rule.push r d) rule).selector =
      rule.selector := by
    induction ds with
    | nil => exact fun _ => rfl
    | cons d ds ih =>
        intro rule
        rw [List.foldl_cons, ih, selector_push]
  rw [ofDeclarations, hfold]

theorem isRead_parse (r : Registry) (selector declarations : String) :
    (StyleRule.parse r selector declarations).selector.IsRead :=
  ⟨selector, selector_ofDeclarations r _ _⟩

end StyleRule

namespace Stylesheet

/-! ## Sheets of rules that are read -/

/-- The sheets that can be built from rules whose selectors are read. -/
inductive Read : Stylesheet → Prop
  | empty : Read .empty
  | parse (r : Registry) (text : String) : Read (.parse r text)
  | add {s : Stylesheet} (h : Read s) {rule : StyleRule} (k : rule.selector.IsRead) :
      Read (s.add rule)
  | append {s : Stylesheet} (h : Read s) {rule : StyleRule} (k : rule.selector.IsRead) :
      Read (s.append rule)
  | combine {s other : Stylesheet} (h : Read s) (k : Read other) : Read (s.combine other)
  | putKeyframes {s : Stylesheet} (h : Read s) (set : KeyframeSet) : Read (s.putKeyframes set)
  | setMarker {s : Stylesheet} (h : Read s) (marker : Nat) : Read (s.setMarker marker)
  | withMarker {s : Stylesheet} (h : Read s) (marker : Nat) : Read (s.withMarker marker)
  | removeMarker {s : Stylesheet} (h : Read s) (marker : Nat) : Read (s.removeMarker marker)
  | clear {s : Stylesheet} (h : Read s) : Read s.clear

theorem Read.reachable {s : Stylesheet} (h : s.Read) : s.Reachable := by
  induction h with
  | empty => exact .empty
  | parse r text => exact .parse r text
  | add _ _ ih => exact ih.add _
  | append _ _ ih => exact ih.append _
  | combine _ _ ih ih' => exact ih.combine ih'
  | putKeyframes _ set ih => exact ih.putKeyframes set
  | setMarker _ marker ih => exact ih.setMarker marker
  | withMarker _ marker ih => exact ih.withMarker marker
  | removeMarker _ marker ih => exact ih.removeMarker marker
  | clear _ ih => exact ih.clear

/-- The selectors of all rules are read. -/
def OnlyRead (s : Stylesheet) : Prop := ∀ rule ∈ s.rules, rule.selector.IsRead

theorem onlyRead_empty : empty.OnlyRead := nofun

namespace OnlyRead

variable {s : Stylesheet} (h : s.OnlyRead)
include h

theorem of_sameRules {u : Stylesheet} (hsame : SameRules u s) : u.OnlyRead := by
  intro x hx
  rw [hsame.1] at hx
  exact h x hx

theorem foldl_append {rules : List StyleRule} (hrules : ∀ rule ∈ rules, rule.selector.IsRead) :
    (rules.foldl Stylesheet.append s).OnlyRead := by
  intro x hx
  rcases mem_rules_foldl_append hx with hx | ⟨rule, hrule, order, rfl⟩
  · exact h x hx
  · exact hrules rule hrule

theorem append {rule : StyleRule} (hrule : rule.selector.IsRead) : (s.append rule).OnlyRead :=
  h.foldl_append (List.forall_mem_singleton.mpr hrule)

theorem add {rule : StyleRule} (hrule : rule.selector.IsRead) : (s.add rule).OnlyRead := by
  rw [Stylesheet.add]
  split
  · next rules hmerged =>
      intro x hx
      rcases mem_mergeRule? hmerged hx with hx | ⟨target, htarget, -, rfl⟩
      · exact h x hx
      · exact h target htarget
  · exact h.append hrule

theorem combine {other : Stylesheet} (hother : other.OnlyRead) : (s.combine other).OnlyRead := by
  rw [Stylesheet.combine]
  refine of_sameRules (h.foldl_append fun rule hrule => ?_) (sameRules_foldl_putKeyframes _ _)
  exact hother rule (List.mem_mergeSort.mp hrule)

theorem setMarker (marker : Nat) : (s.setMarker marker).OnlyRead := by
  rw [Stylesheet.setMarker]
  split
  · exact h
  · intro x hx
    obtain ⟨rule, hrule, rfl⟩ := List.mem_map.mp hx
    exact h rule hrule

theorem withMarker (marker : Nat) : (s.withMarker marker).OnlyRead := by
  rw [Stylesheet.withMarker]
  refine of_sameRules (onlyRead_empty.foldl_append fun rule hrule => ?_)
    (sameRules_foldl_putKeyframes _ _)
  exact h rule (List.mem_filter.mp hrule).1

theorem removeMarker (marker : Nat) : (s.removeMarker marker).OnlyRead := by
  intro x hx
  rw [rules_removeMarker] at hx
  exact h x (List.mem_filter.mp hx).1

end OnlyRead

theorem onlyRead_parse (r : Registry) (text : String) : (parse r text).OnlyRead := by
  rw [parse, ofSource]
  refine (onlyRead_empty.foldl_append fun rule hrule => ?_).of_sameRules
    (sameRules_foldl_putKeyframes _ _)
  obtain ⟨source, -, hsource⟩ := List.mem_flatMap.mp hrule
  obtain ⟨selector, hselector, rfl⟩ := List.mem_map.mp hsource
  rw [StyleRule.selector_ofDeclarations]
  exact Selector.isRead_of_mem_parseList hselector

/-- However a sheet is built from what is read, no other selectors come in. -/
theorem Read.onlyRead {s : Stylesheet} (h : s.Read) : s.OnlyRead := by
  induction h with
  | empty => exact onlyRead_empty
  | parse r text => exact onlyRead_parse r text
  | add _ hrule ih => exact ih.add hrule
  | append _ hrule ih => exact ih.append hrule
  | combine _ _ ih ih' => exact ih.combine ih'
  | @putKeyframes s _ set ih => exact ih.of_sameRules (sameRules_putKeyframes s set)
  | setMarker _ marker ih => exact ih.setMarker marker
  | withMarker _ marker ih => exact ih.withMarker marker
  | removeMarker _ marker ih => exact ih.removeMarker marker
  | clear _ _ => exact onlyRead_empty

/-! ## Adding -/

/-- Among rules that are read, the targets are those of the same selector. -/
theorem sameTarget_iff_coincides {a b : StyleRule} (ha : a.selector.IsRead) (hb : b.selector.IsRead) :
    sameTarget a b = true ↔ a.Coincides b := by
  rw [sameTarget, Bool.and_eq_true, decide_eq_true_iff, decide_eq_true_iff, ha.text_eq_iff hb,
    StyleRule.Coincides]

/-- A rule is added to a sheet by its selector: it is merged into the first rule that has its selector
and marker, and appended when no rule has them. -/
def AddsBySelector (s : Stylesheet) (rule : StyleRule) : Prop :=
  (∃ before target after, s.rules = before ++ target :: after ∧
      (∀ x ∈ before, ¬x.Coincides rule) ∧ target.Coincides rule ∧
        (s.add rule).rules = before ++ target.merge rule :: after) ∨
    (∀ x ∈ s.rules, ¬x.Coincides rule) ∧ s.add rule = s.append rule

theorem OnlyRead.addsBySelector {s : Stylesheet} (h : s.OnlyRead) {rule : StyleRule}
    (hrule : rule.selector.IsRead) : s.AddsBySelector rule := by
  have hother : ∀ x ∈ s.rules, sameTarget x rule = false → ¬x.Coincides rule := by
    intro x hx hfalse hsame
    exact Bool.eq_false_iff.mp hfalse ((sameTarget_iff_coincides (h x hx) hrule).mpr hsame)
  cases hmerge : mergeRule? rule s.rules with
  | none =>
      refine .inr ⟨fun x hx => ?_, by rw [Stylesheet.add, hmerge]⟩
      exact hother x hx (not_target_of_mergeRule? hmerge x hx)
  | some merged =>
      obtain ⟨before, target, after, hrules, hbefore, htarget, rfl⟩ :=
        exists_target_of_mergeRule? hmerge
      have hmem : target ∈ s.rules := by simp [hrules]
      refine .inl ⟨before, target, after, hrules, fun x hx => ?_, ?_, by rw [Stylesheet.add, hmerge]; rfl⟩
      · exact hother x (by simp [hrules, hx]) (hbefore x hx)
      · exact (sameTarget_iff_coincides (h target hmem) hrule).mp htarget

/-! ## Asking for a selector -/

theorem OnlyRead.rulesForSelector_eq {s : Stylesheet} (h : s.OnlyRead) (text : String) :
    s.rulesForSelector text = s.rules.filter fun rule => rule.IsReadAs text := by
  refine List.filter_congr fun rule hrule => decide_eq_decide.mpr ?_
  have hread : (Selector.parse text).IsRead := ⟨text, rfl⟩
  rw [StyleRule.isReadAs_iff, ← (h rule hrule).text_eq_iff hread, Selector.text_parse]

theorem Reachable.pairwise_rulesForSelector {s : Stylesheet} (h : s.Reachable) (text : String) :
    (s.rulesForSelector text).Pairwise fun x y => x.order ≤ y.order :=
  (List.pairwise_map.mp h.ordersLe.1).sublist List.filter_sublist

/-- **The text of a selector tells the selector.**  Reading gives a selector whose text is read as the
selector again, and texts are read as one selector exactly when they have one normal form.  So each
rule of a sheet has the selector that its text is read as; a rule is added by its selector; and asking
for a text gives, in the order of insertion, the rules whose selectors were read from a text that equals
it up to blanks, whichever text this was. -/
theorem Read.told_by_text {s : Stylesheet} (h : s.Read) :
    (∀ source, Selector.parse (Selector.parse source).text = .parse source) ∧
      (∀ a b, Selector.parse a = .parse b ↔ Selector.normalText a = Selector.normalText b) ∧
        (∀ x ∈ s.rules, x.selector = .parse x.selector.text) ∧
          (∀ rule : StyleRule, rule.selector.IsRead → s.AddsBySelector rule) ∧
            ∀ text,
              (s.rulesForSelector text = s.rules.filter fun x => x.IsReadAs text) ∧
                (s.rulesForSelector text).Pairwise (fun x y => x.order ≤ y.order) ∧
                  ∀ x ∈ s.rules, ∀ source, x.selector = .parse source →
                    (x ∈ s.rulesForSelector text ↔ Selector.SameUpToBlanks source text) := by
  have honly := h.onlyRead
  refine ⟨Selector.parse_text, fun a b => ?_, fun x hx => (honly x hx).eq_parse_text,
    fun rule hrule => honly.addsBySelector hrule, fun text => ⟨honly.rulesForSelector_eq text,
      h.reachable.pairwise_rulesForSelector text, fun x hx source hsource => ?_⟩⟩
  · rw [Selector.parse_eq_parse_iff, Selector.normalText_eq_iff]
  · rw [honly.rulesForSelector_eq, List.mem_filter, decide_eq_true_iff, StyleRule.isReadAs_iff,
      hsource, Selector.parse_eq_parse_iff]
    exact ⟨And.right, fun hsame => ⟨hx, hsame⟩⟩

/-- Three rules, of which the first two differ in the blanks of their headings only. -/
def arrows : Stylesheet :=
  ((empty.add (.parse .empty "a  >  b" "width: 1px")).add
    (.parse .empty "\ta >\u2003b" "height: 2px")).add (.parse .empty "a>b" "width: 3px")

theorem read_arrows : arrows.Read :=
  ((Read.empty.add (StyleRule.isRead_parse _ _ _)).add (StyleRule.isRead_parse _ _ _)).add
    (StyleRule.isRead_parse _ _ _)

/-- The second rule was merged into the first.  The third has another text, in which no blanks stand. -/
theorem told_by_text_arrows :
    arrows.Read ∧
      (arrows.rulesForSelector "a\n> b" = arrows.rules.filter fun x => x.IsReadAs "a\n> b") ∧
        arrows.AddsBySelector (.parse .empty "a > b " "width: 4px") ∧
          Selector.parse "a  >  b" = .parse "\ta >\u2003b" ∧
            (arrows.rulesForSelector "a\n> b").map (fun x => x.block.declarations.map (·.value)) =
              [["1px", "2px"]] ∧ arrows.rules.length = 2 := by
  obtain ⟨-, hparse, -, hadds, hasked⟩ := Read.told_by_text read_arrows
  refine ⟨read_arrows, (hasked "a\n> b").1, hadds _ (StyleRule.isRead_parse _ _ _), ?_,
    by decide +kernel, by decide +kernel⟩
  exact (hparse _ _).mpr (by decide +kernel)

end Stylesheet

end WidgetStyle
