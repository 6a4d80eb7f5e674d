import Mathlib.Data.List.Forall2
import Mathlib.Data.List.Induction
import WidgetStyle.Proofs.Sheet.Blocks
import WidgetStyle.Proofs.Sheet.Rules

/-!
# WidgetStyle.Proofs.Sheet.Texts — sheets as the texts that were put into them

A sheet is filled with written rules: each is appended as a rule of its own, or added, which merges
it into the first rule with its selector text and marker.  What such a sheet holds can be told from
the written rules alone, by a ledger that knows nothing of blocks (`ledger`): appending makes a new
entry, and adding writes the declarations behind those of the entry it goes to.  Every rule of the
sheet is then the rule of its entry, as if all its declarations had been written in one text
(`forall₂_ledger_rules`).

The reason is that merging a block is the same as pushing its declarations once more
(`merge_pushAll`).  Both write entries by name, and writing a list whose entries were already
collected by name leaves the same as writing the entries one after the other
(`foldl_putByName_foldl`).
-/

namespace WidgetStyle

/-! ## Writing by name -/

section ByName

variable {α : Type} {name : α → String} {x y : α} {l m : List α}

theorem mem_putByName_self (x : α) (l : List α) : x ∈ putByName name x l := by
  induction l with
  | nil => exact List.mem_singleton_self x
  | cons z l ih =>
      rw [putByName]
      split
      · exact List.mem_cons_self
      · exact List.mem_cons_of_mem _ ih

/-- An entry of another name stays. -/
theorem mem_putByName_of_ne (hy : y ∈ l) (hne : name y ≠ name x) : y ∈ putByName name x l := by
  induction l with
  | nil => exact absurd hy List.not_mem_nil
  | cons z l ih =>
      rw [putByName]
      split
      · next hz =>
          rcases List.mem_cons.mp hy with rfl | hy
          · exact absurd hz hne
          · exact List.mem_cons_of_mem _ hy
      · rcases List.mem_cons.mp hy with rfl | hy
        · exact List.mem_cons_self
        · exact List.mem_cons_of_mem _ (ih hy)

/-- A function that keeps names may be applied before or after. -/
theorem map_putByName_of_name_eq {f : α → α} (h : ∀ x, name (f x) = name x) (x : α) (l : List α) :
    (putByName name x l).map f = putByName name (f x) (l.map f) := by
  induction l with
  | nil => rfl
  | cons z l ih =>
      rw [putByName, List.map_cons, putByName, h, h]
      split
      · rfl
      · rw [List.map_cons, ih]

/-- What is written over leaves no trace. -/
theorem putByName_putByName_self (h : name x = name y) (l : List α) :
    putByName name x (putByName name y l) = putByName name x l := by
  induction l with
  | nil => simp [putByName, h]
  | cons z l ih =>
      by_cases hz : name z = name y
      · simp [putByName, hz, h]
      · simp [putByName, hz, h, ih]

/-- Where a name already has its place, an entry of it may be written before or after one of
another name. -/
theorem putByName_comm (hne : name x ≠ name y) (hx : name x ∈ l.map name) :
    putByName name x (putByName name y l) = putByName name y (putByName name x l) := by
  induction l with
  | nil => exact absurd hx List.not_mem_nil
  | cons z l ih =>
      by_cases hzx : name z = name x
      · simp [putByName, hzx, hne]
      · have htail : name x ∈ l.map name := by
          rcases List.mem_cons.mp hx with h | h
          · exact absurd h.symm hzx
          · exact h
        by_cases hzy : name z = name y
        · simp [putByName, hzy, hne.symm]
        · simp [putByName, hzx, hzy, ih htail]

theorem mem_names_putByName_self (x : α) (l : List α) :
    name x ∈ (putByName name x l).map name :=
  List.mem_map_of_mem (mem_putByName_self x l)

theorem mem_names_putByName_of_mem {n : String} (h : n ∈ l.map name) (x : α) :
    n ∈ (putByName name x l).map name := by
  rw [map_putByName]
  split
  · exact h
  · exact List.mem_append_left _ h

/-- An entry may be written before a run of other names, when its name already has its place. -/
theorem putByName_foldl_comm {ys : List α} (hys : name x ∉ ys.map name)
    (hx : name x ∈ l.map name) :
    putByName name x (ys.foldl (fun l y => putByName name y l) l) =
      ys.foldl (fun l y => putByName name y l) (putByName name x l) := by
  induction ys generalizing l with
  | nil => rfl
  | cons y ys ih =>
      rw [List.map_cons, List.mem_cons, not_or] at hys
      rw [List.foldl_cons, List.foldl_cons, ih hys.2 (mem_names_putByName_of_mem hx y),
        putByName_comm hys.1 hx]

/-- Writing a list into which an entry was written is writing the list and then the entry. -/
theorem foldl_putByName_putByName (hm : (m.map name).Nodup) (x : α) (l : List α) :
    (putByName name x m).foldl (fun l y => putByName name y l) l =
      putByName name x (m.foldl (fun l y => putByName name y l) l) := by
  induction m generalizing l with
  | nil => rfl
  | cons y m ih =>
      rw [List.map_cons, List.nodup_cons] at hm
      rw [putByName]
      split
      · next hy =>
          -- The entry takes the place of `y`, and nothing after it has its name.
          rw [List.foldl_cons, List.foldl_cons,
            putByName_foldl_comm (hy ▸ hm.1) (hy ▸ mem_names_putByName_self y l),
            putByName_putByName_self hy.symm]
      · rw [List.foldl_cons, List.foldl_cons, ih hm.2]

/-- **Collected entries write the same.**  Collecting entries by name before they are written
changes nothing. -/
theorem foldl_putByName_foldl (xs l : List α) :
    (xs.foldl (fun m y => putByName name y m) []).foldl (fun l y => putByName name y l) l =
      xs.foldl (fun l y => putByName name y l) l := by
  induction xs using List.reverseRecOn with
  | nil => rfl
  | append_singleton xs x ih =>
      rw [List.foldl_append, List.foldl_append, List.foldl_cons, List.foldl_nil, List.foldl_cons,
        List.foldl_nil, foldl_putByName_putByName (nodup_foldl_putByName xs (by simp)),
        ih]

end ByName

/-! ## Blocks as what is written to them -/

/-- The declaration of an entry that stands for a property. -/
def Entry.asDeclaration? (specificity : Specificity) (important : Bool) : Entry → Option Declaration
  | .property name id? value => some { name, id?, value, specificity, important }
  | .variable _ _ => none

/-- The variable of an entry that stands for one. -/
def Entry.asVariable? (specificity : Specificity) : Entry → Option Variable
  | .property _ _ _ => none
  | .variable name value => some { name, value, specificity }

/-- The declarations that written ones stand for, in the order of writing. -/
def Registry.declarationsOf (r : Registry) (specificity : Specificity)
    (ds : List Source.Declaration) : List Declaration :=
  ds.flatMap fun d => (r.entries d.name d.value).filterMap (Entry.asDeclaration? specificity d.important)

/-- The variables that written declarations stand for, in the order of writing. -/
def Registry.variablesOf (r : Registry) (specificity : Specificity)
    (ds : List Source.Declaration) : List Variable :=
  ds.flatMap fun d => (r.entries d.name d.value).filterMap (Entry.asVariable? specificity)

namespace Block

/-- Pushes written declarations, one after the other. -/
def pushAll (b : Block) (r : Registry) (specificity : Specificity)
    (ds : List Source.Declaration) : Block :=
  ds.foldl (fun b d => b.push r specificity d) b

theorem pushAll_cons (b : Block) (r : Registry) (specificity : Specificity)
    (d : Source.Declaration) (ds : List Source.Declaration) :
    b.pushAll r specificity (d :: ds) = (b.push r specificity d).pushAll r specificity ds :=
  List.foldl_cons

theorem push_eq (b : Block) (r : Registry) (specificity : Specificity) (d : Source.Declaration) :
    b.push r specificity d =
      { declarations := ((r.entries d.name d.value).filterMap
          (Entry.asDeclaration? specificity d.important)).foldl
            (fun l x => putByName Declaration.name x l) b.declarations
        vars := ((r.entries d.name d.value).filterMap (Entry.asVariable? specificity)).foldl
          (fun l x => putByName Variable.name x l) b.vars } := by
  rw [push]
  induction r.entries d.name d.value generalizing b with
  | nil => rfl
  | cons e es ih =>
      rw [List.foldl_cons, ih]
      cases e <;> rfl

/-- What is pushed is written by name, declarations and variables apart. -/
theorem pushAll_eq (b : Block) (r : Registry) (specificity : Specificity)
    (ds : List Source.Declaration) :
    b.pushAll r specificity ds =
      { declarations := (r.declarationsOf specificity ds).foldl
          (fun l x => putByName Declaration.name x l) b.declarations
        vars := (r.variablesOf specificity ds).foldl
          (fun l x => putByName Variable.name x l) b.vars } := by
  induction ds generalizing b with
  | nil => rfl
  | cons d ds ih =>
      rw [pushAll_cons, ih, push_eq, Registry.declarationsOf, Registry.declarationsOf, Registry.variablesOf,
        Registry.variablesOf, List.flatMap_cons, List.flatMap_cons, List.foldl_append,
        List.foldl_append]

/-- **Merging is pushing once more.**  Writing a block over another one leaves the same as pushing
what the block was made of. -/
theorem merge_pushAll (b : Block) (r : Registry) (specificity : Specificity)
    (ds : List Source.Declaration) :
    b.merge (pushAll {} r specificity ds) = b.pushAll r specificity ds := by
  rw [merge_eq, pushAll_eq, pushAll_eq, foldl_putByName_foldl, foldl_putByName_foldl]

theorem pushAll_append (b : Block) (r : Registry) (specificity : Specificity)
    (ds es : List Source.Declaration) :
    b.pushAll r specificity (ds ++ es) = (b.pushAll r specificity ds).pushAll r specificity es :=
  List.foldl_append

theorem map_foldl_putByName {α : Type} (name : α → String) (f : α → α)
    (h : ∀ x, name (f x) = name x) (xs l : List α) :
    (xs.foldl (fun l x => putByName name x l) l).map f =
      (xs.map f).foldl (fun l x => putByName name x l) (l.map f) := by
  induction xs generalizing l with
  | nil => rfl
  | cons x xs ih => rw [List.foldl_cons, ih, map_putByName_of_name_eq h, List.map_cons, List.foldl_cons]

/-- What is picked out of many lists, passed through a function. -/
theorem map_flatMap_filterMap {α β γ : Type} {parts : α → List β} {pick pick' : α → β → Option γ}
    {f : γ → γ} (h : ∀ x y, (pick x y).map f = pick' x y) (l : List α) :
    (l.flatMap fun x => (parts x).filterMap (pick x)).map f =
      l.flatMap fun x => (parts x).filterMap (pick' x) := by
  rw [List.map_flatMap]
  refine List.flatMap_congr fun x _ => ?_
  rw [List.map_filterMap]
  exact List.filterMap_congr fun y _ => h x y

/-- The specificity of a block may be given to it afterwards. -/
theorem withSpecificity_pushAll (r : Registry) (specificity specificity' : Specificity)
    (ds : List Source.Declaration) :
    (pushAll {} r specificity' ds).withSpecificity specificity = pushAll {} r specificity ds := by
  have hdeclarations : (r.declarationsOf specificity' ds).map (fun d => { d with specificity }) =
      r.declarationsOf specificity ds :=
    map_flatMap_filterMap (fun d e => by cases e <;> rfl) ds
  have hvars : (r.variablesOf specificity' ds).map (fun v => { v with specificity }) =
      r.variablesOf specificity ds :=
    map_flatMap_filterMap (fun d e => by cases e <;> rfl) ds
  rw [pushAll_eq, pushAll_eq, withSpecificity,
    map_foldl_putByName Declaration.name (fun d => { d with specificity }) fun _ => rfl,
    map_foldl_putByName Variable.name (fun v => { v with specificity }) fun _ => rfl,
    hdeclarations, hvars]
  rfl

theorem withOrder_merge (b other : Block) (order : Nat) :
    (b.withOrder order).merge (other.withOrder order) = (b.merge other).withOrder order := by
  rw [merge_eq, merge_eq, withOrder, withOrder, withOrder,
    map_foldl_putByName Variable.name (fun v => { v with order }) fun _ => rfl]

end Block

/-! ## Written rules -/

/-- A rule as it is written: its selector, its declarations, and the marker it is given. -/
structure WrittenRule where
  selector : Selector
  declarations : List Source.Declaration
  marker : Nat := 0
  deriving DecidableEq, Repr

namespace WrittenRule

/-- The written rule of two texts and a marker. -/
def parse (selector declarations : String) (marker : Nat) : WrittenRule :=
  ⟨.parse selector, Source.declarations declarations, marker⟩

/-- The rule that the declarations make. -/
def rule (r : Registry) (w : WrittenRule) : StyleRule :=
  { StyleRule.ofDeclarations r w.selector w.declarations with marker := w.marker }

/-- The written rule with more declarations behind its own. -/
def extend (w : WrittenRule) (ds : List Source.Declaration) : WrittenRule :=
  { w with declarations := w.declarations ++ ds }

theorem rule_eq (r : Registry) (w : WrittenRule) :
    w.rule r = ⟨w.selector, Block.pushAll {} r w.selector.specificity w.declarations, 0, w.marker⟩ := by
  have hstep : ∀ (b : Block) (d : Source.Declaration),
      StyleRule.push ⟨w.selector, b, 0, 0⟩ r d =
        ⟨w.selector, b.push r w.selector.specificity d, 0, 0⟩ := by
    intro b d
    rw [StyleRule.push, StyleRule.specificity]
  have hpush : ∀ (ds : List Source.Declaration) (b : Block),
      ds.foldl (fun rule d => StyleRule.push rule r d) ⟨w.selector, b, 0, 0⟩ =
        ⟨w.selector, b.pushAll r w.selector.specificity ds, 0, 0⟩ := by
    intro ds
    induction ds with
    | nil => exact fun b => rfl
    | cons d ds ih =>
        intro b
        rw [List.foldl_cons, hstep, ih, Block.pushAll_cons]
  rw [rule, StyleRule.ofDeclarations, hpush]

/-- Merging a rule into another one, wherever that one stands, is writing all declarations of both
in one text. -/
theorem withOrder_merge_rule (r : Registry) (w v : WrittenRule) (order : Nat) :
    ((w.rule r).withOrder order).merge (v.rule r) =
      ((w.extend v.declarations).rule r).withOrder order := by
  have hblock : ((Block.pushAll {} r w.selector.specificity w.declarations).withOrder order).merge
      (((Block.pushAll {} r v.selector.specificity v.declarations).withSpecificity
        w.selector.specificity).withOrder order) =
      (Block.pushAll {} r w.selector.specificity (w.declarations ++ v.declarations)).withOrder
        order := by
    rw [Block.withSpecificity_pushAll, Block.withOrder_merge, Block.merge_pushAll,
      Block.pushAll_append]
  rw [rule_eq, rule_eq, rule_eq, StyleRule.merge, StyleRule.specificity]
  simp only [StyleRule.withOrder, extend, hblock]

end WrittenRule

/-- A step in filling a sheet. -/
inductive Insertion where
  | append (w : WrittenRule)
  | add (w : WrittenRule)
  deriving DecidableEq, Repr

/-- The sheet after an insertion. -/
def Insertion.apply (r : Registry) (s : Stylesheet) : Insertion → Stylesheet
  | .append w => s.append (w.rule r)
  | .add w => s.add (w.rule r)

/-- The sheet that a sequence of insertions fills. -/
def Stylesheet.ofInsertions (r : Registry) (steps : List Insertion) : Stylesheet :=
  steps.foldl (Insertion.apply r) .empty

/-! ## Related options -/

section Related

variable {α β γ δ : Type} {R : α → β → Prop} {S : γ → δ → Prop} {a? : Option α} {b? : Option β}

theorem rel_getD {a : α} {b : β} (h : Option.Rel R a? b?) (hab : R a b) :
    R (a?.getD a) (b?.getD b) := by
  cases h with
  | none => exact hab
  | some h => exact h

theorem rel_map {f : α → γ} {g : β → δ} (h : Option.Rel R a? b?) (hfg : ∀ a b, R a b → S (f a) (g b)) :
    Option.Rel S (a?.map f) (b?.map g) := by
  cases h with
  | none => exact .none
  | some h => exact .some (hfg _ _ h)

end Related

/-! ## The ledger -/

/-- The written rules with the declarations of `w` behind those of the first one of its selector text
and marker; `none` when there is none. -/
def extendFirst? (w : WrittenRule) : List WrittenRule → Option (List WrittenRule)
  | [] => none
  | v :: vs =>
    if v.selector.text = w.selector.text && v.marker = w.marker then
      some (v.extend w.declarations :: vs)
    else (extendFirst? w vs).map (v :: ·)

/-- The ledger with one more written rule, unless that declares nothing. -/
def enter (r : Registry) (written : List WrittenRule) (w : WrittenRule) : List WrittenRule :=
  if (w.rule r).isEmpty then written else written ++ [w]

/-- The ledger after an insertion. -/
def Insertion.note (r : Registry) (written : List WrittenRule) : Insertion → List WrittenRule
  | .append w => enter r written w
  | .add w => (extendFirst? w written).getD (enter r written w)

/-- What was written for each rule of a sheet: its own declarations, and behind them those that were
added to it. -/
def ledger (r : Registry) (steps : List Insertion) : List WrittenRule :=
  steps.foldl (Insertion.note r) []

/-- A rule of a sheet is the rule of a written one, at some place. -/
def WrittenRule.Makes (r : Registry) (w : WrittenRule) (rule : StyleRule) : Prop :=
  ∃ order, rule = (w.rule r).withOrder order

section

variable {r : Registry} {written : List WrittenRule}

theorem WrittenRule.Makes.selector {w : WrittenRule} {rule : StyleRule} (h : w.Makes r rule) :
    rule.selector = w.selector := by
  obtain ⟨order, rfl⟩ := h
  rw [rule_eq]
  rfl

theorem WrittenRule.Makes.marker {w : WrittenRule} {rule : StyleRule} (h : w.Makes r rule) :
    rule.marker = w.marker := by
  obtain ⟨order, rfl⟩ := h
  rfl

theorem exists_makes_of_mem {rules : List StyleRule}
    (h : List.Forall₂ (WrittenRule.Makes r) written rules) {w : WrittenRule} (hw : w ∈ written) :
    ∃ rule ∈ rules, w.Makes r rule := by
  induction h with
  | nil => exact absurd hw List.not_mem_nil
  | cons hv _ ih =>
      rcases List.mem_cons.mp hw with rfl | hw
      · exact ⟨_, List.mem_cons_self, hv⟩
      · obtain ⟨rule, hrule, hmakes⟩ := ih hw
        exact ⟨rule, List.mem_cons_of_mem _ hrule, hmakes⟩

theorem forall₂_append {s : Stylesheet} (h : List.Forall₂ (WrittenRule.Makes r) written s.rules)
    (w : WrittenRule) :
    List.Forall₂ (WrittenRule.Makes r) (enter r written w) (s.append (w.rule r)).rules := by
  rw [enter, Stylesheet.append]
  split
  · exact h
  · exact List.rel_append h (.cons ⟨s.nextOrder, rfl⟩ .nil)

/-- Sheet and ledger find the same rule to merge into. -/
theorem forall₂_mergeRule? {rules : List StyleRule}
    (h : List.Forall₂ (WrittenRule.Makes r) written rules) (w : WrittenRule) :
    Option.Rel (List.Forall₂ (WrittenRule.Makes r)) (extendFirst? w written)
      (Stylesheet.mergeRule? (w.rule r) rules) := by
  induction h with
  | nil => exact .none
  | @cons v rule written rules hv hrest ih =>
      have htarget : Stylesheet.sameTarget rule (w.rule r) =
          (v.selector.text = w.selector.text && v.marker = w.marker) := by
        rw [Stylesheet.sameTarget, hv.selector, hv.marker, WrittenRule.rule_eq]
      rw [extendFirst?, Stylesheet.mergeRule?, htarget]
      split
      · obtain ⟨order, rfl⟩ := hv
        exact .some (.cons ⟨order, WrittenRule.withOrder_merge_rule r v w order⟩ hrest)
      · exact rel_map ih fun _ _ hmerged => .cons hv hmerged

theorem forall₂_add {s : Stylesheet} (h : List.Forall₂ (WrittenRule.Makes r) written s.rules)
    (w : WrittenRule) :
    List.Forall₂ (WrittenRule.Makes r) ((extendFirst? w written).getD (enter r written w))
      (s.add (w.rule r)).rules := by
  have hrules : (s.add (w.rule r)).rules =
      (Stylesheet.mergeRule? (w.rule r) s.rules).getD (s.append (w.rule r)).rules := by
    rw [Stylesheet.add]
    cases Stylesheet.mergeRule? (w.rule r) s.rules <;> rfl
  rw [hrules]
  exact rel_getD (forall₂_mergeRule? h w) (forall₂_append h w)

end

/-- **The ledger tells the rules.**  However a sheet was filled, its rules are those of its ledger,
each as if its declarations had been written in one text. -/
theorem forall₂_ledger_rules (r : Registry) (steps : List Insertion) :
    List.Forall₂ (WrittenRule.Makes r) (ledger r steps) (Stylesheet.ofInsertions r steps).rules := by
  induction steps using List.reverseRecOn with
  | nil => exact .nil
  | append_singleton steps step ih =>
      rw [ledger, Stylesheet.ofInsertions, List.foldl_append, List.foldl_append]
      cases step with
      | append w => exact forall₂_append ih w
      | add w => exact forall₂_add ih w

end WidgetStyle
