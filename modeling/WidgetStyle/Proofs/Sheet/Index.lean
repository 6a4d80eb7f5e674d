import Mathlib.Data.List.Induction
import Mathlib.Data.List.Nodup
import WidgetStyle.Proofs.Sheet.Candidates
import WidgetStyle.Proofs.Sheet.Operations

/-!
# WidgetStyle.Proofs.Sheet.Index — the index finds every rule once

A sheet files the positions of its rules by the tag and the id of their subjects, and compares a
node only with what is filed under the node's own keys.  The representation invariant is
`IsIndexed`: under every key stand exactly the positions of the rules with that key, in ascending
order (`positionsOf`).  Every reachable sheet satisfies it (`Reachable.isIndexed`).

Two facts then make the lookup complete and free of repetitions: a rule that selects a node is filed
under a key of that node (`ofRule_mem_ofNode`), and the keys of a node are distinct.  So the
candidates are a sorted permutation of a scan of all rules (`candidates_scan`), and the very list
that sorting the scan gives while no two rules share a place.
-/

namespace WidgetStyle

/-! ## Keys of nodes and rules -/

theorem FilingKey.nodup_ofNode (t : Tree) (n : NodeId) : (FilingKey.ofNode t n).Nodup := by
  unfold FilingKey.ofNode
  cases t.idOf? n <;> simp

theorem Compound.hasTag_mem_of_tag? {c : Compound} {name : String} (h : c.tag? = some name) :
    .hasTag name ∈ c.simples := by
  obtain ⟨x, hx, hname⟩ := List.exists_of_findSome?_eq_some h
  cases x <;> simp_all

theorem Compound.hasId_mem_of_id? {c : Compound} {name : String} (h : c.id? = some name) :
    .hasId name ∈ c.simples := by
  obtain ⟨x, hx, hname⟩ := List.exists_of_findSome?_eq_some h
  cases x <;> simp_all

/-- A rule that selects a node is filed under one of the node's keys, however many tags and ids its
subject names: the node has to have all of them, and the first of them make the key. -/
theorem FilingKey.ofRule_mem_ofNode {rule : StyleRule} {t : Tree} {mode : MatchMode} {n : NodeId}
    (h : rule.selector.selects t mode n = true) : ofRule rule ∈ ofNode t n := by
  simp only [Selector.selects, Bool.and_eq_true, Tree.satisfiesAll, List.all_eq_true] at h
  have sat := h.1.2
  have tag_eq : ∀ name, rule.selector.subject.tag? = some name →
      Text.lower name = Text.lower (t.tag n) := by
    intro name hname
    have hsame : Text.sameLetters (t.tag n) name = true :=
      sat _ (Compound.hasTag_mem_of_tag? hname)
    exact (beq_iff_eq.mp hsame).symm
  have id_eq : ∀ name, rule.selector.subject.id? = some name → t.idOf? n = some name := by
    intro name hname
    have := sat _ (Compound.hasId_mem_of_id? hname)
    simpa [Tree.satisfies] using this
  unfold ofRule ofNode
  cases htag : rule.selector.subject.tag? with
  | none =>
      cases hid : rule.selector.subject.id? with
      | none => cases t.idOf? n <;> simp
      | some id => rw [id_eq id hid]; simp
  | some tag =>
      rw [Option.map_some, tag_eq tag htag]
      cases hid : rule.selector.subject.id? with
      | none => cases t.idOf? n <;> simp
      | some id => rw [id_eq id hid]; simp

namespace Stylesheet

/-! ## The representation invariant -/

/-- The positions at which a key stands in a list of keys, in ascending order. -/
def positionsOf (keys : List FilingKey) (key : FilingKey) : List Nat :=
  (List.range keys.length).filter fun i => keys[i]? = some key

/-- The positions that an index holds under a key. -/
def filedUnder (index : Assoc FilingKey (List Nat)) (key : FilingKey) : List Nat :=
  (index.get? key).getD []

/-- Under every key stand exactly the positions of the rules with that key. -/
def IsIndexed (s : Stylesheet) : Prop :=
  ∀ key, filedUnder s.index key = positionsOf (s.rules.map FilingKey.ofRule) key

theorem filedUnder_fileAt (index : Assoc FilingKey (List Nat)) (key x : FilingKey) (i : Nat) :
    filedUnder (fileAt index key i) x = filedUnder index x ++ if key = x then [i] else [] := by
  unfold filedUnder fileAt
  rw [Assoc.get?_insert]
  by_cases hx : x = key
  · subst hx; simp
  · simp [hx, Ne.symm hx]

theorem positionsOf_append (keys : List FilingKey) (last key : FilingKey) :
    positionsOf (keys ++ [last]) key =
      positionsOf keys key ++ if last = key then [keys.length] else [] := by
  unfold positionsOf
  rw [List.length_append, List.length_singleton, List.range_succ, List.filter_append]
  have hfront : ∀ i ∈ List.range keys.length,
      decide ((keys ++ [last])[i]? = some key) = decide (keys[i]? = some key) := by
    intro i hi
    rw [List.getElem?_append_left (List.mem_range.mp hi)]
  rw [List.filter_congr hfront]
  by_cases hkey : last = key <;> simp [hkey]

theorem mem_positionsOf {keys : List FilingKey} {key : FilingKey} {i : Nat} :
    i ∈ positionsOf keys key ↔ keys[i]? = some key := by
  unfold positionsOf
  rw [List.mem_filter, List.mem_range, decide_eq_true_iff]
  constructor
  · exact And.right
  · intro h
    exact ⟨(List.getElem?_eq_some_iff.mp h).1, h⟩

/-- Rules are filed by their selectors and nothing else. -/
theorem map_ofRule_congr {rules rules' : List StyleRule}
    (h : rules'.map StyleRule.selector = rules.map StyleRule.selector) :
    rules'.map FilingKey.ofRule = rules.map FilingKey.ofRule := by
  have bySelector : ∀ l : List StyleRule, l.map FilingKey.ofRule =
      (l.map StyleRule.selector).map fun selector => FilingKey.ofRule { selector } := by
    intro l
    rw [List.map_map]
    rfl
  rw [bySelector, bySelector, h]

/-- The index that is built from scratch. -/
theorem filedUnder_indexOf (rules : List StyleRule) (key : FilingKey) :
    filedUnder (indexOf rules) key = positionsOf (rules.map FilingKey.ofRule) key := by
  induction rules using List.reverseRecOn with
  | nil => rfl
  | append_singleton rules rule ih =>
      unfold indexOf at ih ⊢
      rw [List.zipIdx_append, List.foldl_append]
      simp only [List.zipIdx_singleton, List.foldl_cons, List.foldl_nil, Nat.zero_add]
      rw [filedUnder_fileAt, ih, List.map_append, List.map_singleton, positionsOf_append,
        List.length_map]

/-- Every reachable sheet keeps its index. -/
theorem Reachable.isIndexed {s : Stylesheet} (h : Reachable s) : s.IsIndexed := by
  refine h.invariant ?rulesOnly ?empty ?append ?merge ?mark ?remove ?clear
  case rulesOnly =>
    rintro s u ⟨hrules, hindex, -⟩ hu key
    rw [hrules, hindex, hu key]
  case empty => exact fun _ => rfl
  case append =>
    intro s rule hs key
    unfold Stylesheet.append
    split
    · exact hs key
    · simp only [index_touch, rules_touch]
      rw [filedUnder_fileAt, hs key, List.map_append, List.map_singleton, positionsOf_append,
        List.length_map]
      rfl
  case merge =>
    intro s rule rules hrules hs key
    change filedUnder s.index key = positionsOf (rules.map FilingKey.ofRule) key
    rw [hs key, map_ofRule_congr (map_selector_mergeRule? hrules).1]
  case mark =>
    intro s marker hs key
    change filedUnder s.index key = positionsOf (List.map _ _) key
    rw [hs key, map_ofRule_congr]
    rw [List.map_map]
    rfl
  case remove =>
    intro s keep _ key
    exact filedUnder_indexOf _ key
  case clear => exact fun _ _ _ => rfl

/-! ## Lookups and scans -/

/-- The positions of all rules that select a node: a scan of the whole list. -/
def scan (s : Stylesheet) (t : Tree) (mode : MatchMode) (n : NodeId) : List Nat :=
  (List.range s.rules.length).filter (s.selectsAt t mode n)

theorem nodup_scan (s : Stylesheet) (t : Tree) (mode : MatchMode) (n : NodeId) :
    (s.scan t mode n).Nodup :=
  List.nodup_range.filter _

section Lookup

variable {s : Stylesheet} (h : s.IsIndexed) (t : Tree) (mode : MatchMode) (n : NodeId)
include h

/-- No position is filed twice under the keys of a node. -/
theorem nodup_filed : ((FilingKey.ofNode t n).flatMap (filedUnder s.index)).Nodup := by
  rw [List.nodup_flatMap]
  constructor
  · intro key _
    rw [h key]
    exact List.nodup_range.filter _
  · refine (FilingKey.nodup_ofNode t n).imp ?_
    intro key key' hne i hi hi'
    rw [h, mem_positionsOf] at hi hi'
    rw [hi] at hi'
    exact hne (Option.some.inj hi')

/-- What is filed under the keys of a node and selects it is what a scan finds. -/
theorem mem_filed_iff {i : Nat} :
    i ∈ ((FilingKey.ofNode t n).flatMap (filedUnder s.index)).filter (s.selectsAt t mode n) ↔
      i ∈ s.scan t mode n := by
  rw [scan, List.mem_filter, List.mem_filter, List.mem_range, List.mem_flatMap]
  refine and_congr_left fun hsel => ?_
  obtain ⟨rule, hrule, hselects⟩ := (Option.any_eq_true _ _).mp hsel
  have hi : i < s.rules.length := (List.getElem?_eq_some_iff.mp hrule).1
  refine iff_of_true ⟨FilingKey.ofRule rule, FilingKey.ofRule_mem_ofNode hselects, ?_⟩ hi
  rw [h, mem_positionsOf, List.getElem?_map]
  exact congrArg (Option.map FilingKey.ofRule) hrule

/-- The candidates are the positions of a scan in another order. -/
theorem candidates_perm_scan : (s.candidates t mode n).Perm (s.scan t mode n) := by
  refine (List.mergeSort_perm _ _).trans ?_
  refine (List.perm_ext_iff_of_nodup ((nodup_filed h t n).filter _) (s.nodup_scan t mode n)).mpr ?_
  exact fun i => mem_filed_iff h t mode n

end Lookup

/-- While places are distinct, rules that neither precedes the other are one rule. -/
theorem OrdersAscend.eq_of_precedes {s : Stylesheet} (h : s.OrdersAscend) {i j : Nat}
    (hi : i < s.rules.length) (hj : j < s.rules.length)
    (hij : s.precedes i j = true) (hji : s.precedes j i = true) : i = j := by
  have ha : s.rule? i = some s.rules[i] := List.getElem?_eq_getElem hi
  have hb : s.rule? j = some s.rules[j] := List.getElem?_eq_getElem hj
  rw [s.precedes_of_rules ha hb] at hij
  rw [s.precedes_of_rules hb ha] at hji
  have heq : s.rules[i].cascadeOrder s.rules[j] = .eq := Std.OrientedCmp.isLE_antisymm hij hji
  have horder : s.rules[i].order = s.rules[j].order := by
    have := (Ordering.then_eq_eq.mp heq).2
    exact Std.LawfulEqOrd.eq_of_compare this
  have hnodup : (s.rules.map StyleRule.order).Nodup :=
    h.1.imp fun hlt => Nat.ne_of_lt hlt
  refine (List.getElem?_inj (by simpa using hi) hnodup).mp ?_
  rw [List.getElem?_map, List.getElem?_map]
  change (s.rule? i).map _ = (s.rule? j).map _
  rw [ha, hb, Option.map_some, Option.map_some, horder]

theorem mem_of_mem_rulesFor (s : Stylesheet) {t : Tree} {mode : MatchMode} {n : NodeId}
    {rule : StyleRule} (h : rule ∈ s.rulesFor t mode n) : rule ∈ s.rules := by
  obtain ⟨i, -, hi⟩ := List.mem_filterMap.mp h
  exact List.mem_of_getElem? hi

theorem filterMap_getElem?_range {α : Type} (l : List α) :
    ((List.range l.length).filterMap fun i => l[i]?) = l := by
  induction l using List.reverseRecOn with
  | nil => rfl
  | append_singleton l x ih =>
      have hfront : ((List.range l.length).filterMap fun i => (l ++ [x])[i]?) = l := by
        refine (List.filterMap_congr fun i hi => ?_).trans ih
        exact List.getElem?_append_left (List.mem_range.mp hi)
      rw [List.length_append, List.length_singleton, List.range_succ, List.filterMap_append, hfront]
      simp

/-- The rules of a node are the rules that select it, in another order. -/
theorem rulesFor_perm {s : Stylesheet} (h : s.IsIndexed) (t : Tree) (mode : MatchMode) (n : NodeId) :
    (s.rulesFor t mode n).Perm (s.rules.filter fun rule => rule.selector.selects t mode n) := by
  refine ((candidates_perm_scan h t mode n).filterMap s.rule?).trans (List.Perm.of_eq ?_)
  -- A scan looks at every rule once and in order.
  have htest : ∀ i, (if s.selectsAt t mode n i = true then s.rule? i else none) =
      (s.rule? i).filter fun rule => rule.selector.selects t mode n := by
    intro i
    rw [selectsAt]
    cases s.rule? i with
    | none => rfl
    | some rule => rw [Option.any_some, Option.filter_some]
  calc (s.scan t mode n).filterMap s.rule?
      = (List.range s.rules.length).filterMap fun i =>
          (s.rule? i).filter fun rule => rule.selector.selects t mode n := by
        rw [scan, List.filterMap_filter]
        exact List.filterMap_congr fun i _ => htest i
    _ = ((List.range s.rules.length).filterMap fun i => s.rules[i]?).filter fun rule =>
          rule.selector.selects t mode n := (List.filter_filterMap).symm
    _ = _ := by rw [filterMap_getElem?_range]

theorem mem_rulesFor_iff {s : Stylesheet} (h : s.IsIndexed) {t : Tree} {mode : MatchMode}
    {n : NodeId} {rule : StyleRule} :
    rule ∈ s.rulesFor t mode n ↔ rule ∈ s.rules ∧ rule.selector.selects t mode n = true := by
  rw [(rulesFor_perm h t mode n).mem_iff, List.mem_filter]

/-- A sheet of one rule has it for every node that it selects. -/
theorem rulesFor_append_empty {rule : StyleRule} (hrule : rule.isEmpty = false) {t : Tree}
    {mode : MatchMode} {n : NodeId} (h : rule.selector.selects t mode n = true) :
    (empty.append rule).rulesFor t mode n = [rule.withOrder 0] := by
  have hrules : (empty.append rule).rules = [rule.withOrder 0] := by
    rw [append, hrule]
    rfl
  have hrule? : (empty.append rule).rule? 0 = some (rule.withOrder 0) := by rw [rule?, hrules]; rfl
  have hselects : (empty.append rule).selectsAt t mode n 0 = true := by
    rw [selectsAt, hrule?]
    exact h
  have hscan : (empty.append rule).scan t mode n = [0] := by
    rw [scan, hrules]
    exact List.filter_cons_of_pos hselects
  have hcandidates := candidates_perm_scan (Reachable.empty.append rule).isIndexed t mode n
  rw [hscan, List.perm_singleton] at hcandidates
  rw [rulesFor, hcandidates, rulesAt, List.filterMap_cons, hrule?]
  rfl

/-- The rules of a node stand in ascending order of specificity and place. -/
theorem rulesFor_ascend (s : Stylesheet) (t : Tree) (mode : MatchMode) (n : NodeId) :
    (s.rulesFor t mode n).Pairwise fun a b => (a.cascadeOrder b).isLE = true := by
  refine List.Pairwise.filterMap _ ?_
    (List.pairwise_mergeSort s.precedes_trans s.precedes_total _)
  intro i j hij a ha b hb
  rw [s.precedes_of_rules ha hb] at hij
  exact hij

/-- **The index loses and duplicates nothing.**  For every reachable sheet, tree, node and mode the
candidates are the positions of the rules that select the node, each once, in ascending order of
specificity and place; and while the counter of places has not reached its limit they are the very
list that a scan of all rules and a sort give. -/
theorem candidates_scan {s : Stylesheet} (h : s.Reachable) (t : Tree) (mode : MatchMode)
    (n : NodeId) :
    (s.candidates t mode n).Perm (s.scan t mode n) ∧
      (s.candidates t mode n).Nodup ∧
      (s.rulesFor t mode n).Pairwise (fun a b => (a.cascadeOrder b).isLE = true) ∧
      (s.nextOrder < counterLimit →
        s.candidates t mode n = (s.scan t mode n).mergeSort s.precedes) := by
  have hperm := candidates_perm_scan h.isIndexed t mode n
  refine ⟨hperm, hperm.nodup_iff.mpr (s.nodup_scan t mode n), s.rulesFor_ascend t mode n,
    fun hnext => ?_⟩
  have hlt : ∀ i ∈ s.scan t mode n, i < s.rules.length := fun i hi =>
    List.mem_range.mp (List.mem_filter.mp hi).1
  -- Two sorted permutations of one list are equal, since distinct rules never tie.
  refine List.Perm.eq_of_pairwise ?_
    (List.pairwise_mergeSort s.precedes_trans s.precedes_total _)
    (List.pairwise_mergeSort s.precedes_trans s.precedes_total _)
    (hperm.trans (List.mergeSort_perm _ _).symm)
  intro i j hi hj
  exact (h.orders hnext).eq_of_precedes (hlt i (hperm.mem_iff.mp hi))
    (hlt j (List.mem_mergeSort.mp hj))

/-- The statement at a sheet of two rules, filed under two keys of a node that satisfies the second
rule only. -/
theorem candidates_scan_two :
    let block : Block := { declarations := [⟨"color", none, "red", .zero, false⟩] }
    let hovered : StyleRule := ⟨⟨⟨[.hasTag "a", .pseudo .hover]⟩, [], "a:hover"⟩, block, 0, 0⟩
    let all : StyleRule := ⟨⟨⟨[.universal]⟩, [], "*"⟩, block, 0, 0⟩
    let s := (Stylesheet.empty.append hovered).append all
    s.Reachable ∧ s.nextOrder < counterLimit ∧
      s.candidates (Tree.empty.addRoot "a") .loose 0 = [1, 0] ∧
      s.candidates (Tree.empty.addRoot "a") .strict 0 = [1] := by
  intro block hovered all s
  have h : s.Reachable := (Reachable.empty.append hovered).append all
  have hnext : s.nextOrder < counterLimit := by decide +kernel
  have hloose := (candidates_scan h (Tree.empty.addRoot "a") .loose 0).2.2.2 hnext
  have hstrict := (candidates_scan h (Tree.empty.addRoot "a") .strict 0).2.2.2 hnext
  have hscan : s.scan (Tree.empty.addRoot "a") .loose 0 = [0, 1] := by decide +kernel
  have hscan' : s.scan (Tree.empty.addRoot "a") .strict 0 = [1] := by decide +kernel
  refine ⟨h, hnext, ?_, ?_⟩
  · rw [hloose, hscan]
    have hprecedes : s.precedes 0 1 = false := by decide +kernel
    simp [List.mergeSort, List.MergeSort.Internal.splitInTwo, hprecedes]
  · rw [hstrict, hscan', List.mergeSort_singleton]

end Stylesheet

end WidgetStyle
