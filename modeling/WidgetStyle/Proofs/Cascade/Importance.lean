import WidgetStyle.Proofs.Cascade.Contest
import WidgetStyle.Proofs.Cascade.Unknown
import WidgetStyle.Proofs.Sheet.Index
import WidgetStyle.Proofs.Sheet.Texts

/-!
# WidgetStyle.Proofs.Cascade.Importance — what becomes of an important declaration

Between rules importance decides before everything else.  Inside a rule it decides nothing: a block
keeps one declaration of a name, the one written last, whatever it replaces.  So an important
declaration makes the winner important exactly as long as it is not written over in its own rule by
a normal one; the rule's own text and all texts that were added to it count as one
(`exists_important_winner`).  A later normal declaration of the same text is enough to lose
(`important_lost_to_later_declaration`).
-/

namespace WidgetStyle

/-- A written declaration stands for the property that has this name in blocks: it names the property
itself or by an alias, or is a shorthand of it. -/
def Registry.Writes (r : Registry) (d : Source.Declaration) (name : String) : Prop :=
  ∃ id? value, .property name id? value ∈ r.entries d.name d.value

namespace Block

variable {b : Block} {r : Registry} {specificity : Specificity} {name : String}

/-- An important declaration of a name, with an identity. -/
def HasImportant (b : Block) (name : String) (id? : Option PropertyId) : Prop :=
  ∃ x ∈ b.declarations, x.name = name ∧ x.id? = id? ∧ x.important = true

/-- Writing an entry leaves an important declaration in its block, or puts it there. -/
theorem HasImportant.put {id? : Option PropertyId} {important : Bool} {e : Entry}
    (he : ∀ id' value, e = .property name id' value → id' = id? ∧ important = true)
    (h : b.HasImportant name id? ∨ ∃ id' value, e = .property name id' value) :
    (b.put specificity important e).HasImportant name id? := by
  by_cases hwrites : ∃ id' value, e = .property name id' value
  · obtain ⟨id', value, rfl⟩ := hwrites
    obtain ⟨rfl, rfl⟩ := he id' value rfl
    exact ⟨_, mem_putByName_self _ _, rfl, rfl, rfl⟩
  · obtain ⟨x, hx, hname, hid, himportant⟩ := h.resolve_right hwrites
    cases e with
    | «variable» n value => exact ⟨x, hx, hname, hid, himportant⟩
    | property n id' value =>
        refine ⟨x, mem_putByName_of_ne hx fun hn => hwrites ⟨id', value, ?_⟩, hname, hid, himportant⟩
        have hn : x.name = n := hn
        rw [← hn, hname]

/-- Pushing a declaration does so too, if what it writes under the name is important. -/
theorem HasImportant.push {d : Source.Declaration} (hd : r.Writes d name → d.important = true)
    (h : b.HasImportant name ((r.property? name).map Property.id) ∨ r.Writes d name) :
    (b.push r specificity d).HasImportant name ((r.property? name).map Property.id) := by
  rw [Block.push]
  -- Every entry of the name has the one identity, and is as important as the declaration.
  have hentries : ∀ e ∈ r.entries d.name d.value, ∀ id' value, e = .property name id' value →
      id' = (r.property? name).map Property.id ∧ d.important = true := by
    rintro e he id' value rfl
    exact ⟨Registry.id?_of_mem_entries he, hd ⟨id', value, he⟩⟩
  unfold Registry.Writes at h
  generalize r.entries d.name d.value = es at hentries h ⊢
  induction es generalizing b with
  | nil =>
      refine h.resolve_right ?_
      rintro ⟨id', value, he⟩
      exact absurd he List.not_mem_nil
  | cons e es ih =>
      have hrest : ∀ x ∈ es, _ := fun x hx => hentries x (List.mem_cons_of_mem _ hx)
      rw [List.foldl_cons]
      by_cases hput : b.HasImportant name ((r.property? name).map Property.id) ∨
          ∃ id' value, e = .property name id' value
      · exact ih hrest (Or.inl (.put (hentries e List.mem_cons_self) hput))
      · refine ih hrest (Or.inr ?_)
        obtain ⟨id', value, he⟩ := h.resolve_left fun hb => hput (Or.inl hb)
        rcases List.mem_cons.mp he with he | he
        · exact absurd (Or.inr ⟨id', value, he.symm⟩) hput
        · exact ⟨id', value, he⟩

/-- An important declaration stays in its block as long as nothing normal is written over it. -/
theorem hasImportant_pushAll {before after : List Source.Declaration} {d : Source.Declaration}
    (hd : r.Writes d name) (himportant : d.important = true)
    (hafter : ∀ e ∈ after, r.Writes e name → e.important = true) :
    (b.pushAll r specificity (before ++ d :: after)).HasImportant name
      ((r.property? name).map Property.id) := by
  rw [pushAll_append, pushAll_cons]
  refine List.foldlRecOn (motive := fun c => HasImportant c name _) after _ ?_ ?_
  · exact .push (fun _ => himportant) (Or.inr hd)
  · exact fun c hc e he => .push (hafter e he) (Or.inl hc)

end Block

/-- Where something important competes for a key, something important wins. -/
theorem Cascaded.exists_important_winner {rules : List StyleRule} {inline? : Option InlineStyle}
    {rule : StyleRule} (hrule : rule ∈ rules) {d : Declaration} (hd : d ∈ rule.block.declarations)
    (himportant : d.important = true) :
    ∃ winner, (cascade rules inline?).winner? d.key = some winner ∧ winner.important = true := by
  have hmem : (d, ruleRank rule d) ∈ (entries rules inline?).filter fun x => x.key = d.key := by
    refine List.mem_filter.mpr ⟨List.mem_append_left _ ?_, decide_eq_true rfl⟩
    exact List.mem_flatMap.mpr ⟨rule, hrule, mem_ruleEntries.mpr ⟨hd, rfl⟩⟩
  obtain ⟨winner, hwinner⟩ : ∃ winner, IsLastHighest Entrant.byRank _ winner :=
    exists_isLastHighest (List.ne_nil_of_mem hmem)
  have hle : compare (ruleRank rule d) winner.2 ≠ .gt := hwinner.highest _ hmem
  have hsame : winner.2.important = winner.1.important :=
    important_of_mem_entries (List.mem_filter.mp hwinner.mem).1
  refine ⟨winner.1, ?_, ?_⟩
  · rw [winner?, winners_eq_some_iff.mpr hwinner]
    rfl
  · cases hb : winner.1.important with
    | true => rfl
    | false =>
        -- A normal winner would rank below the declaration.
        have hgt : compare (ruleRank rule d) winner.2 = .gt := by
          show (compare d.important winner.2.important).then _ = .gt
          rw [himportant, hsame, hb]
          rfl
        exact absurd hgt hle

theorem Stylesheet.reachable_ofInsertions (r : Registry) (steps : List Insertion) :
    (ofInsertions r steps).Reachable := by
  refine List.foldlRecOn steps _ Reachable.empty fun s hs step _ => ?_
  cases step with
  | append w => exact hs.append (w.rule r)
  | add w => exact hs.add (w.rule r)

/-- **Important declarations that are not written over win.**  Fill a sheet with written rules, by
appending and by adding.  If the text of a rule that selects a node, with all that was added to it,
has an important declaration of a registered property, and none of the declarations of that
property behind it is normal, then the property has a winner and it is important. -/
theorem Stylesheet.important_wins_unless_rewritten {r : Registry} {steps : List Insertion} {t : Tree}
    {n : NodeId} {name : String} {p : Property} (hname : r.property? name = some p)
    {w : WrittenRule} (hw : w ∈ ledger r steps)
    (hselects : w.selector.selects t .strict n = true)
    {before after : List Source.Declaration} {d : Source.Declaration}
    (htext : w.declarations = before ++ d :: after) (hd : r.Writes d name)
    (himportant : d.important = true)
    (hafter : ∀ e ∈ after, r.Writes e name → e.important = true)
    (inline? : Option InlineStyle) :
    ∃ winner, (cascade ((ofInsertions r steps).rulesFor t .strict n) inline?).winner? p.id =
      some winner ∧ winner.important = true := by
  obtain ⟨rule, hrule, order, rfl⟩ := exists_makes_of_mem (forall₂_ledger_rules r steps) hw
  have hfor : (w.rule r).withOrder order ∈ (ofInsertions r steps).rulesFor t .strict n := by
    refine (mem_rulesFor_iff (reachable_ofInsertions r steps).isIndexed).mpr ⟨hrule, ?_⟩
    rwa [WrittenRule.Makes.selector ⟨order, rfl⟩]
  obtain ⟨x, hx, -, hid, hximportant⟩ : Block.HasImportant
      (Block.pushAll {} r w.selector.specificity w.declarations) name _ := by
    rw [htext]
    exact Block.hasImportant_pushAll hd himportant hafter
  have hkey : x.key = p.id := by rw [Declaration.key, hid, hname]; rfl
  have hmem : x ∈ ((w.rule r).withOrder order).block.declarations := by
    rw [WrittenRule.rule_eq]
    exact hx
  rw [← hkey]
  exact Cascaded.exists_important_winner hfor hmem hximportant

/-- The statement at a rule whose text was added to: the important declaration stands in the added
text, names the property by an alias, and is followed by another important one. -/
theorem Stylesheet.important_wins_unless_rewritten_alias :
    let r := (Registry.empty.register "color" "black" true).addAlias "color" "colour"
    let steps : List Insertion := [.add (.parse "a" "color: blue" 0), .append (.parse "*" "color: green" 0),
      .add (.parse "a" "top: 1; colour: red !important; color: pink !important" 0)]
    let red : Source.Declaration := ⟨"colour", "red", true⟩
    let pink : Source.Declaration := ⟨"color", "pink", true⟩
    let w : WrittenRule :=
      ⟨.parse "a", [⟨"color", "blue", false⟩, ⟨"top", "1", false⟩] ++ red :: [pink], 0⟩
    let t := Tree.empty.addRoot "a"
    r.property? "color" = some ⟨"color", "black", true, false, ["colour"]⟩ ∧ w ∈ ledger r steps ∧
      w.selector.selects t .strict 0 = true ∧ r.Writes red "color" ∧ r.Writes pink "color" ∧
      ∃ winner, (cascade ((ofInsertions r steps).rulesFor t .strict 0) none).winner?
        (.ofName "color") = some winner ∧ winner.important = true := by
  intro r steps red pink w t
  have hname : r.property? "color" = some ⟨"color", "black", true, false, ["colour"]⟩ := by
    decide +kernel
  have hw : w ∈ ledger r steps := by decide +kernel
  have hselects : w.selector.selects t .strict 0 = true := by decide +kernel
  have hred : r.Writes red "color" := ⟨some (.ofName "color"), "red", by decide +kernel⟩
  have hpink : r.Writes pink "color" := ⟨some (.ofName "color"), "pink", by decide +kernel⟩
  refine ⟨hname, hw, hselects, hred, hpink, ?_⟩
  refine important_wins_unless_rewritten hname hw hselects rfl hred rfl (fun e he _ => ?_) none
  rw [List.mem_singleton.mp he]

/-- **A later normal declaration wins inside a rule.**  Of a text that declares a property twice, first
importantly and then not, the second declaration is kept, and it is the winner. -/
theorem Stylesheet.important_lost_to_later_declaration :
    let r := Registry.empty.register "color" "black" true
    let w : WrittenRule := .parse "button" "color:red !important;color:blue" 0
    let t := Tree.empty.addRoot "button"
    let c := cascade ((ofInsertions r [.add w]).rulesFor t .strict 0) none
    r.property? "color" = some ⟨"color", "black", true, false, []⟩ ∧ w ∈ ledger r [.add w] ∧
      w.selector.selects t .strict 0 = true ∧
      (∃ d ∈ w.declarations, r.Writes d "color" ∧ d.important = true) ∧
      c.winner? (.ofName "color") =
        some ⟨"color", some (.ofName "color"), "blue", ⟨0, 0, 1⟩, false⟩ := by
  intro r w t c
  have hred : ⟨"color", "red", true⟩ ∈ w.declarations := by decide +kernel
  have hwrites : r.Writes ⟨"color", "red", true⟩ "color" :=
    ⟨some (.ofName "color"), "red", by decide +kernel⟩
  have hrules : (ofInsertions r [.add w]).rulesFor t .strict 0 = [(w.rule r).withOrder 0] :=
    rulesFor_append_empty (by decide +kernel) (by decide +kernel)
  have hc : c = cascade [(w.rule r).withOrder 0] none := congrArg (cascade · none) hrules
  rw [hc]
  exact ⟨by decide +kernel, by decide +kernel, by decide +kernel, ⟨_, hred, hwrites, rfl⟩,
    by decide +kernel⟩

end WidgetStyle
