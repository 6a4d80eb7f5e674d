import WidgetStyle.Proofs.Cascade.Highest

/-!
# WidgetStyle.Proofs.Cascade.Contest — the cascade as a competition

The cascade meets the declarations of all rules, rule after rule and block after block, and then
those of the inline style (`Cascaded.entries`); it meets the variables in the same way
(`Cascaded.vars`).  The winner for a key is the last of the highest ranks among the entries of
that key (`winners_eq_some_iff`), and so is the variable of a name (`scope_eq_some_iff`).
-/

namespace WidgetStyle

/-! ## The orders -/

instance : Std.TransOrd Rank :=
  inferInstanceAs (Std.TransCmp (compareLex (compareOn Rank.important)
    (compareLex (compareOn Rank.specificity) (compareOn Rank.order))))

/-- A declaration that competes, with its rank. -/
abbrev Entrant := Declaration × Rank

namespace Entrant

/-- The key that an entrant competes for. -/
def key (e : Entrant) : PropertyId := e.1.key

/-- Entrants compare by their ranks. -/
abbrev byRank : Entrant → Entrant → Ordering := compareOn Prod.snd

end Entrant

/-- Variables compare by the specificity and the place of their rules. -/
abbrev Variable.byRule : Variable → Variable → Ordering :=
  compareLex (compareOn Variable.specificity) (compareOn Variable.order)

/-- Of equal ranks all parts are equal. -/
theorem Rank.eq_of_compare_eq {a b : Rank} (h : Ord.compare a b = .eq) :
    a.important = b.important ∧ a.order = b.order := by
  obtain ⟨himportant, hrest⟩ := Ordering.then_eq_eq.mp h
  exact ⟨Std.LawfulEqOrd.eq_of_compare himportant,
    Std.LawfulEqOrd.eq_of_compare (Ordering.then_eq_eq.mp hrest).2⟩

namespace Cascaded

/-! ## What is met -/

/-- The declarations of a block as entrants. -/
def enter (rank : Declaration → Rank) (b : Block) : List Entrant :=
  b.declarations.map fun d => (d, rank d)

/-- The declarations of a rule as entrants. -/
def ruleEntries (rule : StyleRule) : List Entrant := enter (ruleRank rule) rule.block

/-- The declarations of an inline style as entrants. -/
def inlineEntries (style : InlineStyle) : List Entrant :=
  enter (fun d => .inline d.important) style.block

/-- The declarations that a cascade meets. -/
def entries (rules : List StyleRule) (inline? : Option InlineStyle) : List Entrant :=
  rules.flatMap ruleEntries ++ inline?.elim [] inlineEntries

/-- The variables that a cascade meets. -/
def vars (rules : List StyleRule) (inline? : Option InlineStyle) : List Variable :=
  (rules.flatMap fun rule => rule.block.vars) ++ inline?.elim [] fun style => style.block.vars

theorem mem_ruleEntries {rule : StyleRule} {e : Entrant} :
    e ∈ ruleEntries rule ↔ e.1 ∈ rule.block.declarations ∧ e.2 = ruleRank rule e.1 := by
  constructor
  · intro h
    obtain ⟨d, hd, rfl⟩ := List.mem_map.mp h
    exact ⟨hd, rfl⟩
  · rintro ⟨hd, hrank⟩
    exact List.mem_map.mpr ⟨e.1, hd, Prod.ext rfl hrank.symm⟩

theorem mem_inlineEntries {style : InlineStyle} {e : Entrant} :
    e ∈ inlineEntries style ↔
      e.1 ∈ style.block.declarations ∧ e.2 = .inline e.1.important := by
  constructor
  · intro h
    obtain ⟨d, hd, rfl⟩ := List.mem_map.mp h
    exact ⟨hd, rfl⟩
  · rintro ⟨hd, hrank⟩
    exact List.mem_map.mpr ⟨e.1, hd, Prod.ext rfl hrank.symm⟩

/-- What competes is a declaration of a rule with the rank of the rule, or one of the inline style with
an inline rank. -/
theorem forall_mem_entries {rules : List StyleRule} {inline? : Option InlineStyle}
    {P : Entrant → Prop} (hrules : ∀ rule ∈ rules, ∀ d ∈ rule.block.declarations, P (d, ruleRank rule d))
    (hinline : ∀ style ∈ inline?, ∀ d ∈ style.block.declarations, P (d, .inline d.important)) :
    ∀ e ∈ entries rules inline?, P e := by
  intro e he
  rcases List.mem_append.mp he with he | he
  · obtain ⟨rule, hrule, he⟩ := List.mem_flatMap.mp he
    obtain ⟨d, hd, rfl⟩ := List.mem_map.mp he
    exact hrules rule hrule d hd
  · cases inline? with
    | none => exact absurd he List.not_mem_nil
    | some style =>
        obtain ⟨d, hd, rfl⟩ := List.mem_map.mp he
        exact hinline style rfl d hd

/-- Ranks tell whether a declaration is important. -/
theorem important_of_mem_entries {rules : List StyleRule} {inline? : Option InlineStyle}
    {e : Entrant} (he : e ∈ entries rules inline?) : e.2.important = e.1.important :=
  forall_mem_entries (P := fun e => e.2.important = e.1.important) (fun _ _ _ _ => rfl)
    (fun _ _ _ _ => rfl) e he

/-! ## Meeting -/

theorem winners_put (c : Cascaded) (rank : Declaration → Rank) (d : Declaration) :
    (c.put rank d).winners = c.winners.raise Entrant.byRank Entrant.key (d, rank d) := by
  have hadmits : c.admits d (rank d) =
      (c.winners.get? d.key).all fun e => Entrant.byRank (d, rank d) e != .lt := by
    unfold admits
    cases c.winners.get? d.key <;> rfl
  rw [put, hadmits, Assoc.raise]
  exact apply_ite Cascaded.winners _ _ _

theorem scope_put (c : Cascaded) (rank : Declaration → Rank) (d : Declaration) :
    (c.put rank d).scope = c.scope := by
  unfold put
  split <;> rfl

theorem scope_declare (c : Cascaded) (v : Variable) :
    (c.declare v).scope = c.scope.raise Variable.byRule Variable.name v := by
  have hadmits : c.scope.admits v =
      (c.scope.get? v.name).all fun w => Variable.byRule v w != .lt := by
    unfold Scope.admits
    cases c.scope.get? v.name <;> rfl
  rw [declare, Scope.declare, hadmits]
  rfl

theorem putBlock_eq (c : Cascaded) (rank : Declaration → Rank) (b : Block) :
    (c.putBlock rank b).winners =
        (enter rank b).foldl (Assoc.raise Entrant.byRank Entrant.key) c.winners ∧
      (c.putBlock rank b).scope =
        b.vars.foldl (Assoc.raise Variable.byRule Variable.name) c.scope := by
  -- Declarations leave the scope alone, and variables the winners.
  have declarationsOnly : ∀ (ds : List Declaration) (c : Cascaded),
      (ds.foldl (fun c d => c.put rank d) c).winners =
          (ds.map fun d => (d, rank d)).foldl (Assoc.raise Entrant.byRank Entrant.key) c.winners ∧
        (ds.foldl (fun c d => c.put rank d) c).scope = c.scope := by
    intro ds
    induction ds with
    | nil => exact fun c => ⟨rfl, rfl⟩
    | cons d ds ih =>
        intro c
        obtain ⟨hwinners, hscope⟩ := ih (c.put rank d)
        rw [winners_put] at hwinners
        exact ⟨hwinners, hscope.trans (scope_put c rank d)⟩
  have variablesOnly : ∀ (vs : List Variable) (c : Cascaded),
      (vs.foldl declare c).winners = c.winners ∧
        (vs.foldl declare c).scope =
          vs.foldl (Assoc.raise Variable.byRule Variable.name) c.scope := by
    intro vs
    induction vs with
    | nil => exact fun c => ⟨rfl, rfl⟩
    | cons v vs ih =>
        intro c
        obtain ⟨hwinners, hscope⟩ := ih (c.declare v)
        rw [scope_declare] at hscope
        exact ⟨hwinners, hscope⟩
  obtain ⟨hwinners, hscope⟩ := declarationsOnly b.declarations c
  obtain ⟨hwinners', hscope'⟩ := variablesOnly b.vars (b.declarations.foldl (fun c d => c.put rank d) c)
  exact ⟨hwinners'.trans hwinners, hscope'.trans (by rw [hscope])⟩

/-- The cascade meets its entrants and its variables one after the other. -/
theorem cascade_eq (rules : List StyleRule) (inline? : Option InlineStyle) :
    (cascade rules inline?).winners =
        (entries rules inline?).foldl (Assoc.raise Entrant.byRank Entrant.key) .empty ∧
      (cascade rules inline?).scope =
        (vars rules inline?).foldl (Assoc.raise Variable.byRule Variable.name) .empty := by
  have byRules : ∀ (rules : List StyleRule) (c : Cascaded),
      (rules.foldl putRule c).winners =
          (rules.flatMap ruleEntries).foldl (Assoc.raise Entrant.byRank Entrant.key) c.winners ∧
        (rules.foldl putRule c).scope =
          (rules.flatMap fun rule => rule.block.vars).foldl
            (Assoc.raise Variable.byRule Variable.name) c.scope := by
    intro rules
    induction rules with
    | nil => exact fun c => ⟨rfl, rfl⟩
    | cons rule rules ih =>
        intro c
        obtain ⟨hwinners, hscope⟩ := putBlock_eq c (ruleRank rule) rule.block
        rw [List.foldl_cons, (ih _).1, (ih _).2, List.flatMap_cons, List.flatMap_cons,
          List.foldl_append, List.foldl_append]
        exact ⟨by rw [putRule, hwinners, ruleEntries], by rw [putRule, hscope]⟩
  obtain ⟨hwinners, hscope⟩ := byRules rules {}
  cases inline? with
  | none => simpa [cascade, entries, vars] using ⟨hwinners, hscope⟩
  | some style =>
      obtain ⟨hwinners', hscope'⟩ := putBlock_eq (rules.foldl putRule {})
        (fun d => .inline d.important) style.block
      rw [entries, vars, List.foldl_append, List.foldl_append]
      exact ⟨hwinners'.trans (by rw [hwinners]; rfl), hscope'.trans (by rw [hscope]; rfl)⟩

variable {rules : List StyleRule} {inline? : Option InlineStyle}

/-- The winner for a key is the last of the highest that compete for it. -/
theorem winners_eq_some_iff {key : PropertyId} {e : Entrant} :
    (cascade rules inline?).winners.get? key = some e ↔
      IsLastHighest Entrant.byRank ((entries rules inline?).filter fun x => x.key = key) e := by
  rw [(cascade_eq rules inline?).1, get?_foldl_raise_eq_some_iff]

/-- The variable of a name is the last of the highest of that name. -/
theorem scope_eq_some_iff {name : String} {v : Variable} :
    (cascade rules inline?).scope.get? name = some v ↔
      IsLastHighest Variable.byRule ((vars rules inline?).filter fun x => x.name = name) v := by
  rw [(cascade_eq rules inline?).2, get?_foldl_raise_eq_some_iff]

end Cascaded

end WidgetStyle
