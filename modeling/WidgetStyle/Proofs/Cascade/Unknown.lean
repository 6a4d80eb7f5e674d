import Mathlib.Data.List.Basic
import WidgetStyle.Cascade.Computed
import WidgetStyle.Proofs.Cascade.Contest
import WidgetStyle.Proofs.Sheet.Blocks
import WidgetStyle.Proofs.Sheet.Normalisation

/-!
# WidgetStyle.Proofs.Cascade.Unknown — declarations of unknown names

A registry knows the names of its properties, their aliases and its shorthands.  A declaration of
any other name is kept in its block and competes under the hash of its name.  As long as that hash
is not the one of a known name as well, nobody ever asks for the winner: the values of all
properties are what they would be without the declaration (`values_compute_of_extends`).

The proof compares two worlds, one with the declaration and one without.  Blocks that are made in
the same way, but for the unknown declaration, differ at its name and nowhere else (`DifferAt`);
every way to write to blocks keeps this, and the cascade cannot see the difference under any key but
the hash of the name.
-/

namespace WidgetStyle

open Text

/-! ## Unknown names -/

/-- Lowering a character neither makes a hyphen nor loses one. -/
theorem hyphen_beq_toLower (c : Char) : ('-' == c.toLower) = ('-' == c) := by
  unfold Char.toLower
  split
  · next hupper =>
      have hne : '-' ≠ c := by
        rintro rfl
        exact absurd hupper (by decide)
      rw [beq_eq_false_iff_ne.mpr hne, beq_eq_false_iff_ne]
      intro heq
      have hval : (45 : Nat) = (c.val + ('a'.val - 'A'.val)).toNat :=
        congrArg (fun d : Char => d.val.toNat) heq
      have hlow : 65 ≤ c.val.toNat := hupper.1
      have hhigh : c.val.toNat ≤ 90 := hupper.2
      rw [UInt32.toNat_add, show ('a'.val - 'A'.val).toNat = 32 from rfl] at hval
      omega
  · rfl

theorem isVariableName_lower (s : String) : isVariableName (lower s) = isVariableName s := by
  rw [isVariableName, isVariableName, toList_lower]
  match s.toList with
  | [] => rfl
  | [c] => simp [List.isPrefixOf]
  | c :: d :: cs => simp [List.isPrefixOf, hyphen_beq_toLower]

namespace Registry

/-- The name stands for nothing: it is no variable, no alias, and its hash is not the one of a
property or a shorthand. -/
structure IsUnknown (r : Registry) (name : String) : Prop where
  notVariable : isVariableName name = false
  notAlias : r.aliases.get? name = none
  notProperty : ∀ p ∈ r.properties, p.id ≠ .ofName name
  notShorthand : r.shorthand? name = none

namespace IsUnknown

variable {r : Registry} {name : String} (h : r.IsUnknown name)
include h

theorem byId?_eq_none : r.byId? (.ofName name) = none :=
  List.find?_eq_none.mpr fun p hp hid => h.notProperty p hp (of_decide_eq_true hid)

theorem byAlias?_eq_none : r.byAlias? name = none := by rw [byAlias?, h.notAlias]; rfl

theorem property?_eq_none : r.property? name = none := by
  rw [property?, h.byId?_eq_none]
  exact h.byAlias?_eq_none

theorem canonicalName_eq_self : r.canonicalName name = name := by
  rw [canonicalName, h.byId?_eq_none, h.byAlias?_eq_none]
  rfl

theorem longhands?_eq_none (value : String) : r.longhands? name value = none := by
  rw [longhands?.eq_def, h.notShorthand]
  rfl

end IsUnknown

/-- An unknown name is kept as it is, without an identity. -/
theorem entries_of_isUnknown {r : Registry} {name : String} (h : r.IsUnknown (lower (trimmed name)))
    (value : String) :
    r.entries name value = [.property (lower (trimmed name)) none (trimmed value)] := by
  have hread : r.read name value = .entry (.property (lower (trimmed name)) none (trimmed value)) := by
    rw [read, (isVariableName_lower _).symm.trans h.notVariable]
    simp only [h.canonicalName_eq_self, h.longhands?_eq_none, h.property?_eq_none, Option.map_none,
      if_neg Bool.false_ne_true]
  rw [entries, normaliseWithin?, hread]
  rfl

theorem id?_of_read_eq {r : Registry} {name value n v : String} {id? : Option PropertyId}
    (h : r.read name value = .entry (.property n id? v)) :
    id? = (r.property? n).map Property.id := by
  rw [read] at h
  split at h
  · cases h
  · simp only at h
    split at h
    · cases h
    · cases h
      rfl

theorem id?_of_mem_normaliseWithin? {r : Registry} {steps : Nat} {name value : String}
    {es : List Entry} (h : r.normaliseWithin? steps name value = some es) {n v : String}
    {id? : Option PropertyId} (he : .property n id? v ∈ es) :
    id? = (r.property? n).map Property.id := by
  induction steps generalizing name value es with
  | zero => cases h
  | succ steps ih =>
      rw [normaliseWithin?] at h
      split at h
      · next e hread =>
          cases h
          rw [← List.mem_singleton.mp he] at hread
          exact id?_of_read_eq hread
      · next declarations hread =>
          obtain ⟨parts, hparts, heq⟩ := Option.bind_eq_some_iff.mp h
          cases heq
          obtain ⟨part, hpart, he⟩ := List.mem_flatten.mp he
          obtain ⟨d, -, hd⟩ := exists_related_of_mem (mapM_eq_some_iff.mp hparts).flip hpart
          exact ih hd he

/-- Entries of properties have the identity that the registry gives to their names. -/
theorem id?_of_mem_entries {r : Registry} {name value n v : String} {id? : Option PropertyId}
    (h : .property n id? v ∈ r.entries name value) : id? = (r.property? n).map Property.id := by
  rw [entries] at h
  cases hentries : r.normaliseWithin? (r.shorthands.size + endlessSteps + 1) name value with
  | none =>
      rw [hentries] at h
      exact absurd h List.not_mem_nil
  | some es =>
      rw [hentries] at h
      exact id?_of_mem_normaliseWithin? hentries h

end Registry

/-! ## Blocks that differ at a name -/

/-- Two blocks differ at a name at most, and give it no identity. -/
structure Block.DifferAt (name : String) (b b' : Block) : Prop where
  vars : b'.vars = b.vars
  declarations : b'.declarations.filter (fun d => d.name ≠ name) =
    b.declarations.filter fun d => d.name ≠ name
  left : ∀ d ∈ b.declarations, d.name = name → d.id? = none
  right : ∀ d ∈ b'.declarations, d.name = name → d.id? = none

namespace Block.DifferAt

variable {name : String} {b b' c c' : Block} {specificity : Specificity} {important : Bool}

theorem empty : DifferAt name {} {} := ⟨rfl, rfl, by simp, by simp⟩

/-- The same entry is written to both blocks. -/
theorem put (h : DifferAt name b b') {e : Entry}
    (he : ∀ id? value, e = .property name id? value → id? = none) :
    DifferAt name (b.put specificity important e) (b'.put specificity important e) := by
  have identity : ∀ b : Block, (∀ x ∈ b.declarations, x.name = name → x.id? = none) →
      ∀ x ∈ (b.put specificity important e).declarations, x.name = name → x.id? = none := by
    intro b hb x hx hname
    rcases mem_declarations_put hx with hx | ⟨n, id?, value, rfl, rfl⟩
    · exact hb x hx hname
    · exact he id? value (by rw [← hname])
  refine ⟨?_, ?_, identity b h.left, identity b' h.right⟩
  · cases e with
    | property n id? value => exact h.vars
    | «variable» n value => exact congrArg (putByName Variable.name _) h.vars
  · cases e with
    | «variable» n value => exact h.declarations
    | property n id? value =>
        change (putByName _ _ _).filter _ = (putByName _ _ _).filter _
        rw [filter_putByName, filter_putByName, h.declarations]

/-- The same declaration is pushed to both blocks. -/
theorem push {r : Registry} (h : DifferAt name b b') (hname : r.property? name = none)
    (d : Source.Declaration) :
    DifferAt name (b.push r specificity d) (b'.push r specificity d) := by
  rw [Block.push, Block.push]
  refine List.foldl_rel h fun e he b b' hb => hb.put fun id? value heq => ?_
  have hid := Registry.id?_of_mem_entries (heq ▸ he)
  rw [hid, hname]
  rfl

/-- A declaration of the name is pushed to the second block only. -/
theorem pushRight {r : Registry} (h : DifferAt name b b') {d : Source.Declaration}
    (hname : lower (trimmed d.name) = name) (hd : r.IsUnknown name) :
    DifferAt name b (b'.push r specificity d) := by
  subst hname
  rw [Block.push, Registry.entries_of_isUnknown hd, List.foldl_cons, List.foldl_nil]
  refine ⟨h.vars, ?_, h.left, fun x hx hname => ?_⟩
  · change (putByName _ _ _).filter _ = _
    rw [filter_putByName, if_pos rfl, h.declarations]
  · rcases mem_declarations_put hx with hx | ⟨n, id?, value, he, rfl⟩
    · exact h.right x hx hname
    · obtain ⟨-, rfl, -⟩ := Entry.property.inj he
      rfl

theorem merge (h : DifferAt name b b') (k : DifferAt name c c') :
    DifferAt name (b.merge c) (b'.merge c') where
  vars := by rw [merge_eq, merge_eq, h.vars, k.vars]
  declarations := by
    rw [merge_eq, merge_eq, filter_foldl_putByName, filter_foldl_putByName, h.declarations,
      k.declarations]
  left x hx := (mem_declarations_merge hx).elim (h.left x) (k.left x)
  right x hx := (mem_declarations_merge hx).elim (h.right x) (k.right x)

theorem withSpecificity (h : DifferAt name b b') (specificity : Specificity) :
    DifferAt name (b.withSpecificity specificity) (b'.withSpecificity specificity) where
  vars := congrArg (List.map _) h.vars
  declarations := by
    change (List.map _ _).filter _ = (List.map _ _).filter _
    rw [List.filter_map, List.filter_map]
    exact congrArg (List.map _) h.declarations
  left x hx := by
    obtain ⟨d, hd, rfl⟩ := List.mem_map.mp hx
    exact h.left d hd
  right x hx := by
    obtain ⟨d, hd, rfl⟩ := List.mem_map.mp hx
    exact h.right d hd

theorem withOrder (h : DifferAt name b b') (order : Nat) :
    DifferAt name (b.withOrder order) (b'.withOrder order) :=
  ⟨congrArg (List.map _) h.vars, h.declarations, h.left, h.right⟩

end Block.DifferAt

/-! ## One declaration more -/

/-- The second block is made like the first one, and a declaration is pushed in addition, at any
moments. -/
inductive Block.Extends (r : Registry) (d : Source.Declaration) : Block → Block → Prop
  | empty : Extends r d {} {}
  | push {b b' : Block} (h : Extends r d b b') (specificity : Specificity)
      (e : Source.Declaration) : Extends r d (b.push r specificity e) (b'.push r specificity e)
  | merge {b b' c c' : Block} (h : Extends r d b b') (k : Extends r d c c') :
      Extends r d (b.merge c) (b'.merge c')
  | withSpecificity {b b' : Block} (h : Extends r d b b') (specificity : Specificity) :
      Extends r d (b.withSpecificity specificity) (b'.withSpecificity specificity)
  | withOrder {b b' : Block} (h : Extends r d b b') (order : Nat) :
      Extends r d (b.withOrder order) (b'.withOrder order)
  | more {b b' : Block} (h : Extends r d b b') (specificity : Specificity) :
      Extends r d b (b'.push r specificity d)

/-- The second rule stands at the place of the first one and declares more. -/
structure StyleRule.Extends (r : Registry) (d : Source.Declaration) (rule rule' : StyleRule) :
    Prop where
  order : rule'.order = rule.order
  block : rule.block.Extends r d rule'.block

/-- The second style declares more. -/
def InlineStyle.Extends (r : Registry) (d : Source.Declaration) (style style' : InlineStyle) :
    Prop :=
  style.block.Extends r d style'.block

theorem Block.Extends.differAt {r : Registry} {d : Source.Declaration} {b b' : Block}
    (h : b.Extends r d b') (hd : r.IsUnknown (lower (trimmed d.name))) :
    DifferAt (lower (trimmed d.name)) b b' := by
  induction h with
  | empty => exact .empty
  | push _ specificity e ih => exact ih.push hd.property?_eq_none e
  | merge _ _ ih ih' => exact ih.merge ih'
  | withSpecificity _ specificity ih => exact ih.withSpecificity specificity
  | withOrder _ order ih => exact ih.withOrder order
  | more _ specificity ih => exact ih.pushRight rfl hd

/-! ## The cascade -/

namespace Cascaded

variable {name : String} {key : PropertyId}

/-- Under other keys than the hash of the name the same declarations compete. -/
theorem filter_enter {b b' : Block} (h : b.DifferAt name b') (hkey : key ≠ .ofName name)
    (rank : Declaration → Rank) :
    (enter rank b').filter (fun e => e.key = key) = (enter rank b).filter fun e => e.key = key := by
  have others : ∀ b : Block, (∀ d ∈ b.declarations, d.name = name → d.id? = none) →
      (b.declarations.filter fun d => d.key = key) =
        (b.declarations.filter fun d => d.name ≠ name).filter fun d => d.key = key := by
    intro b hb
    rw [List.filter_filter]
    refine List.filter_congr fun d hd => ?_
    by_cases hname : d.name = name
    · have hother : d.key ≠ key := by
        rw [Declaration.key, hb d hd hname, hname]
        exact hkey.symm
      simp [hname, hother]
    · simp [hname]
  rw [enter, enter, List.filter_map, List.filter_map]
  refine congrArg (List.map _) ?_
  exact (others b' h.right).trans (h.declarations ▸ (others b h.left).symm)

variable {r : Registry} {d : Source.Declaration} {rules rules' : List StyleRule}
  {inline? inline?' : Option InlineStyle}

theorem filter_entries_of_extends (hd : r.IsUnknown (lower (trimmed d.name)))
    (hrules : List.Forall₂ (StyleRule.Extends r d) rules rules')
    (hinline : Option.Rel (InlineStyle.Extends r d) inline? inline?')
    (hkey : key ≠ .ofName (lower (trimmed d.name))) :
    (entries rules' inline?').filter (fun e => e.key = key) =
      (entries rules inline?).filter fun e => e.key = key := by
  rw [entries, entries, List.filter_append, List.filter_append]
  congr 1
  · induction hrules with
    | nil => rfl
    | @cons rule rule' rules rules' hrule _ ih =>
        have hrank : ruleRank rule' = ruleRank rule := by
          funext x
          rw [ruleRank, ruleRank, hrule.order]
        rw [List.flatMap_cons, List.flatMap_cons, List.filter_append, List.filter_append, ih,
          ruleEntries, ruleEntries, hrank, filter_enter (hrule.block.differAt hd) hkey]
  · cases hinline with
    | none => rfl
    | some hstyle => exact filter_enter (Block.Extends.differAt hstyle hd) hkey _

theorem vars_of_extends (hd : r.IsUnknown (lower (trimmed d.name)))
    (hrules : List.Forall₂ (StyleRule.Extends r d) rules rules')
    (hinline : Option.Rel (InlineStyle.Extends r d) inline? inline?') :
    vars rules' inline?' = vars rules inline? := by
  rw [vars, vars]
  congr 1
  · induction hrules with
    | nil => rfl
    | cons hrule _ ih => rw [List.flatMap_cons, List.flatMap_cons, ih, (hrule.block.differAt hd).vars]
  · cases hinline with
    | none => rfl
    | some hstyle => exact (Block.Extends.differAt hstyle hd).vars

end Cascaded

/-- The values of a style come from the winners of the registered properties and the variables. -/
theorem StyleContext.values_compute_congr (x : StyleContext) {c c' : Cascaded}
    (hwinners : ∀ p ∈ x.registry.properties, c'.winners.get? p.id = c.winners.get? p.id)
    (hscope : c'.scope = c.scope) : (x.compute c').values = (x.compute c).values := by
  rw [compute, compute, hscope]
  refine List.foldl_ext _ _ _ fun values p hp => ?_
  rw [valueOf, valueOf, Cascaded.winner?, Cascaded.winner?, hwinners p hp]

/-- **Unknown names never influence computed values.**  Whatever blocks the rules of a node and its
inline style are made of, pushing a declaration of an unknown name to any of them, any number of
times and at any moments, leaves all values of all registered properties as they are. -/
theorem StyleContext.values_compute_of_extends (x : StyleContext) {d : Source.Declaration}
    (hd : x.registry.IsUnknown (lower (trimmed d.name))) {rules rules' : List StyleRule}
    (hrules : List.Forall₂ (StyleRule.Extends x.registry d) rules rules')
    {inline? inline?' : Option InlineStyle}
    (hinline : Option.Rel (InlineStyle.Extends x.registry d) inline? inline?') :
    (x.compute (cascade rules' inline?')).values = (x.compute (cascade rules inline?)).values := by
  refine x.values_compute_congr (fun p hp => Option.ext fun e => ?_) ?_
  · rw [Cascaded.winners_eq_some_iff, Cascaded.winners_eq_some_iff,
      Cascaded.filter_entries_of_extends hd hrules hinline (hd.notProperty p hp)]
  · rw [(Cascaded.cascade_eq rules' inline?').2, (Cascaded.cascade_eq rules inline?).2,
      Cascaded.vars_of_extends hd hrules hinline]

/-- The statement at a misspelt property, pushed to a rule and to an inline style. -/
theorem StyleContext.values_compute_of_extends_misspelt :
    let r := Registry.empty.register "color" "black" true
    let x : StyleContext := { registry := r }
    let d : Source.Declaration := ⟨" Colour", "blue", true⟩
    let rule (block : Block) : StyleRule := { selector := ⟨⟨[.universal]⟩, [], "*"⟩, block }
    let block := Block.push {} r .zero ⟨"color", "red", false⟩
    let own := Block.push {} r .inline d
    r.IsUnknown (lower (trimmed d.name)) ∧
      List.Forall₂ (StyleRule.Extends r d) [rule block] [rule (block.push r .zero d)] ∧
      Option.Rel (InlineStyle.Extends r d) (some {}) (some ⟨own⟩) ∧
      (x.compute (cascade [rule (block.push r .zero d)] (some ⟨own⟩))).value? (.ofName "color") =
        some "red" := by
  intro r x d rule block own
  have hd : r.IsUnknown (lower (trimmed d.name)) :=
    ⟨by decide +kernel, by decide +kernel, by decide +kernel, by decide +kernel⟩
  have hrule : ∀ {b b' : Block}, b.Extends r d b' → StyleRule.Extends r d (rule b) (rule b') :=
    fun h => ⟨rfl, h⟩
  have hblock : block.Extends r d (block.push r .zero d) :=
    (Block.Extends.empty.push .zero ⟨"color", "red", false⟩).more .zero
  have hrules : List.Forall₂ (StyleRule.Extends r d) [rule block] [rule (block.push r .zero d)] :=
    .cons (hrule hblock) .nil
  have hstyle : ∀ {b b' : Block}, b.Extends r d b' → InlineStyle.Extends r d ⟨b⟩ ⟨b'⟩ := fun h => h
  have hown : Block.Extends r d {} own := Block.Extends.empty.more .inline
  have hinline : Option.Rel (InlineStyle.Extends r d) (some {}) (some ⟨own⟩) := .some (hstyle hown)
  have hvalues := x.values_compute_of_extends hd hrules hinline
  refine ⟨hd, hrules, hinline, ?_⟩
  rw [ComputedStyle.value?, hvalues]
  decide +kernel

/-- **Names with a known hash do influence computed values.**  Where `color` is the only name that is
known, `colq0` has its hash: a declaration of `colq0` takes the place of the one of `color`. -/
theorem StyleContext.value_changed_by_unregistered_name :
    let r := Registry.empty.register "color" "black" true
    let x : StyleContext := { registry := r }
    let rule : StyleRule :=
      { selector := ⟨⟨[.universal]⟩, [], "*"⟩, block := Block.push {} r .zero ⟨"color", "red", false⟩ }
    let rule' := { rule with block := rule.block.push r .zero ⟨"colq0", "blue", false⟩ }
    r.properties.map Property.name = ["color"] ∧ r.aliases = .empty ∧ r.shorthands = .empty ∧
      (x.compute (cascade [rule] none)).value? (.ofName "color") = some "red" ∧
      (x.compute (cascade [rule'] none)).value? (.ofName "color") = some "blue" := by
  decide +kernel

end WidgetStyle
