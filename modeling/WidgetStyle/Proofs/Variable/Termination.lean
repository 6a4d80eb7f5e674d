import Mathlib.Algebra.GroupWithZero.Nat
import Mathlib.Algebra.Order.BigOperators.Group.List
import Mathlib.Algebra.Order.Group.Nat
import Mathlib.Data.List.Infix
import Mathlib.Logic.Relation
import WidgetStyle.Proofs.Variable.Fallbacks

/-!
# WidgetStyle.Proofs.Variable.Termination — expansion comes to an end

While a value is expanded, a reference may call for the expansion of another text: of the value of its
variable, with the variable put on the stack, or of its fallback, with the stack as it is.
`Resolver.Enters` says which expansions are entered from which.  On the way into a variable the stack
gets longer, up to a bound and never with a name twice.  On the way into a fallback it stays, and
`var(` stands in the fallback in fewer places than in the value (`varCount_fallback_lt`).  That count
goes by the letters alone: it takes in what is quoted, since a fallback may lose its quotation marks.

`Resolver.expandWithin?` expands in a limited number of steps, one for each reference that is gone
through and one for each expansion that is entered.  The steps that suffice are known in advance
(`Resolver.stepsFor`), so substitution ends for all variables, values and bounds
(`Resolver.substitute_terminates`).
-/

namespace WidgetStyle

open Text Value

/-! ## Places where `var(` stands -/

namespace Segment

/-- In how many places of a text `var(` stands, in any letter case, quoted or not. -/
def varCount : List Char → Nat
  | [] => 0
  | c :: cs => (if startsReference (c :: cs) then 1 else 0) + varCount cs

variable {cs ds : List Char}

theorem varCount_add_le (cs ds : List Char) : varCount cs + varCount ds ≤ varCount (cs ++ ds) := by
  induction cs with
  | nil => simp [varCount]
  | cons c cs ih =>
      have hstarts : startsReference (c :: cs) = true → startsReference (c :: (cs ++ ds)) = true :=
        fun h => startsReference_append h ds
      rw [List.cons_append, varCount, varCount]
      split
      case isTrue h =>
        rw [if_pos (hstarts h)]
        omega
      case isFalse => omega

theorem varCount_le_of_isInfix (h : cs <:+: ds) : varCount cs ≤ varCount ds := by
  obtain ⟨front, back, rfl⟩ := h
  have hback := varCount_add_le (front ++ cs) back
  have hfront := varCount_add_le front cs
  omega

/-- Nothing is lost or gained at a character that has no place in `var(`. -/
theorem varCount_append_cons {c : Char} (hc : inVar c = false) (cs rest : List Char) :
    varCount (cs ++ c :: rest) = varCount cs + varCount rest := by
  induction cs with
  | nil =>
      have hstarts : startsReference (c :: rest) = false := startsReference_append_cons hc [] rest
      rw [List.nil_append, varCount.eq_2, hstarts, varCount.eq_1, if_neg Bool.false_ne_true]
  | cons d cs ih =>
      have hstarts : startsReference (d :: (cs ++ c :: rest)) = startsReference (d :: cs) :=
        startsReference_append_cons hc (d :: cs) rest
      rw [List.cons_append, varCount, varCount, hstarts, ih, Nat.add_assoc]

/-- Joined items have the places of all items. -/
theorem varCount_joinItems (items : List (List Char)) :
    varCount (joinItems items) = (items.map varCount).sum := by
  induction items with
  | nil => rfl
  | cons item items ih =>
      cases items with
      | nil => simp [joinItems]
      | cons next items =>
          have hspace : varCount (' ' :: joinItems (next :: items)) =
              varCount ([] : List Char) + varCount (joinItems (next :: items)) :=
            varCount_append_cons rfl [] _
          rw [joinItems, varCount_append_cons inVar_comma, hspace, ih, List.map_cons, List.sum_cons]
          simp [varCount]

/-- So do the pieces of a text between its commas. -/
theorem varCount_of_pieces {st : Nesting} {pieces : List (List Char)}
    (h : PiecesFrom (· == ',') st cs pieces) : (pieces.map varCount).sum = varCount cs := by
  induction h with
  | last => simp
  | cut _ cuts _ ih =>
      have hcomma := beq_iff_eq.mp (Bool.and_eq_true_iff.mp cuts).2
      rw [List.map_cons, List.sum_cons, ih, hcomma, varCount_append_cons inVar_comma]

end Segment

/-! ## Fallbacks -/

namespace Value

theorem trim_isInfix (cs : List Char) : trim cs <:+: cs := by
  have hstart : trimStart cs <:+ cs := List.dropWhile_suffix isBlank
  have hend : trimEnd (trimStart cs) <+: trimStart cs := by
    rw [trimEnd, ← List.reverse_suffix, List.reverse_reverse]
    exact List.dropWhile_suffix isBlank
  exact hend.isInfix.trans hstart.isInfix

theorem unquote?_isInfix {cs inner : List Char} (h : unquote? cs = some inner) : inner <:+: cs := by
  cases cs with
  | nil => cases h
  | cons first more =>
      rw [unquote?] at h
      split at h
      case isTrue =>
        obtain rfl := Option.some.inj h
        have hprefix := List.dropLast_prefix more
        exact hprefix.isInfix.trans (List.suffix_cons first more).isInfix
      case isFalse => cases h

theorem Argument.ofPiece_isInfix (piece : List Char) :
    (Argument.ofPiece piece).text.toList <:+: piece := by
  rw [Argument.ofPiece]
  cases h : unquote? piece with
  | none => simp
  | some inner => simpa using unquote?_isInfix h

/-- The items of a list have no more places where `var(` stands than the list. -/
theorem sum_varCount_splitList_le (cs : List Char) :
    ((splitList ',' cs).map Segment.varCount).sum ≤ Segment.varCount cs := by
  rw [splitList]
  split
  case isTrue => exact Nat.zero_le _
  case isFalse =>
    have hpieces : listPieces ',' cs = cut (· == ',') cs := if_pos (by decide)
    rw [hpieces, List.map_map, ← Segment.varCount_of_pieces (pieces_cut (· == ',') cs)]
    exact List.sum_le_sum fun piece _ => Segment.varCount_le_of_isInfix (trim_isInfix piece)

end Value

/-- A fallback has fewer places where `var(` stands than a value with its reference. -/
theorem varCount_fallback_lt {value text fallback : List Char} {call : Call}
    (hmem : .reference text ∈ segments value) (hcall : Call.parse? text = some call)
    (h : call.fallback? = some fallback) : Segment.varCount fallback < Segment.varCount value := by
  obtain ⟨name, inner, hname, rfl, hopen⟩ := exists_call_of_mem_segments hmem
  obtain rfl := Option.some.inj ((parse?_call hname hopen).symm.trans hcall)
  have hfallback : Segment.varCount fallback ≤ Segment.varCount inner := by
    have hitems : ((splitList ',' inner).map fun item =>
        Segment.varCount (Argument.ofPiece item).text.toList).sum ≤ Segment.varCount inner :=
      (List.sum_le_sum fun item _ =>
        Segment.varCount_le_of_isInfix (Argument.ofPiece_isInfix item)).trans (sum_varCount_splitList_le inner)
    rw [Call.fallback?, ← List.map_drop] at h
    split at h
    case h_1 => cases h
    case h_2 =>
      obtain rfl := Option.some.inj h
      rw [Segment.varCount_joinItems, List.map_map, List.map_map, List.map_drop]
      exact ((List.drop_sublist 1 _).sum_le_sum fun _ _ => Nat.zero_le _).trans hitems
  -- The call begins with `var(`, and what is between its parentheses stands behind that.
  have htext : Segment.varCount inner < Segment.varCount (name ++ '(' :: (inner ++ [')'])) := by
    obtain ⟨c, cs, rfl⟩ := List.exists_cons_of_ne_nil (ne_nil_of_spellsVar hname)
    have hstarts : Segment.startsReference (c :: cs ++ '(' :: (inner ++ [')'])) = true :=
      startsReference_of_spellsVar hname _
    have hinner : inner <:+: cs ++ '(' :: (inner ++ [')']) := ⟨cs ++ ['('], [')'], by simp⟩
    have hle := Segment.varCount_le_of_isInfix hinner
    rw [List.cons_append] at hstarts ⊢
    rw [Segment.varCount, hstarts, if_pos rfl]
    omega
  have hvalue : name ++ '(' :: (inner ++ [')']) <:+: value := by
    have hmem' : name ++ '(' :: (inner ++ [')']) ∈ (segments value).map Segment.chars :=
      List.mem_map.mpr ⟨_, hmem, rfl⟩
    have hinfix := List.infix_of_mem_flatten hmem'
    rwa [← List.flatMap_def, flatMap_chars_segments] at hinfix
  exact Nat.lt_of_le_of_lt hfallback
    (Nat.lt_of_lt_of_le htext (Segment.varCount_le_of_isInfix hvalue))

/-- Behind a reference `var(` stands in fewer places than from the reference on. -/
theorem varCount_rest_lt {value head tail call rest : List Char}
    (hfind : Segment.find? value = some (head, tail))
    (hcall : Segment.splitCall? tail = some (call, rest)) :
    Segment.varCount rest < Segment.varCount value := by
  have hstarts := Segment.startsReference_of_findFrom hfind
  have hvalue : tail <:+: value := (Segment.findFrom_append hfind ▸ List.suffix_append head tail).isInfix
  have htail := (Segment.closeFrom_append hcall).1
  obtain ⟨c, cs, rfl⟩ := List.exists_cons_of_ne_nil (Segment.closeFrom_append hcall).2
  have hrest : rest <:+: cs ++ rest := (List.suffix_append cs rest).isInfix
  have hle := Segment.varCount_le_of_isInfix hrest
  have hlt : Segment.varCount rest < Segment.varCount tail := by
    rw [← htail, List.cons_append] at hstarts ⊢
    rw [Segment.varCount, hstarts, if_pos rfl]
    omega
  exact Nat.lt_of_lt_of_le hlt (Segment.varCount_le_of_isInfix hvalue)

/-! ## Expansions within expansions -/

/-- An expansion under way: the variables being expanded, the innermost first, and the text that is
gone through. -/
structure Expansion where
  stack : List String
  value : List Char
  deriving DecidableEq, Repr

/-- What a reference comes to: nothing, a failure, or another expansion. -/
inductive Target where
  | nothing
  | cycle
  | expansion (next : Expansion)
  deriving DecidableEq, Repr

/-- The answer for a reference, when the expansions that it comes to are answered. -/
def Target.answer {m : Type → Type} [Monad m] [MonadExcept ExpansionFailure m]
    (expand : Expansion → m (List Char)) : Target → m (List Char)
  | .nothing => pure []
  | .cycle => throw .cycle
  | .expansion next => expand next

namespace Resolver

variable (r : Resolver)

/-- What a reference comes to while the variables on the stack are being expanded. -/
def target (stack : List String) (text : List Char) : Target :=
  match Call.parse? text with
  | none => .nothing
  | some call =>
    if referredName call ∈ stack then .cycle
    else
      match r.lookup? (referredName call) with
      | some v => .expansion ⟨referredName call :: stack, v.value.toList⟩
      | none =>
        match call.fallback? with
        | none => .nothing
        | some fallback => .expansion ⟨stack, fallback⟩

theorem expandReference_eq (stack : List String) (text : List Char) :
    r.expandReference stack text =
      (r.target stack text).answer fun next => r.expand next.stack next.value := by
  rw [expandReference, target]
  cases Call.parse? text with
  | none => rfl
  | some call =>
      dsimp only
      split
      case isTrue => rfl
      case isFalse =>
        cases r.lookup? (referredName call) with
        | some v => rfl
        | none => cases call.fallback? <;> rfl

/-- The text that is expanded in the place of a reference: the value of the variable, or else the
fallback. -/
def replacement? (text : List Char) : Option (List Char) :=
  (Call.parse? text).bind fun call =>
    ((r.lookup? (referredName call)).map fun v => v.value.toList).or call.fallback?

/-- A reference comes to nothing without a replacement, and to a cycle if its name is on the stack; or
it comes to the value of a variable, with the name on the stack, or to the fallback. -/
theorem target_cases (stack : List String) (text : List Char) :
    (r.target stack text = .nothing ∧ r.replacement? text = none) ∨
    (r.target stack text = .cycle ∧ ∃ name ∈ stack, RefersTo text name) ∨
    (∃ name v, r.lookup? name = some v ∧ name ∉ stack ∧
      r.target stack text = .expansion ⟨name :: stack, v.value.toList⟩ ∧
      r.replacement? text = some v.value.toList) ∨
    ∃ call fallback, Call.parse? text = some call ∧ call.fallback? = some fallback ∧
      r.target stack text = .expansion ⟨stack, fallback⟩ ∧ r.replacement? text = some fallback := by
  rw [target, replacement?]
  cases hcall : Call.parse? text with
  | none => exact .inl ⟨rfl, rfl⟩
  | some call =>
      dsimp only [Option.bind_some]
      by_cases hstack : referredName call ∈ stack
      case pos => exact .inr (.inl ⟨if_pos hstack, _, hstack, call, hcall, rfl⟩)
      case neg =>
        rw [if_neg hstack]
        cases hlookup : r.lookup? (referredName call) with
        | some v => exact .inr (.inr (.inl ⟨_, v, hlookup, hstack, rfl, rfl⟩))
        | none =>
            cases hfallback : call.fallback? with
            | none => exact .inl ⟨rfl, rfl⟩
            | some fallback => exact .inr (.inr (.inr ⟨call, fallback, rfl, hfallback, rfl, rfl⟩))

/-- Whether an expansion comes to another one for a reference of its value, however deep it is. -/
def LeadsTo (now next : Expansion) : Prop :=
  ∃ text, .reference text ∈ segments now.value ∧ r.target now.stack text = .expansion next

/-- Whether an expansion, which is not too deep, goes on with another one. -/
def Enters (now next : Expansion) : Prop := now.stack.length ≤ r.maxDepth ∧ r.LeadsTo now next

/-- Whether an expansion goes on with the value of a variable that is not being expanded yet. -/
def EntersVariable (now next : Expansion) : Prop :=
  ∃ name v, r.lookup? name = some v ∧ name ∉ now.stack ∧ next = ⟨name :: now.stack, v.value.toList⟩

/-- Whether an expansion goes on with the fallback of a reference of its value. -/
def EntersFallback (now next : Expansion) : Prop :=
  ∃ text call fallback, .reference text ∈ segments now.value ∧ Call.parse? text = some call ∧
    call.fallback? = some fallback ∧ next = ⟨now.stack, fallback⟩

variable {r} {now next : Expansion}

theorem LeadsTo.cases (h : r.LeadsTo now next) :
    r.EntersVariable now next ∨ EntersFallback now next := by
  obtain ⟨text, hmem, htarget⟩ := h
  rcases r.target_cases now.stack text with ⟨hnothing, -⟩ | ⟨hcycle, -⟩ |
    ⟨name, v, hlookup, hfresh, hnext, -⟩ | ⟨call, fallback, hcall, hfallback, hnext, -⟩
  · exact absurd (hnothing.symm.trans htarget) nofun
  · exact absurd (hcycle.symm.trans htarget) nofun
  · exact .inl ⟨name, v, hlookup, hfresh, Target.expansion.inj (htarget.symm.trans hnext)⟩
  · exact .inr ⟨text, call, fallback, hmem, hcall, hfallback,
      Target.expansion.inj (htarget.symm.trans hnext)⟩

/-! ## Steps -/

/-- In how many places `var(` stands in the values of all variables. -/
def valuesVarCount (r : Resolver) : Nat :=
  ((r.scopes.flatMap Assoc.values).map fun v => Segment.varCount v.value.toList).sum

theorem varCount_le_of_lookup? {name : String} {v : Variable} (h : r.lookup? name = some v) :
    Segment.varCount v.value.toList ≤ r.valuesVarCount := by
  obtain ⟨s, hs, hv⟩ := List.exists_of_findSome?_eq_some h
  have hvalues : v ∈ s.values := List.mem_map.mpr ⟨_, Assoc.get?_eq_some_iff.mp hv, rfl⟩
  exact List.le_sum_of_mem (List.mem_map.mpr ⟨v, List.mem_flatMap.mpr ⟨s, hs, hvalues⟩, rfl⟩)

/-- Steps that are enough for an expansion: as many as `var(` stands in places of the text, and for each
variable that may still be put on the stack as many as there are places in all values. -/
def stepsFor (r : Resolver) (now : Expansion) : Nat :=
  (r.maxDepth + 1 - now.stack.length) * (r.valuesVarCount + 1) + Segment.varCount now.value + 1

/-- Every expansion that is entered needs fewer steps. -/
theorem Enters.stepsFor_lt (h : r.Enters now next) : r.stepsFor next < r.stepsFor now := by
  have hdepth := h.1
  rcases h.2.cases with ⟨name, v, hlookup, -, rfl⟩ | ⟨text, call, fallback, hmem, hcall, hfallback, rfl⟩
  · have hcount := varCount_le_of_lookup? hlookup
    obtain ⟨left, hleft⟩ : ∃ left, r.maxDepth + 1 - now.stack.length = left + 1 :=
      ⟨r.maxDepth - now.stack.length, by omega⟩
    have hnext : r.maxDepth + 1 - (now.stack.length + 1) = left := by omega
    simp only [stepsFor, List.length_cons, hleft, hnext, Nat.add_mul]
    omega
  · have hcount := varCount_fallback_lt hmem hcall hfallback
    simp only [stepsFor]
    omega

/-- So does what follows a reference. -/
theorem stepsFor_rest_lt {stack : List String} {value head tail call rest : List Char}
    (hfind : Segment.find? value = some (head, tail))
    (hcall : Segment.splitCall? tail = some (call, rest)) :
    r.stepsFor ⟨stack, rest⟩ < r.stepsFor ⟨stack, value⟩ := by
  have hcount := varCount_rest_lt hfind hcall
  simp only [stepsFor]
  omega

/-- There is no endless chain of expansions. -/
theorem wellFounded_enters (r : Resolver) : WellFounded fun next now => r.Enters now next :=
  Subrelation.wf (fun h => h.stepsFor_lt) (InvImage.wf r.stepsFor Nat.lt_wfRel.wf)

/-! ## Stacks -/

theorem LeadsTo.nodup (h : r.LeadsTo now next) (hnow : now.stack.Nodup) : next.stack.Nodup := by
  rcases h.cases with ⟨name, v, -, hfresh, rfl⟩ | ⟨text, call, fallback, -, -, -, rfl⟩
  · exact List.nodup_cons.mpr ⟨hfresh, hnow⟩
  · exact hnow

theorem Enters.length_le (h : r.Enters now next) : next.stack.length ≤ r.maxDepth + 1 := by
  have hdepth := h.1
  rcases h.2.cases with ⟨name, v, -, -, rfl⟩ | ⟨text, call, fallback, -, -, -, rfl⟩
  · exact Nat.succ_le_succ hdepth
  · exact Nat.le_succ_of_le hdepth

/-! ## Expansion in steps -/

/-- Expands a value in a limited number of steps, one reference at a time.  `none` says that the steps
did not suffice. -/
def expandWithin? (r : Resolver) :
    Nat → List String → List Char → ExceptT ExpansionFailure Option (List Char)
  | 0, _, _ => ExceptT.mk none
  | steps + 1, stack, value =>
    if r.maxDepth < stack.length then throw .tooDeep
    else
      match Segment.find? value with
      | none => pure value
      | some (head, tail) =>
        match Segment.splitCall? tail with
        | none => pure value
        | some (call, rest) => do
          let text ← (r.target stack call).answer fun next =>
            expandWithin? r steps next.stack next.value
          let more ← expandWithin? r steps stack rest
          pure (head ++ text ++ more)

/-- Enough steps lead to the expansion. -/
theorem expandWithin?_of_stepsFor_le {steps : Nat} {stack : List String} {value : List Char}
    (h : r.stepsFor ⟨stack, value⟩ ≤ steps) :
    (r.expandWithin? steps stack value).run = some (r.expand stack value) := by
  induction steps generalizing stack value with
  | zero => exact absurd h (Nat.not_succ_le_zero _)
  | succ steps ih =>
      rw [expandWithin?]
      split
      case isTrue hdeep =>
        rw [expand_eq, if_pos hdeep]
        rfl
      case isFalse hdeep =>
        have hdepth : stack.length ≤ r.maxDepth := Nat.not_lt.mp hdeep
        cases hfind : Segment.find? value with
        | none =>
            rw [expand_of_find?_eq_none r hfind hdepth]
            rfl
        | some found =>
            obtain ⟨head, tail⟩ := found
            cases hcall : Segment.splitCall? tail with
            | none =>
                rw [expand_of_unclosed r hdepth hfind hcall]
                simp only [hcall]
                rfl
            | some split =>
                obtain ⟨call, rest⟩ := split
                have hmem : .reference call ∈ segments value := by
                  rw [segments_of_call hfind hcall]
                  simp
                have htext : ((r.target stack call).answer fun next =>
                    r.expandWithin? steps next.stack next.value).run =
                    some (r.expandReference stack call) := by
                  rw [expandReference_eq]
                  cases htarget : r.target stack call with
                  | nothing => rfl
                  | cycle => rfl
                  | expansion next =>
                      have henters : r.Enters ⟨stack, value⟩ next := ⟨hdepth, call, hmem, htarget⟩
                      exact ih (Nat.le_of_lt_succ (Nat.lt_of_lt_of_le henters.stepsFor_lt h))
                have hmore : (r.expandWithin? steps stack rest).run = some (r.expand stack rest) :=
                  ih (Nat.le_of_lt_succ (Nat.lt_of_lt_of_le (stepsFor_rest_lt hfind hcall) h))
                simp only [hcall]
                rw [ExceptT.run_bind, htext, expand_of_call r hdepth hfind hcall]
                cases r.expandReference stack call with
                | error failure => rfl
                | ok text =>
                    simp only [ExceptT.run_bind, hmore]
                    cases r.expand stack rest <;> rfl

/-- Substitutes in a limited number of steps. -/
def substituteWithin? (r : Resolver) (steps : Nat) (value : String) : Option String :=
  if mentionsVar value.toList then (r.expandWithin? steps [] value.toList).run.map outcome
  else some value

theorem substituteWithin?_of_stepsFor_le {steps : Nat} {value : String}
    (h : r.stepsFor ⟨[], value.toList⟩ ≤ steps) :
    r.substituteWithin? steps value = some (r.substitute value) := by
  rw [substituteWithin?, substitute, expandWithin?_of_stepsFor_le h]
  split
  · rw [Option.map_some]
    rfl
  · rfl

/-- Substitution ends, for all variables, values and bounds.  The stacks on the way have no name twice
and at most one more than the bound; every expansion that is entered has a longer stack, or fewer
places where `var(` stands; no chain of them is endless; and a number of steps that is known in advance
is enough for the answer. -/
theorem substitute_terminates (r : Resolver) (value : String) :
    (∀ now, Relation.ReflTransGen r.Enters ⟨[], value.toList⟩ now →
      now.stack.Nodup ∧ now.stack.length ≤ r.maxDepth + 1) ∧
    (∀ now next, r.Enters now next → r.EntersVariable now next ∨
      EntersFallback now next ∧ Segment.varCount next.value < Segment.varCount now.value) ∧
    WellFounded (fun next now => r.Enters now next) ∧
    ∀ steps, r.stepsFor ⟨[], value.toList⟩ ≤ steps →
      r.substituteWithin? steps value = some (r.substitute value) := by
  refine ⟨?reached, ?entered, wellFounded_enters r, fun steps h => substituteWithin?_of_stepsFor_le h⟩
  case reached =>
    intro now hreach
    induction hreach with
    | refl => exact ⟨List.nodup_nil, Nat.zero_le _⟩
    | tail _ henters ih => exact ⟨henters.2.nodup ih.1, henters.length_le⟩
  case entered =>
    intro now next henters
    refine henters.2.cases.imp_right fun hfallback => ⟨hfallback, ?_⟩
    obtain ⟨text, call, fallback, hmem, hcall, htext, rfl⟩ := hfallback
    exact varCount_fallback_lt hmem hcall htext

/-- Two variables that refer to each other, reached through a fallback. -/
theorem substitute_terminates_circle :
    let r : Resolver :=
      { scopes := [(Assoc.empty.insert "--a" ⟨"--a", "var(--b, x)", .zero, 0⟩).insert "--b"
          ⟨"--b", "var(--a)", .zero, 0⟩] }
    let value := "var(--m, var(--a))"
    let first : Expansion := ⟨[], value.toList⟩
    let second : Expansion := ⟨[], "var(--a)".toList⟩
    let third : Expansion := ⟨["--a"], "var(--b, x)".toList⟩
    let fourth : Expansion := ⟨["--b", "--a"], "var(--a)".toList⟩
    (r.Enters first second ∧ r.Enters second third ∧ r.Enters third fourth) ∧
      (fourth.stack.Nodup ∧ fourth.stack.length ≤ r.maxDepth + 1) ∧
      (r.EntersVariable first second ∨ EntersFallback first second ∧
        Segment.varCount second.value < Segment.varCount first.value) ∧
      r.stepsFor first ≤ 100 ∧ r.substituteWithin? 100 value = some (r.substitute value) := by
  intro r value first second third fourth
  have hsegments : ∀ now : Expansion, Segment.startsReference now.value = true →
      Segment.splitCall? now.value = some (now.value, []) → .reference now.value ∈ segments now.value := by
    intro now hstart hcall
    rw [segments_call hstart hcall]
    simp
  have hfirst : r.Enters first second :=
    ⟨by decide, value.toList, hsegments first (by decide) (by decide), by decide⟩
  have hsecond : r.Enters second third :=
    ⟨by decide, "var(--a)".toList, hsegments second (by decide) (by decide), by decide⟩
  have hthird : r.Enters third fourth :=
    ⟨by decide, "var(--b, x)".toList, hsegments third (by decide) (by decide), by decide⟩
  obtain ⟨hstacks, hentered, -, hsteps⟩ := substitute_terminates r value
  have hreach : Relation.ReflTransGen r.Enters first fourth :=
    ((Relation.ReflTransGen.single hfirst).tail hsecond).tail hthird
  have hbound : r.stepsFor first ≤ 100 := by decide
  exact ⟨⟨hfirst, hsecond, hthird⟩, hstacks fourth hreach, hentered first second hfirst, hbound,
    hsteps 100 hbound⟩

end Resolver

end WidgetStyle
