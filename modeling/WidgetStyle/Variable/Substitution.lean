import WidgetStyle.Variable.Basic
import WidgetStyle.Variable.Reference

/-!
# WidgetStyle.Variable.Substitution — replacing references by values

`Resolver.expand` replaces every reference of a value: by the expanded value of the variable in
the first scope that declares it, else by its expanded fallback, else by nothing.  The names being
expanded are kept on a stack; meeting one of them again, or a stack deeper than the bound, is a
failure of the whole value, which `Resolver.substitute` turns into the empty text.  `expand_eq`
states one step of it.

Expansion ends for every input: each step either makes the stack longer, and its length is
bounded, or goes on with a fallback, which holds fewer opening parentheses than the value.
-/

namespace WidgetStyle

open Text Value

/-- Why a value has no expansion. -/
inductive ExpansionFailure where
  | cycle
  | tooDeep
  deriving DecidableEq, Repr

/-- The bound on nested expansion that holds unless another one is given. -/
def defaultDepth : Nat := 16

/-- The scopes that references are looked up in, the nearest first, and the bound on nested
expansion. -/
structure Resolver where
  scopes : List Scope
  maxDepth : Nat := defaultDepth

namespace Resolver

/-- The variable of the nearest scope that has one of this name. -/
def lookup? (r : Resolver) (name : String) : Option Variable :=
  r.scopes.findSome? fun s => s.get? name

/-- The name that a call refers to. -/
def referredName (call : Call) : String := trimmed ((call.argument? 0).getD "")

/-- Replaces the references of a value while the variables on the stack are being expanded. -/
def expand (r : Resolver) (stack : List String) (value : List Char) :
    Except ExpansionFailure (List Char) :=
  if _hd : r.maxDepth < stack.length then .error .tooDeep
  else do
    let parts ← (segments value).attach.mapM fun segment =>
      match _hs : segment.1 with
      | .text cs => .ok cs
      | .reference text =>
        match _hp : Call.parse? text with
        | none => .ok []
        | some call =>
          if referredName call ∈ stack then .error .cycle
          else
            match r.lookup? (referredName call) with
            | some v => expand r (referredName call :: stack) v.value.toList
            | none =>
              match _hf : call.fallback? with
              | none => .ok []
              | some fallback => expand r stack fallback
    .ok parts.flatten
termination_by (r.maxDepth + 1 - stack.length, value.count '(')
decreasing_by
  · apply Prod.Lex.left
    simp only [List.length_cons]
    omega
  · apply Prod.Lex.right
    exact Nat.lt_of_lt_of_le (Call.count_fallback_lt _hp _hf)
      (count_reference_le (_hs ▸ segment.2) '(')

/-! ## One step of expansion -/

/-- What a reference stands for while the variables on the stack are being expanded. -/
def expandReference (r : Resolver) (stack : List String) (text : List Char) :
    Except ExpansionFailure (List Char) :=
  match Call.parse? text with
  | none => .ok []
  | some call =>
    if referredName call ∈ stack then .error .cycle
    else
      match r.lookup? (referredName call) with
      | some v => r.expand (referredName call :: stack) v.value.toList
      | none =>
        match call.fallback? with
        | none => .ok []
        | some fallback => r.expand stack fallback

/-- What a segment of a value stands for. -/
def expandSegment (r : Resolver) (stack : List String) : Segment →
    Except ExpansionFailure (List Char)
  | .text cs => .ok cs
  | .reference text => r.expandReference stack text

/-- A value expands segment by segment. -/
theorem expand_eq (r : Resolver) (stack : List String) (value : List Char) :
    r.expand stack value =
      if r.maxDepth < stack.length then .error .tooDeep
      else (do
        let parts ← (segments value).mapM (r.expandSegment stack)
        .ok parts.flatten) := by
  rw [expand]
  split
  · rfl
  · rw [List.mapM_subtype (g := r.expandSegment stack), List.unattach_attach]
    intro segment _
    cases segment with
    | text cs => rfl
    | reference text =>
      simp only [expandSegment, expandReference]
      split
      · rename_i hp
        rw [hp]
      · rename_i call hp
        rw [hp]
        dsimp only
        split
        · rfl
        · split
          · rfl
          · split
            · rename_i hf
              rw [hf]
            · rename_i fallback hf
              rw [hf]

/-! ## Substitution -/

/-- Whether a text has `var(` in it, in lower case. -/
def mentionsVar : List Char → Bool
  | [] => false
  | c :: cs => ['v', 'a', 'r', '('].isPrefixOf (c :: cs) || mentionsVar cs

/-- Replaces the references of a value.  A value in which `var(` does not occur in lower case is
left as it is; a value that cannot be expanded becomes empty. -/
def substitute (r : Resolver) (value : String) : String :=
  if mentionsVar value.toList then
    match r.expand [] value.toList with
    | .ok text => String.ofList text
    | .error _ => ""
  else value

end Resolver

end WidgetStyle
