import WidgetStyle.Source.Lexeme

/-!
# WidgetStyle.Source.Component — lexemes grouped by their brackets

A component is one lexeme, or a whole block: an opening lexeme, everything inside, and the closing
bracket.  Inside a block only the matching bracket closes it; other closing brackets are ordinary
content, and the end of the text closes everything.  Grouping is done one level at a time, so the
inside of a block stays a list of lexemes until somebody asks for its components.
-/

namespace WidgetStyle.Source

/-! ## Blocks -/

/-- The bracket that closes a block begun by this lexeme. -/
def Lexeme.opens (x : Lexeme) : Option Bracket :=
  match x.kind with
  | .opening b => some b
  | .function => some .round
  | _ => none

/-- How many lexemes lie inside a block, before the bracket that closes it.  The list names the
brackets still open, innermost first; the last of them is the block's own. -/
def insideExtent : List Bracket → List Lexeme → Nat
  | _, [] => 0
  | [], _ => 0
  | current :: outer, x :: xs =>
    match x.opens with
    | some b => insideExtent (b :: current :: outer) xs + 1
    | none =>
      if x.kind = .closing current then
        match outer with
        | [] => 0
        | _ :: _ => insideExtent outer xs + 1
      else insideExtent (current :: outer) xs + 1

/-- One lexeme, or a block with what is inside it and its closing bracket if it has one. -/
structure Component where
  head : Lexeme
  inside : List Lexeme
  closing : Option Lexeme
  deriving DecidableEq, Repr

/-- The characters of a component. -/
def Component.text (c : Component) : List Char :=
  c.head.text ++ c.inside.flatMap Lexeme.text ++ (c.closing.map Lexeme.text).getD []

/-- The characters of a run of components. -/
def sourceText (cs : List Component) : List Char := cs.flatMap Component.text

/-- The component at the front of `x :: xs`. -/
def firstComponent (x : Lexeme) (xs : List Lexeme) : Component :=
  match x.opens with
  | none => ⟨x, [], none⟩
  | some b =>
    let n := insideExtent [b] xs
    ⟨x, xs.take n, (xs.drop n).head?⟩

/-- How many lexemes a component has after its first. -/
def Component.tailSize (c : Component) : Nat := c.inside.length + c.closing.toList.length

/-- The components of a list of lexemes, after as many lexemes as the first argument says. -/
def componentsFrom : Nat → List Lexeme → List Component
  | _, [] => []
  | n + 1, _ :: xs => componentsFrom n xs
  | 0, x :: xs =>
    let c := firstComponent x xs
    c :: componentsFrom c.tailSize xs

/-- The components of a list of lexemes. -/
def components (xs : List Lexeme) : List Component := componentsFrom 0 xs

/-- The components of a text. -/
def componentsOf (text : List Char) : List Component := components (lexemes text)

/-! ## Kinds of components -/

/-- Whether the component is blank space or a comment. -/
def Component.isGap (c : Component) : Bool :=
  c.head.kind = .blank || c.head.kind = .comment

/-- Whether the component is a block in curly brackets. -/
def Component.isBody (c : Component) : Bool := c.head.kind = .opening .curly

/-- Whether the component is a semicolon. -/
def Component.isSemicolon (c : Component) : Bool := c.head.kind = .semicolon

/-- The components in front of the first that passes the test. -/
def before (stop : Component → Bool) (cs : List Component) : List Component :=
  cs.takeWhile fun c => !stop c

/-- The components from the first that passes the test onwards. -/
def onwards (stop : Component → Bool) (cs : List Component) : List Component :=
  cs.dropWhile fun c => !stop c

theorem length_onwards_le (stop : Component → Bool) (cs : List Component) :
    (onwards stop cs).length ≤ cs.length := (List.dropWhile_sublist _).length_le

/-- A step past the first component and up to a stop leaves a shorter list. -/
theorem length_drop_onwards_lt (stop : Component → Bool) (c : Component) (cs : List Component) :
    ((onwards stop cs).drop 1).length < (c :: cs).length := by
  have := length_onwards_le stop cs
  simp only [List.length_drop, List.length_cons]
  omega

/-! ## Nothing is lost -/

theorem componentsFrom_eq (n : Nat) (xs : List Lexeme) :
    componentsFrom n xs = components (xs.drop n) := by
  induction xs generalizing n with
  | nil => cases n <;> simp [components, componentsFrom]
  | cons x xs ih =>
    cases n with
    | zero => rfl
    | succ n => simpa [componentsFrom] using ih n

theorem components_cons (x : Lexeme) (xs : List Lexeme) :
    components (x :: xs)
      = firstComponent x xs :: components (xs.drop (firstComponent x xs).tailSize) := by
  rw [components, componentsFrom, componentsFrom_eq]

/-- The lexemes of a component in order. -/
def Component.lexemes (c : Component) : List Lexeme := c.head :: c.inside ++ c.closing.toList

/-- The first component takes a leading part of the lexemes. -/
theorem firstComponent_lexemes_append (x : Lexeme) (xs : List Lexeme) :
    (firstComponent x xs).lexemes ++ xs.drop (firstComponent x xs).tailSize = x :: xs := by
  unfold firstComponent
  cases x.opens with
  | none => simp [Component.lexemes, Component.tailSize]
  | some b =>
    simp only [Component.lexemes, Component.tailSize, List.cons_append, List.append_assoc,
      List.cons.injEq, true_and]
    by_cases h : insideExtent [b] xs < xs.length
    · rw [List.drop_eq_getElem_cons h]
      simp only [List.head?_cons, Option.toList_some, List.length_take, List.length_singleton,
        List.singleton_append, Nat.min_eq_left (Nat.le_of_lt h)]
      rw [← List.drop_eq_getElem_cons h, List.take_append_drop]
    · have h' : xs.length ≤ insideExtent [b] xs := by omega
      simp [List.drop_of_length_le h', List.take_of_length_le h']

/-- The lexemes of the components are the lexemes that were grouped. -/
theorem flatMap_lexemes_components (xs : List Lexeme) :
    (components xs).flatMap Component.lexemes = xs := by
  induction h : xs.length using Nat.strongRecOn generalizing xs with
  | ind n ih =>
    cases xs with
    | nil => rfl
    | cons x xs =>
      rw [components_cons, List.flatMap_cons, ih _ _ _ rfl, firstComponent_lexemes_append]
      subst h
      simp only [List.length_drop, List.length_cons]
      omega

end WidgetStyle.Source
