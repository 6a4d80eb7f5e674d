import WidgetStyle.Text

/-!
# WidgetStyle.Selector.PseudoClass — the closed set of pseudo-classes

Thirteen pseudo-classes exist.  Five of them follow from the shape of the tree; the others are
states of a node.  A `PseudoSet` holds any of them as a bit mask; `contains_insert` and
`contains_erase` say what its operations do to membership.
-/

namespace WidgetStyle

/-- The pseudo-classes, in declaration order. -/
inductive PseudoClass where
  | hover | focus | focusWithin | selected | pressed | disabled | enabled | checked
  | firstChild | lastChild | onlyChild | root | empty
  deriving DecidableEq, Repr

namespace PseudoClass

/-- Every pseudo-class in declaration order. -/
def all : List PseudoClass :=
  [hover, focus, focusWithin, selected, pressed, disabled, enabled, checked, firstChild,
    lastChild, onlyChild, root, empty]

theorem mem_all (p : PseudoClass) : p ∈ all := by cases p <;> decide

/-- The name, without the colon. -/
def name : PseudoClass → String
  | hover => "hover"
  | focus => "focus"
  | focusWithin => "focus-within"
  | selected => "selected"
  | pressed => "pressed"
  | disabled => "disabled"
  | enabled => "enabled"
  | checked => "checked"
  | firstChild => "first-child"
  | lastChild => "last-child"
  | onlyChild => "only-child"
  | root => "root"
  | empty => "empty"

/-- The pseudo-class of a name, in any letter case.  `active` is another name of `pressed`. -/
def ofName? (s : String) : Option PseudoClass :=
  let s := Text.lower s
  if s = "active" then some pressed else all.find? fun p => p.name = s

/-- Whether the class follows from the shape of the tree and not from a node's state. -/
def isStructural : PseudoClass → Bool
  | firstChild | lastChild | onlyChild | root | empty => true
  | _ => false

/-- The position in declaration order. -/
def index : PseudoClass → Fin 13
  | hover => 0
  | focus => 1
  | focusWithin => 2
  | selected => 3
  | pressed => 4
  | disabled => 5
  | enabled => 6
  | checked => 7
  | firstChild => 8
  | lastChild => 9
  | onlyChild => 10
  | root => 11
  | empty => 12

theorem index_inj {p q : PseudoClass} : p.index = q.index ↔ p = q := by
  cases p <;> cases q <;> decide

end PseudoClass

/-! ## Sets -/

/-- A set of pseudo-classes, one bit for each. -/
structure PseudoSet where
  mask : BitVec 13
  deriving DecidableEq, Repr

namespace PseudoSet

/-- The set without members. -/
def empty : PseudoSet := ⟨0⟩

instance : Inhabited PseudoSet := ⟨empty⟩

/-- The mask of a single pseudo-class. -/
def bit (p : PseudoClass) : BitVec 13 := BitVec.twoPow 13 p.index

/-- Membership. -/
def contains (s : PseudoSet) (p : PseudoClass) : Bool := s.mask.getLsbD p.index

/-- The set with `p`. -/
def insert (s : PseudoSet) (p : PseudoClass) : PseudoSet := ⟨s.mask ||| bit p⟩

/-- The set without `p`. -/
def erase (s : PseudoSet) (p : PseudoClass) : PseudoSet := ⟨s.mask &&& ~~~bit p⟩

/-- Inserts or erases `p`. -/
def set (s : PseudoSet) (p : PseudoClass) (on : Bool) : PseudoSet :=
  if on then s.insert p else s.erase p

/-- Whether there is no member. -/
def isEmpty (s : PseudoSet) : Bool := s.mask = 0

/-- The members in declaration order. -/
def toList (s : PseudoSet) : List PseudoClass := PseudoClass.all.filter s.contains

/-- The set of the members of a list. -/
def ofList (ps : List PseudoClass) : PseudoSet := ps.foldl insert empty

theorem contains_insert (s : PseudoSet) (p q : PseudoClass) :
    (s.insert p).contains q = (s.contains q || decide (q = p)) := by
  simp [contains, insert, bit, Fin.val_inj, PseudoClass.index_inj]

theorem contains_erase (s : PseudoSet) (p q : PseudoClass) :
    (s.erase p).contains q = (s.contains q && !decide (q = p)) := by
  simp [contains, erase, bit, Fin.val_inj, PseudoClass.index_inj]

@[simp] theorem contains_empty (p : PseudoClass) : empty.contains p = false := by
  simp [contains, empty]

@[simp] theorem mem_toList {s : PseudoSet} {p : PseudoClass} :
    p ∈ s.toList ↔ s.contains p = true := by
  simp [toList, PseudoClass.mem_all]

end PseudoSet

end WidgetStyle
