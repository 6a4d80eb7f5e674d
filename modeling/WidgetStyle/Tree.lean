import WidgetStyle.Selector.PseudoClass

/-!
# WidgetStyle.Tree — the tree of styled nodes

Nodes are numbered in creation order and never removed.  There are 2^32 numbers: nodes that are added
when all are taken get the last one again, which stays the number of an older node.  Each node knows
its parent and its children; the two are kept in step by `addChild` and `move`.  Nothing in the type
forbids a node below itself: that is the predicate `IsForest`, which every operation keeps as long as
numbers are left and no node is moved below itself.

Ways through the tree are lists: `ancestors` from the parent upwards, `earlierSiblings` and
`laterSiblings` away from the node.  A walk upwards makes at most as many steps as there are
nodes, which in a forest is no restriction.
-/

namespace WidgetStyle

/-- The number of a node, counted from zero in creation order. -/
abbrev NodeId := Nat

/-- A node: what selectors can ask about it, and its place in the tree. -/
structure Node where
  tag : String
  id? : Option String := none
  classes : List String := []
  attributes : List (String × String) := []
  state : PseudoSet := .empty
  parent : Option NodeId := none
  children : List NodeId := []
  deriving DecidableEq, Repr, Inhabited

/-- Nodes in creation order. -/
structure Tree where
  nodes : Array Node
  deriving DecidableEq, Repr, Inhabited

namespace Tree

/-- The tree without nodes. -/
def empty : Tree := ⟨#[]⟩

/-- The number of nodes. -/
def size (t : Tree) : Nat := t.nodes.size

/-- The last number of a node. -/
def numberLimit : NodeId := UInt32.size - 1

/-- The number that the next node gets. -/
def nextNumber (t : Tree) : NodeId := min t.size numberLimit

/-- The node of a number. -/
def node? (t : Tree) (n : NodeId) : Option Node := t.nodes[n]?

/-- The tree with one node changed; unknown numbers change nothing. -/
def modify (t : Tree) (n : NodeId) (f : Node → Node) : Tree := ⟨t.nodes.modify n f⟩

/-! ## Growing and rearranging -/

/-- Adds a node without parent; its number is `nextNumber`. -/
def addRoot (t : Tree) (tag : String) : Tree := ⟨t.nodes.push { tag }⟩

/-- Adds a node as the last child of `parent`; its number is `nextNumber`. -/
def addChild (t : Tree) (parent : NodeId) (tag : String) : Tree :=
  modify ⟨t.nodes.push { tag, parent := some parent }⟩ parent fun p =>
    { p with children := p.children ++ [t.nextNumber] }

/-- The parent of a node. -/
def parent? (t : Tree) (n : NodeId) : Option NodeId := (t.node? n).bind Node.parent

/-- The children of a node, in order. -/
def children (t : Tree) (n : NodeId) : List NodeId := ((t.node? n).map Node.children).getD []

/-- Moves a node to the end of another node's children. -/
def move (t : Tree) (n parent : NodeId) : Tree :=
  let detached := match t.parent? n with
    | some old => t.modify old fun p => { p with children := p.children.filter (· != n) }
    | none => t
  let attached := detached.modify parent fun p => { p with children := p.children ++ [n] }
  attached.modify n fun x => { x with parent := some parent }

/-! ## What selectors ask about -/

/-- Gives a node its id. -/
def setId (t : Tree) (n : NodeId) (value : String) : Tree :=
  t.modify n fun x => { x with id? := some value }

/-- Adds a class that the node does not have yet. -/
def addClass (t : Tree) (n : NodeId) (name : String) : Tree :=
  t.modify n fun x =>
    if x.classes.contains name then x else { x with classes := x.classes ++ [name] }

/-- Takes a class away. -/
def removeClass (t : Tree) (n : NodeId) (name : String) : Tree :=
  t.modify n fun x => { x with classes := x.classes.filter (· != name) }

/-- Writes a value into a list of named values, replacing the first of that name in place. -/
def writeAttribute (name value : String) : List (String × String) → List (String × String)
  | [] => [(name, value)]
  | a :: more =>
    if a.1 = name then (name, value) :: more else a :: writeAttribute name value more

/-- Sets an attribute. -/
def setAttribute (t : Tree) (n : NodeId) (name value : String) : Tree :=
  t.modify n fun x => { x with attributes := writeAttribute name value x.attributes }

/-- Sets or clears a state of a node. -/
def setState (t : Tree) (n : NodeId) (p : PseudoClass) (on : Bool) : Tree :=
  t.modify n fun x => { x with state := x.state.set p on }

/-- The tag of a node; empty for unknown numbers. -/
def tag (t : Tree) (n : NodeId) : String := ((t.node? n).map Node.tag).getD ""

/-- The id of a node. -/
def idOf? (t : Tree) (n : NodeId) : Option String := (t.node? n).bind Node.id?

/-- Whether the node carries the class. -/
def hasClass (t : Tree) (n : NodeId) (name : String) : Bool :=
  (t.node? n).any fun x => x.classes.contains name

/-- The value of an attribute. -/
def attribute? (t : Tree) (n : NodeId) (name : String) : Option String :=
  (t.node? n).bind fun x => x.attributes.lookup name

/-- The states of a node. -/
def state (t : Tree) (n : NodeId) : PseudoSet := ((t.node? n).map Node.state).getD .empty

/-! ## Ways through the tree -/

/-- The ancestors met within a number of steps, from the parent upwards. -/
def ancestorsWithin (t : Tree) : Nat → NodeId → List NodeId
  | 0, _ => []
  | steps + 1, n =>
    match t.parent? n with
    | none => []
    | some p => p :: ancestorsWithin t steps p

/-- The ancestors of a node, from its parent upwards. -/
def ancestors (t : Tree) (n : NodeId) : List NodeId := t.ancestorsWithin t.size n

/-- The nodes from the root down to `n`, which is the last. -/
def pathFromRoot (t : Tree) (n : NodeId) : List NodeId := (t.ancestors n).reverse ++ [n]

/-- The children of the parent; a root has no siblings. -/
def family (t : Tree) (n : NodeId) : List NodeId :=
  match t.parent? n with
  | some p => t.children p
  | none => []

/-- The siblings before a node, the nearest first. -/
def earlierSiblings (t : Tree) (n : NodeId) : List NodeId :=
  if n ∈ t.family n then ((t.family n).takeWhile (· != n)).reverse else []

/-- The siblings after a node, the nearest first. -/
def laterSiblings (t : Tree) (n : NodeId) : List NodeId :=
  ((t.family n).dropWhile (· != n)).drop 1

/-- The sibling directly before a node. -/
def previousSibling? (t : Tree) (n : NodeId) : Option NodeId := (t.earlierSiblings n).head?

/-- The sibling directly after a node. -/
def nextSibling? (t : Tree) (n : NodeId) : Option NodeId := (t.laterSiblings n).head?

/-- Whether `n` is `top` or below it. -/
def isBelow (t : Tree) (top n : NodeId) : Bool := n == top || (t.ancestors n).contains top

/-! ## Forests -/

/-- Parents and children agree, each child stands once, and every walk upwards ends. -/
structure IsForest (t : Tree) : Prop where
  parent_lt : ∀ n p, t.parent? n = some p → p < t.size
  child_iff : ∀ n p, n ∈ t.children p ↔ t.parent? n = some p
  nodup_children : ∀ p, (t.children p).Nodup
  ends : ∃ height : NodeId → Nat, ∀ n p, t.parent? n = some p → height p < height n

end Tree

end WidgetStyle
