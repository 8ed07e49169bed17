import SelectorAlgebra.Chain.Basic

/-
  Nodes: the form in which selectors are taken apart and put together. A combinator is a node
  of its own, collections nest to any depth, and an absent value differs from an empty one.

  Nodes are equal in two ways. In both the trees have one shape and the same combinators. Compound
  selectors are equal as lists if their order counts, and as sets otherwise.
-/

namespace SelectorAlgebra

/-- A compound selector, a combinator, a sequence of nodes, or nothing. -/
inductive Node where
  | selector (c : Compound)
  | combinator (k : Combinator)
  /-- Nodes in order. They are never flattened. -/
  | collection (nodes : List Node)
  /-- No value. -/
  | nil
  deriving Repr

/-- What a node is, without what it holds. -/
inductive NodeKind where
  | selector
  | combinator
  | collection
  | nil
  deriving DecidableEq, Repr

def NodeKind.text : NodeKind → String
  | selector => "selector"
  | combinator => "combinator"
  | collection => "collection"
  | nil => "nil"

namespace Node

def kind : Node → NodeKind
  | selector _ => .selector
  | combinator _ => .combinator
  | collection _ => .collection
  | nil => .nil

def selector? : Node → Option Compound
  | selector c => some c
  | _ => none

def combinator? : Node → Option Combinator
  | combinator k => some k
  | _ => none

def nodes? : Node → Option (List Node)
  | collection nodes => some nodes
  | _ => none

/-! ## Size -/

mutual

/-- The number of compound selectors in a node, at any depth. -/
def selectorCount : Node → Nat
  | selector _ => 1
  | combinator _ => 0
  | collection nodes => selectorCounts nodes
  | nil => 0

/-- The number of compound selectors in all nodes of a list. -/
def selectorCounts : List Node → Nat
  | [] => 0
  | n :: ns => n.selectorCount + selectorCounts ns

end

/-! ## Writing -/

mutual

/-- A collection is written in brackets, and a combinator in quotes. -/
def text : Node → String
  | selector c => c.text
  | combinator k => "\"" ++ k.text ++ "\""
  | collection nodes => "[" ++ String.intercalate ", " (texts nodes) ++ "]"
  | nil => "nil"

/-- The texts of the nodes of a list. -/
def texts : List Node → List String
  | [] => []
  | n :: ns => n.text :: texts ns

end

/-! ## Equality -/

mutual

/-- Whether two nodes are equal; `ordered` says whether the order within compounds counts. -/
def equal (ordered : Bool) : Node → Node → Bool
  | selector a, selector b => if ordered then a == b else a.equivalent b
  | combinator a, combinator b => a == b
  | collection as, collection bs => allEqual ordered as bs
  | nil, nil => true
  | _, _ => false

/-- Whether two lists of nodes are equal member by member. -/
def allEqual (ordered : Bool) : List Node → List Node → Bool
  | [], [] => true
  | a :: as, b :: bs => a.equal ordered b && allEqual ordered as bs
  | _, _ => false

end

/-! ## Nodes within nodes -/

/-- The node at a path of places within collections, counted from zero. -/
def at? : Node → List Nat → Option Node
  | n, [] => some n
  | collection nodes, i :: path => nodes[i]? >>= fun n => n.at? path
  | _, _ :: _ => none

/-- Puts `new` in the place of the node at a path. Nothing changes if there is none. -/
def replace : Node → Node → List Nat → Node
  | _, new, [] => new
  | collection nodes, new, i :: path => collection (nodes.modify i fun n => n.replace new path)
  | n, _, _ :: _ => n

/-- Adds a node to the end of a collection. -/
def push? (new : Node) : Node → Option Node
  | collection nodes => some (collection (nodes ++ [new]))
  | _ => none

/-- Takes the last node off a collection; gives that node and the rest. -/
def pop? : Node → Option (Node × Node)
  | collection nodes => nodes.getLast?.map fun last => (last, collection nodes.dropLast)
  | _ => none

/-- Puts another compound selector in the place of one. -/
def setSelector? (c : Compound) : Node → Option Node
  | selector _ => some (selector c)
  | _ => none

/-- A node in as many collections of one. -/
def nested (n : Node) : Nat → Node
  | 0 => n
  | times + 1 => collection [n.nested times]

end Node

end SelectorAlgebra
