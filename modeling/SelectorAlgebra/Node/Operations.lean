import SelectorAlgebra.Fault

/-
  Chains as nodes and back. A chain becomes a flat collection in which selectors and combinators
  take turns: `.a > .b .c` is `[.a, ">", .b, " ", .c]`. A combinator that begins the chain or
  dangles off its end stays where it is, but the descendant combinator of the last link is left
  out, so no collection that comes of a chain ends in one.

  Every compound selector that goes over is copied, and the copies are counted as they are made,
  so those made before a failure count too.

  The operations on collections are here as well: adding one to another, and looking for a sequence
  among candidates. What is not a collection is refused.
-/

namespace SelectorAlgebra

/-- A computation that copies compound selectors and counts the copies. -/
abbrev Copying := StateM Nat

/-- A computation that copies compound selectors and may find that something is malformed. -/
abbrev Converting := ExceptT Malformation Copying

/-- A copy of a compound selector, which counts as one. -/
def Compound.copy (c : Compound) : Copying Compound := fun count => (c, count + 1)

/-! ## Copies of nodes -/

mutual

/-- A copy of a node, with new compound selectors throughout. -/
def Node.copy : Node → Copying Node
  | .selector c => return .selector (← c.copy)
  | .combinator k => return .combinator k
  | .collection nodes => return .collection (← Node.copies nodes)
  | .nil => return .nil

/-- Copies of the nodes of a list, from left to right. -/
def Node.copies : List Node → Copying (List Node)
  | [] => return []
  | n :: ns => return (← n.copy) :: (← Node.copies ns)

end

/-! ## Chains to nodes -/

/-- The combinator of a link, unless it is the descendant combinator at the end. -/
def combinatorNodes (k : Combinator) (atEnd : Bool) : List Node :=
  if atEnd && k == .descendant then [] else [.combinator k]

/-- The nodes for the links of `chain` from link `number` on. Only the first link may lack a
compound selector. -/
def nodesOfJoints (chain : Chain) (number : Nat) : List Joint → Converting (List Node)
  | [] => return []
  | (some head, k) :: js => do
    let copied ← head.copy
    let nodes ← nodesOfJoints chain (number + 1) js
    return .selector copied :: (combinatorNodes k js.isEmpty ++ nodes)
  | (none, k) :: js =>
    if number = 1 then do
      let nodes ← nodesOfJoints chain (number + 1) js
      return combinatorNodes k js.isEmpty ++ nodes
    else throw (.headlessLink number chain)

/-- The flat collection that a chain becomes. -/
def Chain.toNode (c : Chain) : Converting Node := do
  return .collection (← nodesOfJoints c 1 c.joints)

/-! ## Nodes to chains -/

/-- The links that nodes describe, the first of which is at `position`. A selector must come
first, and selectors and combinators take turns. -/
def jointsOfNodes (position : Nat) : List Node → Converting (List Joint)
  | [] => return []
  | [.selector c] => do
    let copied ← c.copy
    return [(some copied, .descendant)]
  | .selector c :: .combinator k :: nodes => do
    let copied ← c.copy
    let joints ← jointsOfNodes (position + 2) nodes
    return (some copied, k) :: joints
  | .selector c :: other :: _ => do
    let _ ← c.copy
    throw (.combinatorExpected (position + 1) other.kind)
  | other :: _ => throw (.selectorExpected position other.kind)

/-- The links that the nodes of a collection describe. A combinator may lead them. -/
def jointsOfCollection : List Node → Converting (List Joint)
  | .combinator k :: nodes => do
    let joints ← jointsOfNodes 2 nodes
    return (none, k) :: joints
  | nodes => jointsOfNodes 1 nodes

/-- Whether nodes end in a descendant combinator. -/
def endsInDescendant (nodes : List Node) : Bool :=
  (nodes.getLast?.bind Node.combinator?) == some .descendant

/-- The chain that a flat collection describes. -/
def Node.toChain : Node → Converting Chain
  | .collection nodes => do
    let joints ← jointsOfCollection nodes
    if endsInDescendant nodes then throw .danglingDescendant
    return .ofJoints joints
  | n => throw (.notCollection n.kind)

/-! ## Collections -/

namespace Node

/-- The nodes of a collection, which `op` asks for. -/
def nodesFor (op : CollectionOp) : Node → Except InternalFault (List Node)
  | collection nodes => .ok nodes
  | n => .error (.notCollection op n.kind)

/-- The nodes of `a` and after them those of `b`. -/
def plus (a b : Node) : Except InternalFault Node := do
  let bs ← b.nodesFor .plus
  let as ← a.nodesFor .plus
  return collection (as ++ bs)

/-- Whether one of the nodes of `candidates` is equal to `sought`. An empty collection is never
found. -/
def contains (candidates sought : Node) (ordered : Bool) : Except InternalFault Bool := do
  let nodes ← candidates.nodesFor .contains
  let parts ← sought.nodesFor .contains
  return !parts.isEmpty && nodes.any fun n => n.equal ordered sought

theorem plus_collection (as bs : List Node) :
    plus (collection as) (collection bs) = .ok (collection (as ++ bs)) := rfl

theorem contains_collection (ns parts : List Node) (ordered : Bool) :
    contains (collection ns) (collection parts) ordered =
      .ok (!parts.isEmpty && ns.any fun n => n.equal ordered (collection parts)) := rfl

end Node

end SelectorAlgebra
