import SelectorAlgebra.Context

/-
  Commands: everything that can be asked of the library in the course of a pass. Chains and
  nodes are kept under names, and commands refer to them by name.
-/

namespace SelectorAlgebra.Session

/-- How to make a node. -/
inductive NodeTerm where
  | nil
  | combinator (k : Combinator)
  | selector (c : Compound)
  | collection (terms : List NodeTerm)
  /-- The node that is kept under a name. -/
  | kept (name : String)
  /-- The first selector of a text. -/
  | firstOf (text : String)
  /-- All of a text. -/
  | allOf (text : String)
  deriving Repr

/-- Changes to one link of a chain, made in the order of the fields. -/
structure LinkEdit where
  head : Option (Option Compound) := none
  combinator : Option Combinator := none
  /-- The chain to put behind the link, by its name, or nothing. -/
  tail : Option (Option String) := none
  /-- A simple selector to add to the compound selector of the link. -/
  added : Option Simple := none
  deriving Repr

inductive Command where
  | readChain (text target : String)
  /-- Reads what a chain is written as. -/
  | rereadChain (chain : String)
  | newChain (head : Option Compound) (k : Combinator) (tail : Option String) (target : String)
  | emptyChain (target : String)
  | chainOfJoints (joints : List Joint) (target : String)
  | repeatChain (chain : String) (times : Nat) (target : String)
  | copyChain (chain target : String)
  | lastLink (chain target : String)
  | dropLinks (chain : String) (n : Nat) (target : String)
  | editLink (chain : String) (n : Nat) (edit : LinkEdit)
  | inspectChain (chain : String)
  | compareChains (a b : String)
  | compareCompounds (a b : Compound)
  | compareNames (names : List String)
  | makeNode (term : NodeTerm) (target : String)
  | nestNode (node : String) (times : Nat) (target : String)
  | repeatNode (node : String) (times : Nat) (target : String)
  | firstSelector (chain : Option String) (target : String)
  | toNode (chain target : String)
  | optionalToNode (chain : Option String) (target : String)
  | copyNode (node target : String)
  | toChain (node target : String)
  | plus (node addend : String)
  | contains (node sought : String) (ordered : Bool)
  | compareNodes (a b : String)
  | inspectNode (node : String) (path : List Nat)
  | getNode (node : String) (path : List Nat) (target : String)
  | pushNode (node : String) (path : List Nat) (term : NodeTerm)
  | popNode (node : String) (path : List Nat)
  | setSelector (node : String) (path : List Nat) (c : Compound)
  | countAllocations
  | describeContext
  deriving Repr

/-- The answer to a command. -/
inductive Reply where
  | chain (c : Chain) (location : Option Location)
  /-- There is nothing to answer with. -/
  | absent
  | text (s : String)
  | flag (b : Bool)
  | number (n : Nat)
  | reread (same : Bool) (text : String)
  | repeated (length : Nat) (text : String)
  | compounds (a b : String) (same equivalent converse : Bool)
  /-- Every name, and the number of the first that is the same. -/
  | names (entries : List (String × Nat))
  | sum (node addend : String) (addendKept : Bool)
  | equalities (ordered unordered : Bool)
  | node (n : Node)
  deriving Repr

/-- Why a command cannot be carried out at all. -/
inductive Refusal where
  | unknownName (name : String)
  | noSuchLink (n : Nat)
  | noSuchPath (path : List Nat)
  deriving DecidableEq, Repr

/-- How a command fails: by a fault of the library, or because it makes no sense here. -/
inductive Stop where
  | fault (f : Fault)
  | refusal (r : Refusal)
  deriving Repr

end SelectorAlgebra.Session
