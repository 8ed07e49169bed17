import SelectorAlgebra.Session.Command

/-
  The state of a session and the parts that commands are made of. A part may look up and keep
  chains and nodes under names, and run an operation of the pass.
-/

namespace SelectorAlgebra.Session

/-- The values that are kept under names, the latest first. -/
abbrev Names (α : Type) := List (String × α)

structure State where
  context : Context
  chains : Names Chain := []
  nodes : Names Node := []
  deriving Repr

/-- A part of a command. -/
abbrev Action := ExceptT Stop (StateM State)

/-! ## Parts of commands -/

/-- An operation on the context of the session. -/
def inContext {α : Type} (x : Pass α) : Action α := fun s =>
  let (result, context) := x.run s.context
  (result.mapError Stop.fault, { s with context })

def refuse {α : Type} (r : Refusal) : Action α := throw (.refusal r)

def chainOf (name : String) : Action Chain := do
  match (← get).chains.lookup name with
  | some c => return c
  | none => refuse (.unknownName name)

def optionalChainOf : Option String → Action (Option Chain)
  | some name => some <$> chainOf name
  | none => return none

def nodeOf (name : String) : Action Node := do
  match (← get).nodes.lookup name with
  | some n => return n
  | none => refuse (.unknownName name)

def nodeAt (name : String) (path : List Nat) : Action Node := do
  match (← nodeOf name).at? path with
  | some n => return n
  | none => refuse (.noSuchPath path)

def keepChain (name : String) (c : Chain) : Action Unit :=
  modify fun s => { s with chains := (name, c) :: s.chains }

def keepNode (name : String) (n : Node) : Action Unit :=
  modify fun s => { s with nodes := (name, n) :: s.nodes }

variable [CodeMap]

def replyChain (c : Chain) : Action Reply := do
  return .chain c ((← get).context.locate? c.span)

/-- Keeps a chain and answers with it. -/
def storeChain (name : String) (c : Chain) : Action Reply := do
  keepChain name c
  replyChain c

/-- Keeps a node and answers with its text. -/
def storeNode (name : String) (n : Node) : Action Reply := do
  keepNode name n
  return .text n.text

mutual

/-- The node that a term stands for. Collections are made from left to right. -/
def evaluate : NodeTerm → Action Node
  | .nil => return .nil
  | .combinator k => return .combinator k
  | .selector c => return .selector c
  | .collection terms => return .collection (← evaluateAll terms)
  | .kept name => nodeOf name
  | .firstOf text => inContext do Pass.firstSelector (some (← Pass.readChain text))
  | .allOf text => inContext do Pass.toNode (← Pass.readChain text)

def evaluateAll : List NodeTerm → Action (List Node)
  | [] => return []
  | term :: terms => return (← evaluate term) :: (← evaluateAll terms)

end

/-- Adds a simple selector to the compound selector of a link. If there is none it is made. -/
def addToHead (s : Simple) (l : Link) : Link :=
  { l with head := some ⟨(l.head.elim [] Compound.components) ++ [s]⟩ }

/-- Makes the changes to link number `n` that are asked for. -/
def editChain (c : Chain) (n : Nat) (edit : LinkEdit) : Action Chain := do
  let c := edit.head.elim c fun head => c.modify n fun l => { l with head }
  let c := edit.combinator.elim c fun combinator => c.modify n fun l => { l with combinator }
  let c ← match edit.tail with
    | some name => c.setTail n <$> optionalChainOf name
    | none => pure c
  return edit.added.elim c fun s => c.modify n (addToHead s)

/-- Changes the node at a path of a kept node. Answers with the text of the whole, or with
nothing if that node cannot be changed so. -/
def changeNode (name : String) (path : List Nat) (change : Node → Option Node) : Action Reply := do
  match change (← nodeAt name path) with
  | none => return .absent
  | some changed => storeNode name ((← nodeOf name).replace changed path)

/-- The state before the first command. -/
def State.initial (options : Options) : State := { context := { options } }

end SelectorAlgebra.Session
