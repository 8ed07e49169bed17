import SelectorAlgebra.Node
import SelectorAlgebra.Reading

/-
  Faults: all that can go wrong, by cause, and the words for each. A text may be no selector,
  which is its writer's mistake; the other faults are the caller's, who gave an operation what
  it cannot take.
-/

namespace SelectorAlgebra

/-- The operations that work on collections only. -/
inductive CollectionOp where
  | plus
  | contains
  deriving DecidableEq, Repr

def CollectionOp.text : CollectionOp → String
  | plus => "plus"
  | contains => "contains"

/-- How a chain or a node fails to be one that can be converted. Numbers count from 1. -/
inductive Malformation where
  /-- A link after the first has no compound selector. -/
  | headlessLink (number : Nat) (chain : Chain)
  | notCollection (found : NodeKind)
  | selectorExpected (position : Nat) (found : NodeKind)
  | combinatorExpected (position : Nat) (found : NodeKind)
  /-- The last node is a descendant combinator, which could not be told from the end. -/
  | danglingDescendant
  deriving Repr

def Malformation.reason : Malformation → String
  | headlessLink number chain =>
    "link " ++ toString number ++ " of `" ++ chain.text ++ "` has no compound selector"
  | notCollection found => "expected a collection, found " ++ found.text
  | selectorExpected position found =>
    "expected a selector at position " ++ toString position ++ ", found " ++ found.text
  | combinatorExpected position found =>
    "expected a combinator at position " ++ toString position ++ ", found " ++ found.text
  | danglingDescendant => "a descendant combinator must be followed by a selector"

/-- A breach of what an operation asks of its caller. -/
inductive InternalFault where
  | notCollection (op : CollectionOp) (found : NodeKind)
  | malformed (how : Malformation)
  | missingSelector
  deriving Repr

def InternalFault.message : InternalFault → String
  | notCollection op found =>
    "`" ++ op.text ++ "` requires collection operands, found " ++ found.text ++ "."
  | malformed how => "malformed selector chain: " ++ how.reason ++ "."
  | missingSelector => "expected a compound selector, found nothing."

/-- Why an operation of a pass fails. -/
inductive Fault where
  /-- A text is no selector. `unicode` says whether the message may use characters beyond ASCII. -/
  | unreadable (cause : SyntaxCause) (location : Location) (unicode : Bool)
  | internal (fault : InternalFault)
  deriving Repr

/-! ## The line that is at fault -/

/-- The characters that frame an excerpt. -/
structure Frame where
  top : String
  side : String
  bottom : String

def Frame.of (unicode : Bool) : Frame :=
  if unicode then ⟨"╷", "│", "╵"⟩ else ⟨",", "|", "'"⟩

def spaces (n : Nat) : String := String.ofList (List.replicate n ' ')

/-- The number of carets under a location: its width if it ends to the right of its start, and
one otherwise. -/
def Location.caretCount (l : Location) : Nat := max 1 (l.stop.column - l.start.column)

/-- The line of a source on which a location starts, with the location marked below it. -/
def Location.excerpt [CodeMap] (l : Location) (frame : Frame) : String :=
  let number := toString (l.start.line + 1)
  let margin := spaces (number.length + 1)
  margin ++ frame.top ++ "\n" ++
    number ++ " " ++ frame.side ++ " " ++ CodeMap.line l.source l.start.line ++ "\n" ++
    margin ++ frame.side ++ " " ++ spaces l.start.column ++
      String.ofList (List.replicate l.caretCount '^') ++ "\n" ++
    margin ++ frame.bottom ++ "\n"

/-- A source, a line and a column, both counted from 1. -/
def Location.reference (l : Location) : String :=
  l.source.name ++ ":" ++ toString (l.start.line + 1) ++ ":" ++ toString (l.start.column + 1)

/-! ## Words for faults -/

/-- What is wrong, in short. -/
def Fault.message : Fault → String
  | unreadable cause _ _ => cause.message
  | internal fault => fault.message

/-- All there is to say about a fault. -/
def Fault.text [CodeMap] : Fault → String
  | unreadable cause location unicode =>
    "Error: " ++ cause.message ++ "\n" ++ location.excerpt (.of unicode) ++
      "  " ++ location.source.name ++ " " ++ toString (location.start.line + 1) ++ ":" ++
      toString (location.start.column + 1) ++ "  root stylesheet\n"
  | internal fault => "Internal error: " ++ fault.message

def Fault.isInternal : Fault → Bool
  | unreadable .. => false
  | internal _ => true

/-- What all faults are about. -/
def Fault.subject : String := "Sass selector error"

end SelectorAlgebra
