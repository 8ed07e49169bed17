import SelectorAlgebra.Text.Words

/-
  Simple selectors: the smallest tests that a selector makes of an element, and how they are
  written. A value of these types need not be one that can be read from text: names may be
  empty, and an attribute may lack the value that its operator asks for.
-/

namespace SelectorAlgebra

/-! ## Names with namespaces -/

/-- The part of a name before its bar. -/
inductive Namespace where
  /-- No bar was written. -/
  | unwritten
  /-- `|`: elements without a namespace. -/
  | empty
  /-- `*|`: elements of any namespace. -/
  | any
  | named (name : String)
  deriving DecidableEq, Repr

/-- A name and the namespace in front of it. -/
structure QualifiedName where
  space : Namespace
  name : String
  deriving DecidableEq, Repr

def Namespace.text : Namespace → String
  | unwritten => ""
  | empty => "|"
  | any => "*|"
  | named name => name ++ "|"

def QualifiedName.text (n : QualifiedName) : String := n.space.text ++ n.name

/-! ## Attributes -/

/-- How the value of an attribute is compared. -/
inductive AttributeOp where
  /-- The attribute only has to be there. -/
  | present
  | equals
  /-- The value is one of the words of the attribute. -/
  | includes
  /-- The attribute is the value, or the value and a hyphen begin it. -/
  | dashMatch
  | startsWith
  | endsWith
  | contains
  deriving DecidableEq, Repr

def AttributeOp.text : AttributeOp → String
  | present => ""
  | equals => "="
  | includes => "~="
  | dashMatch => "|="
  | startsWith => "^="
  | endsWith => "$="
  | contains => "*="

/-- A test of one attribute of an element. -/
structure Attribute where
  name : QualifiedName
  op : AttributeOp
  /-- The value without its quotes. -/
  value : Option String
  /-- The letter that says whether case matters. -/
  modifier : Option Char
  deriving DecidableEq, Repr

/-- A value is written bare if it is an identifier that does not begin with two hyphens, and
quoted otherwise. -/
def attributeValueText (value : String) : String :=
  if isIdentifier value.toList && !List.isPrefixOf ['-', '-'] value.toList then value
  else String.ofList (quoted value.toList)

def Attribute.text (a : Attribute) : String :=
  "[" ++ a.name.text ++ a.op.text ++ a.value.elim "" attributeValueText ++
    a.modifier.elim "" (fun c => " " ++ String.singleton c) ++ "]"

/-! ## Pseudo selectors -/

/-- A selector by what the document does not say: a state of the element, or a part of it. -/
structure Pseudo where
  name : String
  /-- Whether it selects by a state of the element, and not a part of it. -/
  isClass : Bool
  /-- Whether it is written with one colon. Some parts of an element may be. -/
  isSyntacticClass : Bool
  argument : Option String
  deriving DecidableEq, Repr

def Pseudo.text (p : Pseudo) : String :=
  (if p.isSyntacticClass then ":" else "::") ++ p.name ++
    p.argument.elim "" (fun argument => "(" ++ argument ++ ")")

/-- Whether a name is one of the parts of an element that may be written with one colon. Case
does not matter. -/
def isLegacyElement (name : String) : Bool :=
  ["after", "before", "first-line", "first-letter"].contains name.toLower

/-! ## Simple selectors -/

/-- A test of one property of an element. -/
inductive Simple where
  /-- `*`: every element of a namespace. -/
  | universal (space : Namespace)
  /-- Elements by name. -/
  | element (name : QualifiedName)
  /-- Elements by their class. -/
  | classed (name : String)
  | id (name : String)
  /-- `%name`, which no element matches: it is there to be extended. -/
  | placeholder (name : String)
  | pseudo (p : Pseudo)
  | attr (a : Attribute)
  deriving DecidableEq, Repr

def Simple.text : Simple → String
  | universal space => space.text ++ "*"
  | element name => name.text
  | classed name => "." ++ name
  | id name => "#" ++ name
  | placeholder name => "%" ++ name
  | pseudo p => p.text
  | attr a => a.text

end SelectorAlgebra
