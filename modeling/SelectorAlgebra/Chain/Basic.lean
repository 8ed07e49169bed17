import SelectorAlgebra.Simple.Basic
import SelectorAlgebra.Source

/-
  Compound and complex selectors. A compound selector is made of simple selectors that one element
  has to pass all. The order in which they are written does not matter to what is selected, and
  `Compound.equivalent` abstracts from it.

  Chains are complex selectors as lists of links. A link is a compound selector and the combinator
  after it, so `.a > .b` is the link of `.a` and `>` and then the link of `.b`. The last link
  normally has the descendant combinator; any other one dangles, as in `.a >`.

  Equality of chains is `Chain.same`, which looks at compounds and combinators and not at spans.
-/

namespace SelectorAlgebra

/-! ## Compounds -/

/-- Simple selectors in the order in which they are written. There may be none. -/
structure Compound where
  components : List Simple
  deriving DecidableEq, Repr

/-- The simple selectors one after another; with none, the `*` that selects as much. -/
def Compound.text (c : Compound) : String :=
  if c.components.isEmpty then "*" else String.join (c.components.map Simple.text)

/-- Every member of a list once. -/
def distinct {α : Type} [DecidableEq α] : List α → List α
  | [] => []
  | a :: as => if a ∈ as then distinct as else a :: distinct as

/-- Whether two compounds have the same simple selectors, whatever their order and number: they
have as many different ones, and those of the first are all in the second. -/
def Compound.equivalent (a b : Compound) : Bool :=
  let as := distinct a.components
  let bs := distinct b.components
  a == b || (as.length == bs.length && as.all fun s => decide (s ∈ bs))

theorem mem_distinct {α : Type} [DecidableEq α] {a : α} {as : List α} :
    a ∈ distinct as ↔ a ∈ as := by
  induction as with
  | nil => rfl
  | cons b as ih =>
    rw [distinct]
    split
    · rename_i h
      rw [ih, List.mem_cons]
      exact ⟨Or.inr, fun h' => h'.elim (fun e => e ▸ h) id⟩
    · rw [List.mem_cons, List.mem_cons, ih]

theorem nodup_distinct {α : Type} [DecidableEq α] (as : List α) : (distinct as).Nodup := by
  induction as with
  | nil => simp [distinct]
  | cons b as ih =>
    rw [distinct]
    split
    · exact ih
    · rename_i h
      exact List.nodup_cons.2 ⟨fun h' => h (mem_distinct.1 h'), ih⟩

/-! ## Chains -/

/-- How the elements of two compound selectors in a row are related. -/
inductive Combinator where
  /-- Written as white space, and the combinator of a link with nothing after it. -/
  | descendant
  | child
  | nextSibling
  | followingSibling
  deriving DecidableEq, Repr

def Combinator.text : Combinator → String
  | descendant => " "
  | child => ">"
  | nextSibling => "+"
  | followingSibling => "~"

/-- A compound selector, if there is one, and the combinator after it. -/
abbrev Joint := Option Compound × Combinator

/-- A compound selector with the combinator after it, as a part of a chain. -/
structure Link where
  head : Option Compound
  combinator : Combinator
  /-- Where the chain that began with this link was read from. -/
  span : Option Span := none
  deriving DecidableEq, Repr

def Link.joint (l : Link) : Joint := (l.head, l.combinator)

/-- A complex selector. There is always a first link. -/
structure Chain where
  first : Link
  rest : List Link
  deriving DecidableEq, Repr

namespace Chain

/-! ## Making chains -/

/-- A link in front of a chain, or on its own. -/
def cons (head : Option Compound) (combinator : Combinator) : Option Chain → Chain
  | none => ⟨⟨head, combinator, none⟩, []⟩
  | some tail => ⟨⟨head, combinator, none⟩, tail.first :: tail.rest⟩

/-- The chain with neither selectors nor combinators. -/
def empty : Chain := cons none .descendant none

def ofJoints : List Joint → Chain
  | [] => empty
  | j :: js => ⟨⟨j.1, j.2, none⟩, js.map fun k => ⟨k.1, k.2, none⟩⟩

/-- A chain that was read from `span`. -/
def withSpan (c : Chain) (span : Span) : Chain := { c with first.span := some span }

/-! ## Looking at chains -/

def links (c : Chain) : List Link := c.first :: c.rest

/-- The compounds and combinators of a chain, in order. -/
def joints (c : Chain) : List Joint := c.links.map Link.joint

def same (a b : Chain) : Bool := a.joints == b.joints

def length (c : Chain) : Nat := c.links.length

/-- Whether a chain has neither selectors nor combinators. -/
def isEmpty (c : Chain) : Bool :=
  c.first.head.isNone && c.rest.isEmpty && c.first.combinator == .descendant

def span (c : Chain) : Option Span := c.first.span

/-- The last link, as a chain. -/
def last (c : Chain) : Chain := ⟨c.rest.getLastD c.first, []⟩

/-- The combinator that dangles off the end. -/
def trailing? (c : Chain) : Option Combinator :=
  if c.last.first.combinator = .descendant then none else some c.last.first.combinator

/-- The chain from link number `n` on. -/
def drop? (c : Chain) (n : Nat) : Option Chain :=
  match c.links.drop n with
  | [] => none
  | first :: rest => some ⟨first, rest⟩

/-! ## Changing chains -/

/-- Changes link number `n`, if there is one. -/
def modify (c : Chain) (n : Nat) (f : Link → Link) : Chain :=
  match n with
  | 0 => { c with first := f c.first }
  | n + 1 => { c with rest := c.rest.modify n f }

/-- Puts the links of `tail`, or none, in the place of those after link number `n`. -/
def setTail (c : Chain) (n : Nat) (tail : Option Chain) : Chain :=
  { c with rest := c.rest.take n ++ (tail.map links).getD [] }

/-- The links of a chain over and over. -/
def repeated (c : Chain) (times : Nat) : Chain :=
  ofJoints (List.replicate times c.joints).flatten

end Chain

/-! ## Writing chains -/

/-- A combinator with the spaces around it. The descendant combinator is itself a space, and is
not written at the end. -/
def Combinator.between (hasHead hasTail : Bool) : Combinator → String
  | descendant => if hasTail then " " else ""
  | k => (if hasHead then " " else "") ++ k.text ++ (if hasTail then " " else "")

def jointsText : List Joint → String
  | [] => ""
  | (head, k) :: js =>
    head.elim "" Compound.text ++ k.between head.isSome (!js.isEmpty) ++ jointsText js

def Chain.text (c : Chain) : String := jointsText c.joints

/-! ## Views of the operations -/

namespace Chain

theorem same_iff {a b : Chain} : a.same b ↔ a.joints = b.joints := by simp [same]

theorem links_cons (head : Option Compound) (k : Combinator) (tail : Option Chain) :
    (cons head k tail).links = ⟨head, k, none⟩ :: (tail.map links).getD [] := by
  cases tail <;> rfl

theorem joints_ofJoints (j : Joint) (js : List Joint) : (ofJoints (j :: js)).joints = j :: js := by
  simp [ofJoints, joints, links, Link.joint, Function.comp_def]

theorem joints_withSpan (c : Chain) (span : Span) : (c.withSpan span).joints = c.joints := rfl

theorem joints_ne_nil (c : Chain) : c.joints ≠ [] := by simp [joints, links]

end Chain

end SelectorAlgebra
