import SelectorAlgebra.Context
import SelectorAlgebra.Source.Consecutive

/-
  Round trips: a text is read, its chain is converted to a node and back, and what the chain is
  written as is read again.
-/

namespace SelectorAlgebra

/-- What becomes of a text that is read, converted there and back, and read again. -/
structure RoundTrip where
  chain : Chain
  location : Option Location
  node : Node
  /-- Whether the conversion back gives the same chain. -/
  rebuilt : Bool
  /-- Whether what the chain is written as reads as the same chain. -/
  reread : Except Fault Bool

def roundTrip [CodeMap] (text : String) : Pass RoundTrip := do
  let chain ← Pass.readChain text
  let location := (← get).locate? chain.span
  let node ← Pass.toNode chain
  let rebuilt ← Pass.toChain node
  let again ← observing (Pass.readChain chain.text)
  return ⟨chain, location, node, rebuilt.same chain, again.map (·.same chain)⟩
where
  /-- The result of an operation, whether it succeeds or fails. -/
  observing {α : Type} (x : Pass α) : Pass (Except Fault α) := fun ctx =>
    let (result, next) := x.run ctx
    (.ok result, next)

end SelectorAlgebra
