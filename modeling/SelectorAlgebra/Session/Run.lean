import SelectorAlgebra.Session.State

/-
  Runs of commands on one context. A command that fails leaves the named chains and nodes as
  they are, but what it did to the context stays done.
-/

namespace SelectorAlgebra.Session

variable [CodeMap]

/-! ## Commands -/

def execute : Command → Action Reply
  | .readChain text target => do storeChain target (← inContext (Pass.readChain text))
  | .rereadChain chain => do
    let c ← chainOf chain
    let reread ← inContext (Pass.readChain c.text)
    return .reread (reread.same c) reread.text
  | .newChain head k tail target => do storeChain target (.cons head k (← optionalChainOf tail))
  | .emptyChain target => storeChain target .empty
  | .chainOfJoints joints target => storeChain target (.ofJoints joints)
  | .repeatChain chain times target => do
    let c := (← chainOf chain).repeated times
    keepChain target c
    return .repeated c.length c.text
  | .copyChain chain target => do storeChain target (← chainOf chain)
  | .lastLink chain target => do storeChain target (← chainOf chain).last
  | .dropLinks chain n target => do
    match (← chainOf chain).drop? n with
    | some c => storeChain target c
    | none => return .absent
  | .editLink chain n edit => do
    let c ← chainOf chain
    if n < c.length then storeChain chain (← editChain c n edit)
    else refuse (.noSuchLink n)
  | .inspectChain chain => do replyChain (← chainOf chain)
  | .compareChains a b => do return .flag ((← chainOf a).same (← chainOf b))
  | .compareCompounds a b =>
    return .compounds a.text b.text (a == b) (a.equivalent b) (b.equivalent a)
  | .compareNames names => return .names (names.map fun name => (name, names.idxOf name))
  | .makeNode term target => do storeNode target (← evaluate term)
  | .nestNode node times target => do storeNode target ((← nodeOf node).nested times)
  | .repeatNode node times target => do
    storeNode target (.collection (List.replicate times (← nodeOf node)))
  | .firstSelector chain target => do
    let c ← optionalChainOf chain
    storeNode target (← inContext (Pass.firstSelector c))
  | .toNode chain target => do
    let c ← chainOf chain
    storeNode target (← inContext (Pass.toNode c))
  | .optionalToNode chain target => do
    let c ← optionalChainOf chain
    storeNode target (← inContext (Pass.toNode? c))
  | .copyNode node target => do
    let n ← nodeOf node
    storeNode target (← inContext (Pass.copyNode n))
  | .toChain node target => do
    let n ← nodeOf node
    storeChain target (← inContext (Pass.toChain n))
  | .plus node addend => do
    let n ← nodeOf node
    let added ← nodeOf addend
    let sum ← inContext (Pass.ofResult (n.plus added))
    keepNode node sum
    return .sum sum.text added.text ((← nodeOf addend).equal true added)
  | .contains node sought ordered => do
    let n ← nodeOf node
    let part ← nodeOf sought
    return .flag (← inContext (Pass.ofResult (n.contains part ordered)))
  | .compareNodes a b => do
    let n ← nodeOf a
    let m ← nodeOf b
    return .equalities (n.equal true m) (n.equal false m)
  | .inspectNode node path => do return .node (← nodeAt node path)
  | .getNode node path target => do storeNode target (← nodeAt node path)
  | .pushNode node path term => do
    let n ← evaluate term
    changeNode node path (Node.push? n)
  | .popNode node path => do
    match (← nodeAt node path).pop? with
    | none => return .absent
    | some (last, changed) =>
      keepNode node ((← nodeOf node).replace changed path)
      return .text last.text
  | .setSelector node path c => changeNode node path (Node.setSelector? c)
  | .countAllocations => do return .number (← get).context.allocations
  | .describeContext => do return .text (← get).context.text

/-! ## Runs -/

/-- What can be seen of a command after it: its answer, the count of copies, and what was
logged. -/
structure Outcome where
  result : Except Stop Reply
  allocations : Nat
  logged : List LogEntry

def step (command : Command) (s : State) : Outcome × State :=
  let (result, next) := (execute command).run s
  (⟨result, next.context.allocations, next.context.log.drop s.context.log.length⟩, next)

def run : List Command → State → List Outcome × State
  | [], s => ([], s)
  | command :: commands, s =>
    let (outcome, s) := step command s
    let (outcomes, s) := run commands s
    (outcome :: outcomes, s)

end SelectorAlgebra.Session
