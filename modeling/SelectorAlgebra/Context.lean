import SelectorAlgebra.Chain.Reader
import SelectorAlgebra.Log
import SelectorAlgebra.Node.Operations

/-
  The context of a pass over selectors. It keeps the sources that were read, so that messages
  can point into them, counts the compound selectors that were copied, and holds what the logger
  was given. It only ever grows: what an operation did before it failed stays done.
-/

namespace SelectorAlgebra

/-- What a pass keeps from one operation to the next. -/
structure Context where
  options : Options
  sources : SourceMap := .empty
  /-- How many compound selectors were copied so far. -/
  allocations : Nat := 0
  /-- What the logger was given so far, in order. -/
  log : List LogEntry := []
  deriving Repr

/-- An operation of a pass: it changes the context, whether it succeeds or fails. -/
abbrev Pass := ExceptT Fault (StateM Context)

namespace Context

def locate? [CodeMap] (ctx : Context) (span : Option Span) : Option Location :=
  span.map (CodeMap.lookUp ctx.sources)

/-- Gives the logger an entry, unless the context is quiet. -/
def record (ctx : Context) (e : LogEntry) : Context :=
  if ctx.options.quiet then ctx else { ctx with log := ctx.log ++ [e] }

/-- Logs a conversion that was made, if conversions are traced. -/
def trace [CodeMap] (ctx : Context) (span : Option Span) (message : String) : Context :=
  if ctx.options.traceConversions then ctx.record ⟨.debug, ctx.locate? span, message⟩ else ctx

/-- Logs a fault that ends an operation. -/
def warn [CodeMap] (ctx : Context) (span : Option Span) (fault : Fault) : Context :=
  ctx.record ⟨.warning, ctx.locate? span, fault.text⟩

/-- Makes copies and adds their number to the count. -/
def copying {α : Type} (ctx : Context) (x : Copying α) : α × Context :=
  let (a, allocations) := x.run ctx.allocations
  (a, { ctx with allocations })

/-- What a context shows of itself. -/
def text (ctx : Context) : String :=
  "Context \x7b options: " ++ ctx.options.text ++ ", allocations: " ++ toString ctx.allocations ++
    ", .. \x7d"

/-! ## What is logged -/

/-- Logging leaves all but the log alone, and a quiet context leaves that alone too. -/
theorem record_eq (ctx : Context) (e : LogEntry) :
    ctx.record e = { ctx with log := ctx.log ++ if ctx.options.quiet then [] else [e] } := by
  unfold record
  split
  · rw [List.append_nil]
  · rfl

theorem warn_eq [CodeMap] (ctx : Context) (span : Option Span) (fault : Fault) :
    ctx.warn span fault =
      { ctx with log := ctx.log ++
          if ctx.options.quiet then [] else [⟨.warning, ctx.locate? span, fault.text⟩] } :=
  record_eq ctx _

theorem trace_eq [CodeMap] (ctx : Context) (span : Option Span) (message : String) :
    ctx.trace span message =
      { ctx with log := ctx.log ++ if ctx.options.quiet then [] else
          if ctx.options.traceConversions then [⟨.debug, ctx.locate? span, message⟩] else [] } := by
  unfold trace
  split
  · exact record_eq ctx _
  · rw [ite_self, List.append_nil]

end Context

namespace Pass

variable [CodeMap]

/-- Reads a text that is one complex selector. It becomes a source of the context, also if it
cannot be read. A failure is located among all sources of the context. -/
def readChain (text : String) : Pass Chain := fun ctx =>
  let placed := ctx.sources.place ⟨"stdin", text⟩
  let next := { ctx with sources := ctx.sources.add placed.source }
  match readJoints text with
  | .ok joints => (.ok ((Chain.ofJoints joints).withSpan placed.span), next)
  | .error failure =>
    let location := CodeMap.lookUp next.sources (placed.cut (failure.start, failure.stop))
    (.error (.unreadable failure.cause location ctx.options.unicodeMessages), next)

theorem readChain_run_ok {text : String} {joints : List Joint} (h : readJoints text = .ok joints)
    (ctx : Context) : (readChain text).run ctx =
      (.ok ((Chain.ofJoints joints).withSpan (ctx.sources.place ⟨"stdin", text⟩).span),
        { ctx with sources := ctx.sources.add ⟨"stdin", text⟩ }) := by
  simp only [readChain, ExceptT.run, h]
  rfl

theorem readChain_run_error {text : String} {failure : TextFailure}
    (h : readJoints text = .error failure) (ctx : Context) : (readChain text).run ctx =
      (.error (.unreadable failure.cause
          (CodeMap.lookUp (ctx.sources.add ⟨"stdin", text⟩)
            ((ctx.sources.place ⟨"stdin", text⟩).cut (failure.start, failure.stop)))
          ctx.options.unicodeMessages),
        { ctx with sources := ctx.sources.add ⟨"stdin", text⟩ }) := by
  simp only [readChain, ExceptT.run, h]
  rfl

/-- Converts, and logs what came of it: a trace on success and a warning on failure. -/
def convert {α : Type} (span : Option Span) (x : Converting α) (traced : α → String) : Pass α :=
  fun ctx =>
    match ctx.copying x.run with
    | (.ok a, next) => (.ok a, next.trace span (traced a))
    | (.error how, next) =>
      let fault := Fault.internal (.malformed how)
      (.error fault, next.warn span fault)

/-- Converts a chain to a node. -/
def toNode (c : Chain) : Pass Node :=
  convert c.span c.toNode fun n => "`" ++ c.text ++ "` => " ++ n.text

/-- An absent chain becomes the node that has no value. -/
def toNode? : Option Chain → Pass Node
  | some c => toNode c
  | none => return .nil

/-- Converts a node to a chain. -/
def toChain (n : Node) : Pass Chain :=
  convert none n.toChain fun c => n.text ++ " => `" ++ c.text ++ "`"

/-- Copies the first compound selector of a chain. There has to be one. -/
def firstSelector (c : Option Chain) : Pass Node := fun ctx =>
  match c.bind fun c => c.first.head with
  | some head =>
    let (copied, next) := ctx.copying head.copy
    (.ok (.selector copied), next)
  | none =>
    let fault := Fault.internal .missingSelector
    (.error fault, ctx.warn (c.bind Chain.span) fault)

/-- Copies a node with all that is in it. -/
def copyNode (n : Node) : Pass Node := fun ctx =>
  let (copied, next) := ctx.copying n.copy
  (.ok copied, next)

/-- An operation that needs nothing of the context. Its faults are not logged. -/
def ofResult {α : Type} (x : Except InternalFault α) : Pass α := fun ctx =>
  (x.mapError Fault.internal, ctx)

end Pass

end SelectorAlgebra
