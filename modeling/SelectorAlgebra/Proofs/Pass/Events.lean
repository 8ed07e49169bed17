import SelectorAlgebra.Proofs.Conversion.Copies
import SelectorAlgebra.Proofs.Sources

/-
  What operations do to a context. An event is an operation in the context that it is performed in.
  All that it leaves behind there are the source it reads, the copies it makes and the entries it
  logs (`Event.next_eq`), so a run of events leaves behind what each of them does
  (`Leads.last_eq`).
-/

namespace SelectorAlgebra

/-! ## Operations and events -/

/-- An operation of a pass, with what it is given. -/
inductive Operation where
  | readChain (text : String)
  | firstSelector (c : Option Chain)
  | copyNode (n : Node)
  | toNode (c : Chain)
  | toNode? (c : Option Chain)
  | toChain (n : Node)
  | plus (n added : Node)
  | contains (n part : Node) (ordered : Bool)

/-- What an operation gives. -/
inductive Value where
  | chain (c : Chain)
  | node (n : Node)
  | flag (b : Bool)

/-- An operation and the context that it is performed in. -/
structure Event where
  operation : Operation
  context : Context

variable [CodeMap]

def Operation.perform : Operation → Pass Value
  | readChain text => .chain <$> Pass.readChain text
  | firstSelector c => .node <$> Pass.firstSelector c
  | copyNode n => .node <$> Pass.copyNode n
  | toNode c => .node <$> Pass.toNode c
  | toNode? c => .node <$> Pass.toNode? c
  | toChain n => .chain <$> Pass.toChain n
  | plus n added => .node <$> Pass.ofResult (n.plus added)
  | contains n part ordered => .flag <$> Pass.ofResult (n.contains part ordered)

namespace Event

/-- What comes of the operation. -/
def result (e : Event) : Except Fault Value := (e.operation.perform.run e.context).1

/-- The context after the operation. -/
def next (e : Event) : Context := (e.operation.perform.run e.context).2

end Event

/-! ## What events leave behind -/

/-- What is read becomes a source, also if it cannot be read. -/
def Event.sources (e : Event) : List Source :=
  match e.operation with
  | .readChain text => [⟨"stdin", text⟩]
  | _ => []

/-- How many compound selectors are copied: the one that is asked for if there is one, all of a
node, the heads of a chain up to the first gap, and the selectors of a collection up to the first
node out of turn. -/
def Event.copies (e : Event) : Nat :=
  match e.operation, e.result with
  | .firstSelector _, .ok _ => 1
  | .copyNode n, _ => n.selectorCount
  | .toNode c, _ => c.headsBeforeGap
  | .toNode? (some c), _ => c.headsBeforeGap
  | .toChain (.collection nodes), _ => (inTurn nodes).countP Node.isSelector
  | _, _ => 0

/-- Where the chain of an operation was read, if it is given one that was read. -/
def Operation.span? : Operation → Option Span
  | toNode c => c.span
  | firstSelector c | toNode? c => c.bind Chain.span
  | readChain _ | copyNode _ | toChain _ | plus .. | contains .. => none

/-- The warning of an operation that fails. -/
def Operation.warning? (ctx : Context) (fault : Fault) (op : Operation) : Option LogEntry :=
  match op with
  | firstSelector _ | toNode _ | toNode? _ | toChain _ =>
    some ⟨.warning, ctx.locate? op.span?, fault.text⟩
  | readChain _ | copyNode _ | plus .. | contains .. => none

/-- The trace of a conversion that succeeds. -/
def Operation.trace? (ctx : Context) (op : Operation) (value : Value) : Option LogEntry :=
  match op, value with
  | toNode c, .node n | toNode? (some c), .node n =>
    some ⟨.debug, ctx.locate? op.span?, "`" ++ c.text ++ "` => " ++ n.text⟩
  | toChain n, .chain c => some ⟨.debug, ctx.locate? op.span?, n.text ++ " => `" ++ c.text ++ "`"⟩
  | _, _ => none

/-- What there is to log about an event: a warning if it fails, and a trace if it succeeds and
conversions are traced. -/
def Event.entries (traced : Bool) (e : Event) : List LogEntry :=
  match e.result with
  | .error fault => (e.operation.warning? e.context fault).toList
  | .ok value => if traced then (e.operation.trace? e.context value).toList else []

/-- What the logger is given. -/
def Event.logged (e : Event) : List LogEntry :=
  if e.context.options.quiet then [] else e.entries e.context.options.traceConversions

/-! ## One event -/

theorem Pass.firstSelector_run_some {c : Option Chain} {head : Compound}
    (h : (c.bind fun c => c.first.head) = some head) (ctx : Context) :
    (Pass.firstSelector c).run ctx =
      (.ok (.selector head), { ctx with allocations := ctx.allocations + 1 }) := by
  simp only [Pass.firstSelector, ExceptT.run, h]
  rfl

theorem Pass.firstSelector_run_none {c : Option Chain}
    (h : (c.bind fun c => c.first.head) = none) (ctx : Context) :
    (Pass.firstSelector c).run ctx = (.error (.internal .missingSelector),
      ctx.warn (c.bind Chain.span) (.internal .missingSelector)) := by
  simp only [Pass.firstSelector, ExceptT.run, h]

/-- The source of a text stays, whether it can be read or not. -/
theorem Pass.readChain_run_snd (text : String) (ctx : Context) : ((Pass.readChain text).run ctx).2 =
    { ctx with sources := ctx.sources.add ⟨"stdin", text⟩ } := by
  cases h : readJoints text with
  | ok joints => rw [readChain_run_ok h]
  | error failure => rw [readChain_run_error h]

namespace Event

/-- An operation that is a conversion leaves behind its copies, and the entry for its result. -/
theorem next_of_convert {α : Type} {op : Operation} {value : α → Value} {span : Option Span}
    {x : Converting α} {traced : α → String} {copies : Nat}
    (hop : op.perform = value <$> Pass.convert span x traced) (ctx : Context)
    (hwarning : ∀ fault, op.warning? ctx fault =
      some ⟨.warning, ctx.locate? span, fault.text⟩)
    (htrace : ∀ a, op.trace? ctx (value a) = some ⟨.debug, ctx.locate? span, traced a⟩)
    (hcopies : ∀ count, (x.outcome count).2 = count + copies) :
    next ⟨op, ctx⟩ =
      { ctx with
        allocations := ctx.allocations + copies
        log := ctx.log ++ logged ⟨op, ctx⟩ } := by
  have hcount := hcopies ctx.allocations
  unfold next logged entries result
  dsimp only
  rw [hop, run_map]
  cases hx : x.outcome ctx.allocations with
  | mk r count =>
    rw [hx] at hcount
    obtain rfl : count = ctx.allocations + copies := hcount
    cases r with
    | ok a =>
      rw [Pass.convert_run_ok hx, Context.trace_eq]
      simp only [Except.map, htrace]
      rfl
    | error how =>
      rw [Pass.convert_run_error hx, Context.warn_eq]
      simp only [Except.map, hwarning]
      rfl

/-- A success that is not traced logs nothing. -/
theorem logged_of_ok {op : Operation} {ctx : Context} {value : Value}
    (hresult : result ⟨op, ctx⟩ = .ok value) (htrace : op.trace? ctx value = none) :
    logged ⟨op, ctx⟩ = [] := by
  simp only [logged, entries, hresult, htrace, Option.toList_none, ite_self]

/-- An operation that neither warns nor traces logs nothing. -/
theorem logged_eq_nil {op : Operation} {ctx : Context}
    (hwarning : ∀ fault, op.warning? ctx fault = none)
    (htrace : ∀ value, op.trace? ctx value = none) : logged ⟨op, ctx⟩ = [] := by
  cases hresult : result ⟨op, ctx⟩ with
  | ok value => exact logged_of_ok hresult (htrace value)
  | error fault =>
    simp only [logged, entries, hresult, hwarning, Option.toList_none, ite_self]

/-- An operation that only asks for a result of nodes leaves nothing behind. -/
theorem next_of_ofResult {α : Type} {op : Operation} {value : α → Value}
    {x : Except InternalFault α} (hop : op.perform = value <$> Pass.ofResult x) (ctx : Context) :
    next ⟨op, ctx⟩ = ctx := by
  rw [next, hop, run_map]
  rfl

/-- **All that an event leaves behind.** -/
theorem next_eq (e : Event) : e.next =
    { e.context with
      sources := e.context.sources.addAll e.sources
      allocations := e.context.allocations + e.copies
      log := e.context.log ++ e.logged } := by
  obtain ⟨op, ctx⟩ := e
  cases op with
  | readChain text =>
    rw [next, Operation.perform, run_map, Pass.readChain_run_snd,
      logged_eq_nil (fun _ => rfl) (fun _ => rfl), List.append_nil]
    rfl
  | firstSelector c =>
    cases h : c.bind fun c => c.first.head with
    | none =>
      have hresult : result ⟨.firstSelector c, ctx⟩ = .error (.internal .missingSelector) := by
        rw [result, Operation.perform, run_map, Pass.firstSelector_run_none h]
        rfl
      rw [next, Operation.perform, run_map, Pass.firstSelector_run_none h, Context.warn_eq,
        copies, logged, entries, hresult]
      rfl
    | some head =>
      have hresult : result ⟨.firstSelector c, ctx⟩ = .ok (.node (.selector head)) := by
        rw [result, Operation.perform, run_map, Pass.firstSelector_run_some h]
        rfl
      rw [next, Operation.perform, run_map, Pass.firstSelector_run_some h,
        logged_of_ok hresult rfl, List.append_nil, copies, hresult]
      rfl
  | copyNode n =>
    rw [next, Operation.perform, run_map, Pass.copyNode_run,
      logged_eq_nil (fun _ => rfl) (fun _ => rfl), List.append_nil]
    rfl
  | toNode c =>
    exact next_of_convert rfl ctx (fun _ => rfl) (fun _ => rfl) (outcome_toNode_snd c)
  | toNode? c =>
    cases c with
    | none =>
      have hresult : result ⟨.toNode? none, ctx⟩ = .ok (.node .nil) := rfl
      rw [logged_of_ok hresult rfl, List.append_nil]
      rfl
    | some c =>
      exact next_of_convert rfl ctx (fun _ => rfl) (fun _ => rfl) (outcome_toNode_snd c)
  | toChain n =>
    cases n with
    | collection nodes =>
      exact next_of_convert rfl ctx (fun _ => rfl) (fun _ => rfl) (outcome_toChain_snd nodes)
    | _ =>
      exact next_of_convert rfl ctx (fun _ => rfl) (fun _ => rfl)
        (outcome_toChain_other fun nodes => Node.noConfusion)
  | plus n added =>
    rw [next_of_ofResult rfl ctx, logged_eq_nil (fun _ => rfl) (fun _ => rfl), List.append_nil]
    rfl
  | contains n part ordered =>
    rw [next_of_ofResult rfl ctx, logged_eq_nil (fun _ => rfl) (fun _ => rfl), List.append_nil]
    rfl

end Event

/-! ## Events one after another -/

/-- How many compound selectors events copy in all. -/
def copiesOf : List Event → Nat
  | [] => 0
  | e :: es => e.copies + copiesOf es

/-- Events that follow one another, from a context to the one after the last of them. -/
def Leads : Context → List Event → Context → Prop
  | ctx, [], last => last = ctx
  | ctx, e :: es, last => e.context = ctx ∧ Leads e.next es last

namespace Leads

variable {ctx mid last : Context} {es fs : List Event}

theorem nil (ctx : Context) : Leads ctx [] ctx := rfl

theorem append (h : Leads ctx es mid) (h' : Leads mid fs last) : Leads ctx (es ++ fs) last := by
  induction es generalizing ctx with
  | nil =>
    obtain rfl : mid = ctx := h
    exact h'
  | cons e es ih => exact ⟨h.1, ih h.2⟩

/-- **Events leave behind what each of them does, in order.** -/
theorem last_eq (h : Leads ctx es last) : last =
    { ctx with
      sources := ctx.sources.addAll (es.flatMap Event.sources)
      allocations := ctx.allocations + copiesOf es
      log := ctx.log ++ if ctx.options.quiet then [] else
        es.flatMap (Event.entries ctx.options.traceConversions) } := by
  induction es generalizing ctx with
  | nil =>
    obtain rfl : last = ctx := h
    simp [SourceMap.addAll, copiesOf]
  | cons e es ih =>
    obtain ⟨rfl, h⟩ := h
    rw [ih h, e.next_eq, Event.logged, List.flatMap_cons, List.flatMap_cons, copiesOf,
      SourceMap.addAll_append, ← Nat.add_assoc]
    split
    · simp
    · simp

end Leads

end SelectorAlgebra
