import SelectorAlgebra.Proofs.Pass.Events
import SelectorAlgebra.Proofs.Session.Actions

/-
  Options change no result. Two sessions of the same commands under different options stay alike:
  they keep the same chains and nodes and have the same sources and counts of copies. Their faults
  differ in the alphabet that they are told in, and nothing else can be told apart but the logs.
-/

namespace SelectorAlgebra

/-! ## Faults in another alphabet -/

/-- A fault as it is told in an alphabet. -/
def Fault.told (unicode : Bool) : Fault → Fault
  | unreadable cause location _ => .unreadable cause location unicode
  | internal fault => .internal fault

/-- A frame shows in an excerpt in four places, and the rest of the excerpt is the same in all. -/
theorem Location.excerpt_eq [CodeMap] (l : Location) : ∃ margin number line caret, ∀ frame,
    l.excerpt frame = margin ++ (frame.top ++ (number ++ (frame.side ++ (line ++
      (frame.side ++ (caret ++ (frame.bottom ++ "\n"))))))) := by
  have hsplit (number margin source carets : String) (frame : Frame) :
      margin ++ frame.top ++ "\n" ++ number ++ " " ++ frame.side ++ " " ++ source ++ "\n" ++
          margin ++ frame.side ++ " " ++ spaces l.start.column ++ carets ++ "\n" ++
          margin ++ frame.bottom ++ "\n" =
        margin ++ (frame.top ++ (("\n" ++ number ++ " ") ++ (frame.side ++
          ((" " ++ source ++ "\n" ++ margin) ++ (frame.side ++
            ((" " ++ spaces l.start.column ++ carets ++ "\n" ++ margin) ++
              (frame.bottom ++ "\n"))))))) := by
    generalize spaces l.start.column = indent
    simp only [String.append_assoc]
  exact ⟨_, _, _, _, hsplit _ _ _ _⟩

/-- The alphabet shows in the frame of the excerpt only. -/
theorem Fault.text_unreadable [CodeMap] (cause : SyntaxCause) (l : Location) :
    ∃ heading number line caret place, ∀ unicode, (Fault.unreadable cause l unicode).text =
      heading ++ ((Frame.of unicode).top ++ (number ++ ((Frame.of unicode).side ++ (line ++
        ((Frame.of unicode).side ++ (caret ++ ((Frame.of unicode).bottom ++ place))))))) := by
  obtain ⟨margin, number, line, caret, hexcerpt⟩ := l.excerpt_eq
  refine ⟨"Error: " ++ cause.message ++ "\n" ++ margin, number, line, caret,
    "\n" ++ "  " ++ l.source.name ++ " " ++ toString (l.start.line + 1) ++ ":" ++
      toString (l.start.column + 1) ++ "  root stylesheet\n", fun unicode => ?_⟩
  unfold Fault.text
  dsimp only
  rw [hexcerpt]
  simp only [String.append_assoc]

theorem Fault.message_told (unicode : Bool) (f : Fault) : (f.told unicode).message = f.message := by
  cases f <;> rfl

/-! ## Computations alike -/

section Simulates

variable {ε σ α β : Type} {R : σ → σ → Prop} {told : ε → ε} {x : ExceptT ε (StateM σ) α}
  {f : α → ExceptT ε (StateM σ) β}

/-- In states that are alike a computation gives the same, but for how failures are told, and the
states after it are alike. -/
def Simulates (R : σ → σ → Prop) (told : ε → ε) (x : ExceptT ε (StateM σ) α) : Prop :=
  ∀ s s', R s s' → (x.run s').1 = (x.run s).1.mapError told ∧ R (x.run s).2 (x.run s').2

theorem Simulates.pure (a : α) : Simulates R told (Pure.pure a : ExceptT ε (StateM σ) α) :=
  fun _ _ h => ⟨rfl, h⟩

theorem Simulates.bind (hx : Simulates R told x) (hf : ∀ a, Simulates R told (f a)) :
    Simulates R told (x >>= f) := by
  intro s s' h
  obtain ⟨hresult, hnext⟩ := hx s s' h
  rw [run_bind, run_bind]
  rcases hrun : x.run s with ⟨r, next⟩
  rcases hrun' : x.run s' with ⟨r', next'⟩
  rw [hrun, hrun'] at hresult hnext
  cases r with
  | error stop =>
    obtain rfl : r' = .error (told stop) := hresult
    exact ⟨rfl, hnext⟩
  | ok a =>
    obtain rfl : r' = .ok a := hresult
    exact hf a next next' hnext

end Simulates

/-! ## Passes -/

/-- Contexts under two options that have the same sources and count of copies. -/
structure Context.Alike (o o' : Options) (ctx ctx' : Context) : Prop where
  options : ctx.options = o
  options' : ctx'.options = o'
  sources : ctx'.sources = ctx.sources
  allocations : ctx'.allocations = ctx.allocations

variable {o o' : Options} {ctx ctx' : Context} {α : Type}

/-- An operation that gives the same under both options, in contexts that are alike. -/
abbrev Pass.OptionFree (o o' : Options) (x : Pass α) : Prop :=
  Simulates (Context.Alike o o') (Fault.told o'.unicodeMessages) x

namespace Pass

/-- A text is read alike, and its source is placed alike. -/
theorem optionFree_readChain [CodeMap] (text : String) : OptionFree o o' (readChain text) := by
  intro ctx ctx' h
  cases hread : readJoints text with
  | ok joints =>
    rw [readChain_run_ok hread, readChain_run_ok hread, h.sources]
    exact ⟨rfl, h.options, h.options', rfl, h.allocations⟩
  | error failure =>
    rw [readChain_run_error hread, readChain_run_error hread, h.sources, h.options']
    exact ⟨rfl, h.options, rfl, rfl, h.allocations⟩

/-- A conversion depends on the count of copies alone, and what it logs stays in the log. -/
theorem optionFree_convert [CodeMap] (span : Option Span) (x : Converting α) (traced : α → String) :
    OptionFree o o' (convert span x traced) := by
  intro ctx ctx' h
  cases hx : x.outcome ctx.allocations with
  | mk r count =>
    have hx' : x.outcome ctx'.allocations = (r, count) := by rw [h.allocations, hx]
    cases r with
    | ok a =>
      rw [convert_run_ok hx, convert_run_ok hx', Context.trace_eq, Context.trace_eq]
      exact ⟨rfl, h.options, h.options', h.sources, rfl⟩
    | error how =>
      rw [convert_run_error hx, convert_run_error hx', Context.warn_eq, Context.warn_eq]
      exact ⟨rfl, h.options, h.options', h.sources, rfl⟩

theorem optionFree_toNode [CodeMap] (c : Chain) : OptionFree o o' (toNode c) :=
  optionFree_convert _ _ _

theorem optionFree_toNode? [CodeMap] (c : Option Chain) : OptionFree o o' (toNode? c) := by
  cases c with
  | none => exact .pure Node.nil
  | some c => exact optionFree_toNode c

theorem optionFree_toChain [CodeMap] (n : Node) : OptionFree o o' (toChain n) :=
  optionFree_convert _ _ _

theorem optionFree_firstSelector [CodeMap] (c : Option Chain) :
    OptionFree o o' (firstSelector c) := by
  intro ctx ctx' h
  cases hhead : c.bind fun c => c.first.head with
  | none =>
    rw [firstSelector_run_none hhead, firstSelector_run_none hhead, Context.warn_eq,
      Context.warn_eq]
    exact ⟨rfl, h.options, h.options', h.sources, h.allocations⟩
  | some head =>
    rw [firstSelector_run_some hhead, firstSelector_run_some hhead, h.allocations]
    exact ⟨rfl, h.options, h.options', h.sources, rfl⟩

theorem optionFree_copyNode (n : Node) : OptionFree o o' (copyNode n) := by
  intro ctx ctx' h
  rw [copyNode_run, copyNode_run, h.allocations]
  exact ⟨rfl, h.options, h.options', h.sources, rfl⟩

theorem optionFree_ofResult (x : Except InternalFault α) : OptionFree o o' (ofResult x) := by
  intro ctx ctx' h
  cases x <;> exact ⟨rfl, h⟩

end Pass

namespace Session

/-! ## Commands -/

/-- How a command fails, told in an alphabet. -/
def Stop.told (unicode : Bool) : Stop → Stop
  | fault f => .fault (f.told unicode)
  | refusal r => .refusal r

/-- States of sessions under two options that keep the same. -/
structure State.Alike (o o' : Options) (s s' : State) : Prop where
  context : s.context.Alike o o' s'.context
  chains : s'.chains = s.chains
  nodes : s'.nodes = s.nodes

/-- An action that gives the same under both options, in states that are alike. -/
abbrev OptionFree (o o' : Options) (x : Action α) : Prop :=
  Simulates (State.Alike o o') (Stop.told o'.unicodeMessages) x

theorem optionFree_inContext {x : Pass α} (hx : x.OptionFree o o') :
    OptionFree o o' (inContext x) := by
  intro s s' h
  obtain ⟨hresult, hnext⟩ := hx s.context s'.context h.context
  refine ⟨?_, hnext, h.chains, h.nodes⟩
  rw [inContext_run, inContext_run, hresult]
  cases (x.run s.context).1 <;> rfl

/-- What works on what is kept is the same under all options. -/
theorem Local.optionFree {x : Action α} (hx : Local x) : OptionFree o o' x := by
  intro s s' h
  obtain ⟨ctx', chains, nodes⟩ := s'
  obtain ⟨hcontext, rfl, rfl⟩ := h
  have hrun : x.run { s with context := ctx' } = _ := hx.run_eq s ctx' hcontext.sources
  have hkept := hx.context_eq s
  rw [hrun]
  refine ⟨?_, ?_, rfl, rfl⟩
  · cases hr : (x.run s).1 with
    | ok a => rfl
    | error stop =>
      obtain ⟨r, rfl⟩ := hx.refused s stop hr
      rfl
  · rw [hkept]
    exact hcontext

mutual

theorem optionFree_evaluate [CodeMap] (term : NodeTerm) : OptionFree o o' (evaluate term) := by
  cases term with
  | firstOf text =>
    exact optionFree_inContext ((Pass.optionFree_readChain text).bind fun c =>
      Pass.optionFree_firstSelector (some c))
  | allOf text =>
    exact optionFree_inContext ((Pass.optionFree_readChain text).bind fun c =>
      Pass.optionFree_toNode c)
  | collection terms =>
    rw [evaluate]
    exact (optionFree_evaluateAll terms).bind fun nodes => .pure _
  | nil => exact .pure _
  | combinator k => exact .pure _
  | selector c => exact .pure _
  | kept name => exact (Local.nodeOf name).optionFree

theorem optionFree_evaluateAll [CodeMap] (terms : List NodeTerm) :
    OptionFree o o' (evaluateAll terms) := by
  cases terms with
  | nil => exact .pure _
  | cons term terms =>
    rw [evaluateAll]
    exact (optionFree_evaluate term).bind fun n => (optionFree_evaluateAll terms).bind fun ns =>
      .pure _

end

/-- Asking for the count of copies is the same under all options. -/
theorem optionFree_countAllocations [CodeMap] : OptionFree o o' (execute .countAllocations) := by
  intro s s' h
  refine ⟨?_, h⟩
  show Except.ok (Reply.number s'.context.allocations) = _
  rw [h.context.allocations]
  rfl

/-- Every command but the one that shows the options is the same under all options. -/
theorem optionFree_execute [CodeMap] {command : Command} (h : command ≠ .describeContext) :
    OptionFree o o' (execute command) := by
  cases command with
  | readChain text target =>
    exact (optionFree_inContext (Pass.optionFree_readChain text)).bind fun c =>
      (Local.storeChain target c).optionFree
  | rereadChain chain =>
    exact (Local.chainOf chain).optionFree.bind fun c =>
      (optionFree_inContext (Pass.optionFree_readChain c.text)).bind fun _ => .pure _
  | makeNode term target =>
    exact (optionFree_evaluate term).bind fun n => (Local.storeNode target n).optionFree
  | firstSelector chain target =>
    exact (Local.optionalChainOf chain).optionFree.bind fun c =>
      (optionFree_inContext (Pass.optionFree_firstSelector c)).bind fun n =>
        (Local.storeNode target n).optionFree
  | toNode chain target =>
    exact (Local.chainOf chain).optionFree.bind fun c =>
      (optionFree_inContext (Pass.optionFree_toNode c)).bind fun n =>
        (Local.storeNode target n).optionFree
  | optionalToNode chain target =>
    exact (Local.optionalChainOf chain).optionFree.bind fun c =>
      (optionFree_inContext (Pass.optionFree_toNode? c)).bind fun n =>
        (Local.storeNode target n).optionFree
  | copyNode node target =>
    exact (Local.nodeOf node).optionFree.bind fun n =>
      (optionFree_inContext (Pass.optionFree_copyNode n)).bind fun m =>
        (Local.storeNode target m).optionFree
  | toChain node target =>
    exact (Local.nodeOf node).optionFree.bind fun n =>
      (optionFree_inContext (Pass.optionFree_toChain n)).bind fun c =>
        (Local.storeChain target c).optionFree
  | plus node addend =>
    exact (Local.nodeOf node).optionFree.bind fun n =>
      (Local.nodeOf addend).optionFree.bind fun m =>
      (optionFree_inContext (Pass.optionFree_ofResult _)).bind fun sum =>
        (Local.keepNode node sum).optionFree.bind fun _ =>
          (Local.nodeOf addend).optionFree.bind fun _ => .pure _
  | contains node sought ordered =>
    exact (Local.nodeOf node).optionFree.bind fun n =>
      (Local.nodeOf sought).optionFree.bind fun m =>
      (optionFree_inContext (Pass.optionFree_ofResult _)).bind fun _ => .pure _
  | pushNode node path term =>
    exact (optionFree_evaluate term).bind fun n => (Local.changeNode node path _).optionFree
  | countAllocations => exact optionFree_countAllocations
  | describeContext => exact absurd rfl h
  | _ => exact (local_execute rfl).optionFree

/-! ## Sessions -/

/-- What a command that came to `outcome` gives under other options: the same, told in their
alphabet. Only the description of the context shows the options themselves. -/
def Command.resultUnder (o : Options) (outcome : Outcome) : Command → Except Stop Reply
  | .describeContext => .ok (.text (Context.text { options := o, allocations := outcome.allocations }))
  | _ => outcome.result.mapError (Stop.told o.unicodeMessages)

theorem step_alike [CodeMap] {s s' : State} (h : s.Alike o o' s') (command : Command) :
    (step command s').1.allocations = (step command s).1.allocations ∧
      (step command s').1.result = command.resultUnder o' (step command s).1 ∧
      (step command s).2.Alike o o' (step command s').2 := by
  by_cases hd : command = .describeContext
  · subst hd
    have htext : s'.context.text =
        Context.text { options := o', allocations := s.context.allocations } := by
      unfold Context.text
      rw [h.context.options', h.context.allocations]
    refine ⟨h.context.allocations, ?_, h⟩
    show Except.ok (Reply.text s'.context.text) = _
    rw [htext]
    rfl
  · obtain ⟨hresult, hnext⟩ := optionFree_execute hd s s' h
    refine ⟨hnext.context.allocations, hresult.trans ?_, hnext⟩
    cases command with
    | describeContext => exact absurd rfl hd
    | _ => rfl

theorem run_alike [CodeMap] {s s' : State} (h : s.Alike o o' s') (commands : List Command) :
    (run commands s).2.Alike o o' (run commands s').2 := by
  induction commands generalizing s s' with
  | nil => exact h
  | cons command commands ih => exact ih (step_alike h command).2.2

theorem initial_alike (o o' : Options) : (State.initial o).Alike o o' (.initial o') :=
  ⟨⟨rfl, rfl, rfl, rfl⟩, rfl, rfl⟩

/-- **Options change no result. After the same commands under any two options, the next command
gives the same under both, a fault being told in the alphabet of each pass, and the counts of
copies are equal, as are the chains and nodes that are kept. A fault has the same message in both
alphabets, and a text that differs in the characters of its frame only.** -/
theorem step_options [CodeMap] (o o' : Options) (commands : List Command) (command : Command) :
    let s := (run commands (.initial o)).2
    let s' := (run commands (.initial o')).2
    (step command s').1.allocations = (step command s).1.allocations ∧
      (step command s').1.result = command.resultUnder o' (step command s).1 ∧
      (step command s').2.chains = (step command s).2.chains ∧
      (step command s').2.nodes = (step command s).2.nodes ∧
      (∀ unicode f, (Fault.told unicode f).message = f.message) ∧
      ∀ cause location, ∃ heading number line caret place, ∀ unicode,
        (Fault.unreadable cause location unicode).text =
          heading ++ ((Frame.of unicode).top ++ (number ++ ((Frame.of unicode).side ++ (line ++
            ((Frame.of unicode).side ++
              (caret ++ ((Frame.of unicode).bottom ++ place))))))) := by
  intro s s'
  have h := run_alike (initial_alike o o') commands
  obtain ⟨hcount, hresult, hnext⟩ := step_alike h command
  exact ⟨hcount, hresult, hnext.chains, hnext.nodes, Fault.message_told,
    Fault.text_unreadable⟩

end Session

end SelectorAlgebra
