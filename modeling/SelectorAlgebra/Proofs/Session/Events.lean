import SelectorAlgebra.Proofs.Pass.Events
import SelectorAlgebra.Proofs.Session.Actions

/-
  The events of a session: the operations of the pass that its commands perform, in order, each with
  the context it is performed in. Whatever else commands do, the context after a session is the one
  that its events lead to (`leads_run`).
-/

namespace SelectorAlgebra.Session

variable {α β : Type} {x : Action α} {f : α → Action β}

/-! ## Finding what is kept -/

/-- The chain under a name that may be absent, if the name is known. -/
def State.optionalChain? (s : State) : Option String → Option (Option Chain)
  | some name => (s.chains.lookup name).map some
  | none => some none

/-- Whether an action finds a value in a state, or none and fails, and does nothing else. -/
def Finds (x : Action α) (s : State) (found : Option α) : Prop :=
  ∃ r, x.run s = (r, s) ∧ r.toOption = found

theorem finds_chainOf (name : String) (s : State) :
    Finds (chainOf name) s (s.chains.lookup name) := by
  refine ⟨_, chainOf_run name s, ?_⟩
  unfold lookUp
  cases s.chains.lookup name <;> rfl

theorem finds_nodeOf (name : String) (s : State) :
    Finds (nodeOf name) s (s.nodes.lookup name) := by
  refine ⟨_, nodeOf_run name s, ?_⟩
  unfold lookUp
  cases s.nodes.lookup name <;> rfl

theorem finds_optionalChainOf (name : Option String) (s : State) :
    Finds (optionalChainOf name) s (s.optionalChain? name) := by
  cases name with
  | none => exact ⟨.ok none, rfl, rfl⟩
  | some name =>
    obtain ⟨r, hr, e⟩ := finds_chainOf name s
    refine ⟨r.map some, ?_, ?_⟩
    · rw [optionalChainOf, run_map, hr]
    · rw [State.optionalChain?, ← e]
      cases r <;> rfl

theorem inContext_bind (x : Pass α) (f : α → Pass β) :
    inContext (x >>= f) = inContext x >>= fun a => inContext (f a) := by
  funext s
  show (inContext (x >>= f)).run s = (inContext x >>= fun a => inContext (f a)).run s
  rw [inContext_run, run_bind, run_bind, inContext_run]
  rcases x.run s.context with ⟨r, next⟩
  cases r <;> rfl

variable [CodeMap]

/-! ## Events of commands -/

/-- The events of what comes after a part of a command, if that part succeeds. -/
def eventsAfter (r : Except Stop α × State) (es : α → State → List Event) : List Event :=
  match r with
  | (.ok a, next) => es a next
  | (.error _, _) => []

/-- Reading a text, and an operation on the chain if there is one. -/
def eventsOfText (s : State) (text : String) (op : Chain → Operation) : List Event :=
  ⟨.readChain text, s.context⟩ ::
    eventsAfter ((inContext (Pass.readChain text)).run s) fun c next => [⟨op c, next.context⟩]

mutual

/-- The events of making a node. -/
def NodeTerm.events (s : State) : NodeTerm → List Event
  | .firstOf text => eventsOfText s text fun c => .firstSelector (some c)
  | .allOf text => eventsOfText s text .toNode
  | .collection terms => eventsOfAll s terms
  | .nil | .combinator _ | .selector _ | .kept _ => []

/-- The events of making nodes from left to right, up to the first that cannot be made. -/
def eventsOfAll (s : State) : List NodeTerm → List Event
  | [] => []
  | term :: terms =>
    term.events s ++ eventsAfter ((evaluate term).run s) fun _ next => eventsOfAll next terms

end

/-- The events of a command. With a name that is not known there are none. -/
def Command.events (s : State) : Command → List Event
  | .readChain text _ => [⟨.readChain text, s.context⟩]
  | .rereadChain chain =>
    (s.chains.lookup chain).elim [] fun c => [⟨.readChain c.text, s.context⟩]
  | .makeNode term _ => term.events s
  | .firstSelector chain _ =>
    (s.optionalChain? chain).elim [] fun c => [⟨.firstSelector c, s.context⟩]
  | .toNode chain _ => (s.chains.lookup chain).elim [] fun c => [⟨.toNode c, s.context⟩]
  | .optionalToNode chain _ =>
    (s.optionalChain? chain).elim [] fun c => [⟨.toNode? c, s.context⟩]
  | .copyNode node _ => (s.nodes.lookup node).elim [] fun n => [⟨.copyNode n, s.context⟩]
  | .toChain node _ => (s.nodes.lookup node).elim [] fun n => [⟨.toChain n, s.context⟩]
  | .plus node addend =>
    (s.nodes.lookup node).elim [] fun n =>
      (s.nodes.lookup addend).elim [] fun m => [⟨.plus n m, s.context⟩]
  | .contains node sought ordered =>
    (s.nodes.lookup node).elim [] fun n =>
      (s.nodes.lookup sought).elim [] fun m => [⟨.contains n m ordered, s.context⟩]
  | .pushNode _ _ term => term.events s
  | _ => []

/-- The events of commands one after another. -/
def eventsOf : List Command → State → List Event
  | [], _ => []
  | command :: commands, s => command.events s ++ eventsOf commands (step command s).2

/-! ## Where events lead -/

/-- Whether the events are those of an action: they lead from the context before it to the one
after it, and it fails with a fault exactly if one of them does. -/
structure Performs (x : Action α) (s : State) (es : List Event) : Prop where
  leads : Leads s.context es (x.run s).2.context
  fault : ∀ f, (x.run s).1 = .error (.fault f) ↔ ∃ e ∈ es, e.result = .error f

theorem Local.performs (h : Local x) (s : State) : Performs x s [] := by
  refine ⟨h.context_eq s, fun f => ⟨fun hrun => ?_, fun ⟨_, he, _⟩ => nomatch he⟩⟩
  obtain ⟨r, e⟩ := h.refused s _ hrun
  cases e

/-- An action that succeeds and leaves everything as it is. -/
theorem performs_of_ok {s : State} {a : α} (h : x.run s = (.ok a, s)) : Performs x s [] := by
  refine ⟨?_, fun f => ⟨fun hrun => ?_, fun ⟨_, he, _⟩ => nomatch he⟩⟩
  · rw [h]
    exact Leads.nil _
  · rw [h] at hrun
    cases hrun

/-- One part after another. The events of the second are those in the state after the first. -/
theorem Performs.bind {s : State} {es : List Event} {fs : α → State → List Event}
    (h : Performs x s es)
    (hf : ∀ a next, x.run s = (.ok a, next) → Performs (f a) next (fs a next)) :
    Performs (x >>= f) s (es ++ eventsAfter (x.run s) fs) := by
  obtain ⟨hleads, hfault⟩ := h
  unfold eventsAfter
  constructor
  · rw [run_bind]
    rcases hrun : x.run s with ⟨r, next⟩
    rw [hrun] at hleads
    cases r with
    | error stop => exact (List.append_nil es).symm ▸ hleads
    | ok a => exact hleads.append (hf a next hrun).leads
  · intro fault
    have hfault := hfault fault
    rw [run_bind]
    rcases hrun : x.run s with ⟨r, next⟩
    rw [hrun] at hfault
    cases r with
    | error stop =>
      rw [List.append_nil, ← hfault]
      simp only [Except.error.injEq]
    | ok a =>
      -- the first part succeeded, so the events that fail are among those of the second
      have hnone : ¬ ∃ e ∈ es, e.result = .error fault := fun h => nomatch hfault.2 h
      refine ((hf a next hrun).fault fault).trans ⟨?_, ?_⟩
      · rintro ⟨e, he, hresult⟩
        exact ⟨e, List.mem_append_right _ he, hresult⟩
      · rintro ⟨e, he, hresult⟩
        rcases List.mem_append.1 he with he | he
        · exact absurd ⟨e, he, hresult⟩ hnone
        · exact ⟨e, he, hresult⟩

/-- The events of an action are also those of it with a part after it that works on what is
kept. -/
theorem Performs.bind_local {s : State} {es : List Event} (h : Performs x s es)
    (hf : ∀ a, Local (f a)) : Performs (x >>= f) s es := by
  have hbind := h.bind fun a next _ => (hf a).performs next
  have hnil : eventsAfter (x.run s) (fun _ _ => []) = [] := by
    rcases x.run s with ⟨r, next⟩
    cases r <;> rfl
  rw [hnil, List.append_nil] at hbind
  exact hbind

theorem performs_inContext {op : Operation} {value : α → Value} {x : Pass α}
    (hop : op.perform = value <$> x) (s : State) :
    Performs (inContext x) s [⟨op, s.context⟩] := by
  have hnext : Event.next ⟨op, s.context⟩ = (x.run s.context).2 := by
    rw [Event.next, hop, run_map]
  have hresult : Event.result ⟨op, s.context⟩ = (x.run s.context).1.map value := by
    rw [Event.result, hop, run_map]
  refine ⟨⟨rfl, hnext.symm⟩, fun fault => ?_⟩
  have hsingle : (∃ e ∈ [Event.mk op s.context], e.result = .error fault) ↔
      (x.run s.context).1.map value = .error fault := by
    simp only [List.mem_singleton, exists_eq_left, hresult]
  rw [inContext_run, hsingle]
  cases (x.run s.context).1 with
  | error f => simp only [Except.map, Except.mapError, Except.error.injEq, Stop.fault.injEq]
  | ok a => simp only [Except.map, Except.mapError, reduceCtorEq]

/-- An action that asks for a kept value has no events if there is none. -/
theorem Finds.performs {s : State} {found : Option α} {es : α → List Event} (h : Finds x s found)
    (hx : Local x) (hf : ∀ a, Performs (f a) s (es a)) :
    Performs (x >>= f) s (found.elim [] es) := by
  obtain ⟨r, hr, rfl⟩ := h
  have hbind : Performs (x >>= f) s ([] ++ eventsAfter (x.run s) fun a _ => es a) :=
    (hx.performs s).bind fun a next hrun => by
      rw [hr] at hrun
      cases hrun
      exact hf a
  have hevents : eventsAfter (x.run s) (fun a _ => es a) = r.toOption.elim [] es := by
    rw [hr]
    cases r <;> rfl
  rw [hevents] at hbind
  exact hbind

/-- Reading a text and an operation on its chain, as one part. -/
theorem performs_ofText {op : Chain → Operation} {value : α → Value} {y : Chain → Pass α}
    (hop : ∀ c, (op c).perform = value <$> y c) (text : String) (s : State) :
    Performs (inContext (do y (← Pass.readChain text))) s (eventsOfText s text op) := by
  have hread : Performs (inContext (Pass.readChain text)) s [⟨.readChain text, s.context⟩] :=
    performs_inContext rfl s
  rw [inContext_bind]
  exact hread.bind fun c next _ => performs_inContext (hop c) next

mutual

theorem performs_evaluate (term : NodeTerm) (s : State) :
    Performs (evaluate term) s (term.events s) := by
  cases term with
  | firstOf text => exact performs_ofText (fun _ => rfl) text s
  | allOf text => exact performs_ofText (fun _ => rfl) text s
  | collection terms =>
    rw [evaluate]
    exact (performs_evaluateAll terms s).bind_local fun _ => .pure _
  | nil => exact (Local.pure _).performs s
  | combinator k => exact (Local.pure _).performs s
  | selector c => exact (Local.pure _).performs s
  | kept name => exact (Local.nodeOf name).performs s

theorem performs_evaluateAll (terms : List NodeTerm) (s : State) :
    Performs (evaluateAll terms) s (eventsOfAll s terms) := by
  cases terms with
  | nil => exact (Local.pure _).performs s
  | cons term terms =>
    rw [evaluateAll, eventsOfAll]
    exact (performs_evaluate term s).bind fun _ next _ =>
      (performs_evaluateAll terms next).bind_local fun _ => .pure _

end

/-- **The events of a command are those that it performs.** -/
theorem performs_execute (command : Command) (s : State) :
    Performs (execute command) s (command.events s) := by
  cases command with
  | readChain text target =>
    exact (performs_inContext rfl s).bind_local fun c => .storeChain target c
  | rereadChain chain =>
    exact (finds_chainOf chain s).performs (.chainOf chain) fun c =>
      (performs_inContext rfl s).bind_local fun _ => .pure _
  | makeNode term target =>
    exact (performs_evaluate term s).bind_local fun n => .storeNode target n
  | firstSelector chain target =>
    exact (finds_optionalChainOf chain s).performs (.optionalChainOf chain) fun c =>
      (performs_inContext rfl s).bind_local fun n => .storeNode target n
  | toNode chain target =>
    exact (finds_chainOf chain s).performs (.chainOf chain) fun c =>
      (performs_inContext rfl s).bind_local fun n => .storeNode target n
  | optionalToNode chain target =>
    exact (finds_optionalChainOf chain s).performs (.optionalChainOf chain) fun c =>
      (performs_inContext rfl s).bind_local fun n => .storeNode target n
  | copyNode node target =>
    exact (finds_nodeOf node s).performs (.nodeOf node) fun n =>
      (performs_inContext rfl s).bind_local fun m => .storeNode target m
  | toChain node target =>
    exact (finds_nodeOf node s).performs (.nodeOf node) fun n =>
      (performs_inContext rfl s).bind_local fun c => .storeChain target c
  | plus node addend =>
    exact (finds_nodeOf node s).performs (.nodeOf node) fun n =>
      (finds_nodeOf addend s).performs (.nodeOf addend) fun m =>
      (performs_inContext rfl s).bind_local fun sum => (Local.keepNode node sum).bind fun _ =>
        (Local.nodeOf addend).bind fun _ => .pure _
  | contains node sought ordered =>
    exact (finds_nodeOf node s).performs (.nodeOf node) fun n =>
      (finds_nodeOf sought s).performs (.nodeOf sought) fun m =>
      (performs_inContext rfl s).bind_local fun _ => .pure _
  | pushNode node path term =>
    exact (performs_evaluate term s).bind_local fun n => .changeNode node path _
  | countAllocations => exact performs_of_ok rfl
  | describeContext => exact performs_of_ok rfl
  | _ => exact (local_execute rfl).performs s

theorem leads_step (command : Command) (s : State) :
    Leads s.context (command.events s) (step command s).2.context :=
  (performs_execute command s).leads

/-- **A session leads where its events lead.** -/
theorem leads_run (commands : List Command) (s : State) :
    Leads s.context (eventsOf commands s) (run commands s).2.context := by
  induction commands generalizing s with
  | nil => exact Leads.nil _
  | cons command commands ih => exact (leads_step command s).append (ih (step command s).2)

theorem options_run (commands : List Command) (s : State) :
    (run commands s).2.context.options = s.context.options := by
  rw [(leads_run commands s).last_eq]

theorem sources_run (commands : List Command) (s : State) :
    (run commands s).2.context.sources =
      s.context.sources.addAll ((eventsOf commands s).flatMap Event.sources) := by
  rw [(leads_run commands s).last_eq]

end SelectorAlgebra.Session
