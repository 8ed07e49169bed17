import SelectorAlgebra.Proofs.Conversion.Outcome
import SelectorAlgebra.Session.Run

/-
  The parts of commands. Most of them work on what is kept, and ask no more of the context than
  where its sources are (`Local`). The commands that are made of such parts alone are those that
  `usesPass` leaves out.
-/

namespace SelectorAlgebra.Session

variable {α β : Type} {x : Action α} {f : α → Action β} {s : State}

/-! ## Running parts -/

theorem run_get_bind (f : State → Action β) (s : State) : (get >>= f).run s = (f s).run s := rfl

theorem inContext_run (x : Pass α) (s : State) : (inContext x).run s =
    ((x.run s.context).1.mapError Stop.fault, { s with context := (x.run s.context).2 }) := rfl

/-- What is kept under a name, or the refusal of a name that is not known. -/
def lookUp (names : Names α) (name : String) : Except Stop α :=
  match names.lookup name with
  | some a => .ok a
  | none => .error (.refusal (.unknownName name))

theorem chainOf_run (name : String) (s : State) :
    (chainOf name).run s = (lookUp s.chains name, s) := by
  unfold chainOf lookUp
  rw [run_get_bind]
  cases s.chains.lookup name <;> rfl

theorem nodeOf_run (name : String) (s : State) :
    (nodeOf name).run s = (lookUp s.nodes name, s) := by
  unfold nodeOf lookUp
  rw [run_get_bind]
  cases s.nodes.lookup name <;> rfl

/-! ## Parts that work on what is kept -/

/-- An action that leaves the context as it is, would do the same in any context with the same
sources, and fails only by being refused. -/
structure Local (x : Action α) : Prop where
  run_eq : ∀ s ctx, ctx.sources = s.context.sources →
    x.run { s with context := ctx } = ((x.run s).1, { (x.run s).2 with context := ctx })
  refused : ∀ s stop, (x.run s).1 = .error stop → ∃ r, stop = .refusal r

namespace Local

/-- The context stays as it is. -/
theorem context_eq (h : Local x) (s : State) : (x.run s).2.context = s.context := by
  have hs : x.run s = _ := h.run_eq s s.context rfl
  rw [hs]

theorem pure (a : α) : Local (Pure.pure a : Action α) :=
  ⟨fun _ _ _ => rfl, fun _ _ h => nomatch h⟩

theorem refuse (r : Refusal) : Local (Session.refuse r : Action α) := by
  refine ⟨fun _ _ _ => rfl, fun _ stop h => ?_⟩
  cases h
  exact ⟨r, rfl⟩

theorem bind (hx : Local x) (hf : ∀ a, Local (f a)) : Local (x >>= f) := by
  constructor
  · intro s ctx h
    have hs := hx.context_eq s
    rw [run_bind, run_bind, hx.run_eq s ctx h]
    rcases hr : x.run s with ⟨r, next⟩
    rw [hr] at hs
    cases r with
    | error stop => rfl
    | ok a => exact (hf a).run_eq next ctx (by rw [h, ← hs])
  · intro s stop h
    rw [run_bind] at h
    have hs := hx.refused s
    rcases hr : x.run s with ⟨r, next⟩
    rw [hr] at h hs
    cases r with
    | error stop' =>
      cases h
      exact hs stop rfl
    | ok a => exact (hf a).refused next stop h

theorem map (hx : Local x) (g : α → β) : Local (g <$> x) := by
  constructor
  · intro s ctx h
    rw [run_map, run_map, hx.run_eq s ctx h]
  · intro s stop h
    rw [run_map] at h
    have hs := hx.refused s
    cases hr : (x.run s).1 with
    | error stop' =>
      rw [hr] at h
      cases h
      exact hs stop hr
    | ok a =>
      rw [hr] at h
      cases h

theorem lookUp_refused {names : Names α} {name : String} {stop : Stop}
    (h : lookUp names name = .error stop) : ∃ r, stop = .refusal r := by
  unfold lookUp at h
  split at h
  · cases h
  · cases h
    exact ⟨_, rfl⟩

theorem chainOf (name : String) : Local (Session.chainOf name) := by
  refine ⟨fun s ctx _ => ?_, fun s stop h => ?_⟩
  · rw [chainOf_run, chainOf_run]
  · rw [chainOf_run] at h
    exact lookUp_refused h

theorem nodeOf (name : String) : Local (Session.nodeOf name) := by
  refine ⟨fun s ctx _ => ?_, fun s stop h => ?_⟩
  · rw [nodeOf_run, nodeOf_run]
  · rw [nodeOf_run] at h
    exact lookUp_refused h

theorem optionalChainOf (name : Option String) : Local (Session.optionalChainOf name) := by
  cases name with
  | none => exact .pure none
  | some name => exact (chainOf name).map some

theorem nodeAt (name : String) (path : List Nat) : Local (Session.nodeAt name path) := by
  refine (nodeOf name).bind fun n => ?_
  cases n.at? path with
  | none => exact .refuse _
  | some m => exact .pure m

theorem keepChain (name : String) (c : Chain) : Local (Session.keepChain name c) :=
  ⟨fun _ _ _ => rfl, fun _ _ h => nomatch h⟩

theorem keepNode (name : String) (n : Node) : Local (Session.keepNode name n) :=
  ⟨fun _ _ _ => rfl, fun _ _ h => nomatch h⟩

/-- A chain is located by the sources alone. -/
theorem replyChain [CodeMap] (c : Chain) : Local (Session.replyChain c) := by
  refine ⟨fun s ctx h => ?_, fun _ _ h => nomatch h⟩
  have hlocate : ctx.locate? c.span = s.context.locate? c.span := by
    rw [Context.locate?, Context.locate?, h]
  show (Except.ok (Reply.chain c (ctx.locate? c.span)), _) = _
  rw [hlocate]
  rfl

theorem storeChain [CodeMap] (name : String) (c : Chain) : Local (Session.storeChain name c) :=
  (keepChain name c).bind fun _ => replyChain c

theorem storeNode (name : String) (n : Node) : Local (Session.storeNode name n) :=
  (keepNode name n).bind fun _ => .pure _

theorem editChain (c : Chain) (n : Nat) (edit : LinkEdit) : Local (Session.editChain c n edit) := by
  unfold Session.editChain
  dsimp only
  cases edit.tail with
  | none => exact (Local.pure _).bind fun _ => .pure _
  | some name => exact ((optionalChainOf name).map _).bind fun _ => .pure _

theorem changeNode (name : String) (path : List Nat) (change : Node → Option Node) :
    Local (Session.changeNode name path change) := by
  refine (nodeAt name path).bind fun n => ?_
  cases change n with
  | none => exact .pure _
  | some changed => exact (nodeOf name).bind fun m => storeNode name _

end Local

/-! ## Commands that work on what is kept -/

/-- Whether a command performs operations of the pass, or looks at more of the context than its
sources. -/
def Command.usesPass : Command → Bool
  | readChain .. | rereadChain .. | makeNode .. | firstSelector .. | toNode .. | optionalToNode ..
  | copyNode .. | toChain .. | plus .. | contains .. | pushNode .. | countAllocations
  | describeContext => true
  | _ => false

/-- Commands that need nothing of the pass work on what is kept. -/
theorem local_execute [CodeMap] {command : Command} (h : command.usesPass = false) :
    Local (execute command) := by
  cases command with
  | newChain head k tail target =>
    exact (Local.optionalChainOf tail).bind fun c => .storeChain target _
  | emptyChain target => exact .storeChain target _
  | chainOfJoints joints target => exact .storeChain target _
  | repeatChain chain times target =>
    exact (Local.chainOf chain).bind fun c => (Local.keepChain target _).bind fun _ => .pure _
  | copyChain chain target => exact (Local.chainOf chain).bind fun c => .storeChain target c
  | lastLink chain target => exact (Local.chainOf chain).bind fun c => .storeChain target _
  | dropLinks chain n target =>
    refine (Local.chainOf chain).bind fun c => ?_
    cases c.drop? n with
    | none => exact .pure _
    | some c => exact .storeChain target c
  | editLink chain n edit =>
    refine (Local.chainOf chain).bind fun c => ?_
    split
    · exact (Local.editChain c n edit).bind fun c => .storeChain chain c
    · exact .refuse _
  | inspectChain chain => exact (Local.chainOf chain).bind fun c => .replyChain c
  | compareChains a b =>
    exact (Local.chainOf a).bind fun c => (Local.chainOf b).bind fun d => .pure _
  | compareCompounds a b => exact .pure _
  | compareNames names => exact .pure _
  | nestNode node times target => exact (Local.nodeOf node).bind fun n => .storeNode target _
  | repeatNode node times target => exact (Local.nodeOf node).bind fun n => .storeNode target _
  | compareNodes a b =>
    exact (Local.nodeOf a).bind fun n => (Local.nodeOf b).bind fun m => .pure _
  | inspectNode node path => exact (Local.nodeAt node path).bind fun n => .pure _
  | getNode node path target => exact (Local.nodeAt node path).bind fun n => .storeNode target n
  | popNode node path =>
    refine (Local.nodeAt node path).bind fun n => ?_
    cases n.pop? with
    | none => exact .pure _
    | some popped =>
      exact (Local.nodeOf node).bind fun m => (Local.keepNode node _).bind fun _ => .pure _
  | setSelector node path c => exact .changeNode node path _
  | _ => cases h

end SelectorAlgebra.Session
