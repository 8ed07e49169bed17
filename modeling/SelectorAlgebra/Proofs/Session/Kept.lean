import SelectorAlgebra.Proofs.Session.Events

/-
  The chains that commands keep. A command keeps one chain at most, which goes before all that are
  kept already (`chains_step`). So what holds of the chains of a session follows from what holds of
  `Command.kept?`.
-/

namespace SelectorAlgebra.Session

variable {α β : Type} {x : Action α} {f : α → Action β} {s : State}

/-! ## What commands keep -/

/-- A chain with another head and another combinator at link number `n`, as asked for. -/
def LinkEdit.relabel (edit : LinkEdit) (n : Nat) (c : Chain) : Chain :=
  let c := edit.head.elim c fun head => c.modify n fun l => { l with head }
  edit.combinator.elim c fun combinator => c.modify n fun l => { l with combinator }

/-- A chain with a simple selector more at link number `n`, as asked for. -/
def LinkEdit.lengthen (edit : LinkEdit) (n : Nat) (c : Chain) : Chain :=
  edit.added.elim c fun t => c.modify n (addToHead t)

/-- A chain with the changes to link number `n` that are asked for. There is none if the name of
its new tail is not known. -/
def State.edited? (s : State) (c : Chain) (n : Nat) (edit : LinkEdit) : Option Chain :=
  match edit.tail with
  | none => some (edit.lengthen n (edit.relabel n c))
  | some name => (s.optionalChain? name).map fun tail =>
    edit.lengthen n ((edit.relabel n c).setTail n tail)

/-- The chain that a command keeps, behind the name that it keeps it under. -/
def Command.kept? [CodeMap] (s : State) : Command → Option (String × Chain)
  | .readChain text target => do return (target, ← ((Pass.readChain text).run s.context).1.toOption)
  | .newChain head k tail target => do return (target, .cons head k (← s.optionalChain? tail))
  | .emptyChain target => some (target, .empty)
  | .chainOfJoints joints target => some (target, .ofJoints joints)
  | .repeatChain chain times target => do
    return (target, (← s.chains.lookup chain).repeated times)
  | .copyChain chain target => do return (target, ← s.chains.lookup chain)
  | .lastLink chain target => do return (target, (← s.chains.lookup chain).last)
  | .dropLinks chain n target => do return (target, ← (← s.chains.lookup chain).drop? n)
  | .editLink chain n edit => do
    let c ← s.chains.lookup chain
    if n < c.length then return (chain, ← s.edited? c n edit) else none
  | .toChain node target => do
    let n ← s.nodes.lookup node
    return (target, ← ((Pass.toChain n).run s.context).1.toOption)
  | _ => none

/-! ## What is at hand -/

theorem mem_of_lookup {names : Names α} {name : String} {a : α} (h : names.lookup name = some a) :
    (name, a) ∈ names := by
  obtain ⟨before, after, rfl, -⟩ := List.lookup_eq_some_iff.1 h
  exact List.mem_append_right _ List.mem_cons_self

theorem lookup_of_optionalChain? {name : Option String} {c : Option Chain}
    (h : s.optionalChain? name = some c) : ∀ d ∈ c, ∃ name, s.chains.lookup name = some d := by
  rintro d rfl
  cases name with
  | none => cases h
  | some name =>
    obtain ⟨d', hd', e⟩ := Option.map_eq_some_iff.1 h
    cases e
    exact ⟨name, hd'⟩

theorem run_eq_ok_of_toOption {x : Pass α} {ctx : Context} {a : α}
    (h : (x.run ctx).1.toOption = some a) : ∃ next, x.run ctx = (.ok a, next) := by
  rcases hrun : x.run ctx with ⟨r, next⟩
  rw [hrun] at h
  cases r with
  | error fault => cases h
  | ok b =>
    cases h
    exact ⟨next, rfl⟩

/-! ## Parts that keep no chain -/

/-- An action that leaves the chains that are kept as they are. -/
def LeavesChains (x : Action α) : Prop := ∀ s : State, (x.run s).2.chains = s.chains

namespace LeavesChains

theorem pure (a : α) : LeavesChains (Pure.pure a : Action α) := fun _ => rfl

theorem refuse (r : Refusal) : LeavesChains (Session.refuse r : Action α) := fun _ => rfl

theorem inContext (x : Pass α) : LeavesChains (Session.inContext x) := fun _ => rfl

theorem bind (hx : LeavesChains x) (hf : ∀ a, LeavesChains (f a)) : LeavesChains (x >>= f) := by
  intro s
  have hs := hx s
  rw [run_bind]
  rcases hrun : x.run s with ⟨r, next⟩
  rw [hrun] at hs
  cases r with
  | error stop => exact hs
  | ok a => exact (hf a next).trans hs

theorem of_finds {found : State → Option α} (h : ∀ s, Finds x s (found s)) : LeavesChains x := by
  intro s
  obtain ⟨r, hr, -⟩ := h s
  rw [hr]

theorem chainOf (name : String) : LeavesChains (Session.chainOf name) :=
  of_finds (finds_chainOf name)

theorem optionalChainOf (name : Option String) : LeavesChains (Session.optionalChainOf name) :=
  of_finds (finds_optionalChainOf name)

theorem nodeOf (name : String) : LeavesChains (Session.nodeOf name) :=
  of_finds (finds_nodeOf name)

theorem nodeAt (name : String) (path : List Nat) : LeavesChains (Session.nodeAt name path) := by
  refine (nodeOf name).bind fun n => ?_
  cases n.at? path with
  | none => exact .refuse _
  | some m => exact .pure m

theorem storeNode (name : String) (n : Node) : LeavesChains (Session.storeNode name n) :=
  fun _ => rfl

theorem changeNode (name : String) (path : List Nat) (change : Node → Option Node) :
    LeavesChains (Session.changeNode name path change) := by
  refine (nodeAt name path).bind fun n => ?_
  cases change n with
  | none => exact .pure _
  | some changed => exact (nodeOf name).bind fun m => storeNode name _

mutual

theorem evaluate [CodeMap] (term : NodeTerm) : LeavesChains (Session.evaluate term) := by
  cases term with
  | firstOf text => exact inContext _
  | allOf text => exact inContext _
  | collection terms =>
    rw [Session.evaluate]
    exact (evaluateAll terms).bind fun _ => .pure _
  | nil => exact .pure _
  | combinator k => exact .pure _
  | selector c => exact .pure _
  | kept name => exact nodeOf name

theorem evaluateAll [CodeMap] (terms : List NodeTerm) :
    LeavesChains (Session.evaluateAll terms) := by
  cases terms with
  | nil => exact .pure _
  | cons term terms =>
    rw [Session.evaluateAll]
    exact (evaluate term).bind fun _ => (evaluateAll terms).bind fun _ => .pure _

end

end LeavesChains

/-! ## Parts that keep one -/

/-- An action keeps a chain, or none, and leaves those that are kept already behind it. -/
def Adds (x : Action α) (s : State) (kept : Option (String × Chain)) : Prop :=
  (x.run s).2.chains = kept.toList ++ s.chains

theorem LeavesChains.adds (h : LeavesChains x) (s : State) : Adds x s none := h s

theorem adds_storeChain [CodeMap] (name : String) (c : Chain) (s : State) :
    Adds (storeChain name c) s (some (name, c)) := rfl

/-- What an action finds is at hand for what comes after it. -/
theorem Finds.adds {found : Option α} {kept : α → Option (String × Chain)} (h : Finds x s found)
    (hf : ∀ a, Adds (f a) s (kept a)) : Adds (x >>= f) s (found >>= kept) := by
  obtain ⟨r, hr, rfl⟩ := h
  unfold Adds
  rw [run_bind, hr]
  cases r with
  | error stop => rfl
  | ok a => exact hf a

/-- The chain that an operation of the pass gives is kept. -/
theorem adds_inContext [CodeMap] (x : Pass Chain) (name : String) (s : State) :
    Adds (inContext x >>= storeChain name) s
      (do return (name, ← (x.run s.context).1.toOption)) := by
  unfold Adds
  rw [run_bind, inContext_run]
  cases (x.run s.context).1 with
  | error fault => rfl
  | ok c => rfl

theorem finds_editChain (c : Chain) (n : Nat) (edit : LinkEdit) (s : State) :
    Finds (editChain c n edit) s (s.edited? c n edit) := by
  obtain ⟨head, combinator, tail, added⟩ := edit
  cases tail with
  | none => exact ⟨_, rfl, rfl⟩
  | some name =>
    obtain ⟨r, hr, e⟩ := finds_optionalChainOf name s
    unfold Finds editChain State.edited?
    dsimp only
    rw [run_bind, run_map, hr, ← e]
    cases r with
    | error stop => exact ⟨_, rfl, rfl⟩
    | ok t => exact ⟨_, rfl, rfl⟩

/-- **A command keeps the chain of `Command.kept?`, and leaves those that are kept already.** -/
theorem adds_execute [CodeMap] (command : Command) (s : State) :
    Adds (execute command) s (command.kept? s) := by
  cases command with
  | readChain text target => exact adds_inContext _ target s
  | newChain head k tail target =>
    exact (finds_optionalChainOf tail s).adds fun c => adds_storeChain target _ s
  | emptyChain target => exact adds_storeChain target _ s
  | chainOfJoints joints target => exact adds_storeChain target _ s
  | repeatChain chain times target => exact (finds_chainOf chain s).adds fun c => rfl
  | copyChain chain target =>
    exact (finds_chainOf chain s).adds fun c => adds_storeChain target c s
  | lastLink chain target =>
    exact (finds_chainOf chain s).adds fun c => adds_storeChain target _ s
  | dropLinks chain n target =>
    refine (finds_chainOf chain s).adds fun c => ?_
    cases c.drop? n with
    | none => exact (LeavesChains.pure _).adds s
    | some d => exact adds_storeChain target d s
  | editLink chain n edit =>
    refine (finds_chainOf chain s).adds fun c => ?_
    split
    · exact (finds_editChain c n edit s).adds fun d => adds_storeChain chain d s
    · exact (LeavesChains.refuse _).adds s
  | toChain node target =>
    exact (finds_nodeOf node s).adds fun n => adds_inContext (Pass.toChain n) target s
  | rereadChain chain =>
    exact ((LeavesChains.chainOf chain).bind fun c => (LeavesChains.inContext _).bind fun _ =>
      .pure _).adds s
  | inspectChain chain => exact ((LeavesChains.chainOf chain).bind fun c _ => rfl).adds s
  | compareChains a b =>
    exact ((LeavesChains.chainOf a).bind fun _ => (LeavesChains.chainOf b).bind fun _ =>
      .pure _).adds s
  | makeNode term target =>
    exact ((LeavesChains.evaluate term).bind fun n => .storeNode target n).adds s
  | nestNode node times target | repeatNode node times target =>
    exact ((LeavesChains.nodeOf node).bind fun n => .storeNode target _).adds s
  | firstSelector chain target | optionalToNode chain target =>
    exact ((LeavesChains.optionalChainOf chain).bind fun c => (LeavesChains.inContext _).bind
      fun n => .storeNode target n).adds s
  | toNode chain target =>
    exact ((LeavesChains.chainOf chain).bind fun c => (LeavesChains.inContext _).bind
      fun n => .storeNode target n).adds s
  | copyNode node target =>
    exact ((LeavesChains.nodeOf node).bind fun n => (LeavesChains.inContext _).bind
      fun m => .storeNode target m).adds s
  | plus node addend =>
    exact ((LeavesChains.nodeOf node).bind fun n => (LeavesChains.nodeOf addend).bind fun m =>
      (LeavesChains.inContext _).bind fun sum => .bind (fun _ => rfl) fun _ =>
        (LeavesChains.nodeOf addend).bind fun _ => .pure _).adds s
  | contains node sought ordered =>
    exact ((LeavesChains.nodeOf node).bind fun n => (LeavesChains.nodeOf sought).bind fun m =>
      (LeavesChains.inContext _).bind fun _ => .pure _).adds s
  | compareNodes a b =>
    exact ((LeavesChains.nodeOf a).bind fun n => (LeavesChains.nodeOf b).bind fun m =>
      .pure _).adds s
  | inspectNode node path => exact ((LeavesChains.nodeAt node path).bind fun n => .pure _).adds s
  | getNode node path target =>
    exact ((LeavesChains.nodeAt node path).bind fun n => .storeNode target n).adds s
  | pushNode node path term =>
    exact ((LeavesChains.evaluate term).bind fun n => .changeNode node path _).adds s
  | popNode node path =>
    refine LeavesChains.adds ((LeavesChains.nodeAt node path).bind fun n => ?_) s
    cases n.pop? with
    | none => exact .pure _
    | some popped =>
      exact (LeavesChains.nodeOf node).bind fun m => .bind (fun _ => rfl) fun _ => .pure _
  | setSelector node path c => exact (LeavesChains.changeNode node path _).adds s
  | compareCompounds | compareNames | countAllocations | describeContext => rfl

/-- The chains after a command. -/
theorem chains_step [CodeMap] (command : Command) (s : State) :
    (step command s).2.chains = (command.kept? s).toList ++ s.chains :=
  adds_execute command s

end SelectorAlgebra.Session
