import SelectorAlgebra.Proofs.Conversion.Inverse
import SelectorAlgebra.Proofs.Session.Kept

/-
  Where kept chains were read. Their spans are those of sources of the context, and no command
  changes that (`State.Located`), so every operation of a session can locate the chain that it is
  given (`State.Located.eventsOf`).
-/

namespace SelectorAlgebra

variable [CodeMap] {m : SourceMap} {c : Chain}

/-! ## Chains read in a source -/

/-- A link has no span, or that of a source. -/
def Link.ReadIn (m : SourceMap) (l : Link) : Prop :=
  ∀ span, l.span = some span → ∃ p ∈ m.placed, span = p.span

/-- The spans of a chain are those of sources. -/
def Chain.ReadIn (m : SourceMap) (c : Chain) : Prop := ∀ l ∈ c.links, l.ReadIn m

theorem Link.readIn_of_none {l : Link} (h : l.span = none) : l.ReadIn m := by
  intro span hspan
  rw [h] at hspan
  cases hspan

namespace Chain

theorem ReadIn.addAll (h : c.ReadIn m) (ss : List Source) : c.ReadIn (m.addAll ss) := by
  intro l hl span hspan
  obtain ⟨p, hp, e⟩ := h l hl span hspan
  exact ⟨p, SourceMap.mem_addAll hp ss, e⟩

theorem readIn_ofJoints (js : List Joint) : (ofJoints js).ReadIn m := by
  intro l hl
  refine Link.readIn_of_none ?_
  cases js with
  | nil =>
    obtain rfl := List.mem_singleton.1 hl
    rfl
  | cons j js =>
    rcases List.mem_cons.1 hl with rfl | hl
    · rfl
    · obtain ⟨k, -, rfl⟩ := List.mem_map.1 hl
      rfl

theorem readIn_cons {head : Option Compound} {k : Combinator} {tail : Option Chain}
    (h : ∀ d ∈ tail, d.ReadIn m) : (cons head k tail).ReadIn m := by
  intro l hl
  rw [links_cons] at hl
  rcases List.mem_cons.1 hl with rfl | hl
  · exact Link.readIn_of_none rfl
  · cases tail with
    | none => cases hl
    | some d => exact h d rfl l hl

/-- A chain that is read gets the span of its source. -/
theorem readIn_withSpan (js : List Joint) {p : PlacedSource} (hp : p ∈ m.placed) :
    ((ofJoints js).withSpan p.span).ReadIn m := by
  intro l hl
  rcases List.mem_cons.1 hl with rfl | hl
  · intro span hspan
    cases hspan
    exact ⟨p, hp, rfl⟩
  · exact readIn_ofJoints js l (List.mem_cons_of_mem _ hl)

theorem ReadIn.last (h : c.ReadIn m) : c.last.ReadIn m := by
  intro l hl
  obtain rfl := List.mem_singleton.1 hl
  exact h _ List.getLastD_mem_cons

theorem ReadIn.drop? (h : c.ReadIn m) {n : Nat} {d : Chain} (hd : c.drop? n = some d) :
    d.ReadIn m := by
  unfold Chain.drop? at hd
  split at hd
  · cases hd
  · rename_i first rest hdrop
    cases hd
    intro l hl
    refine h l (List.mem_of_mem_drop (i := n) ?_)
    rw [hdrop]
    exact hl

/-- Changing a link other than in its span keeps where the chain was read. -/
theorem ReadIn.modify (h : c.ReadIn m) (n : Nat) {f : Link → Link}
    (hf : ∀ l, (f l).span = l.span) : (c.modify n f).ReadIn m := by
  have hchanged (l : Link) (hl : l ∈ c.links) : (f l).ReadIn m := by
    intro span hspan
    rw [hf] at hspan
    exact h l hl span hspan
  intro l hl
  cases n with
  | zero =>
    rcases List.mem_cons.1 hl with rfl | hl
    · exact hchanged _ List.mem_cons_self
    · exact h l (List.mem_cons_of_mem _ hl)
  | succ n =>
    rcases List.mem_cons.1 hl with rfl | hl
    · exact h _ List.mem_cons_self
    · obtain ⟨i, hi⟩ := List.mem_iff_getElem?.1 hl
      change (c.rest.modify n f)[i]? = some l at hi
      rw [List.getElem?_modify] at hi
      obtain ⟨k, hk, rfl⟩ := Option.map_eq_some_iff.1 hi
      have hmem : k ∈ c.links := List.mem_cons_of_mem _ (List.mem_of_getElem? hk)
      split
      · exact hchanged k hmem
      · exact h k hmem

/-- A change that may be asked for, other than in the span of a link. -/
theorem ReadIn.change {γ : Type} (h : c.ReadIn m) (n : Nat) (asked : Option γ)
    {f : γ → Link → Link} (hf : ∀ a l, (f a l).span = l.span) :
    (asked.elim c fun a => c.modify n (f a)).ReadIn m := by
  cases asked with
  | none => exact h
  | some a => exact h.modify n (hf a)

theorem ReadIn.setTail (h : c.ReadIn m) (n : Nat) {tail : Option Chain}
    (ht : ∀ d ∈ tail, d.ReadIn m) : (c.setTail n tail).ReadIn m := by
  intro l hl
  rcases List.mem_cons.1 hl with rfl | hl
  · exact h _ List.mem_cons_self
  rcases List.mem_append.1 hl with hl | hl
  · exact h l (List.mem_cons_of_mem _ (List.mem_of_mem_take hl))
  · cases tail with
    | none => cases hl
    | some d => exact ht d rfl l hl

end Chain

/-! ## Operations on chains that were read -/

/-- The chain that an operation is given has no span, or that of a source of the context. -/
def Event.Located (e : Event) : Prop :=
  ∀ span, e.operation.span? = some span → ∃ p ∈ e.context.sources.placed, span = p.span

theorem Event.located_of_none {e : Event} (h : e.operation.span? = none) : e.Located := by
  intro span hspan
  rw [h] at hspan
  cases hspan

namespace Session

variable {α : Type} {s : State}

/-! ## Commands that keep chains read in the sources of a map -/

/-- All chains that are kept were read in sources of the map. -/
def State.ReadIn (m : SourceMap) (s : State) : Prop := ∀ entry ∈ s.chains, entry.2.ReadIn m

theorem State.ReadIn.of_lookup (h : s.ReadIn m) {name : String}
    (hc : s.chains.lookup name = some c) : c.ReadIn m :=
  h (name, c) (mem_of_lookup hc)

theorem State.ReadIn.of_optionalChain? (h : s.ReadIn m) {name : Option String}
    {tail : Option Chain} (ht : s.optionalChain? name = some tail) : ∀ d ∈ tail, d.ReadIn m := by
  intro d hd
  obtain ⟨name, hname⟩ := lookup_of_optionalChain? ht d hd
  exact h.of_lookup hname

theorem State.ReadIn.edited? (h : s.ReadIn m) (hc : c.ReadIn m) {n : Nat} {edit : LinkEdit}
    {d : Chain} (hd : s.edited? c n edit = some d) : d.ReadIn m := by
  have hhead := hc.change n edit.head (f := fun head l => { l with head }) fun _ _ => rfl
  have hrelabel : (edit.relabel n c).ReadIn m := hhead.change n edit.combinator
    (f := fun combinator l => { l with combinator }) fun _ _ => rfl
  have hlengthen {d : Chain} (hd : d.ReadIn m) : (edit.lengthen n d).ReadIn m :=
    hd.change n edit.added (f := addToHead) fun _ _ => rfl
  unfold State.edited? at hd
  split at hd
  · cases hd
    exact hlengthen hrelabel
  · obtain ⟨tail, ht, rfl⟩ := Option.map_eq_some_iff.1 hd
    exact hlengthen (hrelabel.setTail n (h.of_optionalChain? ht))

/-- What a command keeps was read where all that is kept was, unless the command reads it. -/
theorem State.ReadIn.kept? (h : s.ReadIn m) {command : Command}
    (hread : ∀ text target, command ≠ .readChain text target) {name : String}
    (hk : command.kept? s = some (name, c)) : c.ReadIn m := by
  cases command with
  | readChain text target => exact absurd rfl (hread text target)
  | newChain head k tail target =>
    obtain ⟨t, ht, e⟩ := Option.bind_eq_some_iff.1 hk
    cases e
    exact Chain.readIn_cons (h.of_optionalChain? ht)
  | emptyChain target =>
    cases hk
    exact Chain.readIn_ofJoints []
  | chainOfJoints joints target =>
    cases hk
    exact Chain.readIn_ofJoints joints
  | repeatChain chain times target =>
    obtain ⟨d, hd, e⟩ := Option.bind_eq_some_iff.1 hk
    cases e
    exact Chain.readIn_ofJoints _
  | copyChain chain target =>
    obtain ⟨d, hd, e⟩ := Option.bind_eq_some_iff.1 hk
    cases e
    exact h.of_lookup hd
  | lastLink chain target =>
    obtain ⟨d, hd, e⟩ := Option.bind_eq_some_iff.1 hk
    cases e
    exact (h.of_lookup hd).last
  | dropLinks chain n target =>
    obtain ⟨d, hd, hk⟩ := Option.bind_eq_some_iff.1 hk
    obtain ⟨d', hd', e⟩ := Option.bind_eq_some_iff.1 hk
    cases e
    exact (h.of_lookup hd).drop? hd'
  | editLink chain n edit =>
    obtain ⟨d, hd, hk⟩ := Option.bind_eq_some_iff.1 hk
    split at hk
    · obtain ⟨d', hd', e⟩ := Option.bind_eq_some_iff.1 hk
      cases e
      exact h.edited? (h.of_lookup hd) hd'
    · cases hk
  | toChain node target =>
    obtain ⟨n, hn, hk⟩ := Option.bind_eq_some_iff.1 hk
    obtain ⟨d, hd, e⟩ := Option.bind_eq_some_iff.1 hk
    cases e
    obtain ⟨nodes, joints, -, -, -, rfl⟩ := passToChain_eq_ok.1 (run_eq_ok_of_toOption hd)
    exact Chain.readIn_ofJoints joints
  | _ => cases hk

/-- Every command but reading keeps only chains that were read in sources there are. -/
theorem State.ReadIn.step (hs : s.ReadIn m) {command : Command}
    (h : ∀ text target, command ≠ .readChain text target) : (step command s).2.ReadIn m := by
  intro entry hentry
  rw [chains_step] at hentry
  rcases List.mem_append.1 hentry with hentry | hentry
  · exact hs.kept? h (Option.mem_toList.1 hentry)
  · exact hs entry hentry

/-- Reading adds a source, and keeps the chain with its span if the text can be read. -/
theorem step_readChain (text target : String) (s : State) :
    (step (.readChain text target) s).2 = match readJoints text with
      | .ok joints =>
        { s with
          context := { s.context with sources := s.context.sources.add ⟨"stdin", text⟩ }
          chains := (target, (Chain.ofJoints joints).withSpan
            (s.context.sources.place ⟨"stdin", text⟩).span) :: s.chains }
      | .error _ =>
        { s with context := { s.context with sources := s.context.sources.add ⟨"stdin", text⟩ } } := by
  rw [step, execute, run_bind, inContext_run]
  cases h : readJoints text with
  | ok joints =>
    rw [Pass.readChain_run_ok h]
    rfl
  | error failure =>
    rw [Pass.readChain_run_error h]
    rfl

/-! ## Sessions -/

/-- All chains that are kept were read in sources of the context. -/
def State.Located (s : State) : Prop := s.ReadIn s.context.sources

theorem State.Located.step (h : s.Located) (command : Command) : (step command s).2.Located := by
  have hbefore : s.ReadIn (Session.step command s).2.context.sources := by
    rw [(leads_step command s).last_eq]
    exact fun entry hentry => (h entry hentry).addAll _
  -- only reading keeps a span that is new, and the source of that span is added with it
  by_cases hread : ∃ text target, command = .readChain text target
  · obtain ⟨text, target, rfl⟩ := hread
    rw [step_readChain] at hbefore ⊢
    cases hj : readJoints text with
    | error failure =>
      rw [hj] at hbefore
      exact hbefore
    | ok joints =>
      rw [hj] at hbefore
      intro entry hentry
      rcases List.mem_cons.1 hentry with rfl | hentry
      · exact Chain.readIn_withSpan joints List.mem_cons_self
      · exact hbefore entry hentry
  · exact hbefore.step fun text target e => hread ⟨text, target, e⟩

theorem State.Located.run (h : s.Located) (commands : List Command) :
    (run commands s).2.Located := by
  induction commands generalizing s with
  | nil => exact h
  | cons command commands ih => exact ih (h.step command)

/-! ## Events -/

/-- A text that is read is located for the operation on its chain. -/
theorem located_eventsOfText (s : State) (text : String) {op : Chain → Operation}
    (hop : ∀ c, (op c).span? = c.span) : ∀ e ∈ eventsOfText s text op, e.Located := by
  intro e he
  rcases List.mem_cons.1 he with rfl | he
  · exact Event.located_of_none rfl
  rw [inContext_run] at he
  cases h : readJoints text with
  | error failure =>
    rw [Pass.readChain_run_error h] at he
    cases he
  | ok joints =>
    rw [Pass.readChain_run_ok h] at he
    obtain rfl := List.mem_singleton.1 he
    intro span hspan
    rw [hop] at hspan
    cases hspan
    exact ⟨s.context.sources.place ⟨"stdin", text⟩, List.mem_cons_self, rfl⟩

mutual

theorem located_termEvents (term : NodeTerm) (s : State) : ∀ e ∈ term.events s, e.Located := by
  cases term with
  | firstOf text => exact located_eventsOfText s text fun _ => rfl
  | allOf text => exact located_eventsOfText s text fun _ => rfl
  | collection terms => exact located_eventsOfAll terms s
  | nil | combinator k | selector c | kept name => exact fun _ he => nomatch he

theorem located_eventsOfAll (terms : List NodeTerm) (s : State) :
    ∀ e ∈ eventsOfAll s terms, e.Located := by
  cases terms with
  | nil => exact fun _ he => nomatch he
  | cons term terms =>
    intro e he
    rw [eventsOfAll] at he
    rcases List.mem_append.1 he with he | he
    · exact located_termEvents term s e he
    · rcases hrun : (evaluate term).run s with ⟨r, next⟩
      rw [hrun] at he
      cases r with
      | error stop => cases he
      | ok n => exact located_eventsOfAll terms next e he

end

/-- What is asked for under a name has events only if the name is known. -/
theorem located_elim {found : Option α} {es : α → List Event}
    (h : ∀ a, found = some a → ∀ e ∈ es a, e.Located) : ∀ e ∈ found.elim [] es, e.Located := by
  cases found with
  | none => exact fun _ he => nomatch he
  | some a => exact h a rfl

theorem located_singleton {op : Operation} {ctx : Context} (h : op.span? = none) :
    ∀ e ∈ [Event.mk op ctx], e.Located :=
  List.forall_mem_singleton.2 (Event.located_of_none h)

/-- An operation on a chain that is kept. -/
theorem State.Located.singleton (h : s.Located) {c : Option Chain} {op : Operation}
    (hc : ∀ d ∈ c, ∃ name, s.chains.lookup name = some d) (hop : op.span? = c.bind Chain.span) :
    ∀ e ∈ [Event.mk op s.context], e.Located := by
  refine List.forall_mem_singleton.2 fun span hspan => ?_
  rw [hop] at hspan
  obtain ⟨d, rfl, hd⟩ := Option.bind_eq_some_iff.1 hspan
  obtain ⟨name, hname⟩ := hc d rfl
  exact State.ReadIn.of_lookup h hname d.first List.mem_cons_self span hd

/-- The operations of a command locate the chains that they are given. -/
theorem State.Located.events (h : s.Located) (command : Command) :
    ∀ e ∈ command.events s, e.Located := by
  cases command with
  | readChain text target => exact located_singleton rfl
  | rereadChain chain => exact located_elim fun c _ => located_singleton rfl
  | makeNode term target => exact located_termEvents term s
  | firstSelector chain target =>
    exact located_elim fun c hc => h.singleton (lookup_of_optionalChain? hc) rfl
  | toNode chain target =>
    refine located_elim fun c hc => h.singleton (c := some c) (fun d hd => ?_) rfl
    cases hd
    exact ⟨chain, hc⟩
  | optionalToNode chain target =>
    exact located_elim fun c hc => h.singleton (lookup_of_optionalChain? hc) rfl
  | copyNode node target => exact located_elim fun n _ => located_singleton rfl
  | toChain node target => exact located_elim fun n _ => located_singleton rfl
  | plus node addend =>
    exact located_elim fun n _ => located_elim fun m _ => located_singleton rfl
  | contains node sought ordered =>
    exact located_elim fun n _ => located_elim fun m _ => located_singleton rfl
  | pushNode node path term => exact located_termEvents term s
  | _ => exact fun _ he => nomatch he

/-- **Every operation of a session locates the chain that it is given, if that was read.** -/
theorem State.Located.eventsOf (h : s.Located) (commands : List Command) :
    ∀ e ∈ eventsOf commands s, e.Located := by
  induction commands generalizing s with
  | nil => exact fun _ he => nomatch he
  | cons command commands ih =>
    intro e he
    rcases List.mem_append.1 he with he | he
    · exact h.events command e he
    · exact ih (h.step command) e he

end Session

end SelectorAlgebra
