import SelectorAlgebra.Proofs.Conversion.Inverse
import SelectorAlgebra.Proofs.Session.Kept

/-
  The spans of links after the first. Reading puts a span on the first link of a chain only. A chain
  that is put behind a link keeps the span that it has, and in no other way does a later link come
  by one (`laterSpans_run`).
-/

namespace SelectorAlgebra

variable {c d : Chain} {span : Span} {n : Nat} {tail : Option Chain}

/-! ## Later links -/

namespace Chain

/-- The spans of the links after the first. -/
def laterSpans (c : Chain) : List Span := c.rest.filterMap Link.span

theorem mem_laterSpans : span ∈ c.laterSpans ↔ ∃ l ∈ c.rest, l.span = some span :=
  List.mem_filterMap

theorem laterSpans_ofJoints (js : List Joint) : (ofJoints js).laterSpans = [] := by
  cases js with
  | nil => rfl
  | cons j js => simp [ofJoints, laterSpans]

/-- The spans of the links of a chain that is put behind a link. -/
theorem mem_tail_spans : span ∈ ((tail.map links).getD []).filterMap Link.span ↔
    ∃ d ∈ tail, d.span = some span ∨ span ∈ d.laterSpans := by
  cases tail with
  | none => simp
  | some d => simp [links, laterSpans, Chain.span]

theorem mem_laterSpans_cons {head : Option Compound} {k : Combinator} :
    span ∈ (cons head k tail).laterSpans ↔
      ∃ d ∈ tail, d.span = some span ∨ span ∈ d.laterSpans := by
  rw [← mem_tail_spans]
  cases tail <;> rfl

theorem laterSpans_drop? (h : c.drop? n = some d) : d.laterSpans ⊆ c.laterSpans := by
  unfold drop? at h
  split at h
  · cases h
  · rename_i first rest hdrop
    cases h
    refine List.Sublist.subset (List.Sublist.filterMap _ ?_)
    have htail : rest <:+ c.links.drop n := by
      rw [hdrop]
      exact List.suffix_cons first rest
    cases n with
    | zero =>
      obtain ⟨rfl, rfl⟩ : c.first = first ∧ c.rest = rest := by simpa [links] using hdrop
      exact List.Sublist.refl _
    | succ n => exact htail.sublist.trans (List.drop_sublist n c.rest)

/-- The chain from a later link on begins with that link. -/
theorem first_mem_rest (h : c.drop? (n + 1) = some d) : d.first ∈ c.rest := by
  unfold drop? at h
  split at h
  · cases h
  · rename_i first rest hdrop
    cases h
    refine List.mem_of_mem_drop (i := n) ?_
    change c.rest.drop n = first :: rest at hdrop
    rw [hdrop]
    exact List.mem_cons_self

/-- Changing a link other than in its span changes no span. -/
theorem laterSpans_modify {f : Link → Link} (hf : ∀ l, (f l).span = l.span) (c : Chain) (n : Nat) :
    (c.modify n f).laterSpans = c.laterSpans := by
  cases n with
  | zero => rfl
  | succ n =>
    have hspans (ls : List Link) (n : Nat) : (ls.modify n f).map Link.span = ls.map Link.span := by
      induction ls generalizing n with
      | nil => simp
      | cons l ls ih =>
        cases n with
        | zero => simp [hf]
        | succ n => simp [ih]
    have hmap (ls : List Link) : ls.filterMap Link.span = (ls.map Link.span).filterMap id := by
      rw [List.filterMap_map]
      rfl
    rw [laterSpans, laterSpans, hmap, hmap c.rest]
    exact congrArg (List.filterMap id) (hspans c.rest n)

/-- A change that may be asked for, other than in the span of a link. -/
theorem laterSpans_change {γ : Type} {f : γ → Link → Link} (hf : ∀ a l, (f a l).span = l.span)
    (c : Chain) (n : Nat) (asked : Option γ) :
    (asked.elim c fun a => c.modify n (f a)).laterSpans = c.laterSpans := by
  cases asked with
  | none => rfl
  | some a => exact laterSpans_modify (hf a) c n

theorem mem_laterSpans_setTail : span ∈ (c.setTail n tail).laterSpans ↔
    span ∈ (c.rest.take n).filterMap Link.span ∨
      ∃ d ∈ tail, d.span = some span ∨ span ∈ d.laterSpans := by
  rw [laterSpans, setTail, List.filterMap_append, List.mem_append, mem_tail_spans]

end Chain

/-! ## Chains that are made by a pass -/

theorem Pass.laterSpans_readChain [CodeMap] {text : String} {ctx next : Context}
    (h : (readChain text).run ctx = (.ok c, next)) : c.laterSpans = [] := by
  cases hr : readJoints text with
  | error failure =>
    rw [readChain_run_error hr] at h
    cases h
  | ok joints =>
    rw [readChain_run_ok hr] at h
    cases h
    exact Chain.laterSpans_ofJoints joints

theorem Pass.laterSpans_toChain [CodeMap] {node : Node} {ctx next : Context}
    (h : (toChain node).run ctx = (.ok c, next)) : c.laterSpans = [] := by
  obtain ⟨nodes, joints, -, -, -, rfl⟩ := passToChain_eq_ok.1 ⟨next, h⟩
  exact Chain.laterSpans_ofJoints joints

namespace Session

variable {s : State} {command : Command} {edit : LinkEdit} {name : String}

/-! ## Chains behind links -/

/-- The chain that is to be put behind a link. -/
def State.tail? (s : State) (name : Option String) : Option Chain :=
  name.bind fun name => s.chains.lookup name

/-- The chain that a command puts behind a link, if it can be carried out. -/
def Command.placed? (s : State) : Command → Option Chain
  | .newChain _ _ tail _ => s.tail? tail
  | .editLink chain n edit => do
    let c ← s.chains.lookup chain
    if n < c.length then s.tail? edit.tail.join else none
  | _ => none

/-- The spans of the chains that are put behind links in the course of a session. -/
def placedSpans [CodeMap] : List Command → State → List Span
  | [], _ => []
  | command :: commands, s =>
    ((command.placed? s).bind Chain.span).toList ++ placedSpans commands (step command s).2

theorem optionalChain?_eq_some {name : Option String} (h : s.optionalChain? name = some tail) :
    tail = s.tail? name := by
  cases name with
  | none =>
    cases h
    rfl
  | some name =>
    obtain ⟨d, hd, rfl⟩ := Option.map_eq_some_iff.1 h
    exact hd.symm

theorem optionalChain?_of_tail? {name : Option String} (h : s.tail? name = some d) :
    s.optionalChain? name = some (some d) := by
  obtain ⟨name, rfl, hd⟩ := Option.bind_eq_some_iff.1 h
  rw [State.optionalChain?, hd]
  rfl

theorem laterSpans_relabel (edit : LinkEdit) (n : Nat) (c : Chain) :
    (edit.relabel n c).laterSpans = c.laterSpans := by
  have hhead (c : Chain) := c.laterSpans_change (f := fun head l => { l with head })
    (fun _ _ => rfl) n edit.head
  have hcombinator (c : Chain) :=
    c.laterSpans_change (f := fun combinator l => { l with combinator }) (fun _ _ => rfl) n
      edit.combinator
  exact (hcombinator _).trans (hhead c)

theorem laterSpans_lengthen (edit : LinkEdit) (n : Nat) (c : Chain) :
    (edit.lengthen n c).laterSpans = c.laterSpans :=
  c.laterSpans_change (f := addToHead) (fun _ _ => rfl) n edit.added

/-- Behind the links of a changed chain is what was there, and what was put there. -/
theorem mem_laterSpans_edited (h : s.edited? c n edit = some d) (hspan : span ∈ d.laterSpans) :
    span ∈ c.laterSpans ∨
      ∃ t ∈ s.tail? edit.tail.join, t.span = some span ∨ span ∈ t.laterSpans := by
  unfold State.edited? at h
  split at h
  · cases h
    rw [laterSpans_lengthen, laterSpans_relabel] at hspan
    exact Or.inl hspan
  · rename_i name hname
    obtain ⟨t, ht, rfl⟩ := Option.map_eq_some_iff.1 h
    rw [laterSpans_lengthen, Chain.mem_laterSpans_setTail] at hspan
    rcases hspan with hspan | hspan
    · rw [← laterSpans_relabel edit n c]
      exact Or.inl (((List.take_sublist n _).filterMap _).subset hspan)
    · rw [optionalChain?_eq_some ht] at hspan
      rw [hname]
      exact Or.inr hspan

/-- What is put behind a link of a chain keeps its span there. -/
theorem exists_edited (c : Chain) (n : Nat) (h : s.tail? edit.tail.join = some d)
    (hspan : d.span = some span) : ∃ e, s.edited? c n edit = some e ∧ span ∈ e.laterSpans := by
  unfold State.edited?
  split
  · rename_i hnone
    rw [hnone] at h
    cases h
  · rename_i name hname
    rw [hname] at h
    refine ⟨_, congrArg (Option.map _) (optionalChain?_of_tail? h), ?_⟩
    rw [laterSpans_lengthen, Chain.mem_laterSpans_setTail]
    exact Or.inr ⟨d, rfl, Or.inl hspan⟩

/-! ## Commands -/

/-- A later span of a chain that is kept was one before, or is that of a chain put behind a link. -/
theorem mem_laterSpans_kept [CodeMap] (h : command.kept? s = some (name, c))
    (hspan : span ∈ c.laterSpans) :
    (∃ entry ∈ s.chains, span ∈ entry.2.laterSpans) ∨
      ∃ d ∈ command.placed? s, d.span = some span := by
  have hkept {name : String} {d : Chain} (hd : s.chains.lookup name = some d)
      (hspan : span ∈ d.laterSpans) : ∃ entry ∈ s.chains, span ∈ entry.2.laterSpans :=
    ⟨_, mem_of_lookup hd, hspan⟩
  cases command with
  | newChain head k tail target =>
    obtain ⟨t, ht, e⟩ := Option.bind_eq_some_iff.1 h
    cases e
    obtain ⟨d, hd, hspan⟩ := Chain.mem_laterSpans_cons.1 hspan
    rw [optionalChain?_eq_some ht] at hd
    rcases hspan with hspan | hspan
    · exact Or.inr ⟨d, hd, hspan⟩
    · obtain ⟨name, -, hname⟩ := Option.bind_eq_some_iff.1 hd
      exact Or.inl (hkept hname hspan)
  | editLink chain n edit =>
    obtain ⟨d, hd, e⟩ := Option.bind_eq_some_iff.1 h
    split at e
    · rename_i hn
      have hplaced : (Command.editLink chain n edit).placed? s = s.tail? edit.tail.join := by
        rw [Command.placed?, hd]
        exact if_pos hn
      rw [hplaced]
      obtain ⟨d', hd', e⟩ := Option.bind_eq_some_iff.1 e
      cases e
      rcases mem_laterSpans_edited hd' hspan with hspan | ⟨t, ht, hspan | hspan⟩
      · exact Or.inl (hkept hd hspan)
      · exact Or.inr ⟨t, ht, hspan⟩
      · obtain ⟨name, -, hname⟩ := Option.bind_eq_some_iff.1 ht
        exact Or.inl (hkept hname hspan)
    · cases e
  | readChain text target =>
    obtain ⟨d, hd, e⟩ := Option.bind_eq_some_iff.1 h
    cases e
    obtain ⟨next, hrun⟩ := run_eq_ok_of_toOption hd
    rw [Pass.laterSpans_readChain hrun] at hspan
    cases hspan
  | toChain node target =>
    obtain ⟨n, hn, h⟩ := Option.bind_eq_some_iff.1 h
    obtain ⟨d, hd, e⟩ := Option.bind_eq_some_iff.1 h
    cases e
    obtain ⟨next, hrun⟩ := run_eq_ok_of_toOption hd
    rw [Pass.laterSpans_toChain hrun] at hspan
    cases hspan
  | emptyChain target =>
    cases h
    cases hspan
  | chainOfJoints joints target =>
    cases h
    rw [Chain.laterSpans_ofJoints] at hspan
    cases hspan
  | repeatChain chain times target =>
    obtain ⟨d, hd, e⟩ := Option.bind_eq_some_iff.1 h
    cases e
    rw [Chain.repeated, Chain.laterSpans_ofJoints] at hspan
    cases hspan
  | copyChain chain target =>
    obtain ⟨d, hd, e⟩ := Option.bind_eq_some_iff.1 h
    cases e
    exact Or.inl (hkept hd hspan)
  | lastLink chain target =>
    obtain ⟨d, hd, e⟩ := Option.bind_eq_some_iff.1 h
    cases e
    cases hspan
  | dropLinks chain n target =>
    obtain ⟨d, hd, h⟩ := Option.bind_eq_some_iff.1 h
    obtain ⟨d', hd', e⟩ := Option.bind_eq_some_iff.1 h
    cases e
    exact Or.inl (hkept hd (Chain.laterSpans_drop? hd' hspan))
  | _ => cases h

/-- A chain that a command puts behind a link keeps its span there. -/
theorem exists_kept [CodeMap] (h : command.placed? s = some d) (hspan : d.span = some span) :
    ∃ name c, command.kept? s = some (name, c) ∧ span ∈ c.laterSpans := by
  cases command with
  | newChain head k tail target =>
    refine ⟨target, .cons head k (some d), ?_, Chain.mem_laterSpans_cons.2 ⟨d, rfl, Or.inl hspan⟩⟩
    rw [Command.kept?, optionalChain?_of_tail? h]
    rfl
  | editLink chain n edit =>
    obtain ⟨c, hc, h⟩ := Option.bind_eq_some_iff.1 h
    split at h
    · rename_i hn
      obtain ⟨e, he, hspan⟩ := exists_edited c n h hspan
      refine ⟨chain, e, ?_, hspan⟩
      rw [Command.kept?, hc]
      refine (if_pos hn).trans ?_
      rw [he]
      rfl
    · cases h
  | _ => cases h

/-! ## Sessions -/

theorem mem_laterSpans_step [CodeMap] {entry : String × Chain}
    (h : entry ∈ (step command s).2.chains) (hspan : span ∈ entry.2.laterSpans) :
    (∃ entry ∈ s.chains, span ∈ entry.2.laterSpans) ∨
      ∃ d ∈ command.placed? s, d.span = some span := by
  rw [chains_step] at h
  rcases List.mem_append.1 h with h | h
  · exact mem_laterSpans_kept (Option.mem_toList.1 h) hspan
  · exact Or.inl ⟨entry, h, hspan⟩

/-- A later span of a chain that is kept was one before the session, or is that of a chain that was
put behind a link in its course. -/
theorem mem_laterSpans_run [CodeMap] (commands : List Command) {entry : String × Chain}
    (h : entry ∈ (run commands s).2.chains) (hspan : span ∈ entry.2.laterSpans) :
    (∃ entry ∈ s.chains, span ∈ entry.2.laterSpans) ∨ span ∈ placedSpans commands s := by
  induction commands generalizing s with
  | nil => exact Or.inl ⟨entry, h, hspan⟩
  | cons command commands ih =>
    rw [placedSpans, List.mem_append]
    rcases ih h with ⟨entry', h', hspan'⟩ | hlater
    · rcases mem_laterSpans_step h' hspan' with hbefore | ⟨d, hd, hd'⟩
      · exact Or.inl hbefore
      · have hplaced : (command.placed? s).bind Chain.span = some span :=
          Option.bind_eq_some_iff.2 ⟨d, hd, hd'⟩
        exact Or.inr (Or.inl (Option.mem_toList.2 hplaced))
    · exact Or.inr (Or.inr hlater)

/-- **A link after the first has a span only if a chain with that span was put behind a link**, and
then it has. So if no chain with a span was, the chain from any later link on has none. -/
theorem laterSpans_run [CodeMap] (options : Options) (commands : List Command) :
    let start := State.initial options
    let s := (run commands start).2
    (∀ entry ∈ s.chains, ∀ l ∈ entry.2.rest, ∀ span, l.span = some span →
      span ∈ placedSpans commands start) ∧
    (placedSpans commands start = [] → ∀ entry ∈ s.chains, ∀ n d,
      entry.2.drop? (n + 1) = some d → d.span = none) ∧
    ∀ command d span, command.placed? s = some d → d.span = some span →
      ∃ entry ∈ (step command s).2.chains, ∃ l ∈ entry.2.rest, l.span = some span := by
  intro start s
  have hrest : ∀ entry ∈ s.chains, ∀ l ∈ entry.2.rest, ∀ span, l.span = some span →
      span ∈ placedSpans commands start := by
    intro entry h l hl span hspan
    rcases mem_laterSpans_run commands h (Chain.mem_laterSpans.2 ⟨l, hl, hspan⟩) with h | h
    · obtain ⟨_, h, _⟩ := h
      cases h
    · exact h
  refine ⟨hrest, fun hnone entry h n d hd => ?_, fun command d span hd hspan => ?_⟩
  · refine Option.eq_none_iff_forall_ne_some.2 fun span hspan => ?_
    have hplaced := hrest entry h d.first (Chain.first_mem_rest hd) span hspan
    rw [hnone] at hplaced
    cases hplaced
  · obtain ⟨name, c, hkept, hspan⟩ := exists_kept hd hspan
    refine ⟨(name, c), ?_, Chain.mem_laterSpans.1 hspan⟩
    rw [chains_step, hkept]
    exact List.mem_cons_self

/-- A chain that was read, put behind a link. -/
theorem exists_span_of_tail :
    let s := (run [.readChain ".a" "x", .newChain (some ⟨[.classed "b"]⟩) .child (some "x") "y"]
      (.initial {})).2
    ((s.chains.lookup "y").bind fun c => (c.drop? 1).bind Chain.span) = some ⟨1, 3⟩ := by
  decide +kernel

end Session

end SelectorAlgebra
