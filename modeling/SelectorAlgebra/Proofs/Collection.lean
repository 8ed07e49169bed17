import SelectorAlgebra.Proofs.Equality
import SelectorAlgebra.Proofs.Session.Actions
import SelectorAlgebra.Source.Consecutive

/-
  Laws of collections. A sum of collections contains what either of them contains, and whether a
  sequence is contained does not change when it or a candidate is replaced by an equal node, since
  equality is an equivalence and equal collections are empty together. What is no collection is
  refused, and a command that is refused leaves the session as it was.
-/

namespace SelectorAlgebra.Node

variable {a b n n' s s' : Node} {ns as bs cs parts : List Node} {ordered : Bool} {i : Nat}

/-! ## Refusals -/

theorem exists_nodes (h : n.kind = .collection) : ∃ ns, n = .collection ns := by
  cases n with
  | collection ns => exact ⟨ns, rfl⟩
  | _ => cases h

theorem nodesFor_of_ne (op : CollectionOp) (h : n.kind ≠ .collection) :
    n.nodesFor op = .error (.notCollection op n.kind) := by
  cases n with
  | collection ns => exact absurd rfl h
  | _ => rfl

/-- A sum names the kind of what is added, unless that is a collection. -/
theorem plus_refused (h : a.kind ≠ .collection ∨ b.kind ≠ .collection) :
    a.plus b = .error (.notCollection .plus (if b.kind ≠ .collection then b.kind else a.kind)) := by
  unfold plus
  by_cases hb : b.kind = .collection
  · have ha : a.kind ≠ .collection := h.resolve_right (not_not.2 hb)
    obtain ⟨bs, rfl⟩ := exists_nodes hb
    rw [nodesFor_of_ne .plus ha, if_neg (not_not.2 hb)]
    rfl
  · rw [nodesFor_of_ne .plus hb, if_pos hb]
    rfl

/-- A search names the kind of the candidates, unless they are a collection. -/
theorem contains_refused (h : a.kind ≠ .collection ∨ s.kind ≠ .collection) :
    a.contains s ordered =
      .error (.notCollection .contains (if a.kind ≠ .collection then a.kind else s.kind)) := by
  unfold contains
  by_cases ha : a.kind = .collection
  · have hs : s.kind ≠ .collection := h.resolve_left (not_not.2 ha)
    obtain ⟨as, rfl⟩ := exists_nodes ha
    rw [nodesFor_of_ne .contains hs, if_neg (not_not.2 ha)]
    rfl
  · rw [nodesFor_of_ne .contains ha, if_pos ha]
    rfl

/-! ## Sums -/

theorem plus_assoc (as bs cs : List Node) :
    (do plus (← plus (.collection as) (.collection bs)) (.collection cs)) =
      (do plus (.collection as) (← plus (.collection bs) (.collection cs))) := by
  show Except.ok (collection (as ++ bs ++ cs)) = Except.ok (collection (as ++ (bs ++ cs)))
  rw [List.append_assoc]

/-- A sum contains what is contained in one of the two. -/
theorem contains_append (as bs parts : List Node) (ordered : Bool) :
    contains (.collection (as ++ bs)) (.collection parts) ordered = (do
      let first ← contains (.collection as) (.collection parts) ordered
      let second ← contains (.collection bs) (.collection parts) ordered
      return first || second) := by
  show Except.ok _ = Except.ok _
  rw [List.any_append, Bool.and_or_distrib_left]

/-! ## Equal nodes in the place of others -/

/-- Equal nodes are equal to the same nodes. -/
theorem equal_eq_of_equal (h : s.equal ordered s') : n.equal ordered s = n.equal ordered s' := by
  have heq := equal_equivalence ordered
  rw [Bool.eq_iff_iff]
  constructor
  · intro hn
    exact heq.trans hn h
  · intro hn
    exact heq.trans hn (heq.symm h)

theorem equal_comm (ordered : Bool) (a b : Node) : a.equal ordered b = b.equal ordered a := by
  have heq := equal_equivalence ordered
  rw [Bool.eq_iff_iff]
  exact ⟨fun h => heq.symm h, fun h => heq.symm h⟩

/-- What is equal to a collection is one, and both are empty or neither. -/
theorem exists_nodes_of_equal (h : (collection parts).equal ordered s') :
    ∃ parts', s' = .collection parts' ∧ parts.isEmpty = parts'.isEmpty := by
  cases s' with
  | collection parts' =>
    refine ⟨parts', rfl, ?_⟩
    rw [equal] at h
    cases parts with
    | nil =>
      cases parts' with
      | nil => rfl
      | cons n parts' => cases h
    | cons n parts =>
      cases parts' with
      | nil => cases h
      | cons n' parts' => rfl
  | _ => simp [equal] at h

/-- A sequence is contained if an equal one is. -/
theorem contains_eq_of_equal (ns : List Node) (h : (collection parts).equal ordered s') :
    contains (.collection ns) s' ordered =
      contains (.collection ns) (.collection parts) ordered := by
  obtain ⟨parts', rfl, hempty⟩ := exists_nodes_of_equal h
  have hany : (ns.any fun n => n.equal ordered (.collection parts')) =
      ns.any fun n => n.equal ordered (.collection parts) := by
    congr 1
    funext n
    exact (equal_eq_of_equal h).symm
  rw [contains_collection, contains_collection, hempty, hany]

/-- A search through a list does not depend on a member that is replaced by one alike. -/
theorem any_set {p : Node → Bool} (hn : ns[i]? = some n) (hp : p n' = p n) :
    (ns.set i n').any p = ns.any p := by
  induction ns generalizing i with
  | nil => rfl
  | cons m ns ih =>
    cases i with
    | zero =>
      have hm : m = n := by simpa using hn
      rw [List.set_cons_zero, List.any_cons, List.any_cons, hp, hm]
    | succ i =>
      have hi : ns[i]? = some n := by simpa using hn
      rw [List.set_cons_succ, List.any_cons, List.any_cons, ih hi]

/-- An equal node may stand in the place of a candidate. -/
theorem contains_set (hn : ns[i]? = some n) (h : n.equal ordered n') (s : Node) :
    contains (.collection (ns.set i n')) s ordered = contains (.collection ns) s ordered := by
  cases s with
  | collection parts =>
    have heq : n'.equal ordered (.collection parts) = n.equal ordered (.collection parts) := by
      rw [equal_comm ordered n', equal_comm ordered n]
      exact (equal_eq_of_equal h).symm
    have hany := any_set (p := fun m => m.equal ordered (.collection parts)) hn heq
    rw [contains_collection, contains_collection, hany]
  | _ => rfl

/-! ## Two kinds of equality, and the empty sequence -/

/-- What is contained with the order of compounds is contained without it. -/
theorem contains_false_of_true (h : a.contains s true = .ok true) :
    a.contains s false = .ok true := by
  have ha : a.kind = .collection := by
    by_contra hne
    rw [contains_refused (Or.inl hne)] at h
    cases h
  have hs : s.kind = .collection := by
    by_contra hne
    rw [contains_refused (Or.inr hne)] at h
    cases h
  obtain ⟨ns, rfl⟩ := exists_nodes ha
  obtain ⟨parts, rfl⟩ := exists_nodes hs
  rw [contains_collection, Except.ok.injEq, Bool.and_eq_true, List.any_eq_true] at h ⊢
  obtain ⟨hempty, n, hn, heq⟩ := h
  refine ⟨hempty, n, hn, ?_⟩
  rw [equal_true_iff.1 heq]
  exact equal_refl false _

theorem contains_nil (ns : List Node) (ordered : Bool) :
    contains (.collection ns) (.collection []) ordered = .ok false := rfl

end SelectorAlgebra.Node

namespace SelectorAlgebra.Session

variable {s : State} {name other : String} {n m : Node}

theorem nodeOf_bind {α : Type} (h : s.nodes.lookup name = some n) (f : Node → Action α) :
    (nodeOf name >>= f).run s = (f n).run s := by
  rw [run_bind, nodeOf_run, lookUp, h]

/-- A command that an operation of the pass refuses fails with the fault of that operation. -/
theorem ofResult_bind_error {α β : Type} {x : Except InternalFault α} {fault : InternalFault}
    (h : x = .error fault) (f : α → Action β) (s : State) :
    (inContext (Pass.ofResult x) >>= f).run s = (.error (.fault (.internal fault)), s) := by
  subst h
  rfl

/-- What a step shows of a command that fails and leaves the session as it was. -/
theorem step_of_run_error [CodeMap] {command : Command} {stop : Stop}
    (h : (execute command).run s = (.error stop, s)) :
    step command s = (⟨.error stop, s.context.allocations, []⟩, s) := by
  unfold step
  rw [h]
  dsimp only
  rw [List.drop_length]

theorem step_plus_refused [CodeMap] (hn : s.nodes.lookup name = some n)
    (hm : s.nodes.lookup other = some m) (h : n.kind ≠ .collection ∨ m.kind ≠ .collection) :
    step (.plus name other) s = (⟨.error (.fault (.internal (.notCollection .plus
      (if m.kind ≠ .collection then m.kind else n.kind)))), s.context.allocations, []⟩, s) := by
  apply step_of_run_error
  unfold execute
  rw [nodeOf_bind hn, nodeOf_bind hm, ofResult_bind_error (Node.plus_refused h)]

theorem step_contains_refused [CodeMap] (hn : s.nodes.lookup name = some n)
    (hm : s.nodes.lookup other = some m) (h : n.kind ≠ .collection ∨ m.kind ≠ .collection)
    (ordered : Bool) :
    step (.contains name other ordered) s = (⟨.error (.fault (.internal (.notCollection .contains
      (if n.kind ≠ .collection then n.kind else m.kind)))), s.context.allocations, []⟩, s) := by
  apply step_of_run_error
  unfold execute
  rw [nodeOf_bind hn, nodeOf_bind hm, ofResult_bind_error (Node.contains_refused h)]

/-! ## The laws together -/

/-- **A sum of collections has the nodes of the first and then those of the second, and contains a
sequence exactly if one of them does; sums are associative. An answer stays the same when the
sequence or a candidate is replaced by an equal node; what is contained with the order of compounds
is contained without it, and an empty sequence never is. What is no collection is refused by its
kind, and a command that is refused leaves the session as it was.** -/
theorem sum_and_search_laws [CodeMap] :
    (∀ (as bs parts : List Node) (ordered : Bool),
      (Node.collection as).plus (.collection bs) = .ok (.collection (as ++ bs)) ∧
      ∃ first second, (Node.collection as).contains (.collection parts) ordered = .ok first ∧
        (Node.collection bs).contains (.collection parts) ordered = .ok second ∧
        (Node.collection (as ++ bs)).contains (.collection parts) ordered =
          .ok (first || second)) ∧
    (∀ as bs cs : List Node,
      (do Node.plus (← Node.plus (.collection as) (.collection bs)) (.collection cs)) =
        (do Node.plus (.collection as) (← Node.plus (.collection bs) (.collection cs)))) ∧
    (∀ (as parts : List Node) (s' : Node) (ordered : Bool),
      (Node.collection parts).equal ordered s' →
      (Node.collection as).contains s' ordered =
        (Node.collection as).contains (.collection parts) ordered) ∧
    (∀ (as : List Node) (i : Nat) (n n' s : Node) (ordered : Bool),
      as[i]? = some n → n.equal ordered n' →
      (Node.collection (as.set i n')).contains s ordered =
        (Node.collection as).contains s ordered) ∧
    (∀ a s : Node, a.contains s true = .ok true → a.contains s false = .ok true) ∧
    (∀ (as : List Node) (ordered : Bool),
      (Node.collection as).contains (.collection []) ordered = .ok false) ∧
    (∀ (n m : Node) (ordered : Bool), n.kind ≠ .collection ∨ m.kind ≠ .collection →
      n.plus m =
        .error (.notCollection .plus (if m.kind ≠ .collection then m.kind else n.kind)) ∧
      n.contains m ordered =
        .error (.notCollection .contains (if n.kind ≠ .collection then n.kind else m.kind))) ∧
    ∀ (s : State) (name other : String) (n m : Node) (ordered : Bool),
      s.nodes.lookup name = some n → s.nodes.lookup other = some m →
      n.kind ≠ .collection ∨ m.kind ≠ .collection →
      step (.plus name other) s = (⟨.error (.fault (.internal (.notCollection .plus
        (if m.kind ≠ .collection then m.kind else n.kind)))), s.context.allocations, []⟩, s) ∧
      step (.contains name other ordered) s = (⟨.error (.fault (.internal (.notCollection .contains
        (if n.kind ≠ .collection then n.kind else m.kind)))), s.context.allocations, []⟩, s) := by
  refine ⟨?_, Node.plus_assoc, ?_, ?_, ?_, Node.contains_nil, ?_, ?_⟩
  · intro as bs parts ordered
    have happend := Node.contains_append as bs parts ordered
    exact ⟨Node.plus_collection as bs, _, _, Node.contains_collection as parts ordered,
      Node.contains_collection bs parts ordered, happend⟩
  · intro as parts s' ordered h
    exact Node.contains_eq_of_equal as h
  · intro as i n n' s ordered hn h
    exact Node.contains_set hn h s
  · intro a s h
    exact Node.contains_false_of_true h
  · intro n m ordered h
    exact ⟨Node.plus_refused h, Node.contains_refused h⟩
  · intro s name other n m ordered hn hm h
    exact ⟨step_plus_refused hn hm h, step_contains_refused hn hm h ordered⟩

/-- Candidates with an empty one among them, and a sequence whose compound is written in another
order; nothing in the place of a collection. -/
theorem sum_and_search_laws_mixed :
    let ab : Compound := ⟨[.classed "a", .classed "b"]⟩
    let ba : Compound := ⟨[.classed "b", .classed "a"]⟩
    let as : List Node := [.collection [], .collection [.selector ab, .combinator .child]]
    let bs : List Node := [.collection [.selector ba], .nil]
    let s : State :=
      { context := { options := {} }, nodes := [("n", .collection as), ("m", .nil)] }
    (Node.collection (as ++ bs)).contains (.collection [.selector ab]) false = .ok true ∧
      (Node.collection as).contains (.collection [.selector ba, .combinator .child]) false =
        .ok true ∧
      (Node.collection (bs.set 0 (.collection [.selector ab]))).contains
        (.collection [.selector ab]) false = .ok true ∧
      (Node.collection bs).contains (.collection [.selector ba]) false = .ok true ∧
      (Node.collection as).contains (.collection []) true = .ok false ∧
      (Node.collection as).plus .nil = .error (.notCollection .plus .nil) ∧
      (step (.plus "n" "m") s).2 = s ∧ (step (.contains "m" "n" true) s).2 = s := by
  intro ab ba as bs s
  obtain ⟨hsum, -, hsought, hset, horder, hnil, hrefused, hstep⟩ := sum_and_search_laws
  obtain ⟨-, first, second, hfirst, hsecond, hboth⟩ := hsum as bs [.selector ab] false
  have hone : (first || second) = true := by
    cases hfirst
    cases hsecond
    decide
  have hequal : (Node.collection [.selector ab, .combinator .child]).equal false
      (.collection [.selector ba, .combinator .child]) := by decide
  have hchild : (Node.collection [.selector ba]).equal false (.collection [.selector ab]) := by
    decide
  have htrue : (Node.collection bs).contains (.collection [.selector ba]) true = .ok true := rfl
  have hnm := hstep s "n" "m" (.collection as) .nil true rfl rfl (Or.inr (by decide))
  have hmn := hstep s "m" "n" .nil (.collection as) true rfl rfl (Or.inl (by decide))
  refine ⟨?_, ?_, ?_, horder _ _ htrue, hnil as true, ?_, ?_, ?_⟩
  · rw [hboth, hone]
  · rw [hsought as _ _ false hequal]
    rfl
  · rw [hset bs 0 _ _ _ false rfl hchild]
    rfl
  · exact (hrefused (.collection as) .nil true (Or.inr (by decide))).1
  · rw [hnm.1]
  · rw [hmn.2]

end SelectorAlgebra.Session
