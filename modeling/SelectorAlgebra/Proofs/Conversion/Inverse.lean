import SelectorAlgebra.Proofs.Conversion.Shape
import SelectorAlgebra.Proofs.Equality
import SelectorAlgebra.Source.Consecutive

/-
  The two conversions undo one another. A chain with heads on all links after the first becomes
  a node that becomes the same chain; a flat collection of selectors and combinators in turn that
  does not end in a descendant combinator becomes a chain that becomes an equal node. All other
  chains and nodes are refused.
-/

namespace SelectorAlgebra

variable {nodes : List Node} {joints : List Joint}

/-! ## What can be converted -/

/-- A pass converts a chain if all links after the first have heads, to the nodes of its links. -/
theorem passToNode_eq_ok [CodeMap] {c : Chain} {n : Node} {ctx : Context} :
    (∃ next, (Pass.toNode c).run ctx = (.ok n, next)) ↔
      (∀ l ∈ c.rest, l.head.isSome) ∧ n = .collection (flatNodes c.joints) :=
  Pass.convert_eq_ok.trans toNode_eq_ok

/-- A pass converts a node if it is a collection that describes links and does not end in a
descendant combinator. -/
theorem passToChain_eq_ok [CodeMap] {n : Node} {c : Chain} {ctx : Context} :
    (∃ next, (Pass.toChain n).run ctx = (.ok c, next)) ↔
      ∃ nodes joints, n = .collection nodes ∧ Describing nodes joints ∧
        endsInDescendant nodes = false ∧ c = .ofJoints joints := by
  refine Pass.convert_eq_ok.trans ⟨?_, ?_⟩
  · rintro ⟨count, h⟩
    obtain ⟨nodes, joints, hn, hd, he, hc, _⟩ := toChain_eq_ok.1 h
    exact ⟨nodes, joints, hn, hd, he, hc⟩
  · rintro ⟨nodes, joints, hn, hd, he, hc⟩
    exact ⟨_, toChain_eq_ok.2 ⟨nodes, joints, hn, hd, he, hc, rfl⟩⟩

/-- Selectors and combinators in turn: maybe a combinator, then selectors each with a combinator
after it, and then maybe a selector. -/
def TakesTurns (nodes : List Node) : Prop :=
  ∃ (lead : Option Combinator) (pairs : List (Compound × Combinator)) (last : Option Compound),
    nodes = lead.toList.map .combinator ++
      (pairs.flatMap (fun p => [.selector p.1, .combinator p.2]) ++ last.toList.map .selector)

theorem Alternating.exists_pairs (h : Alternating nodes joints) :
    ∃ (pairs : List (Compound × Combinator)) (last : Option Compound),
      nodes = pairs.flatMap (fun p => [.selector p.1, .combinator p.2]) ++
        last.toList.map .selector := by
  induction h with
  | nil => exact ⟨[], none, rfl⟩
  | last c => exact ⟨[], some c, rfl⟩
  | pair c k _ ih =>
    obtain ⟨pairs, last, rfl⟩ := ih
    exact ⟨(c, k) :: pairs, last, rfl⟩

theorem exists_alternating (pairs : List (Compound × Combinator)) (last : Option Compound) :
    ∃ joints, Alternating (pairs.flatMap (fun p => [.selector p.1, .combinator p.2]) ++
      last.toList.map .selector) joints := by
  induction pairs with
  | nil =>
    cases last with
    | none => exact ⟨_, .nil⟩
    | some c => exact ⟨_, .last c⟩
  | cons p pairs ih =>
    obtain ⟨joints, h⟩ := ih
    exact ⟨_, .pair p.1 p.2 h⟩

/-- The nodes that describe links are those that take turns. -/
theorem takesTurns_iff : TakesTurns nodes ↔ ∃ joints, Describing nodes joints := by
  constructor
  · rintro ⟨lead, pairs, last, rfl⟩
    obtain ⟨joints, h⟩ := exists_alternating pairs last
    cases lead with
    | none => exact ⟨_, .headed h⟩
    | some k => exact ⟨_, .led k h⟩
  · rintro ⟨joints, h⟩
    cases h with
    | headed h =>
      obtain ⟨pairs, last, e⟩ := h.exists_pairs
      exact ⟨none, pairs, last, e⟩
    | led k h =>
      obtain ⟨pairs, last, rfl⟩ := h.exists_pairs
      exact ⟨some k, pairs, last, rfl⟩

/-- The last node, read as the model does. -/
theorem endsInDescendant_eq_false :
    endsInDescendant nodes = false ↔ nodes.getLast? ≠ some (.combinator .descendant) := by
  rw [← Bool.not_eq_true, endsInDescendant_iff]

/-! ## There and back -/

theorem Alternating.allHeaded (h : Alternating nodes joints) : AllHeaded joints := by
  induction h with
  | nil => exact allHeaded_nil
  | last c => exact allHeaded_cons.2 ⟨rfl, allHeaded_nil⟩
  | pair c k _ ih => exact allHeaded_cons.2 ⟨rfl, ih⟩

theorem AllHeaded.ofJoints_rest {j : Joint} {js : List Joint} (h : AllHeaded js) :
    ∀ l ∈ (Chain.ofJoints (j :: js)).rest, l.head.isSome := by
  intro l hl
  obtain ⟨j', hj, rfl⟩ := List.mem_map.1 hl
  exact h j' hj

/-- Only the first link that nodes describe may lack a head. -/
theorem Describing.allHeaded_rest (h : Describing nodes joints) :
    ∀ l ∈ (Chain.ofJoints joints).rest, l.head.isSome := by
  cases h with
  | headed h =>
    cases joints with
    | nil => simp [Chain.ofJoints, Chain.empty, Chain.cons]
    | cons j js => exact (allHeaded_cons.1 h.allHeaded).2.ofJoints_rest
  | led k h => exact h.allHeaded.ofJoints_rest

/-- The node that a chain becomes is converted back to the same chain, in any context. -/
theorem passToChain_of_toNode [CodeMap] {c : Chain} {n : Node} {ctx next : Context}
    (h : (Pass.toNode c).run ctx = (.ok n, next)) (ctx' : Context) :
    ∃ c' next', (Pass.toChain n).run ctx' = (.ok c', next') ∧ c'.same c := by
  obtain ⟨hh, rfl⟩ := passToNode_eq_ok.1 ⟨next, h⟩
  have hr : AllHeaded (c.rest.map Link.joint) := allHeaded_rest.2 hh
  obtain ⟨joints, hd, e⟩ := describing_flatNodes (j := c.first.joint) hr
  have hok : ∃ next', (Pass.toChain _).run ctx' = (.ok (.ofJoints joints), next') :=
    passToChain_eq_ok.2 ⟨_, joints, rfl, hd, endsInDescendant_flatNodes hr, rfl⟩
  obtain ⟨next', h'⟩ := hok
  exact ⟨_, next', h', Chain.same_iff.2 e⟩

/-- The chain that a node becomes is converted back to that node, in any context. -/
theorem passToNode_of_toChain [CodeMap] {n : Node} {c : Chain} {ctx next : Context}
    (h : (Pass.toChain n).run ctx = (.ok c, next)) (ctx' : Context) :
    ∃ next', (Pass.toNode c).run ctx' = (.ok n, next') := by
  obtain ⟨nodes, joints, rfl, hd, hn, rfl⟩ := passToChain_eq_ok.1 ⟨next, h⟩
  exact passToNode_eq_ok.2 ⟨hd.allHeaded_rest, by rw [hd.flatNodes_eq hn]⟩

/-- **A chain is converted exactly if all links after the first have heads, and the node that it
becomes is converted back to the same chain.** -/
theorem toNode_toChain_same [CodeMap] (c : Chain) (ctx : Context) :
    ((∃ n next, (Pass.toNode c).run ctx = (.ok n, next)) ↔ ∀ l ∈ c.rest, l.head.isSome) ∧
      ∀ n next, (Pass.toNode c).run ctx = (.ok n, next) → ∀ ctx', ∃ c' next',
        (Pass.toChain n).run ctx' = (.ok c', next') ∧ c'.same c := by
  refine ⟨⟨?_, ?_⟩, ?_⟩
  · rintro ⟨n, h⟩
    exact (passToNode_eq_ok.1 h).1
  · intro h
    exact ⟨_, passToNode_eq_ok.2 ⟨h, rfl⟩⟩
  · intro n next h ctx'
    exact passToChain_of_toNode h ctx'

/-- A combinator at both ends. -/
theorem toNode_toChain_same_both_ends :
    let c : Chain := .ofJoints
      [(none, .child), (some ⟨[.classed "a"]⟩, .descendant), (some ⟨[]⟩, .nextSibling)]
    ∃ n next, (Pass.toNode c).run { options := {} } = (.ok n, next) ∧
      ∃ c' next', (Pass.toChain n).run next = (.ok c', next') ∧ c'.same c := by
  intro c
  obtain ⟨hs, hsame⟩ := toNode_toChain_same c { options := {} }
  obtain ⟨n, next, h⟩ := hs.2 (by decide)
  exact ⟨n, next, h, hsame n next h next⟩

/-- **A node is converted exactly if it is a collection whose nodes take turns and do not end in a
descendant combinator. The chain that it becomes is converted back to an equal node, so these are
the nodes that chains become.** -/
theorem toChain_toNode_equal [CodeMap] (n : Node) (ctx : Context) :
    ((∃ c next, (Pass.toChain n).run ctx = (.ok c, next)) ↔
      ∃ nodes, n = .collection nodes ∧ TakesTurns nodes ∧
        nodes.getLast? ≠ some (.combinator .descendant)) ∧
    (∀ c next, (Pass.toChain n).run ctx = (.ok c, next) → ∀ ctx', ∃ n' next',
      (Pass.toNode c).run ctx' = (.ok n', next') ∧ n'.equal true n) ∧
    ∀ ctx', (∃ c next, (Pass.toChain n).run ctx = (.ok c, next)) ↔
      ∃ c next, (Pass.toNode c).run ctx' = (.ok n, next) := by
  refine ⟨⟨?_, ?_⟩, ?_, fun ctx' => ⟨?_, ?_⟩⟩
  · rintro ⟨c, h⟩
    obtain ⟨nodes, joints, hn, hd, he, _⟩ := passToChain_eq_ok.1 h
    exact ⟨nodes, hn, takesTurns_iff.2 ⟨joints, hd⟩, endsInDescendant_eq_false.1 he⟩
  · rintro ⟨nodes, hn, ht, he⟩
    obtain ⟨joints, hd⟩ := takesTurns_iff.1 ht
    exact ⟨_, passToChain_eq_ok.2 ⟨nodes, joints, hn, hd, endsInDescendant_eq_false.2 he, rfl⟩⟩
  · intro c next h ctx'
    obtain ⟨next', h'⟩ := passToNode_of_toChain h ctx'
    exact ⟨n, next', h', n.equal_refl true⟩
  · rintro ⟨c, next, h⟩
    obtain ⟨next', h'⟩ := passToNode_of_toChain h ctx'
    exact ⟨c, next', h'⟩
  · rintro ⟨c, next, h⟩
    obtain ⟨c', next', h', _⟩ := passToChain_of_toNode h ctx
    exact ⟨c', next', h'⟩

/-- A combinator at both ends, and a collection in a collection. -/
theorem toChain_toNode_equal_both_ends :
    let n : Node := .collection
      [.combinator .descendant, .selector ⟨[.classed "a"]⟩, .combinator .followingSibling]
    (∃ c next, (Pass.toChain n).run { options := {} } = (.ok c, next) ∧
      ∃ n' next', (Pass.toNode c).run next = (.ok n', next') ∧ n'.equal true n) ∧
    ¬ ∃ c next, (Pass.toChain (.collection [n])).run { options := {} } = (.ok c, next) := by
  intro n
  refine ⟨?_, ?_⟩
  · obtain ⟨ha, he, _⟩ := toChain_toNode_equal n { options := {} }
    obtain ⟨c, next, h⟩ := ha.2
      ⟨_, rfl, ⟨some .descendant, [(⟨[.classed "a"]⟩, .followingSibling)], none, rfl⟩, by simp⟩
    exact ⟨c, next, h, he c next h next⟩
  · intro h
    obtain ⟨nodes, e, ⟨lead, pairs, last, e'⟩, _⟩ :=
      (toChain_toNode_equal (.collection [n]) { options := {} }).1.1 h
    cases e
    rcases lead with _ | k <;> rcases pairs with _ | ⟨p, pairs⟩ <;> rcases last with _ | c <;>
      simp [n] at e'

end SelectorAlgebra
