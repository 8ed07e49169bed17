import SelectorAlgebra.Proofs.Conversion.Copies
import SelectorAlgebra.Source.Consecutive

/-
  Why conversions fail. A collection is refused for its first node that is not of the kind due
  there, or for the descendant combinator at its end; a chain is refused for its first link that
  lacks a head, the first link of all apart. What comes before is never at fault: it can be
  completed to something that is converted.
-/

namespace SelectorAlgebra

variable {nodes lead : List Node} {joints : List Joint} {n : Node} {position count next : Nat}
  {how : Malformation}

/-! ## The kind that is due -/

theorem Node.kind_eq_selector : n.kind = .selector ↔ ∃ c, n = .selector c := by
  cases n <;> simp [Node.kind]

theorem Node.kind_eq_combinator : n.kind = .combinator ↔ ∃ k, n = .combinator k := by
  cases n <;> simp [Node.kind]

/-- The kind of node that is due after `lead`: a combinator after a selector, and otherwise a
selector. At the start a combinator may stand instead. -/
def kindDue (lead : List Node) : NodeKind :=
  if lead.getLast?.any Node.isSelector then .combinator else .selector

theorem kindDue_cons_cons (n m : Node) (ns : List Node) :
    kindDue (n :: m :: ns) = kindDue (m :: ns) := by
  rw [kindDue, List.getLast?_cons_cons, kindDue]

/-- After a combinator the same is due as at the start. -/
theorem kindDue_cons_combinator (k : Combinator) (lead : List Node) :
    kindDue (.combinator k :: lead) = kindDue lead := by
  cases lead with
  | nil => rfl
  | cons n ns => exact kindDue_cons_cons _ n ns

theorem kindDue_pair (c : Compound) (k : Combinator) (lead : List Node) :
    kindDue (.selector c :: .combinator k :: lead) = kindDue lead := by
  rw [kindDue_cons_cons, kindDue_cons_combinator]

/-- After a combinator a selector is due. -/
theorem kindDue_of_getLast? {k : Combinator} (h : lead.getLast? = some (.combinator k)) :
    kindDue lead = .selector := by
  rw [kindDue, h]
  rfl

/-! ## One node more -/

/-- A node of the kind due goes on with the alternation. -/
theorem Alternating.concat (h : Alternating lead joints) (hn : n.kind = kindDue lead) :
    ∃ joints', Alternating (lead ++ [n]) joints' := by
  induction h with
  | nil =>
    obtain ⟨c, rfl⟩ := Node.kind_eq_selector.1 hn
    exact ⟨_, .last c⟩
  | last c =>
    obtain ⟨k, rfl⟩ := Node.kind_eq_combinator.1 hn
    exact ⟨_, .pair c k .nil⟩
  | pair c k _ ih =>
    obtain ⟨joints', h⟩ := ih (hn.trans (kindDue_pair c k _))
    exact ⟨_, .pair c k h⟩

/-- Of nodes that alternate, the last is of the kind due after the others. -/
theorem Alternating.kind_last (h : Alternating (lead ++ [n]) joints) : n.kind = kindDue lead := by
  induction lead using pairs_induction generalizing joints with
  | nil =>
    cases h with
    | last c => rfl
  | last c =>
    cases h with
    | pair c k h => rfl
  | pair c k lead ih =>
    cases h with
    | pair _ _ h => exact (ih h).trans (kindDue_pair c k lead).symm
  | noCombinator c other lead hk =>
    cases h with
    | pair c k h => exact absurd rfl (hk k)
  | noSelector other lead hs =>
    -- `n` itself may be the combinator of the first pair, so the nodes are not taken apart here
    generalize hall : other :: lead ++ [n] = all at h
    cases h with
    | nil => cases hall
    | last c => exact absurd (List.cons_eq_cons.1 hall).1 (hs c)
    | pair c k h => exact absurd (List.cons_eq_cons.1 hall).1 (hs c)

/-- **One node more keeps the turns if it is of the kind due, or a combinator at the start.** -/
theorem takesTurns_concat_iff (h : TakesTurns lead) :
    TakesTurns (lead ++ [n]) ↔ n.kind = kindDue lead ∨ lead = [] ∧ n.kind = .combinator := by
  constructor
  · intro hn
    obtain ⟨joints, hd⟩ := takesTurns_iff.1 hn
    generalize hall : lead ++ [n] = all at hd
    cases hd with
    | headed ha => exact .inl (Alternating.kind_last (hall ▸ ha))
    | led k ha =>
      cases lead with
      | nil =>
        obtain ⟨rfl, _⟩ := List.cons_eq_cons.1 hall
        exact .inr ⟨rfl, rfl⟩
      | cons m lead =>
        obtain ⟨rfl, e⟩ := List.cons_eq_cons.1 hall
        rw [kindDue_cons_combinator]
        exact .inl (Alternating.kind_last (e ▸ ha))
  · intro hn
    rw [takesTurns_iff] at h ⊢
    obtain ⟨joints, hd⟩ := h
    rcases hn with hn | ⟨rfl, hn⟩
    · cases hd with
      | headed ha =>
        obtain ⟨joints', ha⟩ := ha.concat hn
        exact ⟨_, .headed ha⟩
      | led k ha =>
        obtain ⟨joints', ha⟩ := ha.concat (hn.trans (kindDue_cons_combinator k _))
        exact ⟨_, .led k ha⟩
    · obtain ⟨k, rfl⟩ := Node.kind_eq_combinator.1 hn
      exact ⟨_, .led k .nil⟩

/-! ## Nodes that are refused -/

/-- The words for a node that stands where one of another kind is due. -/
def outOfTurnReason (due : NodeKind) (position : Nat) (found : NodeKind) : String :=
  "expected a " ++ due.text ++ " at position " ++ toString position ++ ", found " ++ found.text

/-- Reading links from nodes fails at the first node that is not of the kind due. The nodes are
counted from `position`. -/
theorem outcome_jointsOfNodes_error
    (h : (jointsOfNodes position nodes).outcome count = (.error how, next)) :
    ∃ lead bad rest joints, nodes = lead ++ bad :: rest ∧ Alternating lead joints ∧
      bad.kind ≠ kindDue lead ∧
      how.reason = outOfTurnReason (kindDue lead) (position + lead.length) bad.kind := by
  induction nodes using pairs_induction generalizing position count next with
  | nil => cases h
  | last c => cases h
  | pair c k nodes ih =>
    rw [jointsOfNodes, Converting.outcome_copy_bind] at h
    rcases Converting.outcome_bind_eq_error.1 h with h | ⟨_, _, _, hpure⟩
    · obtain ⟨lead, bad, rest, joints, rfl, ha, hbad, hreason⟩ := ih h
      refine ⟨_ :: _ :: lead, bad, rest, _, rfl, .pair c k ha, ?_, ?_⟩
      · rwa [kindDue_pair]
      · rw [kindDue_pair, hreason, List.length_cons, List.length_cons]
        congr 1
        omega
    · cases hpure
  | noCombinator c other nodes hk =>
    rw [outcome_jointsOfNodes_selector c hk] at h
    cases h
    refine ⟨[.selector c], other, nodes, _, rfl, .last c, fun hn => ?_, rfl⟩
    obtain ⟨k, e⟩ := Node.kind_eq_combinator.1 hn
    exact hk k e
  | noSelector other nodes hs =>
    rw [outcome_jointsOfNodes_other hs] at h
    cases h
    refine ⟨[], other, nodes, _, rfl, .nil, fun hn => ?_, rfl⟩
    obtain ⟨c, e⟩ := Node.kind_eq_selector.1 hn
    exact hs c e

/-- A collection is read up to its first node out of turn, of which a combinator at the start is
none. -/
theorem outcome_jointsOfCollection_error
    (h : (jointsOfCollection nodes).outcome count = (.error how, next)) :
    ∃ lead bad rest, nodes = lead ++ bad :: rest ∧ TakesTurns lead ∧
      ¬ TakesTurns (lead ++ [bad]) ∧
      how.reason = outOfTurnReason (kindDue lead) (lead.length + 1) bad.kind := by
  unfold jointsOfCollection at h
  split at h
  · rename_i k nodes
    rcases Converting.outcome_bind_eq_error.1 h with h | ⟨_, _, _, hpure⟩
    -- the combinator in front has the first position, and what is due does not change with it
    · obtain ⟨lead, bad, rest, joints, rfl, ha, hbad, hreason⟩ := outcome_jointsOfNodes_error h
      have ht : TakesTurns (.combinator k :: lead) := takesTurns_iff.2 ⟨_, .led k ha⟩
      refine ⟨.combinator k :: lead, bad, rest, rfl, ht, ?_, ?_⟩
      · rw [takesTurns_concat_iff ht, kindDue_cons_combinator]
        rintro (hn | ⟨hn, _⟩)
        · exact hbad hn
        · cases hn
      · rw [kindDue_cons_combinator, hreason, List.length_cons]
        congr 1
        omega
    · cases hpure
  · rename_i hne
    obtain ⟨lead, bad, rest, joints, rfl, ha, hbad, hreason⟩ := outcome_jointsOfNodes_error h
    have ht : TakesTurns lead := takesTurns_iff.2 ⟨_, .headed ha⟩
    refine ⟨lead, bad, rest, rfl, ht, ?_, ?_⟩
    · rw [takesTurns_concat_iff ht]
      rintro (hn | ⟨rfl, hn⟩)
      · exact hbad hn
      -- a combinator at the start would have been taken as the one in front
      · obtain ⟨k, rfl⟩ := Node.kind_eq_combinator.1 hn
        exact hne k rest rfl
    · rw [hreason, Nat.add_comm]

/-! ## What is converted -/

/-- Whether a node is converted, whatever the context. -/
def Node.Converts [CodeMap] (n : Node) : Prop :=
  ∀ ctx, ∃ c next, (Pass.toChain n).run ctx = (.ok c, next)

/-- Whether a chain is converted, whatever the context. -/
def Chain.Converts [CodeMap] (c : Chain) : Prop :=
  ∀ ctx, ∃ n next, (Pass.toNode c).run ctx = (.ok n, next)

theorem TakesTurns.converts [CodeMap] (h : TakesTurns nodes)
    (hl : nodes.getLast? ≠ some (.combinator .descendant)) : (Node.collection nodes).Converts := by
  intro ctx
  obtain ⟨joints, hd⟩ := takesTurns_iff.1 h
  exact ⟨_, passToChain_eq_ok.2 ⟨nodes, joints, rfl, hd, endsInDescendant_eq_false.2 hl, rfl⟩⟩

/-- Nodes that take turns lack at most a selector after the descendant combinator. -/
theorem TakesTurns.exists_completion [CodeMap] (h : TakesTurns lead) :
    ∃ more, (Node.collection (lead ++ more)).Converts := by
  by_cases hl : lead.getLast? = some (.combinator .descendant)
  · refine ⟨[.selector ⟨[]⟩], TakesTurns.converts ?_ ?_⟩
    · exact (takesTurns_concat_iff h).2 (.inl (kindDue_of_getLast? hl).symm)
    · simp
  · exact ⟨[], TakesTurns.converts (by rwa [List.append_nil]) (by rwa [List.append_nil])⟩

theorem Chain.converts_of_headed [CodeMap] (first : Link) {lead : List Link}
    (h : ∀ l ∈ lead, l.head.isSome) : Chain.Converts ⟨first, lead⟩ := fun _ =>
  ⟨_, passToNode_eq_ok.2 ⟨h, rfl⟩⟩

/-! ## What is said of the rest -/

/-- The reasons for which nodes are refused. A node that is no collection is refused for its kind,
a collection for its first node out of turn, and one whose nodes take turns for its end. -/
inductive Node.Refusal [CodeMap] : Node → String → Prop where
  | notCollection {n : Node} (h : ∀ nodes, n ≠ .collection nodes) :
      Refusal n ("expected a collection, found " ++ n.kind.text)
  | outOfTurn {lead rest : List Node} {bad : Node} (before : TakesTurns lead)
      (first : ¬ TakesTurns (lead ++ [bad]))
      (completed : ∃ more, (Node.collection (lead ++ more)).Converts) :
      Refusal (.collection (lead ++ bad :: rest))
        (outOfTurnReason (kindDue lead) (lead.length + 1) bad.kind)
  | dangling {nodes : List Node} (turns : TakesTurns nodes)
      (last : nodes.getLast? = some (.combinator .descendant)) :
      Refusal (.collection nodes) "a descendant combinator must be followed by a selector"

/-- The reason for which chains are refused. It numbers the first link without a head, the first
link of the chain apart, and tells the whole chain. -/
inductive Chain.Refusal [CodeMap] : Chain → String → Prop where
  | headless {c : Chain} {lead rest : List Link} {gap : Link} (links : c.rest = lead ++ gap :: rest)
      (before : ∀ l ∈ lead, l.head.isSome) (first : gap.head = none)
      (completed : ∃ more, Chain.Converts ⟨c.first, lead ++ more⟩) :
      Refusal c ("link " ++ toString (lead.length + 2) ++ " of `" ++ c.text ++
        "` has no compound selector")

theorem refusal_of_outcome_toChain [CodeMap] (h : n.toChain.outcome count = (.error how, next)) :
    n.Refusal how.reason := by
  unfold Node.toChain at h
  split at h
  · rename_i nodes
    rcases Converting.outcome_bind_eq_error.1 h with h | ⟨joints, mid, hok, h⟩
    · obtain ⟨lead, bad, rest, rfl, ht, hbad, hreason⟩ := outcome_jointsOfCollection_error h
      rw [hreason]
      exact .outOfTurn ht hbad ht.exists_completion
    · split at h
      · rename_i hend
        cases h
        obtain ⟨hd, _⟩ := jointsOfCollection_eq_ok.1 hok
        exact .dangling (takesTurns_iff.2 ⟨joints, hd⟩) (endsInDescendant_iff.1 hend)
      · cases h
  · rename_i hne
    cases h
    exact .notCollection hne

theorem refusal_of_outcome_toNode [CodeMap] {c : Chain}
    (h : c.toNode.outcome count = (.error how, next)) : c.Refusal how.reason := by
  by_cases hh : AllHeaded (c.rest.map Link.joint)
  · rw [outcome_toNode hh] at h
    cases h
  · obtain ⟨lead, k, rest, hlead, hrest⟩ := exists_headless hh
    rw [outcome_toNode_headless hlead hrest] at h
    cases h
    obtain ⟨links, tail, hlinks, rfl, htail⟩ := List.map_eq_append_iff.1 hrest
    obtain ⟨gap, others, rfl, hgap, _⟩ := List.map_eq_cons_iff.1 htail
    have hbefore : ∀ l ∈ links, l.head.isSome := by simpa [AllHeaded, Link.joint] using hlead
    have hfirst : gap.head = none := congrArg Prod.fst hgap
    have hnumber : 2 + (links.map Link.joint).length = links.length + 2 := by
      rw [List.length_map, Nat.add_comm]
    rw [hnumber]
    exact .headless hlinks hbefore hfirst
      ⟨[], Chain.converts_of_headed c.first (by simpa using hbefore)⟩

/-- **A conversion that fails tells the first place that is at fault, and what comes before it can
be completed to something that is converted.** -/
theorem conversion_refusal [CodeMap] (ctx next : Context) (fault : Fault) :
    (∀ n, (Pass.toChain n).run ctx = (.error fault, next) →
      ∃ how, fault = .internal (.malformed how) ∧ Node.Refusal n how.reason) ∧
    ∀ c, (Pass.toNode c).run ctx = (.error fault, next) →
      ∃ how, fault = .internal (.malformed how) ∧ Chain.Refusal c how.reason := by
  constructor
  · intro n h
    obtain ⟨how, count, hout, rfl⟩ := Pass.convert_eq_error h
    exact ⟨how, rfl, refusal_of_outcome_toChain hout⟩
  · intro c h
    obtain ⟨how, count, hout, rfl⟩ := Pass.convert_eq_error h
    exact ⟨how, rfl, refusal_of_outcome_toNode hout⟩

/-- A combinator in front, and nothing where the second selector has to be; and a gap in a chain. -/
theorem conversion_refusal_fourth :
    let n : Node := .collection
      [.combinator .child, .selector ⟨[.classed "a"]⟩, .combinator .child, .nil, .nil]
    let c : Chain := .ofJoints
      [(none, .child), (some ⟨[.classed "a"]⟩, .child), (none, .child), (none, .child)]
    n.Refusal "expected a selector at position 4, found nil" ∧
      c.Refusal "link 3 of `> .a > > >` has no compound selector" := by
  intro n c
  have hn : n.toChain.outcome 0 = (.error (.selectorExpected 4 .nil), 1) := rfl
  have hc : c.toNode.outcome 0 = (.error (.headlessLink 3 c), 1) := rfl
  have hchain : (Pass.toChain n).run { options := {} } =
      (.error (.internal (.malformed (.selectorExpected 4 .nil))), _) := Pass.convert_run_error hn _
  have hnode : (Pass.toNode c).run { options := {} } =
      (.error (.internal (.malformed (.headlessLink 3 c))), _) := Pass.convert_run_error hc _
  obtain ⟨how, e, h⟩ := (conversion_refusal _ _ _).1 n hchain
  obtain ⟨how', e', h'⟩ := (conversion_refusal _ _ _).2 c hnode
  cases e
  cases e'
  exact ⟨h, h'⟩

end SelectorAlgebra
