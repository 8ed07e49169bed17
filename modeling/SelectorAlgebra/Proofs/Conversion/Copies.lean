import SelectorAlgebra.Proofs.Conversion.Inverse

/-
  How many copies are made, also by what fails half-way. A chain is converted link by link, so the
  heads before the first gap are copied; a collection is converted node by node, so the selectors
  are copied that stand before the first node out of turn. `inTurn_greatest` says that the nodes
  before that one are the longest beginning in which selectors and combinators take turns.
-/

namespace SelectorAlgebra

variable {α β : Type} {nodes lead : List Node} {joints : List Joint} {count position : Nat}

/-! ## What is gone through -/

/-- The number of heads in the links before the first link without a head, the first link of the
chain apart. -/
def Chain.headsBeforeGap (c : Chain) : Nat :=
  (c.first :: c.rest.takeWhile fun l => l.head.isSome).countP fun l => l.head.isSome

/-- Whether a node may stand after one of kind `before`, or at the start of a flat collection. -/
def Node.mayFollow (before : Option NodeKind) (n : Node) : Bool :=
  match before, n.kind with
  | none, .selector | none, .combinator => true
  | some .selector, .combinator => true
  | some .combinator, .selector => true
  | _, _ => false

/-- The nodes up to the first one that may not stand after the node before it. -/
def inTurnAfter (before : Option NodeKind) : List Node → List Node
  | [] => []
  | n :: ns => if n.mayFollow before then n :: inTurnAfter (some n.kind) ns else []

/-- The nodes of a collection up to the first one out of turn. -/
def inTurn (nodes : List Node) : List Node := inTurnAfter none nodes

def Node.isSelector (n : Node) : Bool := n.kind == .selector

theorem inTurnAfter_prefix (before : Option NodeKind) (nodes : List Node) :
    inTurnAfter before nodes <+: nodes := by
  induction nodes generalizing before with
  | nil => exact List.prefix_refl _
  | cons n ns ih =>
    unfold inTurnAfter
    split
    · exact (List.prefix_cons_inj n).2 (ih _)
    · exact List.nil_prefix

/-- Without a combinator in front, the start asks for what a combinator does. -/
theorem inTurn_of_ne (h : ∀ k rest, nodes ≠ .combinator k :: rest) :
    inTurn nodes = inTurnAfter (some .combinator) nodes := by
  cases nodes with
  | nil => rfl
  | cons n ns =>
    cases n with
    | combinator k => exact absurd rfl (h k ns)
    | _ => rfl

/-- What is in turn ends after a selector that no combinator follows. -/
theorem inTurnAfter_selector (c : Compound) {other : Node} (h : ∀ k, other ≠ .combinator k) :
    inTurnAfter (some .combinator) (.selector c :: other :: nodes) = [.selector c] := by
  cases other with
  | combinator k => exact absurd rfl (h k)
  | _ => rfl

/-- What is in turn ends where a selector has to come and none does. -/
theorem inTurnAfter_other {other : Node} (h : ∀ c, other ≠ .selector c) :
    inTurnAfter (some .combinator) (other :: nodes) = [] := by
  cases other with
  | selector c => exact absurd rfl (h c)
  | _ => rfl

/-- Nodes, two at a time, up to the first that is out of turn. -/
theorem pairs_induction {motive : List Node → Prop} (nil : motive [])
    (last : ∀ c, motive [.selector c])
    (pair : ∀ c k nodes, motive nodes → motive (.selector c :: .combinator k :: nodes))
    (noCombinator : ∀ c other nodes, (∀ k, other ≠ .combinator k) →
      motive (.selector c :: other :: nodes))
    (noSelector : ∀ other nodes, (∀ c, other ≠ .selector c) → motive (other :: nodes))
    (nodes : List Node) : motive nodes := by
  fun_induction jointsOfNodes 1 nodes with
  | case1 => exact nil
  | case2 position c => exact last c
  | case3 position c k nodes ih => exact pair c k nodes ih
  | case4 position c other nodes hk => exact noCombinator c other nodes hk
  | case5 position other nodes h₁ _ h₃ =>
    refine noSelector other nodes fun c e => ?_
    cases nodes with
    | nil => exact h₁ c e rfl
    | cons n ns => exact h₃ c n ns e rfl

/-- A selector that no combinator follows is copied, and then reading fails. -/
theorem outcome_jointsOfNodes_selector (c : Compound) {other : Node}
    (h : ∀ k, other ≠ .combinator k) (count : Nat) :
    (jointsOfNodes position (.selector c :: other :: nodes)).outcome count =
      (.error (.combinatorExpected (position + 1) other.kind), count + 1) := by
  cases other with
  | combinator k => exact absurd rfl (h k)
  | _ => rfl

/-- Reading fails where a selector has to come and none does. -/
theorem outcome_jointsOfNodes_other {other : Node} (h : ∀ c, other ≠ .selector c) (count : Nat) :
    (jointsOfNodes position (other :: nodes)).outcome count =
      (.error (.selectorExpected position other.kind), count) := by
  cases other with
  | selector c => exact absurd rfl (h c)
  | _ => rfl

/-! ## The longest beginning that takes turns -/

/-- Where a selector has to come first, what is in turn alternates. -/
theorem exists_alternating_inTurnAfter (nodes : List Node) :
    ∃ joints, Alternating (inTurnAfter (some .combinator) nodes) joints := by
  induction nodes using pairs_induction with
  | nil => exact ⟨_, .nil⟩
  | last c => exact ⟨_, .last c⟩
  | pair c k nodes ih =>
    obtain ⟨joints, h⟩ := ih
    exact ⟨_, .pair c k h⟩
  | noCombinator c other nodes h =>
    rw [inTurnAfter_selector c h]
    exact ⟨_, .last c⟩
  | noSelector other nodes h =>
    rw [inTurnAfter_other h]
    exact ⟨_, .nil⟩

theorem Alternating.prefix_inTurnAfter (h : Alternating lead joints) (hp : lead <+: nodes) :
    lead <+: inTurnAfter (some .combinator) nodes := by
  induction h generalizing nodes with
  | nil => exact List.nil_prefix
  | last c =>
    obtain ⟨rest, rfl⟩ := hp
    exact (List.prefix_cons_inj _).2 List.nil_prefix
  | pair c k h ih =>
    obtain ⟨rest, rfl⟩ := hp
    exact (List.prefix_cons_inj _).2 ((List.prefix_cons_inj _).2 (ih (List.prefix_append _ _)))

theorem takesTurns_inTurn (nodes : List Node) : TakesTurns (inTurn nodes) := by
  rw [takesTurns_iff]
  by_cases h : ∃ k rest, nodes = .combinator k :: rest
  · obtain ⟨k, rest, rfl⟩ := h
    obtain ⟨joints, h⟩ := exists_alternating_inTurnAfter rest
    exact ⟨_, .led k h⟩
  · rw [inTurn_of_ne fun k rest e => h ⟨k, rest, e⟩]
    obtain ⟨joints, h⟩ := exists_alternating_inTurnAfter nodes
    exact ⟨_, .headed h⟩

theorem Describing.prefix_inTurn (h : Describing lead joints) (hp : lead <+: nodes) :
    lead <+: inTurn nodes := by
  cases h with
  | led k h =>
    obtain ⟨rest, rfl⟩ := hp
    exact (List.prefix_cons_inj _).2 (h.prefix_inTurnAfter (List.prefix_append _ _))
  | headed h =>
    have hin := h.prefix_inTurnAfter hp
    obtain ⟨rest, rfl⟩ := hp
    cases h with
    | nil => exact List.nil_prefix
    | last c => exact hin
    | pair c k h => exact hin

/-- The nodes before the first one out of turn are the longest beginning that takes turns. -/
theorem inTurn_greatest (nodes : List Node) :
    TakesTurns (inTurn nodes) ∧ inTurn nodes <+: nodes ∧
      ∀ lead, TakesTurns lead → lead <+: nodes → lead <+: inTurn nodes := by
  refine ⟨takesTurns_inTurn nodes, inTurnAfter_prefix none nodes, ?_⟩
  intro lead h hp
  obtain ⟨joints, h⟩ := takesTurns_iff.1 h
  exact h.prefix_inTurn hp

/-! ## Counting copies -/

namespace Converting

/-- The copies of a conversion in two parts are those of the first if the second makes none. -/
theorem outcome_bind_snd {x : Converting α} {f : α → Converting β}
    (h : ∀ a n, (outcome (f a) n).2 = n) (count : Nat) :
    (outcome (x >>= f) count).2 = (outcome x count).2 := by
  cases hx : outcome x count with
  | mk r next =>
    cases r with
    | error how => rw [outcome_bind_error hx]
    | ok a => rw [outcome_bind_ok hx, h]

end Converting

/-- Links are read from nodes with a copy of each selector in turn. -/
theorem outcome_jointsOfNodes_snd (position : Nat) (nodes : List Node) (count : Nat) :
    ((jointsOfNodes position nodes).outcome count).2 =
      count + (inTurnAfter (some .combinator) nodes).countP Node.isSelector := by
  induction nodes using pairs_induction generalizing position count with
  | nil => rfl
  | last c => rfl
  | pair c k nodes ih =>
    have hin : inTurnAfter (some .combinator) (.selector c :: .combinator k :: nodes) =
      .selector c :: .combinator k :: inTurnAfter (some .combinator) nodes := rfl
    rw [jointsOfNodes, Converting.outcome_copy_bind,
      Converting.outcome_bind_snd (fun _ _ => rfl), ih, hin, List.countP_cons_of_pos rfl,
      List.countP_cons_of_neg Bool.false_ne_true]
    omega
  | noCombinator c other nodes h =>
    rw [inTurnAfter_selector c h, outcome_jointsOfNodes_selector c h]
    rfl
  | noSelector other nodes h =>
    rw [inTurnAfter_other h, outcome_jointsOfNodes_other h]
    rfl

theorem outcome_jointsOfCollection_snd (nodes : List Node) (count : Nat) :
    ((jointsOfCollection nodes).outcome count).2 =
      count + (inTurn nodes).countP Node.isSelector := by
  unfold jointsOfCollection
  split
  · rename_i k nodes
    have hin : inTurn (.combinator k :: nodes) =
      .combinator k :: inTurnAfter (some .combinator) nodes := rfl
    rw [Converting.outcome_bind_snd (fun _ _ => rfl), outcome_jointsOfNodes_snd, hin,
      List.countP_cons_of_neg Bool.false_ne_true]
  · rename_i h
    rw [outcome_jointsOfNodes_snd, inTurn_of_ne h]

/-- A collection is converted with a copy of each selector before the first node out of turn,
also if its last node is one that may not be there. -/
theorem outcome_toChain_snd (nodes : List Node) (count : Nat) :
    ((Node.collection nodes).toChain.outcome count).2 =
      count + (inTurn nodes).countP Node.isSelector := by
  have hend : ∀ (joints : List Joint) (n : Nat), (Converting.outcome (do
      if endsInDescendant nodes then throw .danglingDescendant
      return Chain.ofJoints joints) n).2 = n := by
    intro joints n
    cases endsInDescendant nodes <;> rfl
  rw [Node.toChain, Converting.outcome_bind_snd hend, outcome_jointsOfCollection_snd]

/-- What is no collection is refused before anything is copied. -/
theorem outcome_toChain_other {n : Node} (h : ∀ nodes, n ≠ .collection nodes) (count : Nat) :
    (n.toChain.outcome count).2 = count := by
  cases n with
  | collection nodes => exact absurd rfl (h nodes)
  | _ => rfl

/-- Later links are converted with a copy of each head up to the first link without one. -/
theorem outcome_nodesOfJoints_snd {number : Nat} (h : 1 < number) (chain : Chain)
    (js : List Joint) (count : Nat) : ((nodesOfJoints chain number js).outcome count).2 =
      count + (js.takeWhile fun j => j.1.isSome).length := by
  induction js generalizing number count with
  | nil => rfl
  | cons j js ih =>
    obtain ⟨head, k⟩ := j
    cases head with
    | none =>
      rw [nodesOfJoints, if_neg (by omega)]
      rfl
    | some c =>
      rw [nodesOfJoints, Converting.outcome_copy_bind,
        Converting.outcome_bind_snd (fun _ _ => rfl), ih (by omega),
        List.takeWhile_cons_of_pos rfl, List.length_cons]
      omega

theorem Chain.headsBeforeGap_eq (c : Chain) : c.headsBeforeGap = c.first.head.toList.length +
    ((c.rest.map Link.joint).takeWhile fun j => j.1.isSome).length := by
  have hall : (c.rest.takeWhile fun l => l.head.isSome).countP (fun l => l.head.isSome) =
      (c.rest.takeWhile fun l => l.head.isSome).length :=
    List.countP_eq_length.2 (List.all_eq_true.1 List.all_takeWhile)
  have hmap : ((c.rest.map Link.joint).takeWhile fun j => j.1.isSome).length =
      (c.rest.takeWhile fun l => l.head.isSome).length := by
    rw [List.takeWhile_map, List.length_map]
    rfl
  rw [headsBeforeGap, hmap, ← hall, List.countP_cons]
  cases c.first.head with
  | none => exact (Nat.zero_add _).symm
  | some head => exact Nat.add_comm _ _

/-- A chain is converted with a copy of each head before the first gap. -/
theorem outcome_toNode_snd (c : Chain) (count : Nat) :
    (c.toNode.outcome count).2 = count + c.headsBeforeGap := by
  have hlinks : ((nodesOfJoints c 1 c.joints).outcome count).2 = count + c.headsBeforeGap := by
    show ((nodesOfJoints c 1 (c.first.joint :: c.rest.map Link.joint)).outcome count).2 = _
    rw [outcome_nodesOfJoints_first, Converting.outcome_bind_snd (fun _ _ => rfl),
      outcome_nodesOfJoints_snd (by decide), c.headsBeforeGap_eq, Nat.add_assoc]
    rfl
  rw [Chain.toNode, Converting.outcome_bind_snd (fun _ _ => rfl), hlinks]

mutual

/-- A copy of a node is that node, and counts as many copies as it has compound selectors. -/
theorem copy_run (n : Node) (count : Nat) : n.copy.run count = (n, count + n.selectorCount) := by
  cases n with
  | selector c => rfl
  | combinator k => rfl
  | collection nodes =>
    rw [Node.copy, StateT.run_bind, copies_run nodes]
    rfl
  | nil => rfl

theorem copies_run (nodes : List Node) (count : Nat) :
    (Node.copies nodes).run count = (nodes, count + Node.selectorCounts nodes) := by
  cases nodes with
  | nil => rfl
  | cons n ns =>
    rw [Node.copies, StateT.run_bind, copy_run n]
    show (do let ms ← Node.copies ns; pure (n :: ms)).run (count + n.selectorCount) = _
    rw [StateT.run_bind, copies_run ns, Node.selectorCounts, ← Nat.add_assoc]
    rfl

end

theorem Pass.copyNode_run (n : Node) (ctx : Context) : (Pass.copyNode n).run ctx =
    (.ok n, { ctx with allocations := ctx.allocations + n.selectorCount }) := by
  simp only [Pass.copyNode, ExceptT.run, Context.copying, copy_run]

end SelectorAlgebra
