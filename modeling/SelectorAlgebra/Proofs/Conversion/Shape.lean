import SelectorAlgebra.Proofs.Conversion.Outcome

/-
  The nodes that links become and the links that nodes describe. `flatNodes` are the nodes of
  links that can be converted, and `Alternating` relates nodes to the links that they describe,
  two nodes for each link. The two are inverse but for the descendant combinator at the end.
-/

namespace SelectorAlgebra

variable {chain : Chain} {j : Joint} {js joints : List Joint} {nodes : List Node}
  {number position count next : Nat}

/-! ## Links to nodes -/

/-- Whether all links have a compound selector. -/
def AllHeaded (js : List Joint) : Prop := ∀ j ∈ js, j.1.isSome

/-- The nodes of links, one for each compound selector and each combinator that is written. -/
def flatNodes : List Joint → List Node
  | [] => []
  | (head, k) :: js =>
    head.toList.map .selector ++ (combinatorNodes k js.isEmpty ++ flatNodes js)

theorem allHeaded_nil : AllHeaded [] := by simp [AllHeaded]

@[simp] theorem allHeaded_cons : AllHeaded (j :: js) ↔ j.1.isSome ∧ AllHeaded js := by
  simp [AllHeaded]

/-- Links that are not all headed begin with headed ones, and one without a head comes next. -/
theorem exists_headless (h : ¬ AllHeaded js) :
    ∃ lead k rest, AllHeaded lead ∧ js = lead ++ (none, k) :: rest := by
  induction js with
  | nil => exact absurd allHeaded_nil h
  | cons j js ih =>
    obtain ⟨head, k⟩ := j
    cases head with
    | none => exact ⟨[], k, js, allHeaded_nil, rfl⟩
    | some c =>
      obtain ⟨lead, k', rest, hl, e⟩ := ih fun hj => h (allHeaded_cons.2 ⟨rfl, hj⟩)
      exact ⟨(some c, k) :: lead, k', rest, allHeaded_cons.2 ⟨rfl, hl⟩, by rw [e]; rfl⟩

/-- Links with heads become their nodes, after one copy for each. -/
theorem outcome_nodesOfJoints (h : AllHeaded js) (count : Nat) :
    (nodesOfJoints chain number js).outcome count = (.ok (flatNodes js), count + js.length) := by
  induction js generalizing number count with
  | nil => rfl
  | cons j js ih =>
    obtain ⟨head, k⟩ := j
    obtain ⟨hj, hs⟩ := allHeaded_cons.1 h
    obtain ⟨c, rfl⟩ := Option.isSome_iff_exists.1 hj
    rw [nodesOfJoints, Converting.outcome_copy_bind, Converting.outcome_bind_ok (ih hs _),
      Converting.outcome_pure, List.length_cons, Nat.add_assoc, Nat.add_comm 1]
    rfl

/-- The conversion ends at the first link without a head that is not the first of the chain. -/
theorem outcome_nodesOfJoints_headless {k : Combinator} {lead rest : List Joint}
    (h : AllHeaded lead) (hn : number + lead.length ≠ 1) (count : Nat) :
    (nodesOfJoints chain number (lead ++ (none, k) :: rest)).outcome count =
      (.error (.headlessLink (number + lead.length) chain), count + lead.length) := by
  induction lead generalizing number count with
  | nil =>
    rw [List.nil_append, nodesOfJoints, if_neg (by simpa using hn)]
    rfl
  | cons j lead ih =>
    obtain ⟨head, k⟩ := j
    obtain ⟨hj, hs⟩ := allHeaded_cons.1 h
    obtain ⟨c, rfl⟩ := Option.isSome_iff_exists.1 hj
    rw [List.length_cons] at hn ⊢
    have hn' : number + 1 + lead.length ≠ 1 := by omega
    have hrest := ih hs hn' (count + 1)
    rw [List.cons_append, nodesOfJoints, Converting.outcome_copy_bind,
      Converting.outcome_bind_error hrest, Nat.add_right_comm, Nat.add_right_comm count]
    rfl

/-- The first link is copied if it has a head, and is let pass if it has none. -/
theorem outcome_nodesOfJoints_first (chain : Chain) (j : Joint) (js : List Joint) (count : Nat) :
    (nodesOfJoints chain 1 (j :: js)).outcome count = Converting.outcome (do
      let nodes ← nodesOfJoints chain 2 js
      return j.1.toList.map .selector ++ (combinatorNodes j.2 js.isEmpty ++ nodes))
      (count + j.1.toList.length) := by
  obtain ⟨head, k⟩ := j
  cases head <;> rfl

/-- A chain becomes the nodes of its links if all links after the first have heads. -/
theorem outcome_toNode {c : Chain} (h : AllHeaded (c.rest.map Link.joint)) (count : Nat) :
    c.toNode.outcome count = (.ok (.collection (flatNodes c.joints)),
      count + c.first.head.toList.length + c.rest.length) := by
  refine Converting.outcome_bind_ok ?_ _
  show (nodesOfJoints c 1 (c.first.joint :: c.rest.map Link.joint)).outcome count = _
  rw [outcome_nodesOfJoints_first, Converting.outcome_bind_ok (outcome_nodesOfJoints h _),
    List.length_map]
  rfl

/-- A chain with a later link without a head is refused, after the copies before that link. -/
theorem outcome_toNode_headless {c : Chain} {k : Combinator} {lead rest : List Joint}
    (h : AllHeaded lead) (hr : c.rest.map Link.joint = lead ++ (none, k) :: rest) (count : Nat) :
    c.toNode.outcome count = (.error (.headlessLink (2 + lead.length) c),
      count + c.first.head.toList.length + lead.length) := by
  refine Converting.outcome_bind_error ?_ _
  show (nodesOfJoints c 1 (c.first.joint :: c.rest.map Link.joint)).outcome count = _
  rw [outcome_nodesOfJoints_first, hr,
    Converting.outcome_bind_error (outcome_nodesOfJoints_headless h (by omega) _)]
  rfl

theorem allHeaded_rest {c : Chain} :
    AllHeaded (c.rest.map Link.joint) ↔ ∀ l ∈ c.rest, l.head.isSome := by
  simp [AllHeaded, Link.joint]

/-- The chains that are converted, and the nodes that they become. -/
theorem toNode_eq_ok {c : Chain} {n : Node} :
    (∃ next, c.toNode.outcome count = (.ok n, next)) ↔
      (∀ l ∈ c.rest, l.head.isSome) ∧ n = .collection (flatNodes c.joints) := by
  rw [← allHeaded_rest]
  constructor
  · rintro ⟨next, hn⟩
    by_cases h : AllHeaded (c.rest.map Link.joint)
    · rw [outcome_toNode h] at hn
      cases hn
      exact ⟨h, rfl⟩
    · obtain ⟨lead, k, rest, hl, e⟩ := exists_headless h
      rw [outcome_toNode_headless hl e] at hn
      cases hn
  · rintro ⟨h, rfl⟩
    exact ⟨_, outcome_toNode h count⟩

/-! ## Nodes to links -/

/-- Selectors and combinators in turn, and the links they describe. The last selector may do
without a combinator, and its link has the descendant combinator. -/
inductive Alternating : List Node → List Joint → Prop where
  | nil : Alternating [] []
  | last (c : Compound) : Alternating [.selector c] [(some c, .descendant)]
  | pair (c : Compound) (k : Combinator) {nodes : List Node} {joints : List Joint}
      (h : Alternating nodes joints) :
      Alternating (.selector c :: .combinator k :: nodes) ((some c, k) :: joints)

/-- The nodes of a collection and the links they describe. A combinator may lead. -/
inductive Describing : List Node → List Joint → Prop where
  | headed {nodes : List Node} {joints : List Joint} (h : Alternating nodes joints) :
      Describing nodes joints
  | led (k : Combinator) {nodes : List Node} {joints : List Joint} (h : Alternating nodes joints) :
      Describing (.combinator k :: nodes) ((none, k) :: joints)

/-- Links are read from nodes exactly if these alternate, with a copy of each selector. -/
theorem jointsOfNodes_eq_ok :
    (jointsOfNodes position nodes).outcome count = (.ok joints, next) ↔
      Alternating nodes joints ∧ next = count + Node.selectorCounts nodes := by
  constructor
  · intro h
    fun_induction jointsOfNodes position nodes generalizing count joints next with
    | case1 =>
      cases h
      exact ⟨.nil, rfl⟩
    | case2 position c =>
      cases h
      exact ⟨.last c, rfl⟩
    | case3 position c k nodes ih =>
      rw [Converting.outcome_copy_bind] at h
      obtain ⟨joints', mid, h', e⟩ := Converting.outcome_bind_eq_ok.1 h
      cases e
      obtain ⟨ha, rfl⟩ := ih h'
      exact ⟨.pair c k ha, by simp [Node.selectorCounts, Node.selectorCount]; omega⟩
    | case4 position c other nodes hk =>
      rw [Converting.outcome_copy_bind] at h
      cases h
    | case5 => cases h
  · rintro ⟨h, rfl⟩
    induction h generalizing position count with
    | nil => rfl
    | last c => rfl
    | @pair c k nodes joints h ih =>
      rw [jointsOfNodes, Converting.outcome_copy_bind, Converting.outcome_bind_ok ih]
      simp [Node.selectorCounts, Node.selectorCount]
      omega

/-- Links are read from the nodes of a collection exactly if these describe them. -/
theorem jointsOfCollection_eq_ok :
    (jointsOfCollection nodes).outcome count = (.ok joints, next) ↔
      Describing nodes joints ∧ next = count + Node.selectorCounts nodes := by
  constructor
  · intro h
    unfold jointsOfCollection at h
    split at h
    · rename_i k nodes
      obtain ⟨joints', mid, h', e⟩ := Converting.outcome_bind_eq_ok.1 h
      cases e
      obtain ⟨ha, rfl⟩ := jointsOfNodes_eq_ok.1 h'
      exact ⟨.led k ha, by simp [Node.selectorCounts, Node.selectorCount]⟩
    · obtain ⟨ha, e⟩ := jointsOfNodes_eq_ok.1 h
      exact ⟨.headed ha, e⟩
  · rintro ⟨h, rfl⟩
    cases h with
    | headed h =>
      have hj : (jointsOfNodes 1 nodes).outcome count = _ := jointsOfNodes_eq_ok.2 ⟨h, rfl⟩
      cases h with
      | _ => exact hj
    | @led k nodes joints h =>
      have hj : (jointsOfNodes 2 nodes).outcome count = _ := jointsOfNodes_eq_ok.2 ⟨h, rfl⟩
      rw [jointsOfCollection, Converting.outcome_bind_ok hj]
      simp [Node.selectorCounts, Node.selectorCount]

/-- The nodes that are converted, and the chains that they describe. -/
theorem toChain_eq_ok {n : Node} {c : Chain} :
    n.toChain.outcome count = (.ok c, next) ↔
      ∃ nodes joints, n = .collection nodes ∧ Describing nodes joints ∧
        endsInDescendant nodes = false ∧ c = .ofJoints joints ∧
        next = count + Node.selectorCounts nodes := by
  constructor
  · intro h
    unfold Node.toChain at h
    split at h
    · rename_i nodes
      obtain ⟨joints, mid, h', h⟩ := Converting.outcome_bind_eq_ok.1 h
      obtain ⟨hd, rfl⟩ := jointsOfCollection_eq_ok.1 h'
      split at h
      · cases h
      · rename_i hn
        cases h
        exact ⟨nodes, joints, rfl, hd, by simpa using hn, rfl, rfl⟩
    · cases h
  · rintro ⟨nodes, joints, rfl, hd, hn, rfl, rfl⟩
    rw [Node.toChain, Converting.outcome_bind_ok (jointsOfCollection_eq_ok.2 ⟨hd, rfl⟩), hn]
    rfl

/-! ## There and back -/

theorem endsInDescendant_append (before : List Node) (h : nodes ≠ []) :
    endsInDescendant (before ++ nodes) = endsInDescendant nodes := by
  rw [endsInDescendant, endsInDescendant, List.getLast?_append,
    List.getLast?_eq_some_getLast h, Option.some_or]

theorem endsInDescendant_iff :
    endsInDescendant nodes ↔ nodes.getLast? = some (.combinator .descendant) := by
  cases h : nodes.getLast? with
  | none => simp [endsInDescendant, h]
  | some n => cases n <;> simp [endsInDescendant, h, Node.combinator?]

theorem flatNodes_ne_nil (h : j.1.isSome) : flatNodes (j :: js) ≠ [] := by
  obtain ⟨c, hc⟩ := Option.isSome_iff_exists.1 h
  simp [flatNodes, hc]

/-- Only at the end, and only if it is the descendant combinator, a combinator is left out. -/
theorem combinatorNodes_eq {k : Combinator} (h : ¬ (js = [] ∧ k = .descendant)) :
    combinatorNodes k js.isEmpty = [.combinator k] := by
  simp only [combinatorNodes, Bool.and_eq_true, List.isEmpty_iff, beq_iff_eq]
  exact if_neg h

/-- The nodes that a chain becomes never end in a descendant combinator. -/
theorem endsInDescendant_flatNodes (h : AllHeaded js) :
    endsInDescendant (flatNodes (j :: js)) = false := by
  induction js generalizing j with
  | nil =>
    obtain ⟨head, k⟩ := j
    cases head <;> cases k <;> rfl
  | cons j' js ih =>
    obtain ⟨hj, hs⟩ := allHeaded_cons.1 h
    rw [flatNodes, ← List.append_assoc, endsInDescendant_append _ (flatNodes_ne_nil hj)]
    exact ih hs

/-- The nodes of headed links describe these links. -/
theorem AllHeaded.alternating (h : AllHeaded js) : Alternating (flatNodes js) js := by
  induction js with
  | nil => exact .nil
  | cons j js ih =>
    obtain ⟨head, k⟩ := j
    obtain ⟨hj, hs⟩ := allHeaded_cons.1 h
    obtain ⟨c, rfl⟩ := Option.isSome_iff_exists.1 hj
    -- the one case in which a combinator is left out
    by_cases hk : js = [] ∧ k = .descendant
    · obtain ⟨rfl, rfl⟩ := hk
      exact .last c
    · rw [flatNodes, combinatorNodes_eq hk]
      exact .pair c k (ih hs)

/-- Nodes that do not end in a descendant combinator are those of the links they describe. -/
theorem Alternating.flatNodes_eq (h : Alternating nodes joints)
    (hn : endsInDescendant nodes = false) : flatNodes joints = nodes := by
  induction h with
  | nil => rfl
  | last c => rfl
  | @pair c k nodes joints h ih =>
    cases h with
    | nil =>
      have hk : ¬ (([] : List Joint) = [] ∧ k = .descendant) := by
        rintro ⟨_, rfl⟩
        cases hn
      rw [flatNodes, combinatorNodes_eq hk]
      rfl
    | _ =>
      rw [flatNodes, ih ((endsInDescendant_append [_, _] (by simp)).symm.trans hn)]
      rfl

/-- What describes the links of a chain and does not end in a descendant combinator is the nodes
that this chain becomes. -/
theorem Describing.flatNodes_eq (h : Describing nodes joints)
    (hn : endsInDescendant nodes = false) :
    flatNodes (Chain.ofJoints joints).joints = nodes := by
  cases h with
  | headed h =>
    rw [← h.flatNodes_eq hn]
    cases joints with
    | nil => rfl
    | cons j js => rw [Chain.joints_ofJoints]
  | @led k nodes joints h =>
    rw [Chain.joints_ofJoints, flatNodes]
    cases h with
    | nil =>
      have hk : ¬ (([] : List Joint) = [] ∧ k = .descendant) := by
        rintro ⟨_, rfl⟩
        cases hn
      rw [combinatorNodes_eq hk]
      rfl
    | last c => rfl
    | pair c k' h =>
      rw [(Alternating.pair c k' h).flatNodes_eq
        ((endsInDescendant_append [_] (by simp)).symm.trans hn)]
      rfl

/-- The nodes that a chain becomes describe the links of that chain. -/
theorem describing_flatNodes (h : AllHeaded js) :
    ∃ joints, Describing (flatNodes (j :: js)) joints ∧
      (Chain.ofJoints joints).joints = j :: js := by
  obtain ⟨head, k⟩ := j
  cases head with
  | some c =>
    have hjs : AllHeaded ((some c, k) :: js) := allHeaded_cons.2 ⟨rfl, h⟩
    exact ⟨_, .headed hjs.alternating, Chain.joints_ofJoints _ _⟩
  | none =>
    -- the chain with nothing in it has one link, but no nodes describe it
    by_cases hk : js = [] ∧ k = .descendant
    · obtain ⟨rfl, rfl⟩ := hk
      exact ⟨[], .headed .nil, rfl⟩
    · rw [flatNodes, combinatorNodes_eq hk]
      exact ⟨_, .led k h.alternating, Chain.joints_ofJoints _ _⟩

end SelectorAlgebra
