import Mathlib.Data.List.Chain
import SelectorAlgebra.Node.Operations
import SelectorAlgebra.Proofs.Conversion.Inverse
import SelectorAlgebra.Source.Consecutive

/-
  Adding the node of one chain to that of another. Selectors and combinators take turns, so what
  decides is the seam: the last node of the first chain and the first node of the second must be
  of different kinds (`Describing.kind_ne`). Where they are, the nodes are those of the spliced
  chain (`flatNodes_splice`).
-/

namespace SelectorAlgebra

variable {c c₁ c₂ : Chain} {head : Option Compound} {k : Combinator} {js ks lead : List Joint}
  {nodes : List Node} {joints : List Joint}

/-! ## Splicing chains -/

namespace Chain

/-- The links of two chains one after another. A chain without links that count adds nothing. A
combinator that begins the second chain takes the place of the descendant combinator at the end of
the first. -/
def splice (c₁ c₂ : Chain) : List Joint :=
  if c₁.isEmpty then c₂.joints
  else if c₂.isEmpty then c₁.joints
  else if c₁.trailing?.isSome then c₁.joints ++ c₂.joints
  else c₁.joints.dropLast ++
    (c₁.last.first.head, c₂.first.combinator) :: c₂.rest.map Link.joint

/-- Whether there is exactly one combinator where two chains meet, or nothing to meet. -/
def Meets (c₁ c₂ : Chain) : Prop :=
  c₁.isEmpty ∨ c₂.isEmpty ∨ c₁.trailing?.isSome ≠ c₂.first.head.isNone

theorem joints_eq_cons (c : Chain) : c.joints = c.first.joint :: c.rest.map Link.joint := rfl

theorem joints_eq_concat (c : Chain) : c.joints = c.joints.dropLast ++ [c.last.first.joint] := by
  have h : c.joints.getLast? = some c.last.first.joint := by
    rw [joints_eq_cons, List.getLast?_cons, List.getLast?_map]
    unfold last
    cases h : c.rest.getLast? <;> simp [List.getLastD_eq_getLast?, h]
  exact (List.dropLast_append_getLast? _ h).symm

theorem trailing?_isSome : c.trailing?.isSome ↔ c.last.first.combinator ≠ .descendant := by
  unfold trailing?
  split
  · rename_i h
    simp [h]
  · rename_i h
    simp [h]

theorem trailing?_isSome_eq_false :
    c.trailing?.isSome = false ↔ c.last.first.combinator = .descendant := by
  rw [← Bool.not_eq_true, trailing?_isSome, not_not]

theorem isEmpty_iff : c.isEmpty ↔ c.joints = [(none, .descendant)] := by
  obtain ⟨⟨head, k, span⟩, rest⟩ := c
  simp only [isEmpty, joints, links, Link.joint, Bool.and_eq_true, Option.isNone_iff_eq_none,
    List.isEmpty_iff, beq_iff_eq, List.map_cons, List.cons.injEq, Prod.mk.injEq,
    List.map_eq_nil_iff]
  tauto

theorem last_mem_rest (h : c.rest ≠ []) : c.last.first ∈ c.rest := by
  have hl := List.getLast?_eq_some_getLast h
  show c.rest.getLastD c.first ∈ c.rest
  rw [List.getLastD_eq_getLast?, hl]
  exact List.getLast_mem h

/-- A chain that ends in no combinator ends in a head, unless it is empty. -/
theorem last_head_isSome (hr : ∀ l ∈ c.rest, l.head.isSome) (he : ¬ c.isEmpty)
    (hk : c.last.first.combinator = .descendant) : c.last.first.head.isSome := by
  by_cases h : c.rest = []
  · have hfirst : c.last.first = c.first := by simp [last, h]
    rw [hfirst] at hk ⊢
    rw [Option.isSome_iff_ne_none]
    intro hh
    apply he
    rw [isEmpty_iff, joints_eq_cons, h]
    simp [Link.joint, hh, hk]
  · exact hr _ (last_mem_rest h)

end Chain

/-! ## The nodes of joined links -/

/-- The nodes of links before other ones: every combinator is there. -/
def innerNodes (js : List Joint) : List Node :=
  js.flatMap fun j => j.1.toList.map .selector ++ [.combinator j.2]

theorem flatNodes_append (h : ks ≠ []) : flatNodes (js ++ ks) = innerNodes js ++ flatNodes ks := by
  induction js with
  | nil => rfl
  | cons j js ih =>
    obtain ⟨head, k⟩ := j
    have hk : ¬ (js ++ ks = [] ∧ k = .descendant) := by simp [h]
    rw [List.cons_append, flatNodes, combinatorNodes_eq hk, ih]
    simp [innerNodes]

theorem flatNodes_concat : flatNodes (lead ++ [(head, k)]) =
    innerNodes lead ++ (head.toList.map .selector ++ combinatorNodes k true) := by
  rw [flatNodes_append (by simp)]
  simp [flatNodes]

/-- Links that end in an explicit combinator leave none out. -/
theorem flatNodes_concat_of_ne (h : k ≠ .descendant) :
    flatNodes (lead ++ [(head, k)]) = innerNodes (lead ++ [(head, k)]) := by
  have hlast : ¬ (([] : List Joint) = [] ∧ k = .descendant) := fun h' => h h'.2
  have hk : combinatorNodes k true = [.combinator k] := combinatorNodes_eq hlast
  rw [flatNodes_concat, hk]
  simp [innerNodes]

theorem flatNodes_of_isEmpty (h : c.isEmpty) : flatNodes c.joints = [] := by
  rw [Chain.isEmpty_iff.1 h]
  rfl

/-- Where chains meet in exactly one combinator, their nodes are those of the spliced links. -/
theorem flatNodes_splice (h : c₁.Meets c₂) :
    flatNodes (c₁.splice c₂) = flatNodes c₁.joints ++ flatNodes c₂.joints := by
  unfold Chain.splice
  split
  · rename_i he
    rw [flatNodes_of_isEmpty he, List.nil_append]
  split
  · rename_i he
    rw [flatNodes_of_isEmpty he, List.append_nil]
  split
  · rename_i ht
    have hk := Chain.trailing?_isSome.1 ht
    rw [flatNodes_append c₂.joints_ne_nil, c₁.joints_eq_concat]
    congr 1
    exact (flatNodes_concat_of_ne hk).symm
  · rename_i he₁ he₂ ht
    have ht : c₁.trailing?.isSome = false := by simpa using ht
    have hk := Chain.trailing?_isSome_eq_false.1 ht
    have hh : c₂.first.head = none := by
      unfold Chain.Meets at h
      simpa [he₁, he₂, ht] using h
    have hc₁ : flatNodes c₁.joints = innerNodes c₁.joints.dropLast ++
        c₁.last.first.head.toList.map .selector := by
      rw [c₁.joints_eq_concat, Link.joint, hk, flatNodes_concat]
      simp [combinatorNodes]
    have hc₂ : flatNodes c₂.joints = combinatorNodes c₂.first.combinator
        (c₂.rest.map Link.joint).isEmpty ++ flatNodes (c₂.rest.map Link.joint) := by
      rw [c₂.joints_eq_cons, Link.joint, hh, flatNodes]
      rfl
    rw [flatNodes_append (by simp), hc₁, hc₂, flatNodes, List.append_assoc]

theorem Chain.splice_ne_nil (c₁ c₂ : Chain) : c₁.splice c₂ ≠ [] := by
  unfold splice
  split
  · exact c₂.joints_ne_nil
  split
  · exact c₁.joints_ne_nil
  split
  · simp [c₁.joints_ne_nil]
  · simp

theorem allHeaded_append : AllHeaded (js ++ ks) ↔ AllHeaded js ∧ AllHeaded ks := by
  simp only [AllHeaded, List.mem_append]
  constructor
  · intro h
    exact ⟨fun j hj => h j (Or.inl hj), fun j hj => h j (Or.inr hj)⟩
  · rintro ⟨hjs, hks⟩ j (hj | hj)
    · exact hjs j hj
    · exact hks j hj

theorem allHeaded_tail_joints (h : ∀ l ∈ c.rest, l.head.isSome) : AllHeaded c.joints.tail :=
  allHeaded_rest.2 h

/-- Only the first of the spliced links may lack a head. -/
theorem allHeaded_splice (h₁ : ∀ l ∈ c₁.rest, l.head.isSome)
    (h₂ : ∀ l ∈ c₂.rest, l.head.isSome) (h : c₁.Meets c₂) :
    AllHeaded (c₁.splice c₂).tail := by
  have h₁' := allHeaded_tail_joints h₁
  have h₂' := allHeaded_tail_joints h₂
  unfold Chain.splice
  split
  · exact h₂'
  split
  · exact h₁'
  split
  · rename_i he₁ he₂ ht
    have hh : c₂.first.head.isSome := by
      unfold Chain.Meets at h
      simpa [he₁, he₂, ht, Option.isSome_iff_ne_none] using h
    rw [List.tail_append_of_ne_nil c₁.joints_ne_nil, allHeaded_append]
    refine ⟨h₁', ?_⟩
    rw [c₂.joints_eq_cons, allHeaded_cons]
    exact ⟨hh, h₂'⟩
  · rw [c₁.joints_eq_concat] at h₁'
    cases hd : c₁.joints.dropLast with
    | nil => exact h₂'
    | cons j lead =>
      rw [hd, List.cons_append, List.tail_cons, allHeaded_append, allHeaded_cons] at h₁'
      rw [List.cons_append, List.tail_cons, allHeaded_append, allHeaded_cons]
      exact ⟨h₁'.1, h₁'.2.1, h₂'⟩

/-! ## The seam -/

theorem Alternating.head_kind {n : Node} (h : Alternating (n :: nodes) joints) :
    n.kind = .selector := by
  cases h with
  | last => rfl
  | pair => rfl

theorem Alternating.isChain (h : Alternating nodes joints) :
    nodes.IsChain fun a b => a.kind ≠ b.kind := by
  induction h with
  | nil => exact .nil
  | last c => exact .singleton _
  | @pair c k nodes joints h ih =>
    refine .cons_cons (by simp [Node.kind]) (List.isChain_cons.2 ⟨?_, ih⟩)
    intro n hn
    obtain ⟨more, rfl⟩ := List.head?_eq_some_iff.1 hn
    rw [h.head_kind]
    simp [Node.kind]

/-- Nodes that describe links change their kind from one to the next. -/
theorem Describing.isChain (h : Describing nodes joints) :
    nodes.IsChain fun a b => a.kind ≠ b.kind := by
  cases h with
  | headed h => exact h.isChain
  | led k h =>
    refine List.isChain_cons.2 ⟨?_, h.isChain⟩
    intro n hn
    obtain ⟨more, rfl⟩ := List.head?_eq_some_iff.1 hn
    rw [h.head_kind]
    simp [Node.kind]

/-- The kind of node at an end of a chain: a combinator if one is there, else a selector. -/
def endKind (isCombinator : Bool) : NodeKind := if isCombinator then .combinator else .selector

theorem exists_last_node (hr : ∀ l ∈ c.rest, l.head.isSome) (he : ¬ c.isEmpty) :
    ∃ n ∈ (flatNodes c.joints).getLast?, n.kind = endKind c.trailing?.isSome := by
  rw [c.joints_eq_concat, Link.joint, flatNodes_concat]
  cases ht : c.trailing?.isSome with
  | true =>
    have hk : ¬ (([] : List Joint) = [] ∧ c.last.first.combinator = .descendant) :=
      fun h => Chain.trailing?_isSome.1 ht h.2
    have hc : combinatorNodes c.last.first.combinator true = [.combinator _] :=
      combinatorNodes_eq hk
    rw [hc]
    exact ⟨.combinator c.last.first.combinator, by simp, rfl⟩
  | false =>
    have hk := Chain.trailing?_isSome_eq_false.1 ht
    obtain ⟨head, hh⟩ := Option.isSome_iff_exists.1 (Chain.last_head_isSome hr he hk)
    rw [hk, hh]
    exact ⟨.selector head, by simp [combinatorNodes], rfl⟩

theorem exists_first_node (he : ¬ c.isEmpty) :
    ∃ n ∈ (flatNodes c.joints).head?, n.kind = endKind c.first.head.isNone := by
  rw [c.joints_eq_cons, Link.joint]
  cases hh : c.first.head with
  | some head => exact ⟨.selector head, by simp [flatNodes], rfl⟩
  | none =>
    have hk : ¬ (c.rest.map Link.joint = [] ∧ c.first.combinator = .descendant) := by
      rintro ⟨hr, hk⟩
      apply he
      rw [Chain.isEmpty_iff, Chain.joints_eq_cons, hr, Link.joint, hh, hk]
    rw [flatNodes, combinatorNodes_eq hk]
    exact ⟨.combinator c.first.combinator, by simp, rfl⟩

/-- Chains whose nodes describe links together meet in exactly one combinator. -/
theorem Describing.meets (hr : ∀ l ∈ c₁.rest, l.head.isSome)
    (h : Describing (flatNodes c₁.joints ++ flatNodes c₂.joints) joints) : c₁.Meets c₂ := by
  unfold Chain.Meets
  by_cases he₁ : c₁.isEmpty
  · exact Or.inl he₁
  by_cases he₂ : c₂.isEmpty
  · exact Or.inr (Or.inl he₂)
  obtain ⟨a, ha, hka⟩ := exists_last_node hr he₁
  obtain ⟨b, hb, hkb⟩ := exists_first_node he₂
  have hne : a.kind ≠ b.kind := (List.isChain_append.1 h.isChain).2.2 a ha b hb
  refine Or.inr (Or.inr fun heq => hne ?_)
  rw [hka, hkb, heq]

/-! ## Adding nodes -/

/-- The nodes of headed links are converted to these links, in any context. -/
theorem passToChain_flatNodes [CodeMap] (hn : js ≠ []) (h : AllHeaded js.tail) (ctx : Context) :
    ∃ c next, (Pass.toChain (.collection (flatNodes js))).run ctx = (.ok c, next) ∧
      c.joints = js := by
  obtain ⟨j, tail, rfl⟩ := List.exists_cons_of_ne_nil hn
  have hc : ∃ next, (Pass.toNode (.ofJoints (j :: tail))).run ctx =
      (.ok (.collection (flatNodes (j :: tail))), next) := by
    refine passToNode_eq_ok.2 ⟨AllHeaded.ofJoints_rest h, ?_⟩
    rw [Chain.joints_ofJoints]
  obtain ⟨next, hc⟩ := hc
  obtain ⟨c, next', hrun, hsame⟩ := passToChain_of_toNode hc ctx
  refine ⟨c, next', hrun, ?_⟩
  rw [Chain.same_iff.1 hsame, Chain.joints_ofJoints]

/-- **The nodes of two chains, one added to the other, are converted to a chain exactly if one of
the chains is empty or there is exactly one combinator where they meet; and its links are then the
spliced links.** -/
theorem toChain_plus_toNode [CodeMap] {n₁ n₂ : Node} {ctx₁ ctx₂ next₁ next₂ : Context}
    (h₁ : (Pass.toNode c₁).run ctx₁ = (.ok n₁, next₁))
    (h₂ : (Pass.toNode c₂).run ctx₂ = (.ok n₂, next₂)) :
    ∃ n, n₁.plus n₂ = .ok n ∧ ∀ ctx,
      ((∃ c next, (Pass.toChain n).run ctx = (.ok c, next)) ↔
        c₁.isEmpty ∨ c₂.isEmpty ∨ c₁.trailing?.isSome ≠ c₂.first.head.isNone) ∧
      ∀ c next, (Pass.toChain n).run ctx = (.ok c, next) → c.joints = c₁.splice c₂ := by
  obtain ⟨hr₁, rfl⟩ := passToNode_eq_ok.1 ⟨next₁, h₁⟩
  obtain ⟨hr₂, rfl⟩ := passToNode_eq_ok.1 ⟨next₂, h₂⟩
  refine ⟨_, Node.plus_collection _ _, fun ctx => ?_⟩
  have hmeets : (∃ c next, (Pass.toChain (.collection
      (flatNodes c₁.joints ++ flatNodes c₂.joints))).run ctx = (.ok c, next)) → c₁.Meets c₂ := by
    rintro ⟨c, h⟩
    obtain ⟨nodes, joints, e, hd, _⟩ := passToChain_eq_ok.1 h
    cases e
    exact hd.meets hr₁
  have hsplice : c₁.Meets c₂ → ∃ c next, (Pass.toChain (.collection
      (flatNodes c₁.joints ++ flatNodes c₂.joints))).run ctx = (.ok c, next) ∧
      c.joints = c₁.splice c₂ := by
    intro h
    rw [← flatNodes_splice h]
    exact passToChain_flatNodes (c₁.splice_ne_nil c₂) (allHeaded_splice hr₁ hr₂ h) ctx
  refine ⟨⟨hmeets, fun h => ?_⟩, ?_⟩
  · obtain ⟨c, next, h, _⟩ := hsplice h
    exact ⟨c, next, h⟩
  · intro c next h
    obtain ⟨c', next', h', hj⟩ := hsplice (hmeets ⟨c, next, h⟩)
    rw [h] at h'
    cases h'
    exact hj

/-- A combinator that begins the second chain joins it to the first; with none, they do not join. -/
theorem toChain_plus_toNode_seams :
    let a : Compound := ⟨[.classed "a"]⟩
    let b : Compound := ⟨[.id "b"]⟩
    let c₁ : Chain := .ofJoints [(some a, .descendant)]
    let c₂ : Chain := .ofJoints [(none, .child), (some b, .nextSibling)]
    ∃ n₁ n₂ next₁ next₂, (Pass.toNode c₁).run { options := {} } = (.ok n₁, next₁) ∧
      (Pass.toNode c₂).run next₁ = (.ok n₂, next₂) ∧
      (∃ n c next, n₁.plus n₂ = .ok n ∧ (Pass.toChain n).run next₂ = (.ok c, next) ∧
        c.joints = [(some a, .child), (some b, .nextSibling)]) ∧
      ∃ n, n₁.plus n₁ = .ok n ∧ ¬ ∃ c next, (Pass.toChain n).run next₂ = (.ok c, next) := by
  intro a b c₁ c₂
  have h₁ : ∃ next₁, (Pass.toNode c₁).run { options := {} } = (.ok _, next₁) :=
    passToNode_eq_ok.2 ⟨by decide, rfl⟩
  obtain ⟨next₁, h₁⟩ := h₁
  have h₂ : ∃ next₂, (Pass.toNode c₂).run next₁ = (.ok _, next₂) :=
    passToNode_eq_ok.2 ⟨by decide, rfl⟩
  obtain ⟨next₂, h₂⟩ := h₂
  refine ⟨_, _, next₁, next₂, h₁, h₂, ?_, ?_⟩
  · obtain ⟨n, hn, h⟩ := toChain_plus_toNode h₁ h₂
    obtain ⟨c, next, hc⟩ := (h next₂).1.2 (by decide)
    refine ⟨n, c, next, hn, hc, ?_⟩
    rw [(h next₂).2 c next hc]
    decide
  · obtain ⟨n, hn, h⟩ := toChain_plus_toNode h₁ h₁
    refine ⟨n, hn, ?_⟩
    rw [(h next₂).1]
    decide

end SelectorAlgebra
