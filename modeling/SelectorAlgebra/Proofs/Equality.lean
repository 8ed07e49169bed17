import Mathlib.Data.List.Perm.Subperm
import SelectorAlgebra.Node

/-
  What equality of nodes means. `Agree R` compares two trees place by place: at every path there is
  a node of the same kind in both or in neither, combinators are the same, and compound selectors
  are related by `R`. `equal_iff_agree` says that `Node.equal` decides `Agree`, with equality for
  `R` if the order within compounds counts and with `SameSimples` otherwise; its laws follow from
  those of `R`.
-/

namespace SelectorAlgebra

/-! ## Compounds as sets -/

/-- Two compounds have the same simple selectors, in whatever order and number. -/
def Compound.SameSimples (a b : Compound) : Prop := ∀ s, s ∈ a.components ↔ s ∈ b.components

/-- A set of simple selectors, as a list of its members, has the members of a list. -/
def Collects (set as : List Simple) : Prop := set.Nodup ∧ ∀ s, s ∈ set ↔ s ∈ as

theorem collects_distinct (as : List Simple) : Collects (distinct as) as :=
  ⟨nodup_distinct as, fun _ => mem_distinct⟩

/-- Sets have the same members if they are of one size and the first is a part of the second. -/
theorem size_and_inclusion_iff {as bs : List Simple} (ha : as.Nodup) (hb : bs.Nodup) :
    (as.length == bs.length && as.all fun s => decide (s ∈ bs)) ↔ ∀ s, s ∈ as ↔ s ∈ bs := by
  simp only [Bool.and_eq_true, beq_iff_eq, List.all_eq_true, decide_eq_true_eq]
  constructor
  · rintro ⟨hlen, hsub⟩
    have hle : bs.length ≤ as.length := Nat.le_of_eq hlen.symm
    have hp : as.Perm bs := (List.subperm_of_subset ha hsub).perm_of_length_le hle
    intro s
    exact hp.mem_iff
  · intro h
    have hp : as.Perm bs := (List.perm_ext_iff_of_nodup ha hb).2 h
    exact ⟨hp.length_eq, fun s hs => (h s).1 hs⟩

/-- The comparison of sets does not depend on how the members are collected. -/
theorem Collects.compare_iff {a b : Compound} {as bs : List Simple}
    (ha : Collects as a.components) (hb : Collects bs b.components) :
    (as.length == bs.length && as.all fun s => decide (s ∈ bs)) ↔ a.SameSimples b := by
  rw [size_and_inclusion_iff ha.1 hb.1]
  unfold Compound.SameSimples
  constructor
  · intro h s
    rw [← ha.2, ← hb.2, h]
  · intro h s
    rw [ha.2, hb.2, h]

namespace Compound

variable {a b c : Compound}

theorem SameSimples.refl (a : Compound) : a.SameSimples a := fun _ => Iff.rfl

theorem SameSimples.symm (h : a.SameSimples b) : b.SameSimples a := fun s => (h s).symm

theorem SameSimples.trans (h : a.SameSimples b) (h' : b.SameSimples c) : a.SameSimples c :=
  fun s => (h s).trans (h' s)

/-- Compounds are equivalent exactly if they have the same simple selectors. -/
theorem equivalent_iff : a.equivalent b ↔ a.SameSimples b := by
  have hset := (collects_distinct a.components).compare_iff (collects_distinct b.components)
  unfold equivalent
  rw [Bool.or_eq_true, hset, beq_iff_eq]
  constructor
  · rintro (rfl | h)
    · exact .refl a
    · exact h
  · exact Or.inr

/-- How compounds have to be related in equal nodes; `ordered` says whether their order counts. -/
def Alike (ordered : Bool) (a b : Compound) : Prop := if ordered then a = b else a.SameSimples b

theorem alike_false : Alike false = SameSimples := by
  funext a b
  simp [Alike]

theorem alike_equivalence (ordered : Bool) : Equivalence (Alike ordered) := by
  cases ordered with
  | true => exact ⟨fun _ => rfl, fun h => h.symm, fun h h' => h.trans h'⟩
  | false => exact ⟨SameSimples.refl, SameSimples.symm, SameSimples.trans⟩

theorem equal_selector_iff (ordered : Bool) :
    (Node.selector a).equal ordered (.selector b) ↔ Alike ordered a b := by
  cases ordered with
  | true => simp [Node.equal, Alike]
  | false =>
    simp only [Node.equal, Alike]
    exact equivalent_iff

end Compound

namespace Node

/-! ## Trees place by place -/

/-- What two trees have at one place: nothing, or nodes of one kind, the same combinator if it is
one, and compounds related by `R`. What is in a collection is at other places. -/
inductive AgreeAt (R : Compound → Compound → Prop) : Option Node → Option Node → Prop where
  | none : AgreeAt R none none
  | selector {a b : Compound} (h : R a b) : AgreeAt R (some (.selector a)) (some (.selector b))
  | combinator (k : Combinator) : AgreeAt R (some (.combinator k)) (some (.combinator k))
  | collection (as bs : List Node) : AgreeAt R (some (.collection as)) (some (.collection bs))
  | nil : AgreeAt R (some .nil) (some .nil)

/-- Two trees agree at all places. -/
def Agree (R : Compound → Compound → Prop) (a b : Node) : Prop :=
  ∀ path, AgreeAt R (a.at? path) (b.at? path)

variable {R : Compound → Compound → Prop} {a b : Node} {as bs : List Node}

theorem agreeAt_equivalence (hR : Equivalence R) : Equivalence (AgreeAt R) := by
  refine ⟨?_, ?_, ?_⟩
  · intro x
    cases x with
    | none => exact .none
    | some n =>
      cases n with
      | selector c => exact .selector (hR.refl c)
      | combinator k => exact .combinator k
      | collection nodes => exact .collection nodes nodes
      | nil => exact .nil
  · intro x y h
    cases h with
    | none => exact .none
    | selector h => exact .selector (hR.symm h)
    | combinator k => exact .combinator k
    | collection as bs => exact .collection bs as
    | nil => exact .nil
  · intro x y z h h'
    cases h with
    | none => exact h'
    | selector h =>
      cases h' with
      | selector h' => exact .selector (hR.trans h h')
    | combinator k => exact h'
    | collection as bs =>
      cases h' with
      | collection _ cs => exact .collection as cs
    | nil => exact h'

theorem agree_equivalence (hR : Equivalence R) : Equivalence (Agree R) := by
  have h := agreeAt_equivalence hR
  exact ⟨fun a path => h.refl _, fun hab path => h.symm (hab path),
    fun hab hbc path => h.trans (hab path) (hbc path)⟩

/-- Trees that agree at the root and have no other places agree. -/
theorem agree_of_leaf (h : AgreeAt R (some a) (some b))
    (ha : ∀ i path, a.at? (i :: path) = none) (hb : ∀ i path, b.at? (i :: path) = none) :
    Agree R a b := by
  intro path
  cases path with
  | nil => exact h
  | cons i path =>
    rw [ha, hb]
    exact .none

theorem agree_collection_nil : Agree R (.collection []) (.collection []) :=
  agree_of_leaf (.collection [] []) (fun _ _ => rfl) (fun _ _ => rfl)

/-- Collections agree if their first nodes agree, and the collections of the others. -/
theorem agree_collection_cons :
    Agree R (.collection (a :: as)) (.collection (b :: bs)) ↔
      Agree R a b ∧ Agree R (.collection as) (.collection bs) := by
  constructor
  · intro h
    refine ⟨fun path => h (0 :: path), ?_⟩
    intro path
    cases path with
    | nil => exact .collection as bs
    | cons i path => exact h ((i + 1) :: path)
  · rintro ⟨hab, h⟩ path
    cases path with
    | nil => exact .collection (a :: as) (b :: bs)
    | cons i path =>
      cases i with
      | zero => exact hab path
      | succ i => exact h (i :: path)

/-! ## Equality -/

mutual

/-- Nodes are equal exactly if they agree at all places. -/
theorem equal_iff_agree (ordered : Bool) :
    (a b : Node) → (a.equal ordered b ↔ Agree (Compound.Alike ordered) a b)
  | selector c, selector d => by
    rw [Compound.equal_selector_iff]
    constructor
    · intro h
      exact agree_of_leaf (.selector h) (fun _ _ => rfl) (fun _ _ => rfl)
    · intro h
      cases h [] with
      | selector h => exact h
  | combinator k, combinator l => by
    rw [equal, beq_iff_eq]
    constructor
    · rintro rfl
      exact agree_of_leaf (.combinator k) (fun _ _ => rfl) (fun _ _ => rfl)
    · intro h
      cases h [] with
      | combinator => rfl
  | collection as, collection bs => by
    rw [equal]
    exact allEqual_iff_agree ordered as bs
  | nil, nil => by
    rw [equal]
    exact ⟨fun _ => agree_of_leaf .nil (fun _ _ => rfl) (fun _ _ => rfl), fun _ => rfl⟩
  | selector _, combinator _ | selector _, collection _ | selector _, nil
  | combinator _, selector _ | combinator _, collection _ | combinator _, nil
  | collection _, selector _ | collection _, combinator _ | collection _, nil
  | nil, selector _ | nil, combinator _ | nil, collection _ => by
    rw [equal] <;> simp
    intro h
    cases h []

theorem allEqual_iff_agree (ordered : Bool) :
    (as bs : List Node) → (allEqual ordered as bs ↔
      Agree (Compound.Alike ordered) (.collection as) (.collection bs))
  | [], [] => by
    rw [allEqual]
    exact ⟨fun _ => agree_collection_nil, fun _ => rfl⟩
  | a :: as, b :: bs => by
    rw [allEqual, Bool.and_eq_true, equal_iff_agree ordered a b, allEqual_iff_agree ordered as bs,
      agree_collection_cons]
  | [], b :: bs => by
    simp only [allEqual, Bool.false_eq_true, false_iff]
    intro h
    cases h [0]
  | a :: as, [] => by
    simp only [allEqual, Bool.false_eq_true, false_iff]
    intro h
    cases h [0]

end

mutual

/-- Trees with equal compounds at all places are one tree. -/
theorem eq_of_agree : (a b : Node) → Agree Eq a b → a = b
  | selector c, b, h => by
    have hroot : AgreeAt Eq (some (.selector c)) (some b) := h []
    cases hroot with
    | selector hc => rw [hc]
  | combinator k, b, h => by
    have hroot : AgreeAt Eq (some (.combinator k)) (some b) := h []
    cases hroot
    rfl
  | collection as, b, h => by
    have hroot : AgreeAt Eq (some (.collection as)) (some b) := h []
    cases hroot with
    | collection _ bs => rw [eq_of_agree_collection as bs h]
  | nil, b, h => by
    have hroot : AgreeAt Eq (some .nil) (some b) := h []
    cases hroot
    rfl

theorem eq_of_agree_collection :
    (as bs : List Node) → Agree Eq (.collection as) (.collection bs) → as = bs
  | [], [], _ => rfl
  | a :: as, b :: bs, h => by
    obtain ⟨hab, h⟩ := agree_collection_cons.1 h
    rw [eq_of_agree a b hab, eq_of_agree_collection as bs h]
  | [], b :: bs, h => by cases h [0]
  | a :: as, [], h => by cases h [0]

end

theorem equal_equivalence (ordered : Bool) : Equivalence fun a b : Node => a.equal ordered b := by
  have h := agree_equivalence (Compound.alike_equivalence ordered)
  refine ⟨?_, ?_, ?_⟩
  · intro a
    exact (equal_iff_agree ordered a a).2 (h.refl a)
  · intro a b hab
    have hab := (equal_iff_agree ordered a b).1 hab
    exact (equal_iff_agree ordered b a).2 (h.symm hab)
  · intro a b c hab hbc
    have hab := (equal_iff_agree ordered a b).1 hab
    have hbc := (equal_iff_agree ordered b c).1 hbc
    exact (equal_iff_agree ordered a c).2 (h.trans hab hbc)

theorem equal_refl (ordered : Bool) (n : Node) : n.equal ordered n :=
  (equal_equivalence ordered).refl n

theorem equal_true_iff : a.equal true b ↔ a = b := by
  constructor
  · intro h
    have h := (equal_iff_agree true a b).1 h
    exact eq_of_agree a b h
  · rintro rfl
    exact equal_refl true a

theorem equal_false_iff : a.equal false b ↔ Agree Compound.SameSimples a b := by
  rw [equal_iff_agree, Compound.alike_false]

/-- **Equality of nodes is an equivalence of either kind. With the order of compounds it is identity
of trees, and without it the trees have, at all places, the same nodes but for compounds with the
same simple selectors.** These are the sets of simple selectors, whether compounds are identical or
their members are collected and compared, however they are collected. -/
theorem equal_exact :
    (∀ ordered, Equivalence fun a b : Node => a.equal ordered b) ∧
    (∀ a b : Node, a.equal true b ↔ a = b) ∧
    (∀ a b : Node, a.equal false b ↔ Agree Compound.SameSimples a b) ∧
    (∀ a b : Node, a.equal true b → a.equal false b) ∧
    (∀ a b : Compound, a.equivalent b ↔ a.SameSimples b) ∧
    ∀ (a b : Compound) (as bs : List Simple), Collects as a.components →
      Collects bs b.components →
      ((as.length == bs.length && as.all fun s => decide (s ∈ bs)) ↔ a.SameSimples b) := by
  refine ⟨equal_equivalence, fun _ _ => equal_true_iff, fun _ _ => equal_false_iff, ?_,
    fun _ _ => Compound.equivalent_iff, fun _ _ _ _ => Collects.compare_iff⟩
  intro a b h
  rw [equal_true_iff.1 h]
  exact equal_refl false b

/-- Compounds in another order and with a repetition, at two depths. -/
theorem equal_exact_repeated :
    let ab : Compound := ⟨[.classed "a", .classed "b", .classed "a"]⟩
    let ba : Compound := ⟨[.classed "b", .classed "a"]⟩
    let n : Node := .collection [.selector ab, .collection [.combinator .child, .selector ab]]
    let m : Node := .collection [.selector ba, .collection [.combinator .child, .selector ba]]
    ab.SameSimples ba ∧ ab.equivalent ba ∧ n.equal false m ∧ m.equal false n ∧
      ¬ n.equal true m ∧ n.equal true n ∧ n.equal false n := by
  intro ab ba n m
  obtain ⟨heq, htrue, hfalse, himp, hequiv, hsets⟩ := equal_exact
  have ha : Collects [.classed "a", .classed "b"] ab.components :=
    ⟨by decide, fun s => by simp only [ab, List.mem_cons]; tauto⟩
  have hb : Collects [.classed "b", .classed "a"] ba.components :=
    ⟨by decide, fun s => by simp only [ba]⟩
  have hset : ab.SameSimples ba := (hsets ab ba _ _ ha hb).1 (by decide)
  have hnm : n.equal false m := by decide
  have hnn : n.equal true n := (htrue n n).2 rfl
  refine ⟨hset, (hequiv ab ba).2 hset, hnm, (heq false).symm hnm, ?_, hnn, himp n n hnn⟩
  intro h
  have := (htrue n m).1 h
  simp [n, m, ab, ba] at this

end Node

end SelectorAlgebra
