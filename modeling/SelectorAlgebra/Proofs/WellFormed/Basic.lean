import Mathlib.Data.List.Chain
import SelectorAlgebra.Proofs.Conversion.Splice
import SelectorAlgebra.Proofs.Writing.Chains

/-
  Well-formed chains: what holds of every chain that is read from a text, and what a chain needs in
  order to be read back. Within a compound, what matters is which simple selectors may stand right
  after which (`Simple.Precedes`); `stopsBefore_iff` says that these are the ones before which
  reading stops.
-/

namespace SelectorAlgebra

/-! ## Simple selectors -/

/-- Whether the text that a simple selector keeps as it was written, an argument or a value, has
line feeds for all its line ends. -/
def Simple.KeepsLineFeeds : Simple → Prop
  | pseudo p => ∀ argument ∈ p.argument, IsUnified argument.toList
  | attr a => ∀ value ∈ a.value, IsUnified value.toList
  | _ => True

/-- Names are identifiers, a pseudo selector is classed as its name and colons say, its argument is
balanced and trimmed, and an attribute has a value that can be quoted, and maybe a letter, exactly
if its operator asks for one. -/
def Simple.WellFormed (s : Simple) : Prop := s.Readable ∧ s.KeepsLineFeeds

/-- Whether a simple selector begins with a name. -/
def Simple.beginsWithName : Simple → Bool
  | universal (.named _) | element ⟨.unwritten, _⟩ | element ⟨.named _, _⟩ => true
  | _ => false

/-- The namespace of an element or of all elements. -/
def Simple.space? : Simple → Option Namespace
  | universal space => some space
  | element n => some n.space
  | _ => none

/-- Whether `t` may stand right after `s`: it must not begin with a name, and its bar must not make
a namespace of `s`. -/
def Simple.Precedes (s t : Simple) : Prop :=
  t.beginsWithName = false ∧ ¬ (s.space? = some .unwritten ∧ t.space? = some .empty)

/-! ## Compounds and chains -/

structure Compound.WellFormed (c : Compound) : Prop where
  ne_nil : c.components ≠ []
  components : ∀ s ∈ c.components, s.WellFormed
  precedes : c.components.IsChain Simple.Precedes

structure Chain.WellFormed (c : Chain) : Prop where
  /-- A chain without a first compound begins with a combinator that is written. -/
  first : c.first.head = none → c.first.combinator ≠ .descendant
  /-- No other link lacks a compound. -/
  rest : ∀ l ∈ c.rest, l.head.isSome
  heads : ∀ l ∈ c.links, ∀ head ∈ l.head, head.WellFormed

variable {c : Chain}

theorem Chain.WellFormed.not_isEmpty (h : c.WellFormed) : ¬ c.isEmpty := by
  intro he
  rw [Chain.isEmpty_iff, Chain.joints_eq_cons, List.cons.injEq] at he
  have hj : (c.first.head, c.first.combinator) = (none, .descendant) := he.1
  rw [Prod.mk.injEq] at hj
  exact h.first hj.1 hj.2

/-- A well-formed chain becomes a collection of one node at least, and a collection that holds only
this one contains it. -/
theorem Chain.WellFormed.toNode [CodeMap] (h : c.WellFormed) (ctx : Context) :
    ∃ nodes next, (Pass.toNode c).run ctx = (.ok (.collection nodes), next) ∧ nodes ≠ [] ∧
      ∀ ordered, (Node.collection [.collection nodes]).contains (.collection nodes) ordered =
        .ok true := by
  obtain ⟨next, hn⟩ := passToNode_eq_ok.2 ⟨h.rest, rfl⟩
  obtain ⟨n, hfirst, _⟩ := exists_first_node h.not_isEmpty
  have hne : flatNodes c.joints ≠ [] := by
    intro hnil
    rw [hnil] at hfirst
    cases hfirst
  refine ⟨flatNodes c.joints, next, hn, hne, fun ordered => ?_⟩
  rw [Node.contains_collection, List.any_cons, Node.equal_refl]
  simp [hne]

/-! ## What may follow -/

variable {s t : Simple} {used rest : List Char}

theorem startsSimple_of_isNameChar {d : Char} (h : isNameChar d) : startsSimple d = false := by
  cases hd : startsSimple d with
  | false => rfl
  | true =>
    rw [eq_false_of_mem (p := isNameChar) (by decide) (List.contains_iff_mem.1 hd)] at h
    cases h

theorem head?_any_startsSimple_of_isName (hn : isName used) (rest : List Char) :
    (used ++ rest).head?.any startsSimple = false := by
  obtain ⟨d, more, rfl, hd⟩ := exists_cons_of_isName hn
  exact startsSimple_of_isNameChar hd

/-- A layout begins with a mark, a bar or a star exactly if it does not begin with a name. -/
theorem Simple.Layout.startsSimple_iff (hr : s.Readable) (hl : s.Layout used) :
    used.head?.any startsSimple ↔ s.beginsWithName = false := by
  rw [hl.head?_eq hr]
  cases s with
  | universal space =>
    cases space with
    | named first =>
      have h := head?_any_startsSimple_of_isName hr ['|', '*']
      simpa [beginsWithName] using h
    | _ => simp [beginsWithName, startsSimple]
  | element n =>
    obtain ⟨space, name⟩ := n
    cases space with
    | unwritten =>
      have h := head?_any_startsSimple_of_isName hr.2 []
      simpa [beginsWithName] using h
    | named first =>
      have h := head?_any_startsSimple_of_isName hr.1 ('|' :: name.toList)
      simpa [beginsWithName] using h
    | _ => simp [beginsWithName, startsSimple]
  | pseudo p => simp [beginsWithName, startsSimple, Simple.text, Pseudo.toList_text, Pseudo.colons]
  | attr a => simp [beginsWithName, startsSimple, Simple.text, Attribute.toList_text]
  | _ => simp [beginsWithName, startsSimple]

/-- A layout that does not begin with a name begins with a bar exactly if it is in the namespace
that has no name. -/
theorem Simple.Layout.head?_eq_bar (hr : s.Readable) (hl : s.Layout used)
    (hb : s.beginsWithName = false) : used.head? = some '|' ↔ s.space? = some .empty := by
  rw [hl.head?_eq hr]
  cases s with
  | universal space =>
    cases space with
    | named first => cases hb
    | _ => simp [space?]
  | element n =>
    obtain ⟨space, name⟩ := n
    cases space with
    | unwritten => cases hb
    | named first => cases hb
    | _ => simp [space?]
  | pseudo p => simp [space?, Simple.text, Pseudo.toList_text, Pseudo.colons]
  | attr a => simp [space?, Simple.text, Attribute.toList_text]
  | _ => simp [space?]

/-- Of the characters that begin simple selectors only the bar is ever taken for a part of the one
before. -/
theorem Simple.absorbs_iff {d : Char} (hd : startsSimple d) :
    s.absorbs d ↔ s.space? = some .unwritten ∧ d = '|' := by
  have hn : continuesName d = false :=
    eq_false_of_mem (p := continuesName) (by decide) (List.contains_iff_mem.1 hd)
  have hp : (d == '(') = false :=
    eq_false_of_mem (p := (· == '(')) (by decide) (List.contains_iff_mem.1 hd)
  cases s with
  | universal space => cases space <;> simp [absorbs, space?]
  | element n =>
    obtain ⟨space, name⟩ := n
    cases space <;> simp [absorbs, space?, hn]
  | pseudo p => simp [absorbs, space?, hn, hp]
  | _ => simp [absorbs, space?, hn]

/-- Reading a simple selector stops before another one exactly if that may follow. -/
theorem Simple.Layout.stopsBefore_iff (hr : t.Readable) (hl : t.Layout used)
    (hm : used.head?.any startsSimple) : StopsBefore s.absorbs (used ++ rest) ↔ s.Precedes t := by
  have hb : t.beginsWithName = false := (hl.startsSimple_iff hr).1 hm
  have hbar := hl.head?_eq_bar hr hb
  obtain ⟨d, more, rfl, _⟩ := hl.exists_cons hr
  have hd : startsSimple d := hm
  have hs := absorbs_iff (s := s) hd
  rw [List.head?_cons, Option.some.injEq] at hbar
  rw [List.cons_append, stopsBefore_cons, ← Bool.not_eq_true, hs, hbar]
  simp [Precedes, hb]

end SelectorAlgebra
