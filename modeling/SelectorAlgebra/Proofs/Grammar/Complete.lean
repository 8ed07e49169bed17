import SelectorAlgebra.Proofs.Grammar.Simples
import SelectorAlgebra.Proofs.Grammar.Sound

/-
  The texts that are read are the selectors of the grammar (`readChain_ok_iff_isSelector`). That
  every selector is read goes by its length: a compound that is read may be another one than the
  grammar has there, but the text that is left can be derived again.
-/

namespace SelectorAlgebra.Grammar

variable {b : Bool} {c : Char} {cs used : List Char}

/-! ## Compounds and items -/

/-- Where a simple selector begins, a derivable text has one. -/
theorem Derivable.readsOn (h : Derivable b cs) (hc : cs.head?.any startsSimple) : ReadsOn cs := by
  cases h with
  | done => cases hc
  | @separator b c cs hs =>
    rw [eq_false_of_mem (p := isSeparator) (by decide) (List.contains_iff_mem.1 hc)] at hs
    cases hs
  | @combinator c cs hk =>
    have hs : combinators.contains c = false :=
      eq_false_of_mem (by decide) (List.contains_iff_mem.1 hc)
    rw [List.contains_iff_mem.2 hk] at hs
    cases hs
  | simple hu h => exact readsOn_simple hu h

theorem Derivable.exists_components (h : Derivable false cs) :
    ∃ ss rest, readComponents cs = .ok (ss, rest) ∧ Derivable false rest := by
  induction cs using readComponents.induct with
  | case1 cs hc failure hs =>
    obtain ⟨s, rest, hs', _⟩ := h.readsOn hc
    rw [hs] at hs'
    cases hs'
  | case2 cs hc s mid hs hlt ih =>
    obtain ⟨s', rest, hs', h'⟩ := h.readsOn hc
    rw [hs] at hs'
    cases hs'
    obtain ⟨ss, rest', hss, h''⟩ := ih h'
    refine ⟨s :: ss, rest', ?_, h''⟩
    rw [readComponents_eq, if_pos hc, hs]
    show (readComponents mid >>= _) = _
    rw [hss]
    rfl
  | case3 cs hc => exact ⟨[], cs, by rw [readComponents_eq, if_neg hc], h⟩

theorem exists_compound (hu : IsSimple used) (h : Derivable false cs) :
    ∃ c rest, readCompound (used ++ cs) = .ok (c, rest) ∧ Derivable false rest := by
  obtain ⟨s, mid, hs, hm⟩ := readsOn_simple hu h
  obtain ⟨ss, rest, hss, hr⟩ := hm.exists_components
  refine ⟨⟨s :: ss⟩, rest, ?_, hr⟩
  simp only [readCompound, hs, hss, bind, Except.bind]
  rfl

theorem exists_ofChar? (hc : c ∈ combinators) : ∃ k, Combinator.ofChar? c = some k := by
  simp only [combinators, List.mem_cons, List.not_mem_nil, or_false] at hc
  rcases hc with rfl | rfl | rfl <;> exact ⟨_, rfl⟩

/-- Items make up every derivable text. -/
theorem Derivable.exists_items (h : Derivable b cs) : ∃ items, ItemRow b items cs := by
  -- by length: what reading leaves is derivable, but by another walk than the one at hand
  induction hn : cs.length using Nat.strongRecOn generalizing b cs with
  | ind n ih =>
    subst hn
    cases h with
    | done => exact ⟨[], .nil⟩
    | separator hc h =>
      obtain ⟨items, hi⟩ := ih _ (Nat.lt_succ_self _) h rfl
      exact ⟨items, .separator hc hi⟩
    | combinator hc h =>
      obtain ⟨k, hk⟩ := exists_ofChar? hc
      obtain ⟨items, hi⟩ := ih _ (Nat.lt_succ_self _) h rfl
      exact ⟨.combinator k :: items, .combinator hk hi⟩
    | simple hu h =>
      obtain ⟨c, rest, hr, h'⟩ := exists_compound hu h
      obtain ⟨items, hi⟩ := ih _ (readCompound_suffix hr).length_lt h' rfl
      exact ⟨.compound c :: items, .compound (readCompound_eq_ok.1 hr) hi⟩

/-! ## Whole texts -/

theorem isGap_of_itemRow_nil {items : List Item} (h : ItemRow b items cs) (hn : items = []) :
    IsGap cs := by
  induction h with
  | nil => exact isGap_nil
  | @separator b items c cs hc h ih =>
    exact isGap_cons.2 ⟨hc, ih hn⟩
  | _ => cases hn

theorem IsSimple.not_isGap (hu : IsSimple used) : ¬ IsGap (used ++ cs) := by
  obtain ⟨d, more, rfl, hd⟩ := hu.exists_cons
  have hs : isSeparator d = false := by
    rcases hd with hd | hd
    · exact eq_false_of_mem (by decide) (List.contains_iff_mem.1 hd)
    · exact isSeparator_of_isNameChar hd
  simp [IsGap, hs]

/-- The first piece of a selector is not white space. -/
theorem IsSelector.not_isGap (h : IsSelector cs) : ¬ IsGap cs := by
  obtain ⟨gap, pieces, _, hn, _, rfl⟩ := h
  obtain ⟨p, pieces, rfl⟩ := List.exists_cons_of_ne_nil hn
  have hp : ¬ IsGap (p.item ++ (p.gap ++ pieces.flatMap Piece.text)) := by
    have hi := p.isItem
    split at hi
    · obtain ⟨c, hc, e⟩ := hi
      have hs : isSeparator c = false := eq_false_of_mem (by decide) hc
      simp [e, IsGap, hs]
    · obtain ⟨first, more, hf, _, e⟩ := hi
      rw [e, List.append_assoc]
      exact hf.not_isGap
  intro hg
  rw [IsGap, List.all_append, Bool.and_eq_true] at hg
  rw [List.flatMap_cons, Piece.text, List.append_assoc] at hg
  exact hp hg.2

/-- Items make up a text, and there is one at least, exactly if the text is a selector. -/
theorem isSelector_iff : IsSelector cs ↔ ∃ items, items ≠ [] ∧ ItemRow false items cs := by
  constructor
  · intro h
    obtain ⟨items, hi⟩ := h.derivable.exists_items
    exact ⟨items, fun hn => h.not_isGap (isGap_of_itemRow_nil hi hn), hi⟩
  · rintro ⟨items, hn, hi⟩
    exact hi.isSelector hn

/-- **A text is read exactly if it is a selector of the grammar once its line ends are unified,
in any context.** -/
theorem readChain_ok_iff_isSelector [CodeMap] (text : String) (ctx : Context) :
    (∃ c next, (Pass.readChain text).run ctx = (.ok c, next)) ↔
      IsSelector (unifyLineEnds text.toList) := by
  rw [isSelector_iff]
  constructor
  · rintro ⟨c, next, h⟩
    obtain ⟨items, hn, hi, _⟩ := readJoints_eq_ok.1 (readJoints_of_readChain h)
    exact ⟨items, hn, hi⟩
  · rintro ⟨items, hn, hi⟩
    obtain ⟨c, next, h, _⟩ := readChain_of_readJoints (readJoints_eq_ok.2 ⟨items, hn, hi, rfl⟩) ctx
    exact ⟨c, next, h⟩

end SelectorAlgebra.Grammar
