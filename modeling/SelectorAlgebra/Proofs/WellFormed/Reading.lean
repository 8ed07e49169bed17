import SelectorAlgebra.Proofs.WellFormed.Basic
import SelectorAlgebra.Source.Consecutive

/-
  Every chain that is read is well-formed. A row of simple selectors is a compound in which each
  may stand after the one before, since reading stopped there. A row of items has no combinator
  right after another, so of the links that it is paired into only the first may lack a compound.
-/

namespace SelectorAlgebra

variable {cs rest used : List Char} {s : Simple} {ss : List Simple} {c : Compound} {b : Bool}
  {items : List Item}

theorem IsUnified.mono (h : IsUnified cs) (hs : used ⊆ cs) : IsUnified used :=
  fun d hd => h d (hs hd)

/-! ## Simple selectors -/

theorem ArgumentLayout.subset {argument : String} {written : List Char}
    (h : ArgumentLayout (some argument) written) : argument.toList ⊆ written := by
  obtain ⟨lead, trail, _, _, rfl⟩ := h
  intro d hd
  simp [hd]

theorem ValueLayout.subset {value after written : List Char} (h : ValueLayout value after written) :
    value ⊆ written := by
  intro d hd
  cases h with
  | bare => exact hd
  | quoted => simp [hd]

theorem Attribute.Layout.subset {a : Attribute} (h : a.Layout used) :
    ∀ value ∈ a.value, value.toList ⊆ used := by
  intro value hv
  cases h with
  | present => cases hv
  | test _ _ _ _ _ h =>
    cases hv
    intro d hd
    simp [h.subset hd]

/-- The text that a simple selector keeps is a part of its layout. -/
theorem Simple.Layout.keepsLineFeeds (hl : s.Layout used) (hu : IsUnified used) :
    s.KeepsLineFeeds := by
  cases s with
  | pseudo p =>
    obtain ⟨written, h, rfl⟩ := hl
    intro argument ha
    rw [Option.mem_def] at ha
    rw [ha] at h
    exact hu.mono fun d hd => by simp [h.subset hd]
  | attr a =>
    obtain ⟨inside, h, rfl⟩ := hl
    intro value hv
    exact hu.mono (List.subset_cons_of_subset _ (h.subset value hv))
  | _ => trivial

/-! ## Compounds -/

theorem ComponentRow.isChain (h : ComponentRow rest ss cs) (hs : StopsBefore s.absorbs cs) :
    (s :: ss).IsChain Simple.Precedes := by
  induction h generalizing s with
  | nil => exact .singleton s
  | cons hr hl hm hs' _ ih => exact .cons_cons ((hl.stopsBefore_iff hr hm).1 hs) (ih hs')

theorem ComponentRow.wellFormed (h : ComponentRow rest ss cs) (hu : IsUnified cs) :
    ∀ s ∈ ss, s.WellFormed := by
  induction h with
  | nil => simp
  | cons hr hl _ _ _ ih =>
    rw [List.forall_mem_cons]
    exact ⟨⟨hr, hl.keepsLineFeeds (hu.mono (List.subset_append_left _ _))⟩,
      ih (hu.mono (List.subset_append_right _ _))⟩

theorem CompoundRow.wellFormed (h : CompoundRow rest c cs) (hu : IsUnified cs) :
    c.WellFormed := by
  obtain ⟨hr, hl, hs, h⟩ := h
  have hfirst := hl.keepsLineFeeds (hu.mono (List.subset_append_left _ _))
  have hmore := h.wellFormed (hu.mono (List.subset_append_right _ _))
  exact ⟨by simp, List.forall_mem_cons.2 ⟨⟨hr, hfirst⟩, hmore⟩, h.isChain hs⟩

/-! ## Items and links -/

theorem ItemRow.wellFormed (h : ItemRow b items cs) (hu : IsUnified cs) :
    ∀ c, .compound c ∈ items → c.WellFormed := by
  induction h with
  | nil => simp
  | separator _ _ ih => exact ih (hu.mono (List.subset_cons_self _ _))
  | combinator _ _ ih => simpa using ih (hu.mono (List.subset_cons_self _ _))
  | @compound b c items cs rest hc _ ih =>
    intro c' hmem
    rcases List.mem_cons.1 hmem with e | hmem
    · cases e
      exact hc.wellFormed hu
    · exact ih (hu.mono hc.suffix.subset) c' hmem

/-- A link has its compound, or lacking that its combinator, from the items. -/
theorem mem_of_mem_jointsOfItems {j : Joint} (h : j ∈ jointsOfItems items) :
    j.1.elim (Item.combinator j.2) Item.compound ∈ items := by
  fun_induction jointsOfItems items with
  | case1 => cases h
  | case2 k items ih =>
    rcases List.mem_cons.1 h with rfl | h
    · exact List.mem_cons_self ..
    · exact List.mem_cons_of_mem _ (ih h)
  | case3 c k items ih =>
    rcases List.mem_cons.1 h with rfl | h
    · exact List.mem_cons_self ..
    · exact List.mem_cons_of_mem _ (List.mem_cons_of_mem _ (ih h))
  | case4 c items _ ih =>
    rcases List.mem_cons.1 h with rfl | h
    · exact List.mem_cons_self ..
    · exact List.mem_cons_of_mem _ (ih h)

theorem jointsOfItems_compound (c : Compound) (items : List Item) :
    ∃ k js, jointsOfItems (.compound c :: items) = (some c, k) :: js := by
  cases items with
  | nil => exact ⟨_, _, rfl⟩
  | cons i items => cases i <;> exact ⟨_, _, rfl⟩

/-- Only the first link may lack a compound, and after a combinator not even that. -/
theorem ItemRow.allHeaded (h : ItemRow b items cs) :
    AllHeaded (jointsOfItems items).tail ∧ (b → AllHeaded (jointsOfItems items)) := by
  induction h with
  | nil => exact ⟨allHeaded_nil, fun _ => allHeaded_nil⟩
  | separator _ _ ih => exact ih
  | @combinator k items c cs hk _ ih => exact ⟨ih.2 rfl, fun hb => by cases hb⟩
  | @compound b c items cs rest hc _ ih =>
    -- the combinator after a compound goes into its link, so what comes next decides
    cases items with
    | nil => simp [jointsOfItems, allHeaded_nil]
    | cons i items =>
      cases i with
      | combinator k =>
        have hrest : AllHeaded (jointsOfItems items) := ih.1
        simp [jointsOfItems, hrest]
      | compound c' =>
        have hrest : AllHeaded (jointsOfItems (.compound c' :: items)) := by
          obtain ⟨k, js, e⟩ := jointsOfItems_compound c' items
          rw [e] at ih ⊢
          exact allHeaded_cons.2 ⟨rfl, ih.1⟩
        simp [jointsOfItems, hrest]

/-! ## Whole texts -/

/-- Every chain that is read from a text is well-formed. -/
theorem wellFormed_of_readJoints {text : String} {c : Chain}
    (h : readJoints text = .ok c.joints) : c.WellFormed := by
  obtain ⟨items, _, hrow, e⟩ := readJoints_eq_ok.1 h
  have hmem : ∀ l ∈ c.links, l.head.elim (.combinator l.combinator) .compound ∈ items := by
    intro l hl
    exact mem_of_mem_jointsOfItems (j := l.joint) (e ▸ List.mem_map_of_mem hl)
  refine ⟨?_, ?_, ?_⟩
  · intro hn hk
    have hfirst := hmem c.first (List.mem_cons_self ..)
    rw [hn, hk] at hfirst
    exact hrow.ne_descendant hfirst
  · rw [← allHeaded_rest]
    have htail := hrow.allHeaded.1
    rw [← e] at htail
    exact htail
  · intro l hl head hh
    have hhead := hmem l hl
    rw [Option.mem_def.1 hh] at hhead
    exact hrow.wellFormed (isUnified_unifyLineEnds _) head hhead

/-- **Every chain that is read is well-formed.** Hence it always becomes a node, a collection that
is not empty, and a collection of only this node contains it. -/
theorem readChain_wellFormed [CodeMap] {ctx next : Context} {text : String} {c : Chain}
    (h : (Pass.readChain text).run ctx = (.ok c, next)) :
    c.WellFormed ∧ ∀ ctx', ∃ nodes next',
      (Pass.toNode c).run ctx' = (.ok (.collection nodes), next') ∧ nodes ≠ [] ∧
        ∀ ordered, (Node.collection [.collection nodes]).contains (.collection nodes) ordered =
          .ok true := by
  have hw : c.WellFormed := wellFormed_of_readJoints (readJoints_of_readChain h)
  exact ⟨hw, hw.toNode⟩

/-- A combinator to begin with, a part of an element that is written with one colon, an argument
with line ends of two kinds around and within it, and a value with a quote. -/
theorem readChain_wellFormed_led :
    ∃ c next, (Pass.readChain "+ *|a:First-Line:not(\r (b\x0cc)\n)\t[n|d$='\"' i]~").run
        { options := {} } = (.ok c, next) ∧
      c.WellFormed ∧ ∃ nodes next', (Pass.toNode c).run next = (.ok (.collection nodes), next') ∧
        nodes ≠ [] := by
  have h : readJoints "+ *|a:First-Line:not(\r (b\x0cc)\n)\t[n|d$='\"' i]~" = .ok
      [(none, .nextSibling),
        (some ⟨[.element ⟨.any, "a"⟩, .pseudo ⟨"First-Line", false, true, none⟩,
          .pseudo ⟨"not", true, true, some "(b\nc)"⟩]⟩, .descendant),
        (some ⟨[.attr ⟨⟨.named "n", "d"⟩, .endsWith, some "\"", some 'i'⟩]⟩,
          .followingSibling)] := by decide +kernel
  obtain ⟨c, next, hc, _⟩ := readChain_of_readJoints h { options := {} }
  obtain ⟨hw, hn⟩ := readChain_wellFormed hc
  obtain ⟨nodes, next', hrun, hne, _⟩ := hn next
  exact ⟨c, next, hc, hw, nodes, next', hrun, hne⟩

end SelectorAlgebra
