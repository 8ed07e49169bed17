import SelectorAlgebra.Proofs.Grammar.Rest
import SelectorAlgebra.Proofs.Reading.Simples

/-
  Every simple selector of the grammar is read, and a derivable text is left. The reader takes all
  it can, which may be more than the grammar has there: a name runs on into the element after it,
  an element becomes the namespace of what follows, and a modifier becomes the end of a bare value.
-/

namespace SelectorAlgebra.Grammar

variable {b : Bool} {cs used rest name : List Char}

/-! ## Simple selectors -/

/-- Reading a simple selector gives one, and leaves a derivable text. -/
def ReadsOn (cs : List Char) : Prop :=
  ∃ s rest, readSimple cs = .ok (s, rest) ∧ Derivable false rest

theorem readsOn_layout {s : Simple} (hr : s.Readable) (hl : s.Layout used)
    (hs : StopsBefore s.absorbs rest) (h : Derivable false rest) : ReadsOn (used ++ rest) :=
  ⟨s, rest, readSimple_eq_ok.2 ⟨hr, used, hl, rfl, hs⟩, h⟩

theorem IsPrefix.exists_namespace {space : List Char} (hp : IsPrefix space) :
    ∃ ns : Namespace, ns.Readable ∧ ns.text.toList = space := by
  cases hp with
  | none => exact ⟨.unwritten, trivial, rfl⟩
  | empty => exact ⟨.empty, trivial, rfl⟩
  | any => exact ⟨.any, trivial, rfl⟩
  | @named name hn => exact ⟨.named (String.ofList name), by simpa [Namespace.Readable], by simp⟩

/-- In a namespace that is written, an element by name is read with the longest name. -/
theorem readsOn_element {ns : Namespace} (hr : ns.Readable) (hw : ns ≠ .unwritten)
    (hn : isName name) (h : Derivable false rest) :
    ReadsOn (ns.text.toList ++ (name ++ rest)) := by
  obtain ⟨longest, rest', hl, e, hs, h'⟩ := h.exists_name hn
  have ha : StopsBefore (Simple.element ⟨ns, String.ofList longest⟩).absorbs rest' := by
    rw [Simple.absorbs_element hw]
    exact hs
  have h := readsOn_layout (s := .element ⟨ns, String.ofList longest⟩) ⟨hr, by simpa⟩ rfl ha h'
  rw [Simple.toList_text_element, String.toList_ofList, List.append_assoc] at h
  rw [e]
  exact h

theorem readsOn_universal {ns : Namespace} (hr : ns.Readable) (hw : ns ≠ .unwritten)
    (h : Derivable false rest) : ReadsOn (ns.text.toList ++ '*' :: rest) := by
  have ha : StopsBefore (Simple.universal ns).absorbs rest := by
    rw [Simple.absorbs_universal hw]
    exact stopsBefore_false rest
  have h := readsOn_layout (s := .universal ns) hr rfl ha h
  rw [Simple.toList_text_universal, List.append_assoc] at h
  exact h

/-- What is followed by a bar is the namespace of what comes behind the bar. -/
theorem readsOn_bar (ns : Namespace) (hr : ns.Readable) (hw : ns ≠ .unwritten)
    (e : ns.text.toList = used ++ ['|']) (h : Derivable b ('|' :: cs)) :
    ReadsOn (used ++ '|' :: cs) := by
  have e' : used ++ '|' :: cs = ns.text.toList ++ cs := by simp [e]
  rw [e']
  rcases h.bar with ⟨name, rest, hn, rfl, h'⟩ | ⟨rest, rfl, h'⟩
  · exact readsOn_element hr hw hn h'
  · exact readsOn_universal hr hw h'

/-- A name alone is an element in no namespace, or the namespace of what follows. -/
theorem readsOn_name (hn : isName name) (h : Derivable false rest) : ReadsOn (name ++ rest) := by
  obtain ⟨longest, rest', hl, e, hs, h'⟩ := h.exists_name hn
  rw [e]
  by_cases hb : ∃ more, rest' = '|' :: more
  · obtain ⟨more, rfl⟩ := hb
    exact readsOn_bar (.named (String.ofList longest)) (by simpa [Namespace.Readable])
      (by simp) (by simp) h'
  · have ha : StopsBefore (Simple.element ⟨.unwritten, String.ofList longest⟩).absorbs rest' :=
      stopsBefore_or.2 ⟨hs, stopsBefore_of_forall_ne fun more e => hb ⟨more, e⟩⟩
    have h := readsOn_layout (s := .element ⟨.unwritten, String.ofList longest⟩)
      ⟨trivial, by simpa⟩ rfl ha h'
    rw [Simple.toList_text_element, String.toList_ofList] at h
    exact h

/-- A star alone is all elements, or the namespace of what follows. -/
theorem readsOn_star (h : Derivable false rest) : ReadsOn ('*' :: rest) := by
  by_cases hb : ∃ more, rest = '|' :: more
  · obtain ⟨more, rfl⟩ := hb
    exact readsOn_bar .any trivial (by simp) (List.singleton_append ..).symm h
  · have ha : StopsBefore (Simple.universal .unwritten).absorbs rest :=
      stopsBefore_of_forall_ne fun more e => hb ⟨more, e⟩
    exact readsOn_layout (s := .universal .unwritten) trivial rfl ha h

theorem readsOn_marked {mark : Char} (hm : mark ∈ ['.', '#', '%']) (hn : isName name)
    (h : Derivable false rest) : ReadsOn (mark :: (name ++ rest)) := by
  obtain ⟨longest, rest', hl, e, hs, h'⟩ := h.exists_name hn
  have hl' : isName (String.ofList longest).toList := by simpa
  rw [e]
  simp only [List.mem_cons, List.not_mem_nil, or_false] at hm
  rcases hm with rfl | rfl | rfl
  · have h := readsOn_layout (s := .classed (String.ofList longest)) hl' rfl hs h'
    rw [Simple.toList_text_classed, String.toList_ofList] at h
    exact h
  · have h := readsOn_layout (s := .id (String.ofList longest)) hl' rfl hs h'
    rw [Simple.toList_text_id, String.toList_ofList] at h
    exact h
  · have h := readsOn_layout (s := .placeholder (String.ofList longest)) hl' rfl hs h'
    rw [Simple.toList_text_placeholder, String.toList_ofList] at h
    exact h

/-! ## Pseudo selectors -/

/-- A pseudo selector that has one colon or two. -/
def pseudoOf (oneColon : Bool) (name : List Char) (argument : Option String) : Pseudo :=
  ⟨String.ofList name, oneColon && !isLegacyElement (String.ofList name), oneColon, argument⟩

theorem pseudoOf_colons {colons : List Char} (hc : colons = [':'] ∨ colons = [':', ':'])
    (name : List Char) (argument : Option String) :
    ∃ oneColon, (pseudoOf oneColon name argument).colons = colons := by
  rcases hc with rfl | rfl
  · exact ⟨true, rfl⟩
  · exact ⟨false, rfl⟩

theorem exists_isArgument {argument : List Char} (hb : isBalanced 0 argument)
    (hn : ¬ argument.all isBlank) :
    ∃ lead trail kept, lead.all isBlank ∧ trail.all isBlank ∧
      argument = lead ++ (kept ++ trail) ∧ IsArgument kept := by
  obtain ⟨lead, trail, hl, ht, e, hs, hs'⟩ := exists_trimBlanks argument
  refine ⟨lead, trail, trimBlanks argument, hl, ht, e, ?_, ?_, hs, hs'⟩
  · rw [e, isBalanced_blanks_append hl, isBalanced_append_blanks ht] at hb
    exact hb
  · intro hk
    rw [e, hk, List.nil_append, List.all_append, hl, ht] at hn
    exact hn rfl

theorem readsOn_pseudo {colons argument : List Char} (hc : colons = [':'] ∨ colons = [':', ':'])
    (hn : isName name) (ha : IsParenthesized argument) (h : Derivable false rest) :
    ReadsOn (colons ++ (name ++ (argument ++ rest))) := by
  cases ha with
  | none =>
    obtain ⟨longest, rest', hl, e, hs, h'⟩ := h.exists_name hn
    obtain ⟨oneColon, rfl⟩ := pseudoOf_colons hc longest none
    have hr : (pseudoOf oneColon longest none).Readable :=
      ⟨by simpa [pseudoOf], rfl, by simp [pseudoOf]⟩
    have h := readsOn_layout (s := .pseudo (pseudoOf oneColon longest none)) hr ⟨[], rfl, rfl⟩
      (stopsBefore_absorbs_pseudo.2 fun _ => ⟨hs, h'.stopsBefore (by decide)⟩) h'
    rw [List.nil_append, e]
    simpa [pseudoOf] using h
  | @argument argument hb hk =>
    obtain ⟨lead, trail, kept, hl, ht, rfl, hkept⟩ := exists_isArgument hb hk
    obtain ⟨oneColon, rfl⟩ := pseudoOf_colons hc name (some (String.ofList kept))
    have hr : (pseudoOf oneColon name (some (String.ofList kept))).Readable :=
      ⟨by simpa [pseudoOf], rfl, by simpa [pseudoOf]⟩
    have h := readsOn_layout (s := .pseudo (pseudoOf oneColon name (some (String.ofList kept)))) hr
      ⟨_, ⟨lead, trail, hl, ht, rfl⟩, rfl⟩
      (stopsBefore_absorbs_pseudo.2 fun e => by cases e) h
    simpa [pseudoOf] using h

/-! ## Attributes -/

theorem exists_op {op : String} (h : op ∈ operators) :
    ∃ o : AttributeOp, o ≠ .present ∧ o.text = op := by
  simp only [operators, List.mem_cons, List.not_mem_nil, or_false] at h
  rcases h with rfl | rfl | rfl | rfl | rfl | rfl
  · exact ⟨.equals, by simp, rfl⟩
  · exact ⟨.includes, by simp, rfl⟩
  · exact ⟨.dashMatch, by simp, rfl⟩
  · exact ⟨.startsWith, by simp, rfl⟩
  · exact ⟨.endsWith, by simp, rfl⟩
  · exact ⟨.contains, by simp, rfl⟩

theorem IsModifier.exists_modifier {modified : List Char} (hm : IsModifier modified) :
    ∃ modifier, ModifierLayout modifier modified ∧ ∀ c ∈ modifier, c.isAlpha := by
  cases hm with
  | none => exact ⟨Option.none, rfl, by simp⟩
  | @letter c gap hc hg => exact ⟨some c, ⟨gap, hg, rfl⟩, by simpa⟩

theorem stopsBefore_gap_bracket {gap : List Char} (hg : IsGap gap) :
    StopsBefore continuesName (gap ++ [']']) := by
  cases gap with
  | nil => exact stopsBefore_cons.2 (by decide)
  | cons c gap => exact stopsBefore_cons.2 (continuesName_of_isSeparator (isGap_cons.1 hg).1)

/-- What is written for the value and the modifier of an attribute is read as a value and a
modifier: as those of the grammar, unless the letter runs on from a bare value. -/
theorem IsValue.exists_layout {value gap modified : List Char} (hv : IsValue value)
    (hg : IsGap gap) (hm : IsModifier modified) :
    ∃ (v : List Char) (modifier : Option Char) (written gap' modified' : List Char),
      (∀ c ∈ modifier, c.isAlpha) ∧ IsGap gap' ∧ ModifierLayout modifier modified' ∧
        ValueLayout v (gap' ++ (modified' ++ [']'])) written ∧
        value ++ (gap ++ modified) = written ++ (gap' ++ modified') := by
  obtain ⟨modifier, hl, ha⟩ := hm.exists_modifier
  cases hv with
  | @quoted quote value hq hv =>
    exact ⟨value, modifier, _, gap, modified, ha, hg, hl, .quoted quote hq hv, rfl⟩
  | bare hn =>
    cases gap with
    | cons c gap =>
      obtain ⟨hc, _⟩ := isGap_cons.1 hg
      exact ⟨value, modifier, value, c :: gap, modified, ha, hg, hl,
        .bare hn (stopsBefore_cons.2 (continuesName_of_isSeparator hc)), rfl⟩
    | nil =>
      cases hm with
      | none =>
        exact ⟨value, Option.none, value, [], [], by simp, isGap_nil, rfl,
          .bare hn (stopsBefore_gap_bracket isGap_nil), rfl⟩
      | @letter c gap hc hg' =>
        -- nothing parts the letter from the value, so it is the last letter of it
        have hn' : isName (value ++ [c]) := by
          refine isName_append hn ?_
          simp [isNameChar, isNameStart, hc]
        exact ⟨value ++ [c], Option.none, value ++ [c], gap, [], by simp, hg', rfl,
          .bare hn' (stopsBefore_gap_bracket hg'), by simp⟩

theorem readsOn_attribute {inside : List Char} (hi : IsAttribute inside)
    (h : Derivable false rest) : ReadsOn ('[' :: inside ++ [']'] ++ rest) := by
  cases hi with
  | @present gap₁ space name gap₂ h₁ hp hn h₂ =>
    obtain ⟨ns, hr, rfl⟩ := hp.exists_namespace
    let a : Attribute := ⟨⟨ns, String.ofList name⟩, .present, Option.none, Option.none⟩
    have ha : a.Readable := .present ⟨hr, by simpa⟩
    have h := readsOn_layout (s := .attr a) ha ⟨_, .present h₁ h₂, rfl⟩ (stopsBefore_false rest) h
    simpa using h
  | @test gap₁ space name gap₂ value gap₃ gap₄ modified op h₁ hp hn h₂ ho h₃ hv h₄ hm =>
    obtain ⟨ns, hr, rfl⟩ := hp.exists_namespace
    obtain ⟨o, hne, rfl⟩ := exists_op ho
    obtain ⟨v, modifier, written, gap₄', modified', hm', hg', hml, hvl, e⟩ :=
      hv.exists_layout h₄ hm
    let a : Attribute := ⟨⟨ns, String.ofList name⟩, o, some (String.ofList v), modifier⟩
    have hvl' : ValueLayout (String.ofList v).toList (gap₄' ++ (modified' ++ [']'])) written := by
      simpa using hvl
    have ha : a.Readable := .test ⟨hr, by simpa⟩ hne (by simpa using hvl.isQuotableValue) hm'
    have h := readsOn_layout (s := .attr a) ha ⟨_, .test h₁ h₂ h₃ hg' hml hvl', rfl⟩
      (stopsBefore_false rest) h
    rw [e]
    simpa using h

/-! ## Any simple selector -/

theorem readsOn_simple (hu : IsSimple used) (h : Derivable false rest) :
    ReadsOn (used ++ rest) := by
  cases hu with
  | marked hm hn => exact readsOn_marked hm hn h
  | pseudo hc hn ha =>
    rw [List.append_assoc, List.append_assoc]
    exact readsOn_pseudo hc hn ha h
  | @element space name hp hn =>
    obtain ⟨ns, hr, rfl⟩ := hp.exists_namespace
    by_cases hw : ns = .unwritten
    · subst hw
      exact readsOn_name hn h
    · rw [List.append_assoc]
      exact readsOn_element hr hw hn h
  | universal hp =>
    obtain ⟨ns, hr, rfl⟩ := hp.exists_namespace
    by_cases hw : ns = .unwritten
    · subst hw
      exact readsOn_star h
    · rw [List.append_assoc]
      exact readsOn_universal hr hw h
  | bracketed hi => exact readsOn_attribute hi h

end SelectorAlgebra.Grammar
