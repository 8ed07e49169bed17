import SelectorAlgebra.Proofs.Grammar.Basic

/-
  Every text that is read is a selector of the grammar: a layout of a readable simple selector is
  a simple selector, and a row of items is a row of pieces.
-/

namespace SelectorAlgebra

open Grammar

variable {cs rest used : List Char} {s : Simple} {ss : List Simple}

/-! ## Simple selectors -/

theorem Namespace.Readable.isPrefix {space : Namespace} (h : space.Readable) :
    IsPrefix space.text.toList := by
  cases space with
  | unwritten => exact .none
  | empty => exact .empty
  | any => exact .any
  | named name =>
    rw [toList_text_named]
    exact .named h

theorem AttributeOp.text_mem_operators {op : AttributeOp} (h : op ≠ .present) :
    op.text ∈ operators := by
  cases op with
  | present => exact absurd rfl h
  | _ => simp [operators, AttributeOp.text]

theorem ValueLayout.isValue {value after written : List Char}
    (h : ValueLayout value after written) : IsValue written := by
  cases h with
  | bare hn => exact .bare hn
  | quoted quote hq hv => exact .quoted hq hv

theorem ModifierLayout.isModifier {modifier : Option Char} {modified : List Char}
    (h : ModifierLayout modifier modified) (hm : ∀ c ∈ modifier, c.isAlpha) :
    IsModifier modified := by
  cases modifier with
  | none =>
    cases h
    exact .none
  | some c =>
    obtain ⟨gap, hg, rfl⟩ := h
    exact .letter (hm c rfl) hg

theorem Attribute.Layout.isAttribute {a : Attribute} (hr : a.Readable) (hl : a.Layout used) :
    ∃ inside, IsAttribute inside ∧ used = inside ++ [']'] := by
  cases hl with
  | present h₁ h₂ =>
    cases hr with
    | present hn =>
      exact ⟨_, .present h₁ hn.1.isPrefix hn.2 h₂, by simp⟩
  | test h₁ h₂ h₃ h₄ hm hv =>
    cases hr with
    | test hn ho _ hc =>
      exact ⟨_, .test h₁ hn.1.isPrefix hn.2 h₂ (AttributeOp.text_mem_operators ho) h₃ hv.isValue
        h₄ (hm.isModifier hc), by simp⟩

theorem not_all_isBlank {lead argument trail : List Char} (hn : argument ≠ [])
    (hs : StopsBefore isBlank argument) : ¬ (lead ++ (argument ++ trail)).all isBlank := by
  cases argument with
  | nil => exact absurd rfl hn
  | cons c argument =>
    have hc : isBlank c = false := stopsBefore_cons.1 hs
    simp [hc]

theorem ArgumentLayout.isParenthesized {argument : Option String} {written : List Char}
    (hr : ∀ a ∈ argument, IsArgument a.toList) (hl : ArgumentLayout argument written) :
    IsParenthesized written := by
  cases argument with
  | none =>
    cases hl
    exact .none
  | some argument =>
    obtain ⟨lead, trail, hle, htr, rfl⟩ := hl
    obtain ⟨hb, hn, hs, _⟩ := hr argument rfl
    have hb' : isBalanced 0 (lead ++ (argument.toList ++ trail)) := by
      rw [isBalanced_blanks_append hle, isBalanced_append_blanks htr]
      exact hb
    have h := IsParenthesized.argument hb' (not_all_isBlank hn hs)
    rw [List.cons_append, List.append_assoc, List.append_assoc] at h
    exact h

theorem Pseudo.Layout.isSimple {p : Pseudo} (hr : p.Readable) (hl : p.Layout used) :
    IsSimple used := by
  obtain ⟨written, ha, rfl⟩ := hl
  refine .pseudo ?_ hr.1 (ha.isParenthesized hr.2.2)
  unfold Pseudo.colons
  cases p.isSyntacticClass with
  | true => exact Or.inl rfl
  | false => exact Or.inr rfl

/-- A layout of a readable simple selector is a simple selector of the grammar. -/
theorem Simple.Layout.isSimple (hr : s.Readable) (hl : s.Layout used) : IsSimple used := by
  cases s with
  | universal space =>
    rw [show used = _ from hl.trans (toList_text_universal space)]
    exact .universal (Namespace.Readable.isPrefix hr)
  | element n =>
    rw [show used = _ from hl.trans (toList_text_element n)]
    exact .element hr.1.isPrefix hr.2
  | classed name =>
    rw [show used = _ from hl.trans (toList_text_classed name)]
    exact .marked (by simp) hr
  | id name =>
    rw [show used = _ from hl.trans (toList_text_id name)]
    exact .marked (by simp) hr
  | placeholder name =>
    rw [show used = _ from hl.trans (toList_text_placeholder name)]
    exact .marked (by simp) hr
  | pseudo p => exact Pseudo.Layout.isSimple hr hl
  | attr a =>
    obtain ⟨inside, ha, rfl⟩ := hl
    obtain ⟨inside', hi, rfl⟩ := ha.isAttribute hr
    exact .bracketed hi

/-! ## Rows -/

/-- The ampersand begins no simple selector that can be read. -/
theorem Simple.Layout.continuesCompound (hr : s.Readable) (hl : s.Layout used)
    (hm : used.head?.any startsSimple) : used.head?.any continuesCompound := by
  obtain ⟨d, more, rfl, hd | hd⟩ := (hl.isSimple hr).exists_cons
  · exact hd
  · have hs : startsSimple d := by simpa using hm
    rw [eq_false_of_mem (p := isNameChar) (by decide) (List.contains_iff_mem.1 hs)] at hd
    cases hd

theorem ComponentRow.isCompound (h : ComponentRow rest ss cs) :
    ∃ more : List (List Char), (∀ used ∈ more, IsSimple used ∧
      used.head?.any Grammar.continuesCompound) ∧ cs = more.flatten ++ rest := by
  induction h with
  | nil => exact ⟨[], by simp, rfl⟩
  | @cons s ss used cs hr hl hm hs h ih =>
    obtain ⟨more, hmore, rfl⟩ := ih
    refine ⟨used :: more, ?_, by simp⟩
    intro used' hu
    rcases List.mem_cons.1 hu with rfl | hu
    · exact ⟨hl.isSimple hr, hl.continuesCompound hr hm⟩
    · exact hmore used' hu

theorem CompoundRow.isCompound {c : Compound} (h : CompoundRow rest c cs) :
    ∃ used, IsCompound used ∧ cs = used ++ rest := by
  obtain ⟨hr, hl, _, h⟩ := h
  obtain ⟨more, hm, rfl⟩ := h.isCompound
  exact ⟨_, ⟨_, more, hl.isSimple hr, hm, rfl⟩, by simp⟩

theorem mem_combinators {c : Char} {k : Combinator} (h : Combinator.ofChar? c = some k) :
    c ∈ combinators := by
  unfold Combinator.ofChar? at h
  split at h
  · decide
  · decide
  · decide
  · cases h

/-- Items that make up a text are as many pieces of it. The first is no combinator if there is
one before. -/
theorem ItemRow.exists_pieces {b : Bool} {items : List Item} (h : ItemRow b items cs) :
    ∃ (gap : List Char) (pieces : List Piece), IsGap gap ∧ pieces.length = items.length ∧
      pieces.IsChain Piece.Precedes ∧ (b → ∀ p ∈ pieces.head?, p.isCombinator = false) ∧
      cs = gap ++ pieces.flatMap Piece.text := by
  induction h with
  | nil => exact ⟨[], [], isGap_nil, rfl, .nil, by simp, rfl⟩
  | @separator b items c cs hc h ih =>
    obtain ⟨gap, pieces, hg, hl, hp, hb, rfl⟩ := ih
    exact ⟨c :: gap, pieces, isGap_cons.2 ⟨hc, hg⟩, hl, hp, hb, rfl⟩
  | @combinator k items c cs hk h ih =>
    obtain ⟨gap, pieces, hg, hl, hp, hb, rfl⟩ := ih
    let p : Piece := ⟨true, [c], gap, ⟨c, mem_combinators hk, rfl⟩, hg⟩
    refine ⟨[], p :: pieces, isGap_nil, by simp [hl], ?_, by simp, by simp [Piece.text, p]⟩
    refine List.isChain_cons.2 ⟨fun q hq hpq => ?_, hp⟩
    rw [hb rfl q hq] at hpq
    exact absurd hpq.2 (by simp)
  | @compound b c items cs rest hc h ih =>
    obtain ⟨gap, pieces, hg, hl, hp, hb, rfl⟩ := ih
    obtain ⟨used, hu, rfl⟩ := hc.isCompound
    let p : Piece := ⟨false, used, gap, hu, hg⟩
    refine ⟨[], p :: pieces, isGap_nil, by simp [hl], ?_, by simp [p], by simp [Piece.text, p]⟩
    exact List.isChain_cons.2 ⟨fun q hq hpq => absurd hpq.1 (by simp [p]), hp⟩

/-- Items that make up a whole text make it a selector. -/
theorem ItemRow.isSelector {items : List Item} (hn : items ≠ []) (h : ItemRow false items cs) :
    IsSelector cs := by
  obtain ⟨gap, pieces, hg, hl, hp, _, e⟩ := h.exists_pieces
  refine ⟨gap, pieces, hg, ?_, hp, e⟩
  rintro rfl
  exact hn (List.eq_nil_of_length_eq_zero hl.symm)

end SelectorAlgebra
