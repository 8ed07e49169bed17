import SelectorAlgebra.Proofs.Reading.Elements

/-
  What the reader of attributes takes. After the name of an attribute there is a gap, a bracket or
  an operator, so of the texts that come after names only a bar needs care.
-/

namespace SelectorAlgebra

variable {cs rest : List Char}

/-! ## Names -/

/-- A name without a namespace ends before a bar only if the bar is part of an operator. -/
def QualifiedName.EndsBefore (n : QualifiedName) (rest : List Char) : Prop :=
  StopsBefore continuesName rest ∧
    (n.space = .unwritten → ∀ more, rest = '|' :: more → more.head? = some '=')

theorem endsBefore_bracket (n : QualifiedName) (rest : List Char) : n.EndsBefore (']' :: rest) :=
  ⟨stopsBefore_cons.2 (by decide), by simp⟩

theorem endsBefore_op {op : AttributeOp} (h : op ≠ .present) (n : QualifiedName)
    (rest : List Char) : n.EndsBefore (op.text.toList ++ rest) := by
  cases op with
  | present => exact absurd rfl h
  | dashMatch => exact ⟨stopsBefore_cons.2 (by decide), fun _ _ e => by cases e; rfl⟩
  | _ => exact ⟨stopsBefore_cons.2 (by decide), fun _ _ e => by cases e⟩

theorem stopsBefore_isSeparator_of_isName (h : isName cs) (rest : List Char) :
    StopsBefore isSeparator (cs ++ rest) := by
  obtain ⟨c, more, rfl, hc⟩ := exists_cons_of_isName h
  exact stopsBefore_cons.2 (isSeparator_of_isNameChar hc)

theorem QualifiedName.EndsBefore.gap {n : QualifiedName} {gap : List Char}
    (h : n.EndsBefore rest) (hg : IsGap gap) : n.EndsBefore (gap ++ rest) := by
  cases gap with
  | nil => exact h
  | cons c gap =>
    obtain ⟨hc, _⟩ := isGap_cons.1 hg
    refine ⟨stopsBefore_cons.2 (continuesName_of_isSeparator hc), fun _ _ e => ?_⟩
    cases e
    cases hc

theorem QualifiedName.Readable.stopsBefore_isSeparator {n : QualifiedName} (h : n.Readable)
    (rest : List Char) : StopsBefore isSeparator (n.text.toList ++ rest) := by
  obtain ⟨c, more, e, hc⟩ := h.exists_cons
  rw [e]
  exact stopsBefore_cons.2 (isSeparator_of_beginsElement hc)

theorem readAttributeName_name {first : String} (hn : isName first.toList)
    (hs : StopsBefore continuesName rest) :
    readAttributeName (first.toList ++ rest) = (do
      let (first, cs) ← Except.ok (first, rest)
      match cs with
      | '|' :: '=' :: _ => return (⟨.unwritten, first⟩, cs)
      | '|' :: cs => do
        let (name, cs) ← readIdentifier cs
        return (⟨.named first, name⟩, cs)
      | cs => return (⟨.unwritten, first⟩, cs)) := by
  have h := readIdentifier_eq_ok.2 ⟨hn, rfl, hs⟩
  obtain ⟨c, more, e, hc⟩ := exists_cons_of_isName hn
  have h₁ : c ≠ '*' := ne_of_isNameChar hc (by decide)
  have h₂ : c ≠ '|' := ne_of_isNameChar hc (by decide)
  rw [e, List.cons_append] at h ⊢
  rw [readAttributeName]
  · exact congrArg (· >>= _) h
  · intro _ e
    exact h₁ (List.cons.inj e).1
  · intro _ e
    exact h₂ (List.cons.inj e).1

theorem readAttributeName_sound {n : QualifiedName} (h : readAttributeName cs = .ok (n, rest)) :
    n.Readable ∧ cs = n.text.toList ++ rest ∧ n.EndsBefore rest := by
  unfold readAttributeName at h
  split at h
  · obtain ⟨mid, h₁, h⟩ := bind_eq_ok.1 h
    obtain ⟨⟨name, rest'⟩, h₂, e⟩ := bind_eq_ok.1 h
    cases e
    rw [readChar_eq_ok.1 h₁]
    obtain ⟨hn, rfl, hs⟩ := readIdentifier_eq_ok.1 h₂
    exact ⟨⟨trivial, hn⟩, by simp, hs, by simp⟩
  · obtain ⟨⟨name, rest'⟩, h, e⟩ := bind_eq_ok.1 h
    cases e
    obtain ⟨hn, rfl, hs⟩ := readIdentifier_eq_ok.1 h
    exact ⟨⟨trivial, hn⟩, by simp, hs, by simp⟩
  · obtain ⟨⟨first, mid⟩, h₁, h₂⟩ := bind_eq_ok.1 h
    obtain ⟨hf, rfl, hs⟩ := readIdentifier_eq_ok.1 h₁
    dsimp only at h₂
    split at h₂
    · cases h₂
      exact ⟨⟨trivial, hf⟩, by simp, hs, by simp⟩
    · obtain ⟨⟨name, rest'⟩, h₃, e⟩ := bind_eq_ok.1 h₂
      cases e
      obtain ⟨hn, rfl, hs'⟩ := readIdentifier_eq_ok.1 h₃
      exact ⟨⟨hf, hn⟩, by simp, hs', by simp⟩
    · rename_i hb
      cases h₂
      exact ⟨⟨trivial, hf⟩, by simp, hs, fun _ more e => absurd e (hb more)⟩

/-- A name with no bar after it, or with the bar of an operator, is read alone. -/
theorem readAttributeName_alone {name : String} (hn : isName name.toList)
    (hs : StopsBefore continuesName rest)
    (hb : ∀ more, rest = '|' :: more → more.head? = some '=') :
    readAttributeName (name.toList ++ rest) = .ok (⟨.unwritten, name⟩, rest) := by
  rw [readAttributeName_name hn hs]
  simp only [bind, Except.bind]
  split
  · rfl
  · rename_i more hne
    obtain ⟨tail, e⟩ := List.head?_eq_some_iff.1 (hb more rfl)
    exact absurd e (hne tail)
  · rfl

/-- A name with a bar and a name after it is read as the namespace of that name. -/
theorem readAttributeName_named {first name : String} (hf : isName first.toList)
    (hn : isName name.toList) (hs : StopsBefore continuesName rest) :
    readAttributeName (first.toList ++ '|' :: (name.toList ++ rest)) =
      .ok (⟨.named first, name⟩, rest) := by
  obtain ⟨c, tail, ec, hc⟩ := exists_cons_of_isName hn
  rw [readAttributeName_name hf (stopsBefore_cons.2 (by decide))]
  simp only [bind, Except.bind]
  split
  · rename_i e
    simp only [ec, List.cons_append, List.cons.injEq] at e
    exact absurd hc (by rw [e.2.1]; decide)
  · rename_i more hne e
    cases e
    rw [readIdentifier_eq_ok.2 ⟨hn, rfl, hs⟩]
    rfl
  · rename_i h
    exact absurd rfl (h _)

theorem readAttributeName_text {n : QualifiedName} (hr : n.Readable) (hs : n.EndsBefore rest) :
    readAttributeName (n.text.toList ++ rest) = .ok (n, rest) := by
  obtain ⟨space, name⟩ := n
  obtain ⟨hp, hn⟩ := hr
  obtain ⟨hs, hb⟩ := hs
  have hi := readIdentifier_eq_ok.2 ⟨hn, rfl, hs⟩
  rw [QualifiedName.toList_text, List.append_assoc]
  cases space with
  | unwritten => exact readAttributeName_alone hn hs (hb rfl)
  | empty =>
    rw [Namespace.toList_text_empty, List.singleton_append, readAttributeName, hi]
    rfl
  | any =>
    rw [Namespace.toList_text_any, List.cons_append, List.singleton_append, readAttributeName,
      readChar_eq_ok.2 rfl]
    show (readIdentifier (name.toList ++ rest) >>= _) = _
    rw [hi]
    rfl
  | named first =>
    rw [Namespace.toList_text_named, List.append_assoc, List.singleton_append]
    exact readAttributeName_named hp hn hs

/-! ## Operators and values -/

theorem readAttributeOp_sound {op : AttributeOp} (h : readAttributeOp cs = .ok (op, rest)) :
    op ≠ .present ∧ cs = op.text.toList ++ rest := by
  unfold readAttributeOp at h
  split at h
  · cases h
  · cases h
    exact ⟨by simp, rfl⟩
  · rename_i c mid _
    cases hc : AttributeOp.ofChar? c with
    | none => rw [hc] at h; cases h
    | some op' =>
      rw [hc] at h
      obtain ⟨mid', h₁, e⟩ := bind_eq_ok.1 h
      cases e
      rw [readChar_eq_ok.1 h₁]
      unfold AttributeOp.ofChar? at hc
      split at hc <;> cases hc <;> exact ⟨by simp, rfl⟩

theorem stopsBefore_isSeparator_op {op : AttributeOp} (h : op ≠ .present) (rest : List Char) :
    StopsBefore isSeparator (op.text.toList ++ rest) := by
  cases op with
  | present => exact absurd rfl h
  | _ => exact stopsBefore_cons.2 (by decide)

theorem readAttributeOp_text {op : AttributeOp} (h : op ≠ .present) (rest : List Char) :
    readAttributeOp (op.text.toList ++ rest) = .ok (op, rest) := by
  cases op with
  | present => exact absurd rfl h
  | _ => rfl

theorem isQuotableValue_of_isName {value : List Char} (h : isName value) :
    IsQuotableValue value := by
  refine ⟨'"', by simp [quotes], ?_⟩
  have hv := isNameChar_of_isName h
  rw [List.all_eq_true] at hv ⊢
  intro c hc
  have h₁ : c ≠ '"' := ne_of_isNameChar (hv c hc) (by decide)
  have h₂ : c ≠ '\n' := ne_of_isNameChar (hv c hc) (by decide)
  have h₃ : c ≠ '\\' := ne_of_isNameChar (hv c hc) (by decide)
  simp [isQuotable, h₁, h₂, h₃]

theorem ValueLayout.isQuotableValue {value after written : List Char}
    (h : ValueLayout value after written) : IsQuotableValue value := by
  cases h with
  | bare hn => exact isQuotableValue_of_isName hn
  | quoted quote hq hv => exact ⟨_, hq, hv⟩

theorem ValueLayout.congr {value after after' written : List Char}
    (h : ValueLayout value after written)
    (hs : StopsBefore continuesName after → StopsBefore continuesName after') :
    ValueLayout value after' written := by
  cases h with
  | bare hn h => exact .bare hn (hs h)
  | quoted quote hq hv => exact .quoted quote hq hv

theorem ValueLayout.stopsBefore_isSeparator {value after written : List Char}
    (h : ValueLayout value after written) (rest : List Char) :
    StopsBefore isSeparator (written ++ rest) := by
  cases h with
  | bare hn => exact stopsBefore_isSeparator_of_isName hn rest
  | quoted quote hq =>
    simp only [quotes, List.mem_cons, List.not_mem_nil, or_false] at hq
    rcases hq with rfl | rfl
    · exact stopsBefore_cons.2 (by decide)
    · exact stopsBefore_cons.2 (by decide)

theorem readAttributeValue_sound {value : String} (h : readAttributeValue cs = .ok (value, rest)) :
    ∃ written, ValueLayout value.toList rest written ∧ cs = written ++ rest := by
  unfold readAttributeValue at h
  split at h
  · obtain ⟨⟨v, rest'⟩, h, e⟩ := map_eq_ok.1 h
    cases e
    obtain ⟨hv, rfl⟩ := readQuoted_eq_ok.1 h
    exact ⟨_, .quoted '"' (by simp [quotes]) (by simpa using hv), by simp⟩
  · obtain ⟨⟨v, rest'⟩, h, e⟩ := map_eq_ok.1 h
    cases e
    obtain ⟨hv, rfl⟩ := readQuoted_eq_ok.1 h
    exact ⟨_, .quoted '\'' (by simp [quotes]) (by simpa using hv), by simp⟩
  · obtain ⟨hn, rfl, hs⟩ := readIdentifier_eq_ok.1 h
    exact ⟨_, .bare hn hs, rfl⟩

theorem readAttributeValue_layout {value : String} {written : List Char}
    (h : ValueLayout value.toList rest written) :
    readAttributeValue (written ++ rest) = .ok (value, rest) := by
  cases h with
  | bare hn hs =>
    have h := readIdentifier_eq_ok.2 ⟨hn, rfl, hs⟩
    obtain ⟨c, more, e, hc⟩ := exists_cons_of_isName hn
    have h₁ : c ≠ '"' := ne_of_isNameChar hc (by decide)
    have h₂ : c ≠ '\'' := ne_of_isNameChar hc (by decide)
    rw [e, List.cons_append] at h ⊢
    rw [readAttributeValue, h]
    · intro _ e
      exact h₁ (List.cons.inj e).1
    · intro _ e
      exact h₂ (List.cons.inj e).1
  | quoted quote hq hv =>
    have h : readQuoted quote (value.toList ++ quote :: rest) = .ok (value.toList, rest) :=
      readQuoted_eq_ok.2 ⟨hv, rfl⟩
    simp only [quotes, List.mem_cons, List.not_mem_nil, or_false] at hq
    rcases hq with rfl | rfl
    · simp [readAttributeValue, readString, h, Except.map]
    · simp [readAttributeValue, readString, h, Except.map]

theorem readModifier_sound {modifier : Option Char} (h : readModifier cs = (modifier, rest)) :
    ∃ modified, ModifierLayout modifier modified ∧ (∀ c ∈ modifier, c.isAlpha) ∧
      cs = modified ++ rest := by
  cases cs with
  | nil =>
    cases h
    exact ⟨[], rfl, by simp, rfl⟩
  | cons c cs =>
    rw [readModifier] at h
    split at h
    · rename_i hc
      cases h
      obtain ⟨gap, hg, e, _⟩ := exists_gap cs
      exact ⟨c :: gap, ⟨gap, hg, rfl⟩, by simpa using hc, by rw [List.cons_append, ← e]⟩
    · cases h
      exact ⟨[], rfl, by simp, rfl⟩

theorem ModifierLayout.stopsBefore_isSeparator {modifier : Option Char} {modified : List Char}
    (h : ModifierLayout modifier modified) (hm : ∀ c ∈ modifier, c.isAlpha) (rest : List Char) :
    StopsBefore isSeparator (modified ++ ']' :: rest) := by
  cases modifier with
  | none =>
    cases h
    exact stopsBefore_cons.2 (by decide)
  | some c =>
    obtain ⟨gap, _, rfl⟩ := h
    refine stopsBefore_cons.2 (isSeparator_of_isNameChar ?_)
    simp [isNameChar, isNameStart, hm c rfl]

theorem readModifier_layout {modifier : Option Char} {modified : List Char}
    (h : ModifierLayout modifier modified) (hm : ∀ c ∈ modifier, c.isAlpha) :
    readModifier (modified ++ ']' :: rest) = (modifier, ']' :: rest) := by
  cases modifier with
  | none =>
    cases h
    rfl
  | some c =>
    obtain ⟨gap, hg, rfl⟩ := h
    rw [List.cons_append, readModifier, if_pos (hm c rfl),
      skipSeparators_append hg (stopsBefore_cons.2 (by decide))]

/-! ## Attributes -/

theorem readAttribute_sound {a : Attribute} (h : readAttribute cs = .ok (a, rest)) :
    a.Readable ∧ ∃ used, a.Layout used ∧ cs = used ++ rest := by
  obtain ⟨⟨name, cs₁⟩, h₁, h⟩ := bind_eq_ok.1 h
  obtain ⟨gap₁, hg₁, e₁, _⟩ := exists_gap cs
  obtain ⟨gap₂, hg₂, e₂, _⟩ := exists_gap cs₁
  obtain ⟨hn, e, _⟩ := readAttributeName_sound h₁
  dsimp only at h
  unfold readAttributeTest at h
  split at h
  · rename_i e'
    cases h
    refine ⟨.present hn, _, .present hg₁ hg₂, ?_⟩
    rw [e₁, e, e₂, e']
    simp
  · obtain ⟨⟨op, cs₂⟩, h₂, h⟩ := bind_eq_ok.1 h
    obtain ⟨⟨value, cs₃⟩, h₃, h⟩ := bind_eq_ok.1 h
    obtain ⟨ho, e₃⟩ := readAttributeOp_sound h₂
    obtain ⟨written, hv, e₄⟩ := readAttributeValue_sound h₃
    obtain ⟨gap₃, hg₃, e₅, _⟩ := exists_gap cs₂
    obtain ⟨gap₄, hg₄, e₆, _⟩ := exists_gap cs₃
    dsimp only at h
    split at h
    · rename_i modifier mid e'
      cases h
      obtain ⟨modified, hm, hl, e₇⟩ := readModifier_sound e'
      -- the value was read before the rest of the text, of which only the bracket counts
      have hv' : ValueLayout value.toList (gap₄ ++ (modified ++ [']'])) written := by
        refine hv.congr fun hs => ?_
        rw [e₆, e₇, ← List.singleton_append, ← List.append_assoc, ← List.append_assoc,
          stopsBefore_append (by simp)] at hs
        simpa using hs
      refine ⟨.test hn ho hv.isQuotableValue hl, _, .test hg₁ hg₂ hg₃ hg₄ hm hv', ?_⟩
      rw [e₁, e, e₂, e₃, e₅, e₄, e₆, e₇]
      simp
    · cases h

theorem readAttributeTest_op {op : AttributeOp} (h : op ≠ .present) (start : Nat)
    (name : QualifiedName) (rest : List Char) :
    readAttributeTest start name (op.text.toList ++ rest) = (do
      let (op, cs) ← readAttributeOp (op.text.toList ++ rest)
      let (value, cs) ← readAttributeValue (skipSeparators cs)
      match readModifier (skipSeparators cs) with
      | (modifier, ']' :: cs) => return (⟨name, op, some value, modifier⟩, cs)
      | (_, cs) => throw ⟨.missing ']', .since start cs.length⟩) := by
  cases op with
  | present => exact absurd rfl h
  | _ => rfl

/-- Whatever its layout, an attribute is read as it is. -/
theorem readAttribute_layout {a : Attribute} {used : List Char} (hr : a.Readable)
    (h : a.Layout used) : readAttribute (used ++ rest) = .ok (a, rest) := by
  cases h with
  | @present name gap₁ gap₂ hg₁ hg₂ =>
    cases hr with
    | present hn =>
    have he : name.EndsBefore (gap₂ ++ ']' :: rest) := (endsBefore_bracket name rest).gap hg₂
    simp only [readAttribute, List.append_assoc, List.singleton_append]
    rw [skipSeparators_append hg₁ (hn.stopsBefore_isSeparator _), readAttributeName_text hn he]
    show readAttributeTest _ name (skipSeparators (gap₂ ++ ']' :: rest)) = _
    rw [skipSeparators_append hg₂ (stopsBefore_cons.2 (by decide))]
    rfl
  | @test name op value modifier gap₁ gap₂ gap₃ gap₄ written modified hg₁ hg₂ hg₃ hg₄ hm hv =>
    cases hr with
    | test hn ho _ hl =>
    have he : name.EndsBefore (gap₂ ++ (op.text.toList ++
        (gap₃ ++ (written ++ (gap₄ ++ (modified ++ ']' :: rest)))))) :=
      (endsBefore_op ho name _).gap hg₂
    have hv' : ValueLayout value.toList (gap₄ ++ (modified ++ ']' :: rest)) written := by
      refine hv.congr fun hs => ?_
      rw [← List.singleton_append, ← List.append_assoc, ← List.append_assoc,
        stopsBefore_append (by simp)]
      simpa using hs
    simp only [readAttribute, List.append_assoc, List.singleton_append]
    rw [skipSeparators_append hg₁ (hn.stopsBefore_isSeparator _), readAttributeName_text hn he]
    show readAttributeTest _ name (skipSeparators (gap₂ ++ _)) = _
    rw [skipSeparators_append hg₂ (stopsBefore_isSeparator_op ho _), readAttributeTest_op ho,
      readAttributeOp_text ho]
    simp only [bind, Except.bind]
    rw [skipSeparators_append hg₃ (hv'.stopsBefore_isSeparator _), readAttributeValue_layout hv']
    simp only
    rw [skipSeparators_append hg₄ (hm.stopsBefore_isSeparator hl _), readModifier_layout hm hl]
    rfl

end SelectorAlgebra
