import SelectorAlgebra.Proofs.Reading.Simples

/-
  What simple selectors are written as. A readable value is written in one of its layouts
  (`Simple.Readable.layout_text`), and beside the characters of any other layout it is written
  with quotes and spaces only (`Simple.Layout.mem_text`).
-/

namespace SelectorAlgebra

variable {c : Char} {value : List Char}

/-! ## Values -/

/-- What needs no escape is written as it is. -/
theorem escapeFor_of_quotable {quote : Char} (h : value.all (isQuotable quote)) :
    escapeFor quote value = value := by
  induction value with
  | nil => rfl
  | cons c value ih =>
    rw [List.all_cons, Bool.and_eq_true] at h
    have hc := h.1
    simp only [isQuotable, Bool.and_eq_true, bne_iff_ne] at hc
    rw [escapeFor, if_neg hc.2, if_neg hc.1.2, if_neg hc.1.1, ih h.2]

theorem quoteFor_mem_quotes (value : List Char) : quoteFor value ∈ quotes := by
  unfold quoteFor
  split <;> simp [quotes]

/-- The quotes that are put around a value are ones between which it may stand. -/
theorem quotable_quoteFor (h : IsQuotableValue value) :
    value.all (isQuotable (quoteFor value)) := by
  obtain ⟨quote, hq, hv⟩ := h
  have hmem : ∀ c ∈ value, c ≠ quote ∧ c ≠ '\n' ∧ c ≠ '\\' := by
    intro c hc
    have := List.all_eq_true.1 hv c hc
    simp only [isQuotable, Bool.and_eq_true, bne_iff_ne] at this
    exact ⟨this.1.1, this.1.2, this.2⟩
  have hnot : quoteFor value ∉ value := by
    intro hmq
    simp only [quotes, List.mem_cons, List.not_mem_nil, or_false] at hq
    unfold quoteFor at hmq
    split at hmq
    · rename_i hd
      exact hd.2 hmq
    · rename_i hd
      rcases hq with rfl | rfl
      · exact (hmem _ hmq).1 rfl
      · exact hd ⟨hmq, fun hm => (hmem _ hm).1 rfl⟩
  rw [List.all_eq_true]
  intro c hc
  have hne : c ≠ quoteFor value := fun e => hnot (e ▸ hc)
  simp [isQuotable, hne, hmem c hc]

theorem quoted_of_isQuotableValue (h : IsQuotableValue value) :
    quoted value = quoteFor value :: value ++ [quoteFor value] := by
  rw [quoted, escapeFor_of_quotable (quotable_quoteFor h)]

/-- A value that is written bare is a name. -/
theorem isName_of_isIdentifier (h : isIdentifier value)
    (hp : List.isPrefixOf ['-', '-'] value = false) : isName value := by
  unfold isIdentifier at h
  split at h
  · cases h
  · rename_i c cs hd
    rw [Bool.and_eq_true] at h
    unfold dropHyphens at hd
    split at hd
    · simp at hp
    · rw [hd]
      exact isName_iff.2 (Or.inr (Or.inl ⟨c, cs, rfl, h.1, h.2⟩))
    · rw [hd]
      exact isName_iff.2 (Or.inr (Or.inr ⟨c, cs, rfl, h.1, h.2⟩))

theorem valueLayout_text {value : String} (h : IsQuotableValue value.toList) {after : List Char}
    (hs : StopsBefore continuesName after) :
    ValueLayout value.toList after (attributeValueText value).toList := by
  unfold attributeValueText
  split
  · rename_i hi
    rw [Bool.and_eq_true, Bool.not_eq_true'] at hi
    exact .bare (isName_of_isIdentifier hi.1 hi.2) hs
  · rw [String.toList_ofList, quoted_of_isQuotableValue h]
    exact .quoted _ (quoteFor_mem_quotes _) (quotable_quoteFor h)

/-! ## Layouts -/

theorem Attribute.toList_text (a : Attribute) :
    a.text.toList = '[' :: (a.name.text.toList ++ (a.op.text.toList ++
      (a.value.elim [] (fun value => (attributeValueText value).toList) ++
        (a.modifier.elim [] (fun c => [' ', c]) ++ [']'])))) := by
  obtain ⟨name, op, value, modifier⟩ := a
  cases value <;> cases modifier <;> simp [text]

theorem Attribute.Readable.layout_text {a : Attribute} (h : a.Readable) :
    (Simple.attr a).Layout a.text.toList := by
  refine ⟨_, ?_, a.toList_text⟩
  cases h with
  | @present name hn => exact @Attribute.Layout.present name [] [] isGap_nil isGap_nil
  | @test name op value modifier hn ho hv hm =>
    cases modifier with
    | none =>
      exact @Attribute.Layout.test name op value none [] [] [] [] _ [] isGap_nil isGap_nil
        isGap_nil isGap_nil rfl (valueLayout_text hv (stopsBefore_cons.2 (by decide)))
    | some c =>
      exact @Attribute.Layout.test name op value (some c) [] [] [] [' '] _ [c] isGap_nil isGap_nil
        isGap_nil rfl ⟨[], isGap_nil, rfl⟩ (valueLayout_text hv (stopsBefore_cons.2 (by decide)))

theorem Pseudo.toList_text (p : Pseudo) :
    p.text.toList = p.colons ++ (p.name.toList ++
      p.argument.elim [] (fun argument => '(' :: (argument.toList ++ [')']))) := by
  obtain ⟨name, isClass, isSyntacticClass, argument⟩ := p
  cases isSyntacticClass <;> cases argument <;> simp [text, colons]

theorem Pseudo.layout_text (p : Pseudo) : p.Layout p.text.toList := by
  refine ⟨_, ?_, p.toList_text⟩
  cases p.argument with
  | none => rfl
  | some argument => exact ⟨[], [], rfl, rfl, rfl⟩

/-- A readable simple selector is written in one of its layouts. -/
theorem Simple.Readable.layout_text {s : Simple} (h : s.Readable) : s.Layout s.text.toList := by
  cases s with
  | pseudo p => exact p.layout_text
  | attr a => exact Attribute.Readable.layout_text h
  | _ => rfl

/-! ## Characters -/

/-- The characters that writing may add to those of a text that was read. -/
def writtenAnew : List Char := [' ', '"', '\'']

theorem ValueLayout.mem_text {value : String} {after written : List Char}
    (h : ValueLayout value.toList after written) (hc : c ∈ (attributeValueText value).toList) :
    c ∈ written ∨ c ∈ writtenAnew := by
  have hw : ∀ c ∈ value.toList, c ∈ written := by
    intro c hc
    cases h with
    | bare => exact hc
    | quoted => simp [hc]
  unfold attributeValueText at hc
  split at hc
  · exact Or.inl (hw c hc)
  · rw [String.toList_ofList, quoted_of_isQuotableValue h.isQuotableValue] at hc
    simp only [List.cons_append, List.mem_cons, List.mem_append, List.not_mem_nil, or_false] at hc
    rcases hc with rfl | hc | rfl
    · exact Or.inr (List.mem_cons_of_mem _ (quoteFor_mem_quotes _))
    · exact Or.inl (hw c hc)
    · exact Or.inr (List.mem_cons_of_mem _ (quoteFor_mem_quotes _))

theorem ModifierLayout.mem_text {modifier : Option Char} {modified : List Char}
    (h : ModifierLayout modifier modified)
    (hc : c ∈ modifier.elim [] (fun m => [' ', m])) : c ∈ modified ∨ c ∈ writtenAnew := by
  cases modifier with
  | none => cases hc
  | some m =>
    obtain ⟨gap, _, rfl⟩ := h
    rcases List.mem_cons.1 hc with rfl | hc
    · exact Or.inr (by simp [writtenAnew])
    · exact Or.inl (List.mem_cons.2 (Or.inl (List.mem_singleton.1 hc)))

theorem Attribute.Layout.mem_text {a : Attribute} {used : List Char} (h : a.Layout used)
    (hc : c ∈ a.text.toList) : c ∈ '[' :: used ∨ c ∈ writtenAnew := by
  rw [Attribute.toList_text] at hc
  cases h with
  | present =>
    simp only [AttributeOp.text, Option.elim, String.toList_empty, List.nil_append, List.mem_cons,
      List.mem_append, List.not_mem_nil, or_false] at hc ⊢
    rcases hc with hc | hc | hc <;> simp only [hc, true_or, or_true]
  | @test _ _ _ modifier _ _ _ _ _ modified _ _ _ _ hm hv =>
    simp only [List.mem_cons, List.mem_append, List.not_mem_nil, or_false] at hc ⊢
    rcases hc with hc | hc | hc | hc | hc | hc
    · simp only [hc, true_or]
    · simp only [hc, true_or, or_true]
    · simp only [hc, true_or, or_true]
    · rcases hv.mem_text hc with hc | hc <;> simp only [hc, true_or, or_true]
    · rcases hm.mem_text hc with hc | hc <;> simp only [hc, true_or, or_true]
    · simp only [hc, true_or, or_true]

theorem Pseudo.Layout.mem_text {p : Pseudo} {used : List Char} (h : p.Layout used)
    (hc : c ∈ p.text.toList) : c ∈ used := by
  obtain ⟨written, hw, rfl⟩ := h
  rw [Pseudo.toList_text] at hc
  simp only [List.mem_append] at hc ⊢
  rcases hc with hc | hc | hc
  · exact Or.inl hc
  · exact Or.inr (Or.inl hc)
  · refine Or.inr (Or.inr ?_)
    cases ha : p.argument with
    | none => simp [ha] at hc
    | some argument =>
      rw [ha] at hw hc
      obtain ⟨lead, trail, _, _, rfl⟩ := hw
      simp only [Option.elim, List.mem_cons, List.mem_append, List.not_mem_nil, or_false] at hc ⊢
      rcases hc with hc | hc | hc <;> simp only [hc, true_or, or_true]

/-- What a simple selector is written as has the characters of any layout of it, and quotes and
spaces. -/
theorem Simple.Layout.mem_text {s : Simple} {used : List Char} (h : s.Layout used)
    (hc : c ∈ s.text.toList) : c ∈ used ∨ c ∈ writtenAnew := by
  cases s with
  | pseudo p => exact Or.inl (Pseudo.Layout.mem_text h hc)
  | attr a =>
    obtain ⟨inside, h, rfl⟩ := h
    exact h.mem_text hc
  | _ => exact Or.inl (h ▸ hc)

end SelectorAlgebra
