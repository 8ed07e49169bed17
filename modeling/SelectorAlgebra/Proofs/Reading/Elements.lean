import SelectorAlgebra.Proofs.Reading.Forms

/-
  What the readers of element names and attribute names take. A bar after the first name makes a
  namespace of it, except that in an attribute a bar before `=` begins an operator.
-/

namespace SelectorAlgebra

variable {cs rest : List Char}

/-! ## How they begin -/

/-- Whether a name, with a namespace or without, or `*` may begin with a character. -/
def beginsElement (c : Char) : Bool := c == '*' || c == '|' || isNameChar c

theorem ne_of_beginsElement {c d : Char} (h : beginsElement c) (hd : beginsElement d = false) :
    c ≠ d := by
  rintro rfl
  rw [h] at hd
  cases hd

theorem isSeparator_of_beginsElement {c : Char} (h : beginsElement c) : isSeparator c = false := by
  have h₁ : c ≠ ' ' := ne_of_beginsElement h (by decide)
  have h₂ : c ≠ '\t' := ne_of_beginsElement h (by decide)
  have h₃ : c ≠ '\n' := ne_of_beginsElement h (by decide)
  simp [isSeparator, h₁, h₂, h₃]

theorem isSeparator_of_isNameChar {c : Char} (h : isNameChar c) : isSeparator c = false :=
  isSeparator_of_beginsElement (by simp [beginsElement, h])

theorem Namespace.Readable.exists_cons {space : Namespace} (h : space.Readable) {c : Char}
    (hc : beginsElement c) (cs : List Char) :
    ∃ d more, space.text.toList ++ c :: cs = d :: more ∧ beginsElement d := by
  cases space with
  | unwritten => exact ⟨c, cs, rfl, hc⟩
  | empty => exact ⟨'|', c :: cs, rfl, by decide⟩
  | any => exact ⟨'*', '|' :: c :: cs, rfl, by decide⟩
  | named first =>
    obtain ⟨d, more, e, hd⟩ := exists_cons_of_isName h
    exact ⟨d, more ++ '|' :: c :: cs, by simp [e], by simp [beginsElement, hd]⟩

theorem QualifiedName.Readable.exists_cons {n : QualifiedName} (h : n.Readable) :
    ∃ d more, n.text.toList = d :: more ∧ beginsElement d := by
  obtain ⟨c, cs, e, hc⟩ := exists_cons_of_isName h.2
  rw [QualifiedName.toList_text, e]
  exact h.1.exists_cons (by simp [beginsElement, hc]) cs

/-! ## Elements -/

/-- The simple selectors that are elements by name, or all elements. -/
def Simple.IsElement : Simple → Prop
  | universal _ | element _ => True
  | _ => False

theorem Simple.IsElement.exists_cons {s : Simple} (he : s.IsElement) (hr : s.Readable) :
    ∃ d more, s.text.toList = d :: more ∧ beginsElement d := by
  cases s with
  | universal space =>
    rw [Simple.toList_text_universal]
    exact Namespace.Readable.exists_cons hr (by decide) []
  | element n => exact QualifiedName.Readable.exists_cons hr
  | _ => cases he

/-- What stands behind a bar is an element or all elements of the namespace before it. -/
theorem readInNamespace_sound (space : Namespace) {s : Simple} (hr : space.Readable)
    (hw : space ≠ .unwritten) (h : readInNamespace space cs = .ok (s, rest)) :
    s.IsElement ∧ s.Readable ∧ space.text.toList ++ cs = s.text.toList ++ rest ∧
      StopsBefore s.absorbs rest := by
  unfold readInNamespace at h
  split at h
  · cases h
    refine ⟨trivial, hr, by simp [Simple.text], ?_⟩
    rw [Simple.absorbs_universal hw]
    exact stopsBefore_false _
  · obtain ⟨⟨name, rest'⟩, h, e⟩ := bind_eq_ok.1 h
    cases e
    obtain ⟨hn, rfl, hs⟩ := readIdentifier_eq_ok.1 h
    refine ⟨trivial, ⟨hr, hn⟩, by simp [Simple.text, QualifiedName.text], ?_⟩
    rw [Simple.absorbs_element hw]
    exact hs

theorem readInNamespace_name (space : Namespace) {name : String} (hn : isName name.toList)
    (hs : StopsBefore continuesName rest) :
    readInNamespace space (name.toList ++ rest) = .ok (.element ⟨space, name⟩, rest) := by
  obtain ⟨c, more, e, hc⟩ := exists_cons_of_isName hn
  have h := readIdentifier_eq_ok.2 ⟨hn, rfl, hs⟩
  rw [e, List.cons_append] at h ⊢
  rw [readInNamespace]
  · exact congrArg (· >>= _) h
  · intro _ e
    cases e
    exact absurd hc (by decide)

/-- Reading an element that begins with a name. -/
theorem readElement_name {first : String} (hn : isName first.toList)
    (hs : StopsBefore continuesName rest) :
    readElement (first.toList ++ rest) = (do
      let (first, cs) ← Except.ok (first, rest)
      match cs with
      | '|' :: cs => readInNamespace (.named first) cs
      | cs => return (.element ⟨.unwritten, first⟩, cs)) := by
  have h := readIdentifier_eq_ok.2 ⟨hn, rfl, hs⟩
  obtain ⟨c, more, e, hc⟩ := exists_cons_of_isName hn
  have h₁ : c ≠ '*' := ne_of_isNameChar hc (by decide)
  have h₂ : c ≠ '|' := ne_of_isNameChar hc (by decide)
  rw [e, List.cons_append] at h ⊢
  rw [readElement]
  · exact congrArg (· >>= _) h
  · intro _ e
    exact h₁ (List.cons.inj e).1
  · intro _ e
    exact h₁ (List.cons.inj e).1
  · intro _ e
    exact h₂ (List.cons.inj e).1

theorem readElement_sound {s : Simple} (h : readElement cs = .ok (s, rest)) :
    s.IsElement ∧ s.Readable ∧ cs = s.text.toList ++ rest ∧ StopsBefore s.absorbs rest := by
  unfold readElement at h
  split at h
  · exact readInNamespace_sound .any trivial (by simp) h
  · rename_i hb
    cases h
    exact ⟨trivial, trivial, rfl, stopsBefore_of_forall_ne fun more e => hb more (by rw [e])⟩
  · exact readInNamespace_sound .empty trivial (by simp) h
  · obtain ⟨⟨first, mid⟩, h₁, h₂⟩ := bind_eq_ok.1 h
    obtain ⟨hn, rfl, hs⟩ := readIdentifier_eq_ok.1 h₁
    dsimp only at h₂
    split at h₂
    · obtain ⟨he, hr, e, hs⟩ := readInNamespace_sound (.named first) hn (by simp) h₂
      exact ⟨he, hr, by rw [← e]; simp [Namespace.text], hs⟩
    · rename_i hb
      cases h₂
      refine ⟨trivial, ⟨trivial, hn⟩, by simp [Simple.text, QualifiedName.text, Namespace.text], ?_⟩
      exact stopsBefore_or.2 ⟨hs, stopsBefore_of_forall_ne hb⟩

/-- A namespace that is written is read up to its bar. -/
theorem readElement_namespace {space : Namespace} (hr : space.Readable) (hw : space ≠ .unwritten)
    (cs : List Char) : readElement (space.text.toList ++ cs) = readInNamespace space cs := by
  cases space with
  | unwritten => exact absurd rfl hw
  | empty => rfl
  | any => rfl
  | named first =>
    have hs : StopsBefore continuesName ('|' :: cs) := stopsBefore_cons.2 (by decide)
    rw [Namespace.toList_text_named, List.append_assoc, List.singleton_append,
      readElement_name hr hs]
    rfl

/-- A star with no bar after it is read as all elements. -/
theorem readElement_star (hb : StopsBefore (· == '|') rest) :
    readElement ('*' :: rest) = .ok (.universal .unwritten, rest) := by
  cases rest with
  | nil => rfl
  | cons c rest =>
    have hc : c ≠ '|' := by simpa using hb
    rw [readElement]
    intro _ e
    cases e
    exact hc rfl

/-- A name with no bar after it is read as an element in no namespace. -/
theorem readElement_alone {name : String} (hn : isName name.toList)
    (hs : StopsBefore continuesName rest) (hb : StopsBefore (· == '|') rest) :
    readElement (name.toList ++ rest) = .ok (.element ⟨.unwritten, name⟩, rest) := by
  rw [readElement_name hn hs]
  simp only [bind, Except.bind]
  split
  · simp at hb
  · rfl

theorem readElement_text {s : Simple} (he : s.IsElement) (hr : s.Readable)
    (hs : StopsBefore s.absorbs rest) : readElement (s.text.toList ++ rest) = .ok (s, rest) := by
  cases s with
  | universal space =>
    rw [Simple.toList_text_universal]
    by_cases hw : space = .unwritten
    · subst hw
      exact readElement_star hs
    · rw [List.append_assoc, readElement_namespace hr hw]
      rfl
  | element n =>
    obtain ⟨space, name⟩ := n
    obtain ⟨hp, hn⟩ := hr
    rw [Simple.toList_text_element]
    by_cases hw : space = .unwritten
    · subst hw
      obtain ⟨hs, hb⟩ := stopsBefore_or.1 hs
      exact readElement_alone hn hs hb
    · rw [Simple.absorbs_element hw] at hs
      rw [List.append_assoc, readElement_namespace hp hw, readInNamespace_name space hn hs]
  | _ => cases he

theorem readElement_eq_ok {s : Simple} :
    readElement cs = .ok (s, rest) ↔
      s.IsElement ∧ s.Readable ∧ cs = s.text.toList ++ rest ∧ StopsBefore s.absorbs rest := by
  constructor
  · exact readElement_sound
  · rintro ⟨he, hr, rfl, hs⟩
    exact readElement_text he hr hs

end SelectorAlgebra
