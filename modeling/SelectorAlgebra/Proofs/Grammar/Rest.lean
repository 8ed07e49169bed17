import SelectorAlgebra.Proofs.Grammar.Basic

/-
  What may come after a simple selector. A derivable text stays derivable without the name
  characters in front of it (`Derivable.dropName`), so a reader that takes a longer name than the
  grammar has there leaves a derivable text; and what begins with a bar goes on with a name or
  a star (`Derivable.bar`).
-/

namespace SelectorAlgebra.Grammar

variable {b : Bool} {c d : Char} {cs used rest name more : List Char}

/-! ## What comes next -/

/-- Whether a derivable text may begin with a character. -/
def beginsPart (c : Char) : Bool :=
  isSeparator c || combinators.contains c || continuesCompound c || isNameChar c

theorem Derivable.head (h : Derivable b (c :: cs)) : beginsPart c := by
  generalize e : c :: cs = text at h
  cases h with
  | done => cases e
  | separator hc => simp [beginsPart, (List.cons.inj e).1, hc]
  | combinator hc => simp [beginsPart, (List.cons.inj e).1, hc]
  | simple hu =>
    obtain ⟨d, more, rfl, hd | hd⟩ := hu.exists_cons
    · simp [beginsPart, (List.cons.inj e).1, hd]
    · simp [beginsPart, (List.cons.inj e).1, hd]

theorem Derivable.stopsBefore (h : Derivable b cs) (hd : beginsPart d = false) :
    StopsBefore (· == d) cs := by
  refine stopsBefore_of_forall_ne ?_
  rintro more rfl
  rw [h.head] at hd
  cases hd

theorem Derivable.weaken (h : Derivable b cs) : Derivable false cs := by
  induction h with
  | done => exact .done
  | separator hc _ ih => exact .separator hc ih
  | combinator hc h => exact .combinator hc h
  | simple hu h => exact .simple hu h

/-! ## Without name characters in front -/

theorem dropWhile_isNameChar (hc : isNameChar c = false) (cs : List Char) :
    (c :: cs).dropWhile isNameChar = c :: cs := by
  rw [List.dropWhile_cons, if_neg (by simp [hc])]

theorem dropWhile_name (hn : isName name) (cs : List Char) :
    (name ++ cs).dropWhile isNameChar = cs.dropWhile isNameChar :=
  List.dropWhile_append_of_pos (by simpa using isNameChar_of_isName hn)

theorem dropWhile_named (hn : isName name) (cs : List Char) :
    (name ++ '|' :: cs).dropWhile isNameChar = '|' :: cs := by
  rw [dropWhile_name hn, dropWhile_isNameChar (by decide)]

/-- A simple selector without its leading name characters is nothing, or one in the namespace
that has no name, or it had none of them. -/
theorem IsSimple.dropName (hu : IsSimple used) (h : Derivable false rest)
    (hd : Derivable false (rest.dropWhile isNameChar)) :
    Derivable false ((used ++ rest).dropWhile isNameChar) := by
  have hmark : ∀ c more, used = c :: more → isNameChar c = false →
      Derivable false ((used ++ rest).dropWhile isNameChar) := by
    rintro c more rfl hc
    rw [List.cons_append, dropWhile_isNameChar hc]
    exact .simple hu h
  cases hu with
  | @marked mark name hm hn =>
    exact hmark mark name rfl (eq_false_of_mem (by decide) hm)
  | pseudo hc hn ha =>
    rcases hc with rfl | rfl
    · exact hmark ':' _ rfl (by decide)
    · exact hmark ':' _ rfl (by decide)
  | @element space name hp hn =>
    cases hp with
    | none =>
      rw [List.nil_append, dropWhile_name hn]
      exact hd
    | empty => exact hmark '|' _ rfl (by decide)
    | any => exact hmark '*' _ rfl (by decide)
    | @named first hf =>
      -- only the bar is left of the prefix, and a bar alone is a prefix too
      rw [List.append_assoc, List.append_assoc, List.singleton_append, dropWhile_named hf]
      exact .simple (.element .empty hn) h
  | @universal space hp =>
    cases hp with
    | none => exact hmark '*' _ rfl (by decide)
    | empty => exact hmark '|' _ rfl (by decide)
    | any => exact hmark '*' _ rfl (by decide)
    | @named first hf =>
      rw [List.append_assoc, List.append_assoc, List.singleton_append, dropWhile_named hf]
      exact .simple (.universal .empty) h
  | bracketed hi => exact hmark '[' _ rfl (by decide)

/-- A derivable text stays derivable without the name characters in front of it. -/
theorem Derivable.dropName (h : Derivable b cs) : Derivable false (cs.dropWhile isNameChar) := by
  induction h with
  | done => exact .done
  | @separator b c cs hc h ih =>
    have hn : isNameChar c = false := by
      cases hn : isNameChar c with
      | false => rfl
      | true => rw [isSeparator_of_isNameChar hn] at hc; cases hc
    rw [dropWhile_isNameChar hn]
    exact .separator hc h.weaken
  | @combinator c cs hc h ih =>
    rw [dropWhile_isNameChar (eq_false_of_mem (by decide) hc)]
    exact .combinator hc h
  | simple hu h ih => exact hu.dropName h ih

/-- A name that is followed by a derivable text is the beginning of one that ends where reading
stops. -/
theorem Derivable.exists_name (hn : isName name) (h : Derivable false rest) :
    ∃ longest rest' : List Char, isName longest ∧ name ++ rest = longest ++ rest' ∧
      StopsBefore continuesName rest' ∧ Derivable false rest' := by
  refine ⟨name ++ rest.takeWhile isNameChar, rest.dropWhile isNameChar,
    isName_append hn List.all_takeWhile, ?_, ?_, h.dropName⟩
  · rw [List.append_assoc, List.takeWhile_append_dropWhile]
  · exact stopsBefore_or.2 ⟨stopsBefore_dropWhile _ _, h.dropName.stopsBefore (by decide)⟩

/-! ## Behind a bar -/

/-- Of what may stand before a name or a star, only a lone bar begins with a bar. -/
theorem IsPrefix.bar {space : List Char} (hp : IsPrefix space) (hc : c ≠ '|')
    (e : '|' :: more = space ++ c :: cs) : more = c :: cs := by
  cases hp with
  | none => exact absurd (List.cons.inj e).1.symm hc
  | empty => exact (List.cons.inj e).2
  | any => cases e
  | named hn =>
    obtain ⟨d, name, rfl, hd⟩ := exists_cons_of_isName hn
    exact absurd (List.cons.inj e).1.symm (ne_of_isNameChar hd (by decide))

/-- A simple selector that begins with a bar is an element or all elements. -/
theorem IsSimple.bar (hu : IsSimple ('|' :: more)) : isName more ∨ more = ['*'] := by
  generalize e : '|' :: more = used at hu
  cases hu with
  | @marked mark name hm hn =>
    rw [← (List.cons.inj e).1] at hm
    exact absurd hm (by decide)
  | pseudo hc hn ha => rcases hc with rfl | rfl <;> cases e
  | @element space name hp hn =>
    obtain ⟨c, more', rfl, hc⟩ := exists_cons_of_isName hn
    rw [hp.bar (ne_of_isNameChar hc (by decide)) e]
    exact Or.inl hn
  | universal hp => exact Or.inr (hp.bar (by decide) e)
  | bracketed hi => cases e

theorem Derivable.bar (h : Derivable b ('|' :: cs)) :
    (∃ name rest, isName name ∧ cs = name ++ rest ∧ Derivable false rest) ∨
      ∃ rest, cs = '*' :: rest ∧ Derivable false rest := by
  generalize e : '|' :: cs = text at h
  cases h with
  | done => cases e
  | separator hc =>
    rw [← (List.cons.inj e).1] at hc
    exact absurd hc (by decide)
  | combinator hc =>
    rw [← (List.cons.inj e).1] at hc
    exact absurd hc (by decide)
  | @simple b used rest hu h =>
    obtain ⟨d, more, rfl, _⟩ := hu.exists_cons
    rw [List.cons_append] at e
    obtain ⟨rfl, rfl⟩ := List.cons.inj e
    rcases hu.bar with hn | rfl
    · exact Or.inl ⟨more, rest, hn, rfl, h⟩
    · exact Or.inr ⟨rest, rfl, h⟩

end SelectorAlgebra.Grammar
