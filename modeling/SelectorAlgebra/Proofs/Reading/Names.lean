import Mathlib.Data.List.TakeWhile
import SelectorAlgebra.Text.Words

/-
  What the readers of names, gaps and quoted strings take. Each takes all it can, so what is left
  must not begin with a character that would have gone on: `StopsBefore p rest`. For each reader
  one equivalence says exactly when it gives a value and a rest.
-/

namespace SelectorAlgebra

/-! ## Where a run of characters ends -/

/-- The first character of `rest`, if there is one, is not in `p`. -/
def StopsBefore (p : Char → Bool) (rest : List Char) : Prop := rest.head?.any p = false

variable {p q : Char → Bool} {c : Char} {cs used rest : List Char}

@[simp] theorem stopsBefore_cons : StopsBefore p (c :: cs) ↔ p c = false := by
  simp [StopsBefore]

theorem stopsBefore_append (h : used ≠ []) : StopsBefore p (used ++ rest) ↔ StopsBefore p used := by
  cases used with
  | nil => exact absurd rfl h
  | cons c used => simp

theorem stopsBefore_dropWhile (p : Char → Bool) (cs : List Char) :
    StopsBefore p (cs.dropWhile p) := by
  induction cs with
  | nil => rfl
  | cons c cs ih =>
    rw [List.dropWhile_cons]
    split
    · exact ih
    · rename_i h
      simpa using h

theorem stopsBefore_of_forall_ne {d : Char} (h : ∀ more, cs ≠ d :: more) :
    StopsBefore (· == d) cs := by
  cases cs with
  | nil => rfl
  | cons c cs =>
    rw [stopsBefore_cons, beq_eq_false_iff_ne]
    rintro rfl
    exact h cs rfl

theorem stopsBefore_or :
    StopsBefore (fun c => p c || q c) rest ↔ StopsBefore p rest ∧ StopsBefore q rest := by
  cases rest <;> simp [StopsBefore]

theorem StopsBefore.dropWhile_eq (h : StopsBefore p rest) : rest.dropWhile p = rest := by
  cases rest with
  | nil => rfl
  | cons c rest => rw [List.dropWhile_cons, if_neg (by simpa using h)]

theorem StopsBefore.takeWhile_eq (h : StopsBefore p rest) : rest.takeWhile p = [] := by
  cases rest with
  | nil => rfl
  | cons c rest => rw [List.takeWhile_cons, if_neg (by simpa using h)]

theorem dropWhile_append_stops (hu : used.all p) (h : StopsBefore p rest) :
    (used ++ rest).dropWhile p = rest := by
  rw [List.dropWhile_append_of_pos (by simpa using hu), h.dropWhile_eq]

theorem takeWhile_append_stops (hu : used.all p) (h : StopsBefore p rest) :
    (used ++ rest).takeWhile p = used := by
  rw [List.takeWhile_append_of_pos (by simpa using hu), h.takeWhile_eq, List.append_nil]

/-- Before what absorbs nothing, everything ends. -/
theorem stopsBefore_false (cs : List Char) : StopsBefore (fun _ => false) cs := by
  cases cs <;> rfl

/-- What holds of no character of a list does not hold of one that is in it. -/
theorem eq_false_of_mem (hp : cs.any p = false) (h : c ∈ cs) : p c = false := by
  simpa using List.any_eq_false.1 hp c h

/-! ## Gaps -/

/-- White space between the parts of a selector, or nothing. -/
def IsGap (cs : List Char) : Prop := cs.all isSeparator

theorem isGap_nil : IsGap [] := rfl

theorem isGap_cons : IsGap (c :: cs) ↔ isSeparator c ∧ IsGap cs := by
  rw [IsGap, List.all_cons, Bool.and_eq_true]
  rfl

theorem skipSeparators_append (hu : IsGap used) (h : StopsBefore isSeparator rest) :
    skipSeparators (used ++ rest) = rest :=
  dropWhile_append_stops hu h

theorem skipSeparators_of_stops (h : StopsBefore isSeparator rest) : skipSeparators rest = rest :=
  h.dropWhile_eq

/-- What was skipped is a gap, and the rest does not begin with one. -/
theorem exists_gap (cs : List Char) :
    ∃ gap, IsGap gap ∧ cs = gap ++ skipSeparators cs ∧
      StopsBefore isSeparator (skipSeparators cs) :=
  ⟨cs.takeWhile isSeparator, List.all_takeWhile, List.takeWhile_append_dropWhile.symm,
    stopsBefore_dropWhile _ _⟩

/-! ## Names -/

/-- Whether a text is a name: two hyphens and name characters, or a name start and name characters
with one hyphen or none before them. -/
def isName : List Char → Bool
  | '-' :: '-' :: cs => cs.all isNameChar
  | '-' :: c :: cs => isNameStart c && cs.all isNameChar
  | c :: cs => isNameStart c && cs.all isNameChar
  | [] => false

/-- Whether a name cannot end before a character: it would go on, or a backslash forbids it. -/
def continuesName (c : Char) : Bool := isNameChar c || c == '\\'

theorem continuesName_of_isSeparator (h : isSeparator c) : continuesName c = false := by
  simp only [isSeparator, Bool.or_eq_true, beq_iff_eq] at h
  rcases h with (rfl | rfl) | rfl <;> decide

theorem isNameChar_of_isNameStart (h : isNameStart c) : isNameChar c := by
  simp [isNameChar, h]

theorem ne_hyphen_of_isNameStart (h : isNameStart c) : c ≠ '-' := by
  rintro rfl
  exact absurd h (by decide)

/-- The three shapes of a name. -/
theorem isName_iff :
    isName cs ↔ (∃ more, cs = '-' :: '-' :: more ∧ more.all isNameChar) ∨
      (∃ c more, cs = '-' :: c :: more ∧ isNameStart c ∧ more.all isNameChar) ∨
      (∃ c more, cs = c :: more ∧ isNameStart c ∧ more.all isNameChar) := by
  constructor
  · intro h
    unfold isName at h
    split at h
    · exact Or.inl ⟨_, rfl, h⟩
    · exact Or.inr (Or.inl ⟨_, _, rfl, by simpa using h⟩)
    · exact Or.inr (Or.inr ⟨_, _, rfl, by simpa using h⟩)
    · cases h
  · rintro (⟨more, rfl, hm⟩ | ⟨c, more, rfl, hc, hm⟩ | ⟨c, more, rfl, hc, hm⟩)
    · exact hm
    · simp [isName, ne_hyphen_of_isNameStart hc, hc, hm]
    · simp [isName, ne_hyphen_of_isNameStart hc, hc, hm]

theorem isNameChar_of_isName (h : isName cs) : cs.all isNameChar := by
  have hh : isNameChar '-' := by decide
  rcases isName_iff.1 h with ⟨more, rfl, hm⟩ | ⟨c, more, rfl, hc, hm⟩ | ⟨c, more, rfl, hc, hm⟩
  · simp [hh, hm]
  · simp [hh, isNameChar_of_isNameStart hc, hm]
  · simp [isNameChar_of_isNameStart hc, hm]

/-- A name begins with a character that is part of names. -/
theorem exists_cons_of_isName (h : isName cs) : ∃ c more, cs = c :: more ∧ isNameChar c := by
  cases cs with
  | nil => cases h
  | cons c more =>
    have hc := isNameChar_of_isName h
    rw [List.all_cons, Bool.and_eq_true] at hc
    exact ⟨c, more, rfl, hc.1⟩

theorem ne_of_isNameChar {c d : Char} (h : isNameChar c) (hd : isNameChar d = false) : c ≠ d := by
  rintro rfl
  rw [h] at hd
  cases hd

/-- A name may be made longer by name characters. -/
theorem isName_append (h : isName cs) (hu : used.all isNameChar) : isName (cs ++ used) := by
  refine isName_iff.2 ?_
  rcases isName_iff.1 h with ⟨more, rfl, hm⟩ | ⟨c, more, rfl, hc, hm⟩ | ⟨c, more, rfl, hc, hm⟩
  · exact Or.inl ⟨more ++ used, rfl, by rw [List.all_append, hm, hu]; rfl⟩
  · exact Or.inr (Or.inl ⟨c, more ++ used, rfl, hc, by rw [List.all_append, hm, hu]; rfl⟩)
  · exact Or.inr (Or.inr ⟨c, more ++ used, rfl, hc, by rw [List.all_append, hm, hu]; rfl⟩)

/-- Where a name may end: before a character that is no part of it and no backslash. -/
theorem stopsBefore_continuesName :
    StopsBefore continuesName rest ↔ StopsBefore isNameChar rest ∧ rest.head? ≠ some '\\' := by
  cases rest with
  | nil => simp [StopsBefore]
  | cons c rest => simp [continuesName]

theorem readNameRest_eq_ok {lead : List Char} {name : String} :
    readNameRest lead cs = .ok (name, rest) ↔
      ∃ more, more.all isNameChar ∧ name = String.ofList (lead ++ more) ∧ cs = more ++ rest ∧
        StopsBefore continuesName rest := by
  simp only [readNameRest]
  constructor
  · intro h
    split at h
    · cases h
    · rename_i hb
      cases h
      exact ⟨cs.takeWhile isNameChar, List.all_takeWhile, rfl,
        List.takeWhile_append_dropWhile.symm,
        stopsBefore_continuesName.2 ⟨stopsBefore_dropWhile _ _, hb⟩⟩
  · rintro ⟨more, hm, rfl, rfl, hs⟩
    obtain ⟨hs, hb⟩ := stopsBefore_continuesName.1 hs
    rw [dropWhile_append_stops hm hs, takeWhile_append_stops hm hs, if_neg hb]

theorem readNameFrom_eq_ok {lead : List Char} {name : String} :
    readNameFrom lead cs = .ok (name, rest) ↔
      ∃ c more, isNameStart c ∧ more.all isNameChar ∧ name = String.ofList (lead ++ c :: more) ∧
        cs = c :: more ++ rest ∧ StopsBefore continuesName rest := by
  cases cs with
  | nil => simp [readNameFrom, failAt]
  | cons c cs =>
    simp only [readNameFrom]
    by_cases hc : isNameStart c
    · rw [if_pos hc, readNameRest_eq_ok]
      constructor
      · rintro ⟨more, hm, rfl, rfl, hs⟩
        exact ⟨c, more, hc, hm, by simp, rfl, hs⟩
      · rintro ⟨c', more, _, hm, rfl, e, hs⟩
        cases e
        exact ⟨more, hm, by simp, rfl, hs⟩
    · rw [if_neg hc]
      constructor
      · intro h
        split at h <;> cases h
      · rintro ⟨c', more, hc', _, _, e, _⟩
        cases e
        exact absurd hc' hc

theorem readIdentifier_hyphen (hc : c ≠ '-') :
    readIdentifier ('-' :: c :: cs) = readNameFrom ['-'] (c :: cs) := by
  rw [readIdentifier]
  intro _ e
  cases e
  exact hc rfl

theorem readIdentifier_start (hc : c ≠ '-') :
    readIdentifier (c :: cs) = readNameFrom [] (c :: cs) := by
  rw [readIdentifier]
  · intro _ e
    cases e
    exact hc rfl
  · intro _ e
    cases e
    exact hc rfl

/-- An identifier is read if a name stands first and what comes after it does not go on. -/
theorem readIdentifier_eq_ok {name : String} :
    readIdentifier cs = .ok (name, rest) ↔
      isName name.toList ∧ cs = name.toList ++ rest ∧ StopsBefore continuesName rest := by
  constructor
  · intro h
    unfold readIdentifier at h
    split at h
    · obtain ⟨more, hm, rfl, rfl, hs⟩ := readNameRest_eq_ok.1 h
      exact ⟨isName_iff.2 (Or.inl ⟨more, by simp, hm⟩), by simp, hs⟩
    · obtain ⟨c, more, hc, hm, rfl, rfl, hs⟩ := readNameFrom_eq_ok.1 h
      exact ⟨isName_iff.2 (Or.inr (Or.inl ⟨c, more, by simp, hc, hm⟩)), by simp, hs⟩
    · obtain ⟨c, more, hc, hm, rfl, rfl, hs⟩ := readNameFrom_eq_ok.1 h
      exact ⟨isName_iff.2 (Or.inr (Or.inr ⟨c, more, by simp, hc, hm⟩)), by simp, hs⟩
  · rintro ⟨hn, rfl, hs⟩
    rcases isName_iff.1 hn with ⟨more, e, hm⟩ | ⟨c, more, e, hc, hm⟩ | ⟨c, more, e, hc, hm⟩
    · rw [e]
      exact readNameRest_eq_ok.2 ⟨more, hm, by simp [← e], rfl, hs⟩
    · rw [e, List.cons_append, List.cons_append,
        readIdentifier_hyphen (ne_hyphen_of_isNameStart hc)]
      exact readNameFrom_eq_ok.2 ⟨c, more, hc, hm, by simp [← e], rfl, hs⟩
    · rw [e, List.cons_append, readIdentifier_start (ne_hyphen_of_isNameStart hc)]
      exact readNameFrom_eq_ok.2 ⟨c, more, hc, hm, by simp [← e], rfl, hs⟩

/-! ## Quoted strings -/

/-- Whether a character may stand between quotes as it is. -/
def isQuotable (quote c : Char) : Bool := c != quote && c != '\n' && c != '\\'

/-- A string is read if all characters before its closing quote may stand in it. -/
theorem readQuoted_eq_ok {quote : Char} {value : List Char} :
    readQuoted quote cs = .ok (value, rest) ↔
      value.all (isQuotable quote) ∧ cs = value ++ quote :: rest := by
  induction cs generalizing value with
  | nil => simp [readQuoted, failAt]
  | cons c cs ih =>
    rw [readQuoted]
    constructor
    · intro h
      split at h
      · rename_i hq
        cases h
        exact ⟨rfl, by rw [hq]; rfl⟩
      · split at h
        · cases h
        · split at h
          · cases h
          · rename_i hq hn hb
            obtain ⟨⟨more, rest'⟩, h, e⟩ := map_eq_ok.1 h
            cases e
            obtain ⟨hm, rfl⟩ := ih.1 h
            exact ⟨by simp_all [isQuotable], rfl⟩
    · rintro ⟨hv, e⟩
      cases value with
      | nil =>
        cases e
        exact if_pos rfl
      | cons d value =>
        cases e
        simp only [List.all_cons, isQuotable, Bool.and_eq_true, bne_iff_ne] at hv
        obtain ⟨⟨⟨hq, hn⟩, hb⟩, hv⟩ := hv
        rw [if_neg hq, if_neg hn, if_neg hb, ih.2 ⟨by simpa [isQuotable] using hv, rfl⟩]
        rfl

end SelectorAlgebra
