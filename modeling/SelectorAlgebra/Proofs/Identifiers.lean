import SelectorAlgebra.Proofs.Writing.Values

/-
  Three ways to tell an identifier, which are written apart from each other: `isIdentifier` looks at
  a whole text and decides whether a value is written bare, `startsIdentifier` looks one character
  ahead and decides whether a compound selector begins, and `readIdentifier` takes the characters.
  They are compared by the lead of an identifier (`IsLead`): where there is one, the reader is past
  every choice and only a backslash can stop it; where there is none, it fails before it has taken
  anything but a hyphen.
-/

namespace SelectorAlgebra

variable {lead cs : List Char}

/-! ## The lead of an identifier -/

/-- What makes an identifier of the name characters after it: two hyphens, or a name start with one
hyphen or none before it. -/
inductive IsLead : List Char → Prop where
  | hyphens : IsLead ['-', '-']
  | hyphen {c : Char} (hc : isNameStart c) : IsLead ['-', c]
  | start {c : Char} (hc : isNameStart c) : IsLead [c]

/-- An identifier is looked for exactly where a lead stands. -/
theorem startsIdentifier_iff :
    startsIdentifier cs ↔ ∃ lead more, IsLead lead ∧ cs = lead ++ more := by
  constructor
  · intro h
    unfold startsIdentifier at h
    split at h
    · rename_i c more
      rw [Bool.or_eq_true, beq_iff_eq] at h
      rcases h with hc | rfl
      · exact ⟨['-', c], more, .hyphen hc, rfl⟩
      · exact ⟨['-', '-'], more, .hyphens, rfl⟩
    · rename_i c more _
      exact ⟨[c], more, .start h, rfl⟩
    · cases h
  · rintro ⟨lead, more, hl, rfl⟩
    have hname : isName lead := by
      cases hl with
      | hyphens => rfl
      | hyphen hc => exact isName_iff.2 (Or.inr (Or.inl ⟨_, [], rfl, hc, rfl⟩))
      | start hc => exact isName_iff.2 (Or.inr (Or.inr ⟨_, [], rfl, hc, rfl⟩))
    exact startsIdentifier_of_isName hname more

/-- Once the lead is read, the reader takes name characters and nothing else matters. -/
theorem IsLead.readIdentifier_append (h : IsLead lead) (more : List Char) :
    readIdentifier (lead ++ more) = readNameRest lead more := by
  cases h with
  | hyphens => rfl
  | hyphen hc =>
    have hne := ne_hyphen_of_isNameStart hc
    rw [List.cons_append, List.cons_append, readIdentifier_hyphen hne, readNameFrom, if_pos hc]
    rfl
  | start hc =>
    have hne := ne_hyphen_of_isNameStart hc
    rw [List.cons_append, readIdentifier_start hne, readNameFrom, if_pos hc]
    rfl

/-- A lead is two hyphens or has a name start in it. -/
theorem IsLead.prefix_or_mem (h : IsLead lead) (more : List Char) :
    (∃ c ∈ lead ++ more, isNameStart c) ∨ ['-', '-'] <+: lead ++ more := by
  cases h with
  | hyphens => exact Or.inr (List.prefix_append _ _)
  | hyphen hc => exact Or.inl ⟨_, by simp, hc⟩
  | start hc => exact Or.inl ⟨_, by simp, hc⟩

/-! ## Where reading fails -/

/-- After the lead only a backslash is a failure, at that backslash. -/
theorem readNameRest_eq_ok_or_error (lead cs : List Char) :
    (∃ name rest, readNameRest lead cs = .ok (name, rest)) ∨
      ∃ more rest, more.all isNameChar ∧ cs = more ++ '\\' :: rest ∧
        readNameRest lead cs = failAt .escape ('\\' :: rest) := by
  simp only [readNameRest]
  split
  · rename_i hb
    obtain ⟨rest, hrest⟩ := List.head?_eq_some_iff.1 hb
    refine Or.inr ⟨cs.takeWhile isNameChar, rest, List.all_takeWhile, ?_, by rw [hrest]⟩
    rw [← hrest, List.takeWhile_append_dropWhile]
  · exact Or.inl ⟨_, _, rfl⟩

theorem readNameFrom_of_stops (h : StopsBefore isNameStart cs) (lead : List Char) :
    ∃ cause, readNameFrom lead cs = failAt cause cs := by
  cases cs with
  | nil => exact ⟨_, rfl⟩
  | cons c cs =>
    rw [stopsBefore_cons] at h
    rw [readNameFrom, h, if_neg Bool.false_ne_true]
    split
    · exact ⟨_, rfl⟩
    · exact ⟨_, rfl⟩

/-- Without a lead, the reader fails at once or after one hyphen. -/
theorem readIdentifier_of_not_starts (h : startsIdentifier cs = false) :
    ∃ used more cause, (used = [] ∨ used = ['-']) ∧ cs = used ++ more ∧
      readIdentifier cs = failAt cause more := by
  cases cs with
  | nil => exact ⟨[], [], .missingIdentifier, Or.inl rfl, rfl, rfl⟩
  | cons c cs =>
    by_cases hc : c = '-'
    · subst hc
      cases cs with
      | nil => exact ⟨['-'], [], .missingIdentifier, Or.inr rfl, rfl, rfl⟩
      | cons d cs =>
        rw [startsIdentifier, Bool.or_eq_false_iff, beq_eq_false_iff_ne] at h
        obtain ⟨cause, hcause⟩ := readNameFrom_of_stops (stopsBefore_cons.2 h.1) ['-']
        rw [← readIdentifier_hyphen h.2] at hcause
        exact ⟨['-'], d :: cs, cause, Or.inr rfl, rfl, hcause⟩
    · have hs : isNameStart c = false := by
        rw [startsIdentifier] at h
        · exact h
        · rintro _ _ rfl
          exact absurd rfl hc
      obtain ⟨cause, hcause⟩ := readNameFrom_of_stops (stopsBefore_cons.2 hs) []
      rw [← readIdentifier_start hc] at hcause
      exact ⟨[], c :: cs, cause, Or.inl rfl, rfl, hcause⟩

/-! ## Whole texts -/

/-- A name is an identifier with a name start in it, or two hyphens and name characters. -/
theorem isName_iff_isIdentifier :
    isName cs ↔ isIdentifier cs ∨ ∃ more, cs = '-' :: '-' :: more ∧ more.all isNameChar := by
  constructor
  · intro h
    rcases isName_iff.1 h with ⟨more, rfl, hm⟩ | ⟨c, more, rfl, hc, hm⟩ | ⟨c, more, rfl, hc, hm⟩
    · exact Or.inr ⟨more, rfl, hm⟩
    · have hne := ne_hyphen_of_isNameStart hc
      exact Or.inl (by simp [isIdentifier, dropHyphens, hne, hc, hm])
    · have hne := ne_hyphen_of_isNameStart hc
      exact Or.inl (by simp [isIdentifier, dropHyphens, hne, hc, hm])
  · rintro (h | ⟨more, rfl, hm⟩)
    · cases hp : List.isPrefixOf ['-', '-'] cs with
      | false => exact isName_of_isIdentifier h hp
      | true =>
        obtain ⟨more, rfl⟩ := List.isPrefixOf_iff_prefix.1 hp
        -- an identifier after two hyphens is made of name characters
        have hmore : more.all isNameChar := by
          cases more with
          | nil => rfl
          | cons c more =>
            obtain ⟨hc, hm⟩ := Bool.and_eq_true_iff.1 h
            rw [List.all_cons, isNameChar_of_isNameStart hc, hm]
            rfl
        exact isName_iff.2 (Or.inl ⟨more, rfl, hmore⟩)
    · exact isName_iff.2 (Or.inl ⟨more, rfl, hm⟩)

/-- A text is read as itself exactly if it is a name: a name has no line end to be unified. -/
theorem readIdentifier_tokens_eq_ok (s : String) :
    readIdentifier ((tokens s).map Token.char) = .ok (s, []) ↔ isName s.toList := by
  rw [map_char_tokens, readIdentifier_eq_ok, List.append_nil]
  constructor
  · exact fun h => h.1
  · exact fun h => ⟨h, unifyLineEnds_of_isUnified (isUnified_of_isName h), rfl⟩

/-- **Writing and reading agree on identifiers.** A text is read as an identifier, whole and as it
is, exactly if writing takes it for one or if it is two hyphens and name characters. And an
identifier is looked for exactly where reading one succeeds or is stopped by nothing but a
backslash, after a name start or two hyphens were taken. -/
theorem identifiers_agree (s : String) (cs : List Char) :
    (readIdentifier ((tokens s).map Token.char) = .ok (s, []) ↔
      isIdentifier s.toList ∨ ∃ more, s.toList = '-' :: '-' :: more ∧ more.all isNameChar) ∧
    (startsIdentifier cs ↔
      (∃ name rest, readIdentifier cs = .ok (name, rest)) ∨
      ∃ used rest, cs = used ++ '\\' :: rest ∧
        readIdentifier cs = .error ⟨.escape, .next (rest.length + 1)⟩ ∧
        ((∃ c ∈ used, isNameStart c) ∨ ['-', '-'] <+: used)) := by
  refine ⟨(readIdentifier_tokens_eq_ok s).trans isName_iff_isIdentifier, ?_, ?_⟩
  · intro h
    obtain ⟨lead, more, hl, rfl⟩ := startsIdentifier_iff.1 h
    rw [hl.readIdentifier_append]
    obtain hok | ⟨taken, rest, _, rfl, herror⟩ := readNameRest_eq_ok_or_error lead more
    · exact Or.inl hok
    · exact Or.inr ⟨lead ++ taken, rest, (List.append_assoc _ _ _).symm, herror,
        hl.prefix_or_mem taken⟩
  · rintro (⟨name, rest, h⟩ | ⟨used, rest, rfl, h, hu⟩)
    · obtain ⟨hn, rfl, _⟩ := readIdentifier_eq_ok.1 h
      exact startsIdentifier_of_isName hn rest
    · by_contra hnot
      rw [Bool.not_eq_true] at hnot
      obtain ⟨first, more, cause, hfirst, e, hfail⟩ := readIdentifier_of_not_starts hnot
      -- the place of the failure tells how much was taken
      have hlength : more.length = rest.length + 1 := by
        rw [h, failAt, Except.error.injEq, Failure.mk.injEq, Place.next.injEq] at hfail
        exact hfail.2.symm
      obtain ⟨rfl, _⟩ := List.append_inj' e hlength.symm
      rcases hfirst with rfl | rfl
      · simp at hu
      · have hhyphen : isNameStart '-' = false := by decide
        simp [hhyphen] at hu

end SelectorAlgebra
