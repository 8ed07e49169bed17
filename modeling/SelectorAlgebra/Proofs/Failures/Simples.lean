import SelectorAlgebra.Proofs.Failures.Basic

/-
  Where reading a simple selector goes wrong. Of each reader there is one lemma: if it fails, what
  is read before the place it blames is the beginning of a text of the grammar. What completes the
  text is the shortest that the grammar has there: a letter for a name, an operator and a letter
  for a test, the quote or the bracket that is still open.
-/

namespace SelectorAlgebra

open Grammar

variable {f : Failure} {cs : List Char}

/-! ## Names -/

theorem breaks_readNameRest {lead : List Char} (h : readNameRest lead cs = .error f) :
    f.Breaks (fun w => w.all isNameChar) cs := by
  simp only [readNameRest, failAt] at h
  split at h
  · cases h
    have hb : Failure.Breaks ⟨.escape, .next (cs.dropWhile isNameChar).length⟩ (· = [])
        (cs.dropWhile isNameChar) :=
      .here _ (by simp) (by simp [IsUnified]) rfl
    have hb' := hb.after (H := fun w => w.all isNameChar) (cs.takeWhile isNameChar) <| by
      rintro w rfl
      rw [List.append_nil]
      exact List.all_takeWhile
    rw [List.takeWhile_append_dropWhile] at hb'
    exact hb'
  · cases h

theorem breaks_readNameFrom {lead : List Char} (h : readNameFrom lead cs = .error f) :
    f.Breaks (fun w => ∃ c more, w = c :: more ∧ isNameStart c ∧ more.all isNameChar) cs := by
  have hletter : ∃ c more, ['a'] = c :: more ∧ isNameStart c ∧ more.all isNameChar :=
    ⟨'a', [], rfl, rfl, rfl⟩
  have hunified : IsUnified ['a'] := by simp [IsUnified]
  cases cs with
  | nil =>
    cases h
    exact .here [] (by simp) hunified hletter
  | cons c cs =>
    simp only [readNameFrom, failAt] at h
    split at h
    · rename_i hc
      exact (breaks_readNameRest h).after [c] fun w hw => ⟨c, w, rfl, hc, hw⟩
    · split at h
      · cases h
        exact .here (c :: cs) (by simp) hunified hletter
      · cases h
        exact .here (c :: cs) (by simp) hunified hletter

theorem breaks_readIdentifier (h : readIdentifier cs = .error f) :
    f.Breaks (fun w => isName w) cs := by
  unfold readIdentifier at h
  split at h
  · exact (breaks_readNameRest h).after ['-', '-'] fun w hw => isName_iff.2 (Or.inl ⟨w, rfl, hw⟩)
  · refine (breaks_readNameFrom h).after ['-'] ?_
    rintro _ ⟨c, more, rfl, hc, hm⟩
    exact isName_iff.2 (Or.inr (Or.inl ⟨c, more, rfl, hc, hm⟩))
  · refine (breaks_readNameFrom h).mono ?_
    rintro _ ⟨c, more, rfl, hc, hm⟩
    exact isName_iff.2 (Or.inr (Or.inr ⟨c, more, rfl, hc, hm⟩))

/-- A name, with a namespace or without. -/
def IsQualifiedName (w : List Char) : Prop :=
  ∃ space name, IsPrefix space ∧ isName name ∧ w = space ++ name

theorem breaks_readAttributeName (h : readAttributeName cs = .error f) :
    f.Breaks IsQualifiedName cs := by
  unfold readAttributeName at h
  split at h
  · rename_i cs
    rcases bind_eq_error.1 h with h | ⟨mid, h₁, h⟩
    · refine (breaks_readChar h (by simp [IsUnified])).within ['*'] ['a']
        (by simp [IsUnified]) ?_
      rintro w rfl
      exact ⟨['*', '|'], ['a'], .any, rfl, rfl⟩
    · rw [readChar_eq_ok.1 h₁]
      rcases bind_eq_error.1 h with h | ⟨_, _, h⟩
      · exact (breaks_readIdentifier h).after ['*', '|'] fun w hw => ⟨['*', '|'], w, .any, hw, rfl⟩
      · cases h
  · rcases bind_eq_error.1 h with h | ⟨_, _, h⟩
    · exact (breaks_readIdentifier h).after ['|'] fun w hw => ⟨['|'], w, .empty, hw, rfl⟩
    · cases h
  · rcases bind_eq_error.1 h with h' | ⟨⟨first, mid⟩, h₁, h'⟩
    · exact (breaks_readIdentifier h').mono fun w hw => ⟨[], w, .none, hw, rfl⟩
    · obtain ⟨hn, rfl, _⟩ := readIdentifier_eq_ok.1 h₁
      dsimp only at h'
      split at h'
      · cases h'
      · rename_i mid _
        rcases bind_eq_error.1 h' with h₂ | ⟨_, _, h₂⟩
        · have hb := (breaks_readIdentifier h₂).after (H := IsQualifiedName)
            (first.toList ++ ['|']) fun w hw => ⟨_, w, .named hn, hw, rfl⟩
          rw [List.append_assoc] at hb
          exact hb
        · cases h₂
      · cases h'

/-! ## Elements -/

theorem breaks_readInNamespace {space : Namespace} (h : readInNamespace space cs = .error f) :
    f.Breaks (fun w => isName w) cs := by
  unfold readInNamespace at h
  split at h
  · cases h
  · rcases bind_eq_error.1 h with h | ⟨_, _, h⟩
    · exact breaks_readIdentifier h
    · cases h

theorem breaks_readElement (h : readElement cs = .error f) : f.Breaks IsSimple cs := by
  unfold readElement at h
  split at h
  · exact (breaks_readInNamespace h).after ['*', '|'] fun w hw => .element .any hw
  · cases h
  · exact (breaks_readInNamespace h).after ['|'] fun w hw => .element .empty hw
  · rcases bind_eq_error.1 h with h' | ⟨⟨first, mid⟩, h₁, h'⟩
    · exact (breaks_readIdentifier h').mono fun w hw => .element .none hw
    · obtain ⟨hn, rfl, _⟩ := readIdentifier_eq_ok.1 h₁
      dsimp only at h'
      split at h'
      · rename_i mid
        have hb := (breaks_readInNamespace h').after (first.toList ++ ['|'])
          fun w hw => IsSimple.element (.named hn) hw
        rw [List.append_assoc] at hb
        exact hb
      · cases h'

/-! ## Attributes -/

theorem breaks_readAttributeOp (h : readAttributeOp cs = .error f) :
    f.Breaks (fun w => ∃ op ∈ operators, w = op.toList) cs := by
  have hunified : IsUnified ['='] := by simp [IsUnified]
  have hequals : ∃ op ∈ operators, ['='] = op.toList := ⟨"=", by simp [operators], rfl⟩
  unfold readAttributeOp at h
  split at h
  · cases h
    exact .behind (by simp) (by simp) hunified hequals
  · cases h
  · rename_i c cs _
    split at h
    · rename_i op ho
      rcases bind_eq_error.1 h with h | ⟨_, _, h⟩
      · refine (breaks_readChar h hunified).after [c] ?_
        rintro w rfl
        -- the operator that the character begins is the one that `=` completes
        have hread : readAttributeOp [c, '='] = .ok (op, []) := by
          rw [readAttributeOp, ho]
          · rfl
          · assumption
        obtain ⟨hne, e⟩ := readAttributeOp_sound hread
        exact ⟨op.text, AttributeOp.text_mem_operators hne, by simpa using e⟩
      · cases h
    · cases h
      exact .behind (by simp) (by simp) hunified hequals

theorem breaks_readQuoted {quote : Char} (hq : quote ∈ quotes)
    (h : readQuoted quote cs = .error f) :
    f.Breaks (fun w => ∃ value, value.all (isQuotable quote) ∧ w = value ++ [quote]) cs := by
  have hunified : IsUnified [quote] := by
    simp only [quotes, List.mem_cons, List.not_mem_nil, or_false] at hq
    rcases hq with rfl | rfl <;> simp [IsUnified]
  have hclosed : ∃ value : List Char, value.all (isQuotable quote) ∧ [quote] = value ++ [quote] :=
    ⟨[], rfl, rfl⟩
  induction cs with
  | nil =>
    cases h
    exact .here [] (by simp) hunified hclosed
  | cons c cs ih =>
    simp only [readQuoted, failAt] at h
    split at h
    · cases h
    · rename_i hne
      split at h
      · rename_i hline
        cases h
        refine ⟨by simp, fun _ _ hplace => ?_, fun hopen => ?_⟩
        · cases hplace
        · -- the last token of a text is blamed if the text ends with the line
          have hnil : cs = [] := by simpa using hopen quote rfl
          subst hnil
          exact ⟨[], [c], [quote], rfl, Nat.le_refl _, hunified, hclosed⟩
      · rename_i hline
        split at h
        · cases h
          exact .behind (by simp) (by simp) hunified hclosed
        · rename_i hslash
          refine (ih (map_eq_error.1 h)).after [c] ?_
          rintro w ⟨value, hv, rfl⟩
          refine ⟨c :: value, ?_, rfl⟩
          rw [List.all_cons, hv]
          simp [isQuotable, hne, hline, hslash]

theorem breaks_readAttributeValue (h : readAttributeValue cs = .error f) :
    f.Breaks IsValue cs := by
  unfold readAttributeValue at h
  split at h
  · have hq : '"' ∈ quotes := by simp [quotes]
    refine (breaks_readQuoted hq (map_eq_error.1 h)).after ['"'] ?_
    rintro w ⟨value, hv, rfl⟩
    exact .quoted hq hv
  · have hq : '\'' ∈ quotes := by simp [quotes]
    refine (breaks_readQuoted hq (map_eq_error.1 h)).after ['\''] ?_
    rintro w ⟨value, hv, rfl⟩
    exact .quoted hq hv
  · exact (breaks_readIdentifier h).mono fun w hw => .bare hw

/-- What may stand behind the name of an attribute and the gap after it. -/
def EndsAttribute (w : List Char) : Prop :=
  ∃ inside, w = inside ++ [']'] ∧ ∀ {gap₁ space name gap₂ : List Char}, IsGap gap₁ →
    IsPrefix space → isName name → IsGap gap₂ →
      IsAttribute (gap₁ ++ (space ++ (name ++ (gap₂ ++ inside))))

theorem endsAttribute_test {op gap value : List Char} (ho : ∃ o ∈ operators, op = o.toList)
    (hg : IsGap gap) (hv : IsValue value) : EndsAttribute (op ++ (gap ++ (value ++ [']']))) := by
  obtain ⟨o, ho, rfl⟩ := ho
  refine ⟨o.toList ++ (gap ++ value), by simp, fun h₁ hp hn h₂ => ?_⟩
  have h := IsAttribute.test h₁ hp hn h₂ ho hg hv isGap_nil .none
  rw [List.append_nil, List.append_nil] at h
  exact h

/-- Some character was read last. -/
theorem ProperSuffix.exists_last {rest : List Char} (h : ProperSuffix rest cs) :
    ∃ used c, cs = used ++ c :: rest := by
  obtain ⟨d, mid, rfl, used, rfl⟩ := h
  rcases List.eq_nil_or_concat used with rfl | ⟨used, c, rfl⟩
  · exact ⟨[], d, rfl⟩
  · exact ⟨d :: used, c, by simp⟩

/-- What a modifier leaves does not begin with white space, if what is read does not. -/
theorem stopsBefore_readModifier (h : StopsBefore isSeparator cs) :
    StopsBefore isSeparator (readModifier cs).2 := by
  cases cs with
  | nil => exact h
  | cons c cs =>
    rw [readModifier]
    split
    · exact stopsBefore_dropWhile _ _
    · exact h

theorem breaks_readAttributeTest {start : Nat} {name : QualifiedName} (hlen : cs.length < start)
    (h : readAttributeTest start name cs = .error f) : f.Breaks EndsAttribute cs := by
  have hletter : IsValue ['a'] := .bare rfl
  unfold readAttributeTest at h
  split at h
  · cases h
  · rcases bind_eq_error.1 h with h' | ⟨⟨op, cs₁⟩, h₁, h'⟩
    · refine (breaks_readAttributeOp h').within [] ['a', ']'] (by simp [IsUnified]) ?_
      exact fun w hw => endsAttribute_test hw isGap_nil hletter
    · obtain ⟨hne, rfl⟩ := readAttributeOp_sound h₁
      have ho : ∃ o ∈ operators, op.text.toList = o.toList :=
        ⟨_, AttributeOp.text_mem_operators hne, rfl⟩
      obtain ⟨gap, hg, e, _⟩ := exists_gap cs₁
      rcases bind_eq_error.1 h' with h₂ | ⟨⟨value, cs₂⟩, h₂, h₃⟩
      · have hb := (breaks_readAttributeValue h₂).within (H := EndsAttribute)
          (op.text.toList ++ gap) [']'] (by simp [IsUnified]) fun w hw => by
            rw [List.append_assoc]
            exact endsAttribute_test ho hg hw
        rw [List.append_assoc, ← e] at hb
        exact hb
      · -- what is left where the bracket is missing is less than all
        have hstops := stopsBefore_readModifier (stopsBefore_dropWhile isSeparator cs₂)
        have hsuffix : ProperSuffix (readModifier (skipSeparators cs₂)).2
            (op.text.toList ++ cs₁) :=
          (readAttributeOp_suffix h₁).trans_suffix <| (readModifier_suffix _).trans <|
            (skipSeparators_suffix _).trans <| (readAttributeValue_suffix h₂).suffix.trans <|
              skipSeparators_suffix _
        dsimp only at h₃
        split at h₃
        · cases h₃
        · rename_i rest _ hrest
          cases h₃
          change StopsBefore isSeparator (readModifier (skipSeparators cs₂)).2 at hstops
          rw [hrest] at hstops hsuffix
          obtain ⟨used, c, hused⟩ := hsuffix.exists_last
          refine ⟨by simp, fun start' unread hplace => ?_, fun _ => ?_⟩
          · cases hplace
            have hle := hsuffix.length_lt
            exact ⟨Or.inl rfl, Nat.lt_trans hle hlen, used, c, rest, hused, rfl, Or.inr hstops⟩
          · exact ⟨[], _, ['=', 'a', ']'], rfl, Nat.le_of_lt hlen, by simp [IsUnified],
              endsAttribute_test ⟨"=", by simp [operators], rfl⟩ isGap_nil hletter⟩

theorem breaks_readAttribute (h : readAttribute cs = .error f) :
    f.Breaks (fun w => ∃ inside, IsAttribute inside ∧ w = inside ++ [']']) cs := by
  obtain ⟨gap₁, hg₁, e₁, _⟩ := exists_gap cs
  rcases bind_eq_error.1 h with h | ⟨⟨name, mid⟩, h₁, h⟩
  · rw [e₁]
    refine (breaks_readAttributeName h).within gap₁ [']'] (by simp [IsUnified]) ?_
    rintro w ⟨space, name, hp, hn, rfl⟩
    exact ⟨_, .present hg₁ hp hn isGap_nil, by simp⟩
  · obtain ⟨hn, e₂, _⟩ := readAttributeName_sound h₁
    obtain ⟨gap₂, hg₂, e₃, _⟩ := exists_gap mid
    rw [QualifiedName.toList_text, List.append_assoc] at e₂
    have hlen : (skipSeparators mid).length < cs.length + 1 := by
      have h₂ := (readAttributeName_suffix h₁).suffix.length_le
      have h₃ := (skipSeparators_suffix cs).length_le
      have h₄ := (skipSeparators_suffix mid).length_le
      omega
    have hb := (breaks_readAttributeTest hlen h).after
      (H := fun w => ∃ inside, IsAttribute inside ∧ w = inside ++ [']'])
      (gap₁ ++ (name.space.text.toList ++ (name.name.toList ++ gap₂))) <| by
        rintro w ⟨inside, rfl, hi⟩
        exact ⟨_, hi hg₁ hn.1.isPrefix hn.2 hg₂, by simp⟩
    simp only [List.append_assoc] at hb
    rw [← e₃, ← e₂, ← e₁] at hb
    exact hb

/-! ## Pseudo selectors -/

theorem isBalanced_replicate (depth : Nat) : isBalanced depth (List.replicate depth ')') := by
  induction depth with
  | zero => rfl
  | succ depth ih =>
    rw [List.replicate_succ, isBalanced]
    simpa [depthAfter] using ih

theorem breaks_readArgument {depth : Nat} (h : readArgument depth cs = .error f) :
    f.Breaks (fun w => ∃ argument, isBalanced depth argument ∧ ¬ argument.all isBlank ∧
      w = argument ++ [')']) cs := by
  induction cs generalizing depth with
  | nil =>
    cases h
    -- a letter, and as many parentheses as are still open
    have hunified : IsUnified ('a' :: List.replicate depth ')' ++ [')']) := by
      intro c hc
      simp only [List.cons_append, List.mem_cons, List.mem_append, List.mem_replicate,
        List.not_mem_nil, or_false] at hc
      rcases hc with rfl | ⟨_, rfl⟩ | rfl <;> decide
    refine .here [] (by simp) hunified ⟨'a' :: List.replicate depth ')', ?_, ?_, rfl⟩
    · rw [isBalanced_cons_of_ne (by decide)]
      exact isBalanced_replicate depth
    · have ha : isBlank 'a' = false := by decide
      simp [ha]
  | cons c cs ih =>
    simp only [readArgument] at h
    split at h
    · cases h
    · rename_i hc
      refine (ih (map_eq_error.1 h)).after [c] ?_
      rintro w ⟨argument, hb, hn, rfl⟩
      refine ⟨c :: argument, ?_, ?_, rfl⟩
      · rw [isBalanced, depthAfter, hb, decide_eq_false hc]
        rfl
      · rw [List.all_cons, Bool.and_eq_true]
        exact fun hall => hn hall.2

theorem breaks_readOptionalArgument (h : readOptionalArgument cs = .error f) :
    f.Breaks IsParenthesized cs := by
  unfold readOptionalArgument at h
  split at h
  · rename_i cs
    rcases bind_eq_error.1 h with h | ⟨⟨written, rest⟩, h₁, h⟩
    · refine (breaks_readArgument h).after ['('] ?_
      rintro w ⟨argument, hb, hn, rfl⟩
      exact .argument hb hn
    · obtain ⟨_, rfl⟩ := readArgument_eq_ok.1 h₁
      dsimp only at h
      split at h
      · cases h
        refine ⟨by simp, fun start unread hplace => ?_, fun _ => ?_⟩
        · cases hplace
          have hlt : rest.length < (written ++ ')' :: rest).length := by
            rw [List.length_append, List.length_cons]
            omega
          exact ⟨Or.inr rfl, hlt, '(' :: written, ')', rest, rfl, rfl, Or.inl (by decide)⟩
        · have hargument : IsParenthesized ('(' :: ['a'] ++ [')']) := .argument rfl (by decide)
          exact ⟨['('], _, ['a', ')'], rfl, Nat.le_refl _, by simp [IsUnified], hargument⟩
      · cases h
  · cases h

theorem breaks_readPseudoAfter {isSyntacticClass : Bool} {colons : List Char}
    (hc : colons = [':'] ∨ colons = [':', ':'])
    (h : readPseudoAfter isSyntacticClass cs = .error f) :
    f.Breaks (fun w => IsSimple (colons ++ w)) cs := by
  rcases bind_eq_error.1 h with h' | ⟨⟨name, mid⟩, h₁, h'⟩
  · refine (breaks_readIdentifier h').mono fun w hw => ?_
    have hs := IsSimple.pseudo hc hw .none
    rw [List.append_nil] at hs
    exact hs
  · obtain ⟨hn, rfl, _⟩ := readIdentifier_eq_ok.1 h₁
    rcases bind_eq_error.1 h' with h₂ | ⟨_, _, h₂⟩
    · exact (breaks_readOptionalArgument h₂).after _ fun w hw => .pseudo hc hn hw
    · cases h₂

theorem breaks_readPseudo (h : readPseudo cs = .error f) :
    f.Breaks (fun w => IsSimple (':' :: w)) cs := by
  unfold readPseudo at h
  split at h
  · exact (breaks_readPseudoAfter (Or.inr rfl) h).after [':'] fun w hw => hw
  · exact breaks_readPseudoAfter (Or.inl rfl) h

/-! ## Simple selectors -/

theorem breaks_readSimple (h : readSimple cs = .error f) : f.Breaks IsSimple cs := by
  unfold readSimple at h
  split at h
  · refine (breaks_readAttribute (map_eq_error.1 h)).after ['['] ?_
    rintro w ⟨inside, hi, rfl⟩
    exact .bracketed hi
  · exact (breaks_readIdentifier (map_eq_error.1 h)).after ['.'] fun w hw => .marked (by simp) hw
  · exact (breaks_readIdentifier (map_eq_error.1 h)).after ['#'] fun w hw => .marked (by simp) hw
  · exact (breaks_readIdentifier (map_eq_error.1 h)).after ['%'] fun w hw => .marked (by simp) hw
  · exact (breaks_readPseudo (map_eq_error.1 h)).after [':'] fun w hw => hw
  · rename_i cs
    cases h
    have hname : isName ['a'] := rfl
    exact .here ('&' :: cs) (by simp) (by simp [IsUnified]) (.element .none hname)
  · exact breaks_readElement h

end SelectorAlgebra
