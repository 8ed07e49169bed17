import SelectorAlgebra.Proofs.Reading.Forms

/-
  What the reader of pseudo selectors takes. An argument ends at the first parenthesis that closes
  none of its own, which its balance determines, and the blanks at its ends are not kept.
-/

namespace SelectorAlgebra

variable {cs rest : List Char}

/-! ## Balance -/

theorem ne_parenthesis_of_isBlank {c : Char} (h : isBlank c) : c ≠ '(' ∧ c ≠ ')' := by
  constructor <;> rintro rfl <;> exact absurd h (by decide)

theorem isBalanced_cons_of_ne {c : Char} (h : c ≠ '(' ∧ c ≠ ')') (depth : Nat) (cs : List Char) :
    isBalanced depth (c :: cs) = isBalanced depth cs := by
  simp [isBalanced, depthAfter, h.1, h.2]

theorem isBalanced_blanks_append {lead : List Char} (h : lead.all isBlank) (depth : Nat)
    (cs : List Char) : isBalanced depth (lead ++ cs) = isBalanced depth cs := by
  induction lead with
  | nil => rfl
  | cons c lead ih =>
    rw [List.all_cons, Bool.and_eq_true] at h
    rw [List.cons_append, isBalanced_cons_of_ne (ne_parenthesis_of_isBlank h.1), ih h.2]

theorem isBalanced_append_blanks {trail : List Char} (h : trail.all isBlank) (depth : Nat)
    (cs : List Char) : isBalanced depth (cs ++ trail) = isBalanced depth cs := by
  induction cs generalizing depth with
  | nil => simpa using isBalanced_blanks_append h depth []
  | cons c cs ih => rw [List.cons_append, isBalanced, isBalanced, ih]

/-! ## Blanks at the ends -/

/-- What trimming takes away are blanks at the ends, and it leaves none there. -/
theorem exists_trimBlanks (cs : List Char) :
    ∃ lead trail, lead.all isBlank ∧ trail.all isBlank ∧ cs = lead ++ (trimBlanks cs ++ trail) ∧
      StopsBefore isBlank (trimBlanks cs) ∧ StopsBefore isBlank (trimBlanks cs).reverse := by
  have hd : cs = cs.takeWhile isBlank ++ cs.dropWhile isBlank :=
    List.takeWhile_append_dropWhile.symm
  have hs := stopsBefore_dropWhile isBlank cs
  have ht := stopsBefore_dropWhile isBlank (cs.dropWhile isBlank).reverse
  have he : cs.dropWhile isBlank =
      trimBlanks cs ++ ((cs.dropWhile isBlank).reverse.takeWhile isBlank).reverse := by
    rw [trimBlanks, ← List.reverse_append, List.takeWhile_append_dropWhile, List.reverse_reverse]
  refine ⟨cs.takeWhile isBlank, ((cs.dropWhile isBlank).reverse.takeWhile isBlank).reverse,
    List.all_takeWhile, ?_, ?_, ?_, ?_⟩
  · rw [List.all_reverse]
    exact List.all_takeWhile
  · rw [← he]
    exact hd
  · by_cases hn : trimBlanks cs = []
    · rw [hn]
      rfl
    · rw [he] at hs
      exact (stopsBefore_append hn).1 hs
  · rw [trimBlanks, List.reverse_reverse]
    exact ht

theorem trimBlanks_append {lead trail argument : List Char} (hl : lead.all isBlank)
    (ht : trail.all isBlank) (hn : argument ≠ []) (hs : StopsBefore isBlank argument)
    (hr : StopsBefore isBlank argument.reverse) :
    trimBlanks (lead ++ (argument ++ trail)) = argument := by
  rw [trimBlanks, dropWhile_append_stops hl ((stopsBefore_append hn).2 hs), List.reverse_append,
    dropWhile_append_stops (by rwa [List.all_reverse]) hr, List.reverse_reverse]

/-! ## Arguments -/

theorem readArgument_eq_ok {depth : Nat} {argument : List Char} :
    readArgument depth cs = .ok (argument, rest) ↔
      isBalanced depth argument ∧ cs = argument ++ ')' :: rest := by
  induction cs generalizing depth argument with
  | nil => simp [readArgument, failAt]
  | cons c cs ih =>
    rw [readArgument]
    constructor
    · intro h
      split at h
      · rename_i hc
        cases h
        exact ⟨by simp [isBalanced, hc.2], by rw [hc.1]; rfl⟩
      · rename_i hc
        obtain ⟨⟨more, rest'⟩, h, e⟩ := map_eq_ok.1 h
        cases e
        obtain ⟨hb, rfl⟩ := ih.1 h
        exact ⟨by rw [isBalanced, depthAfter, hb]; simp [hc], rfl⟩
    · rintro ⟨hb, e⟩
      cases argument with
      | nil =>
        cases e
        exact if_pos ⟨rfl, by simpa [isBalanced] using hb⟩
      | cons d argument =>
        cases e
        rw [isBalanced, Bool.and_eq_true] at hb
        obtain ⟨hc, hb⟩ := hb
        rw [if_neg (by simpa only [Bool.not_eq_true', decide_eq_false_iff_not] using hc)]
        exact map_eq_ok.2 ⟨(argument, rest), ih.2 ⟨hb, rfl⟩, rfl⟩

theorem readOptionalArgument_sound {argument : Option String}
    (h : readOptionalArgument cs = .ok (argument, rest)) :
    (∀ a ∈ argument, IsArgument a.toList) ∧
      ∃ written, ArgumentLayout argument written ∧ cs = written ++ rest ∧
        (argument = none → StopsBefore (· == '(') rest) := by
  unfold readOptionalArgument at h
  split at h
  · obtain ⟨⟨written, rest'⟩, h₁, h⟩ := bind_eq_ok.1 h
    obtain ⟨hb, rfl⟩ := readArgument_eq_ok.1 h₁
    obtain ⟨lead, trail, hl, ht, e, hs, hr⟩ := exists_trimBlanks written
    dsimp only at h
    split at h
    · cases h
    · rename_i hn
      cases h
      rw [e, isBalanced_blanks_append hl, isBalanced_append_blanks ht] at hb
      refine ⟨?_, _, ⟨lead, trail, hl, ht, rfl⟩, ?_, by simp⟩
      · rintro _ ⟨⟩
        rw [String.toList_ofList]
        exact ⟨hb, hn, hs, hr⟩
      · simpa using congrArg (fun w => '(' :: (w ++ ')' :: rest)) e
  · rename_i hp
    cases h
    exact ⟨by simp, [], rfl, rfl, fun _ => stopsBefore_of_forall_ne hp⟩

theorem readOptionalArgument_layout {argument : Option String} {written : List Char}
    (ha : ∀ a ∈ argument, IsArgument a.toList) (hl : ArgumentLayout argument written)
    (hs : argument = none → StopsBefore (· == '(') rest) :
    readOptionalArgument (written ++ rest) = .ok (argument, rest) := by
  cases argument with
  | none =>
    cases hl
    have hp := hs rfl
    rw [List.nil_append, readOptionalArgument]
    rintro _ rfl
    simp at hp
  | some a =>
    obtain ⟨lead, trail, hl, ht, rfl⟩ := hl
    obtain ⟨hb, hn, hs, hr⟩ := ha a rfl
    have h : readArgument 0 ((lead ++ (a.toList ++ trail)) ++ ')' :: rest) =
        .ok (lead ++ (a.toList ++ trail), rest) := by
      refine readArgument_eq_ok.2 ⟨?_, rfl⟩
      rw [isBalanced_blanks_append hl, isBalanced_append_blanks ht, hb]
    have ht := trimBlanks_append hl ht hn hs hr
    simp only [List.append_assoc, List.cons_append, List.nil_append] at h ⊢
    rw [readOptionalArgument, h]
    simp only [bind, Except.bind, ht]
    rw [String.ofList_toList]
    rfl

/-! ## Pseudo selectors -/

variable {p : Pseudo}

theorem stopsBefore_absorbs_pseudo : StopsBefore (Simple.pseudo p).absorbs rest ↔
    (p.argument = none → StopsBefore continuesName rest ∧ StopsBefore (· == '(') rest) := by
  cases h : p.argument with
  | none =>
    have e : (Simple.pseudo p).absorbs = fun c => continuesName c || c == '(' := by
      funext c
      simp [Simple.absorbs, h]
    simp [e, stopsBefore_or]
  | some a =>
    have e : (Simple.pseudo p).absorbs = fun _ => false := by
      funext c
      simp [Simple.absorbs, h]
    cases rest <;> simp [e, StopsBefore]

theorem readPseudoAfter_sound {isSyntacticClass : Bool}
    (h : readPseudoAfter isSyntacticClass cs = .ok (p, rest)) :
    p.isSyntacticClass = isSyntacticClass ∧ p.Readable ∧
      ∃ written, ArgumentLayout p.argument written ∧ cs = p.name.toList ++ (written ++ rest) ∧
        StopsBefore (Simple.pseudo p).absorbs rest := by
  obtain ⟨⟨name, mid⟩, h₁, h⟩ := bind_eq_ok.1 h
  obtain ⟨⟨argument, rest'⟩, h₂, e⟩ := bind_eq_ok.1 h
  cases e
  obtain ⟨hn, rfl, hs⟩ := readIdentifier_eq_ok.1 h₁
  obtain ⟨ha, written, hl, rfl, hp⟩ := readOptionalArgument_sound h₂
  refine ⟨rfl, ⟨hn, rfl, ha⟩, written, hl, rfl, stopsBefore_absorbs_pseudo.2 fun e => ?_⟩
  rw [show argument = none from e] at hl
  cases hl
  exact ⟨hs, hp e⟩

theorem readPseudoAfter_layout {written : List Char} (hr : p.Readable)
    (hl : ArgumentLayout p.argument written) (hs : StopsBefore (Simple.pseudo p).absorbs rest) :
    readPseudoAfter p.isSyntacticClass (p.name.toList ++ (written ++ rest)) = .ok (p, rest) := by
  obtain ⟨hn, hc, ha⟩ := hr
  rw [stopsBefore_absorbs_pseudo] at hs
  have hm : StopsBefore continuesName (written ++ rest) := by
    cases e : p.argument with
    | none =>
      rw [e] at hl
      cases hl
      exact (hs e).1
    | some a =>
      rw [e] at hl
      obtain ⟨lead, trail, _, _, rfl⟩ := hl
      exact stopsBefore_cons.2 (by decide)
  have hi := readIdentifier_eq_ok.2 ⟨hn, rfl, hm⟩
  have hw := readOptionalArgument_layout ha hl fun e => (hs e).2
  simp only [readPseudoAfter, hi, hw, bind, Except.bind, ← hc]
  rfl

theorem readPseudo_sound (h : readPseudo cs = .ok (p, rest)) :
    p.Readable ∧ ∃ used, p.Layout used ∧ ':' :: cs = used ++ rest ∧
      StopsBefore (Simple.pseudo p).absorbs rest := by
  unfold readPseudo at h
  split at h
  · obtain ⟨hc, hr, written, hl, rfl, hs⟩ := readPseudoAfter_sound h
    exact ⟨hr, _, ⟨written, hl, rfl⟩, by simp [Pseudo.colons, hc], hs⟩
  · obtain ⟨hc, hr, written, hl, rfl, hs⟩ := readPseudoAfter_sound h
    exact ⟨hr, _, ⟨written, hl, rfl⟩, by simp [Pseudo.colons, hc], hs⟩

theorem readPseudo_layout {used : List Char} (hr : p.Readable) (hl : p.Layout (':' :: used))
    (hs : StopsBefore (Simple.pseudo p).absorbs rest) :
    readPseudo (used ++ rest) = .ok (p, rest) := by
  obtain ⟨written, hl, e⟩ := hl
  have h := readPseudoAfter_layout hr hl hs
  cases hc : p.isSyntacticClass with
  | true =>
    obtain ⟨c, more, en, hn⟩ := exists_cons_of_isName hr.1
    have hne : c ≠ ':' := ne_of_isNameChar hn (by decide)
    rw [Pseudo.colons, hc, if_pos rfl, List.singleton_append, List.cons.injEq] at e
    rw [hc, en, List.cons_append] at h
    rw [e.2, List.append_assoc, en, List.cons_append, readPseudo, h]
    intro _ e
    exact hne (List.cons.inj e).1
  | false =>
    rw [Pseudo.colons, hc, if_neg (by simp), List.cons_append, List.singleton_append,
      List.cons.injEq] at e
    rw [hc] at h
    rw [e.2, List.cons_append, List.append_assoc]
    exact h

end SelectorAlgebra
