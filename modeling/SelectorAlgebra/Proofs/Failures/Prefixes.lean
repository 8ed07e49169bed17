import SelectorAlgebra.Proofs.Failures.Bounds

/-
  A text is not wrong before the place where its fault starts: what comes before can be completed
  to a text that is read (`readChain_error_viable`). Two things are left out. A CR LF is located at
  its LF, and its CR is no text of its own; and the fault of a string that a line end cuts off is
  told behind that line end, where nothing can be completed.
-/

namespace SelectorAlgebra

open Grammar

variable {f : Failure} {cs lead : List Char} {text : String}

/-! ## Completions -/

/-- A text with form feeds for its line feeds, which make no line end with a CR before them. -/
def respell (cs : List Char) : List Char := cs.map fun c => if c = '\n' then '\x0c' else c

theorem unifyLineEnds_append_of_head? (h : cs.head? ≠ some '\n') (lead : List Char) :
    unifyLineEnds (lead ++ cs) = unifyLineEnds lead ++ unifyLineEnds cs := by
  fun_induction unifyLineEnds lead with
  | case1 => rfl
  | case2 lead ih =>
    rw [List.cons_append, List.cons_append, unifyLineEnds, ih]
    rfl
  | case3 d lead hne ih =>
    have hhead : d = '\r' → (lead ++ cs).head? ≠ some '\n' := by
      intro hd hh
      cases lead with
      | nil => exact h hh
      | cons e lead => exact hne lead hd (by rw [Option.some.inj hh])
    rw [List.cons_append, unifyLineEnds_cons_of_ne hhead, ih]
    rfl

theorem head?_respell_ne (cs : List Char) : (respell cs).head? ≠ some '\n' := by
  cases cs with
  | nil => simp [respell]
  | cons c cs =>
    by_cases hc : c = '\n'
    · simp [respell, hc]
    · simp [respell, hc]

theorem unifyLineEnds_respell (h : IsUnified cs) : unifyLineEnds (respell cs) = cs := by
  induction cs with
  | nil => rfl
  | cons c cs ih =>
    obtain ⟨hc, hcs⟩ := List.forall_mem_cons.1 h
    have hne : (if c = '\n' then '\x0c' else c) ≠ '\r' := by
      split
      · decide
      · exact hc.1
    have hunified : unifyLineEnd (if c = '\n' then '\x0c' else c) = c := by
      by_cases hline : c = '\n'
      · simp [unifyLineEnd, hline]
      · simp [unifyLineEnd, hline, hc.1, hc.2]
    change unifyLineEnds ((if c = '\n' then '\x0c' else c) :: respell cs) = c :: cs
    rw [unifyLineEnds_cons_of_ne fun hr => absurd hr hne, hunified, ih hcs]

/-- The beginning of a text that can be read to its end, in any context. -/
def Viable [CodeMap] (cs : List Char) : Prop :=
  ∃ more, ∀ ctx, ∃ c next, (Pass.readChain (.ofList (cs ++ more))).run ctx = (.ok c, next)

/-- What a unified text completes to a selector can be read to its end. -/
theorem viable_of_isSelector [CodeMap] (more : List Char) (hu : IsUnified more)
    (h : IsSelector (unifyLineEnds cs ++ more)) : Viable cs := by
  refine ⟨respell more, fun ctx => ?_⟩
  obtain ⟨items, hne, hrow⟩ := isSelector_iff.1 h
  have hread : readJoints (.ofList (cs ++ respell more)) = .ok (jointsOfItems items) := by
    refine readJoints_eq_ok.2 ⟨items, hne, ?_, rfl⟩
    rw [String.toList_ofList, unifyLineEnds_append_of_head? (head?_respell_ne more),
      unifyLineEnds_respell hu]
    exact hrow
  obtain ⟨c, next, hrun, _⟩ := readChain_of_readJoints hread ctx
  exact ⟨c, next, hrun⟩

/-! ## Where faults start -/

/-- A place starts at a token, told by the number of tokens that are left there. -/
theorem Place.bounds_start (ts : List Token) (place : Place) :
    (place.bounds ts).1 = (tokenBounds ts (ts.length - place.left)).1 := by
  cases place with
  | next unread =>
    rw [bounds, left, tokenBounds_congr]
    omega
  | last unread => rfl
  | since start unread => rfl

/-- Before a failure of a text and any token up to its place, there is the beginning of a text that
can be read to its end. -/
theorem Failure.Breaks.viable [CodeMap] (h : f.Breaks IsSelector (unifyLineEnds text.toList))
    (hopen : ∀ quote, f.cause = .openString quote → f.place = .next 0) {k : Nat}
    (hk : k ≤ (tokens text).length - f.place.left)
    (hlead : unifyLineEnds lead = (unifyLineEnds text.toList).take k) : Viable lead := by
  obtain ⟨used, rest, more, e, hlen, hmore, hselector⟩ := h.completes hopen
  have htext := isUnified_unifyLineEnds text.toList
  rw [length_tokens, e, List.length_append] at hk
  rw [e] at htext hlead
  rw [List.take_append_of_le_length (by omega)] at hlead
  refine viable_of_isSelector (used.drop k ++ more) ?_ ?_
  · intro c hc
    rcases List.mem_append.1 hc with hc | hc
    · exact htext c (List.mem_append_left _ (List.mem_of_mem_drop hc))
    · exact hmore c hc
  · rw [hlead, ← List.append_assoc, List.take_append_drop]
    exact hselector

/-! ## Faults of a text -/

theorem readChain_error_of_readAllItems [CodeMap]
    (h : readAllItems (unifyLineEnds cs) = .error f) (ctx : Context) :
    ∃ fault next, (Pass.readChain (.ofList cs)).run ctx = (.error fault, next) := by
  have hread : readJoints (.ofList cs) = .error (f.inText (tokens (.ofList cs))) :=
    readJoints_of_failure (by rwa [String.toList_ofList])
  exact ⟨_, _, Pass.readChain_run_error hread ctx⟩

/-- A text that cannot be read for a string that a line end cuts off before the end of the text. -/
def CutString (text : String) : Prop :=
  ∃ quote place, place ≠ .next 0 ∧
    readAllItems (unifyLineEnds text.toList) = .error ⟨.openString quote, place⟩

/-- **What comes before the place of a fault can be completed to a text that is read**, less the CR
of a CR LF at its LF, and unless a line end cuts off a string before the end of the text. -/
theorem readChain_error_viable [CodeMap] {ctx next : Context} {fault : Fault}
    (hlib : CodeMap.Documented) (hcut : ¬ CutString text)
    (h : (Pass.readChain text).run ctx = (.error fault, next)) :
    ∃ cause location before after,
      fault = .unreadable cause location ctx.options.unicodeMessages ∧
        location.source.text = text ∧ text.toList = before ++ after ∧
        location.start = .after before ∧ Viable (wholeLineEnds before after) := by
  obtain ⟨⟨cause, place⟩, hf, rfl⟩ := exists_failure_of_readChain hlib h
  have hbreaks := breaks_readAllItems hf
  have hopen : ∀ quote, cause = .openString quote → place = .next 0 := by
    rintro quote rfl
    by_contra hplace
    exact hcut ⟨quote, place, hplace, hf⟩
  by_cases hne : tokens text = []
  · -- a text without tokens is empty
    have hnil : unifyLineEnds text.toList = [] := by rw [← map_char_tokens, hne]; rfl
    have hviable : Viable (wholeLineEnds [] text.toList) :=
      hbreaks.viable hopen (Nat.zero_le _) (by rw [hnil]; rfl)
    have hstart : (place.bounds (tokens text)).1 = 0 := by
      rw [Place.bounds_start, hne, tokenBounds_nil]
    refine ⟨_, _, [], text.toList, rfl, rfl, rfl, ?_, hviable⟩
    rw [Source.location, hstart, hlib.lineColumn_zero]
    rfl
  · obtain ⟨before, c, after, hs, e⟩ :=
      exists_split_of_tokenBounds hne ((tokens text).length - place.left)
    have hviable : Viable (wholeLineEnds before (c :: after)) :=
      hbreaks.viable hopen (Nat.min_le_left _ _) hs.before_eq
    refine ⟨_, _, before, c :: after, rfl, rfl, hs.text_eq, ?_, hviable⟩
    rw [Source.location, Place.bounds_start, e]
    exact hlib.lineColumn_eq hs.text_eq

/-- A CR LF where an identifier is missing. The fault starts at its LF. -/
theorem readChain_error_viable_crlf :
    let text := "a.\r\n"
    let ctx : Context := { options := {} }
    let fault : Fault := .unreadable .missingIdentifier ⟨⟨"stdin", text⟩, ⟨0, 3⟩, ⟨1, 0⟩⟩ true
    CodeMap.Documented ∧ ¬ CutString text ∧
      (Pass.readChain text).run ctx =
        (.error fault, { ctx with sources := ctx.sources.add ⟨"stdin", text⟩ }) ∧
      ∃ cause location before after,
        fault = .unreadable cause location ctx.options.unicodeMessages ∧
          location.source.text = text ∧ text.toList = before ++ after ∧
          location.start = .after before ∧ Viable (wholeLineEnds before after) := by
  intro text ctx fault
  have hitems : readAllItems (unifyLineEnds text.toList) =
      .error ⟨.missingIdentifier, .next 1⟩ := by decide +kernel
  have hcut : ¬ CutString text := by
    rintro ⟨quote, place, _, h⟩
    rw [hitems] at h
    cases h
  have hread : readJoints text = .error ⟨.missingIdentifier, 3, 4⟩ := by decide +kernel
  have hlocation : Source.location ⟨"stdin", text⟩ 3 4 = ⟨⟨"stdin", text⟩, ⟨0, 3⟩, ⟨1, 0⟩⟩ := by
    decide +kernel
  have hrun := Pass.readChain_run_located Consecutive.documented hread ctx
  rw [hlocation] at hrun
  exact ⟨Consecutive.documented, hcut, hrun,
    readChain_error_viable Consecutive.documented hcut hrun⟩

/-- Before the LF of a CR LF there may be a CR that no text can follow. Behind the line end that
cuts off a string, no text can follow either. -/
theorem readChain_error_not_viable :
    (∃ cause location next, (Pass.readChain ".\r\n").run { options := {} } =
        (.error (.unreadable cause location true), next) ∧
      location.start = .after ['.', '\r'] ∧
      ∀ more ctx, ∃ fault next,
        (Pass.readChain (.ofList (['.', '\r'] ++ more))).run ctx = (.error fault, next)) ∧
    (∃ cause location next, (Pass.readChain "[a=\"b\nc").run { options := {} } =
        (.error (.unreadable cause location true), next) ∧
      location.start = .after ['[', 'a', '=', '"', 'b', '\n'] ∧
      ∀ more ctx, ∃ fault next,
        (Pass.readChain (.ofList (['[', 'a', '=', '"', 'b', '\n'] ++ more))).run ctx =
          (.error fault, next)) := by
  constructor
  · have hread : readJoints ".\r\n" = .error ⟨.missingIdentifier, 2, 3⟩ := by decide +kernel
    refine ⟨_, _, _, Pass.readChain_run_error hread _, by decide +kernel, fun more ctx => ?_⟩
    -- with a line feed next or not, the CR is read as a line end
    obtain ⟨rest, e⟩ : ∃ rest, unifyLineEnds (['.', '\r'] ++ more) = '.' :: '\n' :: rest := by
      cases more with
      | nil => exact ⟨[], rfl⟩
      | cons d more =>
        by_cases hd : d = '\n'
        · exact ⟨unifyLineEnds more, by rw [hd]; rfl⟩
        · have hhead : '\r' = '\r' → (d :: more).head? ≠ some '\n' := fun _ => by simpa using hd
          refine ⟨unifyLineEnds (d :: more), ?_⟩
          rw [List.cons_append, List.singleton_append, unifyLineEnds_cons_of_ne (by simp),
            unifyLineEnds_cons_of_ne hhead]
          rfl
    have hitems : readAllItems (unifyLineEnds (['.', '\r'] ++ more)) =
        .error ⟨.missingIdentifier, .next (rest.length + 1)⟩ := by
      rw [e, readAllItems, readItems_eq]
      rfl
    exact readChain_error_of_readAllItems hitems ctx
  · have hread : readJoints "[a=\"b\nc" = .error ⟨.openString '"', 6, 7⟩ := by decide +kernel
    refine ⟨_, _, _, Pass.readChain_run_error hread _, by decide +kernel, fun more ctx => ?_⟩
    have e : unifyLineEnds (['[', 'a', '=', '"', 'b', '\n'] ++ more) =
        '[' :: 'a' :: '=' :: '"' :: 'b' :: '\n' :: unifyLineEnds more := by
      simp [unifyLineEnds]
    have hitems : readAllItems (unifyLineEnds (['[', 'a', '=', '"', 'b', '\n'] ++ more)) =
        .error ⟨.openString '"', .next (unifyLineEnds more).length⟩ := by
      rw [e, readAllItems, readItems_eq]
      rfl
    exact readChain_error_of_readAllItems hitems ctx

end SelectorAlgebra
