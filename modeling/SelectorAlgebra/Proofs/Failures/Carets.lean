import SelectorAlgebra.Proofs.Failures.Bounds

/-
  How a fault marks the line that it prints. The first caret stands under the first character of
  the fault (`Fault.marks`). A fault of one token gets one caret, and one of several tokens on one
  line gets no caret past the end of that line, if the text does not end in a CR. A fault that goes
  on to another line counts its carets by the columns of two lines, which may be too many.
-/

namespace SelectorAlgebra

open Grammar

variable {s : Source} {f : Failure} {before after cs lead : List Char} {text : String} {c : Char}
  {G : List Char → Prop} {i : Nat}

/-! ## Displays -/

/-- In `display`, a line ends in `printed`, and on the next one there are `count` carets, the first
of them under the character number `column` of `printed`. -/
def Marks (display printed : String) (column count : Nat) : Prop :=
  ∃ above lead indent below : String,
    display = above ++ "\n" ++ (lead ++ printed) ++ "\n" ++
      (indent ++ .ofList (List.replicate count '^')) ++ "\n" ++ below ∧
    '\n' ∉ (lead ++ printed).toList ∧ '\n' ∉ indent.toList ∧ '^' ∉ indent.toList ∧
    indent.length = lead.length + column

theorem lineFeed_not_mem_toString (n : Nat) : '\n' ∉ (toString n).toList := by
  intro h
  have hdigits : (toString n).toList = Nat.toDigits 10 n := by simp
  rw [hdigits] at h
  have hdigit := Nat.isDigit_of_mem_toDigits (by decide) (by decide) h
  exact absurd hdigit (by decide)

theorem length_side (unicode : Bool) : (Frame.of unicode).side.length = 1 := by
  cases unicode <;> rfl

theorem not_mem_side (unicode : Bool) :
    '\n' ∉ (Frame.of unicode).side.toList ∧ '^' ∉ (Frame.of unicode).side.toList := by
  cases unicode <;> decide

theorem not_mem_spaces {n : Nat} (hc : c ≠ ' ') : c ∉ (spaces n).toList := by
  intro h
  rw [spaces, String.toList_ofList] at h
  exact hc (List.eq_of_mem_replicate h)

theorem length_spaces (n : Nat) : (spaces n).length = n := by
  rw [spaces, String.length_ofList, List.length_replicate]

/-- The number of the line and the margin below it are of one width. -/
theorem Fault.marks [CodeMap] (cause : SyntaxCause) (l : Location) (unicode : Bool)
    (hline : '\n' ∉ (CodeMap.line l.source l.start.line).toList) :
    Marks (unreadable cause l unicode).text (CodeMap.line l.source l.start.line) l.start.column
      l.caretCount := by
  let number := toString (l.start.line + 1)
  let margin := spaces (number.length + 1)
  let side := (Frame.of unicode).side
  have hnumber := lineFeed_not_mem_toString (l.start.line + 1)
  have hside := not_mem_side unicode
  refine ⟨"Error: " ++ cause.message ++ "\n" ++ (margin ++ (Frame.of unicode).top),
    number ++ " " ++ side ++ " ", margin ++ side ++ " " ++ spaces l.start.column,
    margin ++ (Frame.of unicode).bottom ++ "\n" ++ ("  " ++ l.source.name ++ " " ++ number ++ ":" ++
      toString (l.start.column + 1) ++ "  root stylesheet\n"), ?_, ?_, ?_, ?_, ?_⟩
  · unfold text Location.excerpt
    simp only [String.append_assoc, number, margin, side]
  · simp only [String.toList_append, List.mem_append, not_or]
    exact ⟨⟨⟨⟨hnumber, by decide⟩, hside.1⟩, by decide⟩, hline⟩
  · simp only [String.toList_append, List.mem_append, not_or]
    exact ⟨⟨⟨not_mem_spaces (by decide), hside.1⟩, by decide⟩, not_mem_spaces (by decide)⟩
  · simp only [String.toList_append, List.mem_append, not_or]
    exact ⟨⟨⟨not_mem_spaces (by decide), hside.2⟩, by decide⟩, not_mem_spaces (by decide)⟩
  · simp only [String.length_append, length_spaces, margin, side, length_side]
    rfl

/-! ## Printed lines -/

/-- What ends in another character than a CR is kept, whatever comes after it. -/
theorem length_le_dropReturns (h : cs.getLast? ≠ some '\r') (rest : List Char) :
    cs.length ≤ (dropReturns (cs ++ rest)).length := by
  have hkeep : cs.reverse.dropWhile (· = '\r') = cs.reverse := by
    rw [← List.head?_reverse] at h
    generalize cs.reverse = ds at h
    cases ds with
    | nil => rfl
    | cons d ds =>
      have hd : d ≠ '\r' := by simpa using h
      rw [List.dropWhile_cons, if_neg (by simpa using hd)]
  rw [dropReturns, List.length_reverse, List.reverse_append, List.dropWhile_append]
  split
  · rw [hkeep, List.length_reverse]
  · rw [List.length_append, List.length_reverse]
    exact Nat.le_add_left _ _

theorem mem_of_mem_dropReturns (h : c ∈ dropReturns cs) : c ∈ cs := by
  rw [dropReturns, List.mem_reverse] at h
  exact List.mem_reverse.1 ((List.dropWhile_suffix _).subset h)

namespace CodeMap.Documented

variable [CodeMap]

/-- The line of a place, as it is printed. -/
theorem line_append (hlib : Documented) (h : s.text.toList = before ++ after) :
    line s (LineColumn.after before).line =
      .ofList (dropReturns (lastLine before ++ after.takeWhile (· ≠ '\n'))) := by
  have hline : (LineColumn.after before).line = before.count '\n' := by rw [LineColumn.after_eq]
  refine hlib.line_eq ?_
  rw [h, hline, splitOn_append]

theorem lineFeed_not_mem_line (hlib : Documented) (h : s.text.toList = before ++ after) :
    '\n' ∉ (line s (LineColumn.after before).line).toList := by
  rw [hlib.line_append h, String.toList_ofList]
  intro hmem
  rcases List.mem_append.1 (mem_of_mem_dropReturns hmem) with hmem | hmem
  · have hne := List.mem_takeWhile_imp (List.mem_reverse.1 hmem)
    simp at hne
  · have hne := List.mem_takeWhile_imp hmem
    simp at hne

end CodeMap.Documented

/-! ## Carets -/

theorem caretCount_advance (s : Source) (p : LineColumn) (c : Char) :
    Location.caretCount ⟨s, p, p.advance c⟩ = 1 := by
  unfold Location.caretCount LineColumn.advance
  split
  · simp
  · simp

/-- One token gets one caret. -/
theorem caretCount_tokenBounds [CodeMap] (hlib : CodeMap.Documented) (s : Source) (i : Nat) :
    (s.location (tokenBounds (tokens s.text) i).1 (tokenBounds (tokens s.text) i).2).caretCount =
      1 := by
  by_cases hne : tokens s.text = []
  · rw [hne, tokenBounds_nil, Source.location, Location.caretCount, Nat.sub_self]
    rfl
  · obtain ⟨before, c, after, hs, e⟩ := exists_split_of_tokenBounds hne i
    have hstop : LineColumn.after (before ++ [c]) = (LineColumn.after before).advance c :=
      LineColumn.after_append before [c]
    rw [e, Source.location, hlib.lineColumn_eq hs.text_eq, hlib.lineColumn_eq hs.append_eq, hstop]
    exact caretCount_advance s _ c

/-- A token that is not white space, or that no white space follows, is no part of what is missing
at the end of a printed line. -/
theorem IsTokenSplit.column_le_line [CodeMap] (hlib : CodeMap.Documented)
    (hs : IsTokenSplit s.text.toList i before c after) (hend : s.text.toList.getLast? ≠ some '\r')
    (hc : isSeparator (unifyLineEnd c) = false ∨ StopsBefore isSeparator (unifyLineEnds after)) :
    (LineColumn.after (before ++ [c])).column ≤
      (CodeMap.line s (LineColumn.after (before ++ [c])).line).length := by
  have htext := hs.append_eq
  have hcolumn : (LineColumn.after (before ++ [c])).column = (lastLine (before ++ [c])).length := by
    rw [LineColumn.after_eq_lastLine]
  rw [hcolumn, hlib.line_append htext, String.length_ofList]
  by_cases hline : c = '\n'
  · rw [hline, lastLine_lineFeed]
    exact Nat.zero_le _
  rw [lastLine_concat hline]
  by_cases hcr : c = '\r'
  · -- a CR is kept on the line by what comes after it
    have hstops : StopsBefore isSeparator (unifyLineEnds after) := by
      rcases hc with hc | hc
      · rw [hcr] at hc
        cases hc
      · exact hc
    cases after with
    | nil =>
      rw [htext, List.append_nil, List.getLast?_concat, hcr] at hend
      exact absurd rfl hend
    | cons d after =>
      have hd : isSeparator (unifyLineEnd d) = false := by
        rw [StopsBefore, head?_unifyLineEnds] at hstops
        exact hstops
      have hd₁ : d ≠ '\n' := by
        rintro rfl
        cases hd
      have hd₂ : d ≠ '\r' := by
        rintro rfl
        cases hd
      have hkeep : (lastLine before ++ [c] ++ [d]).getLast? ≠ some '\r' := by
        rw [List.getLast?_concat]
        simpa using hd₂
      have hle := length_le_dropReturns hkeep (after.takeWhile (· ≠ '\n'))
      rw [List.append_assoc _ [d], List.singleton_append] at hle
      rw [List.takeWhile_cons, if_pos (by simpa using hd₁)]
      have hlonger : (lastLine before ++ [c]).length ≤ (lastLine before ++ [c] ++ [d]).length := by
        simp
      exact Nat.le_trans hlonger hle
  · refine length_le_dropReturns ?_ _
    rw [List.getLast?_concat]
    simpa using hcr

/-- No caret stands past the end of the printed line but the one of a failure that starts there, if
a failure is not told by several lines or by a CR at the end of the text. -/
theorem Failure.Breaks.fits_line [CodeMap] {l : Location} (hlib : CodeMap.Documented)
    (h : f.Breaks G (unifyLineEnds s.text.toList))
    (hl : l = s.location (f.place.bounds (tokens s.text)).1 (f.place.bounds (tokens s.text)).2)
    (honly : (f.cause ≠ .missing ']' ∧ f.cause ≠ .missingArgument) ∨
      (l.start.line = l.stop.line ∧ s.text.toList.getLast? ≠ some '\r')) :
    let printed := CodeMap.line s l.start.line
    l.start.column + l.caretCount ≤ printed.length ∨
      printed.length ≤ l.start.column ∧ l.caretCount = 1 := by
  intro printed
  have hone : l.caretCount = 1 → l.start.column + l.caretCount ≤ printed.length ∨
      printed.length ≤ l.start.column ∧ l.caretCount = 1 := by
    intro hcount
    omega
  obtain ⟨cause, place⟩ := f
  cases place with
  | next unread =>
    apply hone
    rw [hl]
    exact caretCount_tokenBounds hlib s _
  | last unread =>
    apply hone
    rw [hl]
    exact caretCount_tokenBounds hlib s _
  | since start unread =>
    obtain ⟨hcause, hlt, used, c, rest, e, hlen, hstops⟩ := h.stretch start unread rfl
    rcases honly with ⟨h₁, h₂⟩ | ⟨hline, hend⟩
    · rcases hcause with hcause | hcause
      · exact absurd hcause h₁
      · exact absurd hcause h₂
    · -- the last token that the failure blames is the one before what is left
      subst hlen
      obtain ⟨before, d, after, hs, hchar, hafter, hbounds⟩ := exists_split_of_append e
      have hstop : l.stop = .after (before ++ [d]) := by
        rw [hl]
        change CodeMap.lineColumn s
          (tokenBounds (tokens s.text) ((tokens s.text).length - rest.length - 1)).2 = _
        rw [hbounds, hlib.lineColumn_eq hs.append_eq]
      have hle := hs.column_le_line hlib hend (by rwa [hchar, hafter])
      rw [← hstop, ← hline] at hle
      change l.stop.column ≤ printed.length at hle
      unfold Location.caretCount
      omega

/-! ## Faults of a text -/

/-- **A fault prints the line of the text on which it starts and marks it from its start.** There is
one caret at least. No caret stands past the end of the line but the one of a fault that starts
there, if the fault is of one token, or of several on one line and the text does not end in a
CR. -/
theorem readChain_error_marks [CodeMap] {ctx next : Context} {fault : Fault}
    (hlib : CodeMap.Documented) (h : (Pass.readChain text).run ctx = (.error fault, next)) :
    ∃ cause location line count,
      fault = .unreadable cause location ctx.options.unicodeMessages ∧
        location.source.text = text ∧ 1 ≤ count ∧
        (text.toList.splitOn '\n')[location.start.line]? = some line ∧
        let printed := String.ofList (dropReturns line)
        Marks fault.text printed location.start.column count ∧
        ((cause ≠ .missing ']' ∧ cause ≠ .missingArgument) ∨
            (location.start.line = location.stop.line ∧ text.toList.getLast? ≠ some '\r') →
          location.start.column + count ≤ printed.length ∨
            printed.length ≤ location.start.column ∧ count = 1) := by
  obtain ⟨f, hf, rfl⟩ := exists_failure_of_readChain hlib h
  have hbreaks := breaks_readAllItems hf
  let source : Source := ⟨"stdin", text⟩
  let location := source.location (f.place.bounds (tokens text)).1 (f.place.bounds (tokens text)).2
  obtain ⟨before, after, htext, hstart⟩ := hlib.exists_start (hbreaks.admits source)
  obtain ⟨line, hline⟩ := hlib.exists_line (hbreaks.admits source)
  have hprinted : CodeMap.line location.source location.start.line = .ofList (dropReturns line) :=
    hlib.line_eq hline
  have hfeed : '\n' ∉ (CodeMap.line location.source location.start.line).toList := by
    have hplace : location.start = .after before := hstart
    rw [hplace]
    exact hlib.lineFeed_not_mem_line htext
  refine ⟨f.cause, location, line, location.caretCount, rfl, rfl, Nat.le_max_left _ _, hline, ?_⟩
  rw [← hprinted]
  exact ⟨Fault.marks f.cause location _ hfeed, hbreaks.fits_line (s := source) hlib rfl⟩

/-- On the second line, after characters of several bytes, a bracket is missing behind a CR. -/
theorem readChain_error_marks_second_line :
    let text := "é\r\n  [ü=\"😀\"\r+]\r\nx"
    let ctx : Context := { options := {} }
    let fault : Fault := .unreadable (.missing ']') ⟨⟨"stdin", text⟩, ⟨1, 2⟩, ⟨1, 9⟩⟩ true
    CodeMap.Documented ∧ (Pass.readChain text).run ctx =
        (.error fault, { ctx with sources := ctx.sources.add ⟨"stdin", text⟩ }) ∧
      ∃ cause location line count,
        fault = .unreadable cause location ctx.options.unicodeMessages ∧
          location.source.text = text ∧ 1 ≤ count ∧
          (text.toList.splitOn '\n')[location.start.line]? = some line ∧
          let printed := String.ofList (dropReturns line)
          Marks fault.text printed location.start.column count ∧
          ((cause ≠ .missing ']' ∧ cause ≠ .missingArgument) ∨
              (location.start.line = location.stop.line ∧ text.toList.getLast? ≠ some '\r') →
            location.start.column + count ≤ printed.length ∨
              printed.length ≤ location.start.column ∧ count = 1) := by
  intro text ctx fault
  have hread : readJoints text = .error ⟨.missing ']', 6, 17⟩ := by decide +kernel
  have hlocation : Source.location ⟨"stdin", text⟩ 6 17 = ⟨⟨"stdin", text⟩, ⟨1, 2⟩, ⟨1, 9⟩⟩ := by
    decide +kernel
  have hrun := Pass.readChain_run_located Consecutive.documented hread ctx
  rw [hlocation] at hrun
  exact ⟨Consecutive.documented, hrun, readChain_error_marks Consecutive.documented hrun⟩

/-- Where a fault goes on to the next line, or ends with a CR that is not printed, carets stand past
the end of the line. -/
theorem readChain_error_marks_past_end :
    (∃ fault next, (Pass.readChain "[a=b\n      ,").run { options := {} } = (.error fault, next) ∧
      fault.text = "Error: expected \"]\".\n  ╷\n1 │ [a=b\n  │ ^^^^^^\n  ╵\n" ++
        "  stdin 1:1  root stylesheet\n") ∧
    ∃ fault next, (Pass.readChain "[a=b\r").run { options := {} } = (.error fault, next) ∧
      fault.text = "Error: expected \"]\".\n  ╷\n1 │ [a=b\n  │ ^^^^^\n  ╵\n" ++
        "  stdin 1:1  root stylesheet\n" := by
  constructor
  · have hread : readJoints "[a=b\n      ," = .error ⟨.missing ']', 0, 11⟩ := by decide +kernel
    exact ⟨_, _, Pass.readChain_run_error hread _, by decide +kernel⟩
  · have hread : readJoints "[a=b\r" = .error ⟨.missing ']', 0, 5⟩ := by decide +kernel
    exact ⟨_, _, Pass.readChain_run_error hread _, by decide +kernel⟩

end SelectorAlgebra
