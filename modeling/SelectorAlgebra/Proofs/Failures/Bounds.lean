import SelectorAlgebra.Context
import SelectorAlgebra.Proofs.Failures.Items
import SelectorAlgebra.Proofs.Failures.Places
import SelectorAlgebra.Source.Consecutive

/-
  Every stretch that reading blames can be shown. `Source.Admits` is what a library of sources asks
  of a stretch of bytes that is cut out of a source. The bounds of a token meet it, as do those of
  two tokens and all between them, and a failure blames no other stretch
  (`Failure.Breaks.bounds_eq`).
-/

namespace SelectorAlgebra

variable {s : Source} {a b : Nat × Nat} {before after : List Char} {text : String} {f : Failure}
  {G : List Char → Prop} {cs : List Char}

/-! ## Stretches -/

/-- The shortest stretch that covers two. -/
def hull (a b : Nat × Nat) : Nat × Nat := (min a.1 b.1, max a.2 b.2)

theorem hull_self (a : Nat × Nat) : hull a a = a := by
  rw [hull, Nat.min_self, Nat.max_self]

namespace Source.Admits

theorem tokenBounds (s : Source) (i : Nat) : s.Admits (tokenBounds (tokens s.text) i) := by
  by_cases hne : tokens s.text = []
  · rw [hne, tokenBounds_nil]
    have htext : s.text.toList = [] ++ ([] ++ s.text.toList) := rfl
    exact of_append htext
  · obtain ⟨before, c, after, hs, e⟩ := exists_split_of_tokenBounds hne i
    have htext : s.text.toList = before ++ ([c] ++ after) := hs.text_eq
    rw [e]
    exact of_append htext

/-- The ends of what covers two stretches are ends of theirs. -/
theorem hull (ha : s.Admits a) (hb : s.Admits b) : s.Admits (hull a b) where
  ordered := Nat.le_trans (Nat.min_le_left _ _) (Nat.le_trans ha.ordered (Nat.le_max_left _ _))
  inside := Nat.max_le.2 ⟨ha.inside, hb.inside⟩
  start_isValid := by
    rw [SelectorAlgebra.hull, Nat.min_def]
    split
    · exact ha.start_isValid
    · exact hb.start_isValid
  stop_isValid := by
    rw [SelectorAlgebra.hull, Nat.max_def]
    split
    · exact hb.stop_isValid
    · exact ha.stop_isValid

end Source.Admits

/-! ## Stretches that can be shown -/

section Library

variable [CodeMap] {m : SourceMap} {p : PlacedSource}

/-- What it takes to show a stretch of a source among the sources of a map: it can be cut out, its
positions are some of that source and of no other, it is located where it is, and it starts on a
line. -/
structure PlacedSource.IsShown (p : PlacedSource) (m : SourceMap) (stretch : Nat × Nat) : Prop where
  admits : p.source.Admits stretch
  holds : p.Holds (p.cut stretch).start ∧ p.Holds (p.cut stretch).stop
  only : ∀ q ∈ m.placed, q.Holds (p.cut stretch).start → q = p
  located : CodeMap.lookUp m (p.cut stretch) = p.source.location stretch.1 stretch.2
  line :
    let n := (p.source.location stretch.1 stretch.2).start.line
    ∃ line, (p.source.text.toList.splitOn '\n')[n]? = some line ∧
      CodeMap.line p.source n = .ofList (dropReturns line)

namespace CodeMap.Documented

/-- A stretch starts at the place after what comes before it. -/
theorem exists_start (hlib : Documented) (h : s.Admits a) :
    ∃ before after, s.text.toList = before ++ after ∧ lineColumn s a.1 = .after before := by
  obtain ⟨before, after, htext, hstart⟩ := h.exists_before
  exact ⟨before, after, htext, by rw [hstart, hlib.lineColumn_eq htext]⟩

/-- The line on which a stretch starts is a line of the source. -/
theorem exists_line (hlib : Documented) (h : s.Admits a) :
    ∃ line, (s.text.toList.splitOn '\n')[(s.location a.1 a.2).start.line]? = some line := by
  obtain ⟨before, after, htext, hstart⟩ := hlib.exists_start h
  rw [Source.location, hstart, LineColumn.after_eq, htext]
  exact ⟨_, splitOn_append _ _⟩

/-- The spans of two stretches merge to that of the stretch that covers both. -/
theorem merge_cut (hlib : Documented) (hp : p ∈ m.placed) (ha : p.source.Admits a)
    (hb : p.source.Admits b) : merge (p.cut a) (p.cut b) = p.cut (hull a b) := by
  rw [(hlib.cut_eq hp ha).1, (hlib.cut_eq hp hb).1, (hlib.cut_eq hp (ha.hull hb)).1,
    hlib.merge_eq, Nat.add_min_add_left, Nat.add_max_add_left]
  rfl

/-- **A stretch that may be cut out of a source can be located and shown.** -/
theorem isShown (hlib : Documented) (hp : p ∈ m.placed) (h : p.source.Admits a) :
    p.IsShown m a where
  admits := h
  holds := hlib.holds_cut hp h
  only q hq hold := hlib.eq_of_holds hq hp hold (hlib.holds_cut hp h).1
  located := hlib.lookUp_cut hp h
  line := by
    obtain ⟨line, hline⟩ := hlib.exists_line h
    exact ⟨line, hline, hlib.line_eq hline⟩

end CodeMap.Documented

end Library

/-! ## Failures -/

/-- A text that cannot be read fails where its characters do. -/
theorem exists_failure_of_readJoints {failure : TextFailure}
    (h : readJoints text = .error failure) :
    ∃ f, readAllItems (unifyLineEnds text.toList) = .error f ∧
      failure = f.inText (tokens text) := by
  rw [readJoints, map_char_tokens] at h
  split at h
  · cases h
  · rename_i f hf
    cases h
    exact ⟨f, hf, rfl⟩

/-- A failure blames one token, or two and all between them. -/
theorem Failure.Breaks.bounds_eq (h : f.Breaks G cs) (text : String) :
    ∃ i j, f.place.bounds (tokens text) =
      hull (tokenBounds (tokens text) i) (tokenBounds (tokens text) j) := by
  obtain ⟨cause, place⟩ := f
  cases place with
  | next unread => exact ⟨_, _, (hull_self _).symm⟩
  | last unread => exact ⟨_, _, (hull_self _).symm⟩
  | since start unread =>
    obtain ⟨_, hlt, _⟩ := h.stretch start unread rfl
    have hle : (tokens text).length - start ≤ (tokens text).length - unread - 1 := by omega
    obtain ⟨hstart, hstop⟩ := tokenBounds_mono hle text
    exact ⟨_, _, by rw [Place.bounds, hull, Nat.min_eq_left hstart, Nat.max_eq_right hstop]⟩

/-- What a failure blames can be cut out of the text. -/
theorem Failure.Breaks.admits (h : f.Breaks G cs) (s : Source) :
    s.Admits (f.place.bounds (tokens s.text)) := by
  obtain ⟨i, j, e⟩ := h.bounds_eq s.text
  rw [e]
  exact (Source.Admits.tokenBounds s i).hull (.tokenBounds s j)

/-! ## Reading in a context -/

section Reading

variable [CodeMap] {ctx next : Context} {fault : Fault}

/-- A failure is located in its own text, whatever the other sources are. -/
theorem Pass.readChain_run_located {failure : TextFailure} (hlib : CodeMap.Documented)
    (h : readJoints text = .error failure) (ctx : Context) : (readChain text).run ctx =
      (.error (.unreadable failure.cause
          (Source.location ⟨"stdin", text⟩ failure.start failure.stop) ctx.options.unicodeMessages),
        { ctx with sources := ctx.sources.add ⟨"stdin", text⟩ }) := by
  obtain ⟨f, hf, rfl⟩ := exists_failure_of_readJoints h
  have hadmits := (breaks_readAllItems hf).admits ⟨"stdin", text⟩
  have hmem : ctx.sources.place ⟨"stdin", text⟩ ∈ (ctx.sources.add ⟨"stdin", text⟩).placed :=
    List.mem_cons_self
  rw [readChain_run_error h]
  exact congrArg (fun l => (Except.error (Fault.unreadable _ l _), _))
    (hlib.lookUp_cut hmem hadmits)

/-- A text is refused for a failure of the reader, with the failure's place. -/
theorem exists_failure_of_readChain (hlib : CodeMap.Documented)
    (h : (Pass.readChain text).run ctx = (.error fault, next)) :
    ∃ f, readAllItems (unifyLineEnds text.toList) = .error f ∧
      fault = .unreadable f.cause (Source.location ⟨"stdin", text⟩
        (f.place.bounds (tokens text)).1 (f.place.bounds (tokens text)).2)
          ctx.options.unicodeMessages := by
  cases hr : readJoints text with
  | ok joints =>
    rw [Pass.readChain_run_ok hr] at h
    cases h
  | error failure =>
    obtain ⟨f, hf, rfl⟩ := exists_failure_of_readJoints hr
    rw [Pass.readChain_run_located hlib hr] at h
    cases h
    exact ⟨f, hf, rfl⟩

/-- The positions in a map of sources are numbers of 32 bits. -/
def positionLimit : Nat := 0x100000000

/-- What holds of the reading of a text in a context, so that every span it makes can be cut out
of its source and located there. -/
structure ReadsLocated (ctx : Context) (text : String) : Prop where
  /-- The bytes of two tokens, and those from the one to the other, can be shown. The spans of the
  two merge to that of all, which is below the limit. -/
  spans : ∀ i j,
    let p := ctx.sources.place ⟨"stdin", text⟩
    let sources := ctx.sources.add ⟨"stdin", text⟩
    let first := tokenBounds (tokens text) i
    let last := tokenBounds (tokens text) j
    p.IsShown sources first ∧ p.IsShown sources last ∧ p.IsShown sources (hull first last) ∧
      CodeMap.merge (p.cut first) (p.cut last) = p.cut (hull first last) ∧
      (p.cut (hull first last)).stop < positionLimit
  /-- There is a chain with all of the text for its span, or a fault of the text at such a
  stretch. -/
  result :
    let source : Source := ⟨"stdin", text⟩
    let next := { ctx with sources := ctx.sources.add source }
    (∃ c, (Pass.readChain text).run ctx = (.ok c, next) ∧
      c.span = some (ctx.sources.place source).span ∧ source.Admits (0, text.utf8ByteSize) ∧
      CodeMap.lookUp next.sources (ctx.sources.place source).span = source.whole) ∨
    ∃ cause i j,
      let stretch := hull (tokenBounds (tokens text) i) (tokenBounds (tokens text) j)
      cause ≠ .missingString ∧ (Pass.readChain text).run ctx =
        (.error (.unreadable cause (source.location stretch.1 stretch.2)
          ctx.options.unicodeMessages), next)

/-- **Reading always gives a chain or a located fault of the text**, whatever the text, as long as
its positions are below the limit and the library of sources keeps its promises. -/
theorem readChain_located {ctx : Context} {text : String} (hlib : CodeMap.Documented)
    (hfits : (ctx.sources.place ⟨"stdin", text⟩).span.stop < positionLimit) :
    ReadsLocated ctx text where
  spans := by
    intro i j p sources first last
    have hp : p ∈ sources.placed := List.mem_cons_self
    have hfirst : p.source.Admits first := .tokenBounds _ i
    have hlast : p.source.Admits last := .tokenBounds _ j
    have hhull : p.source.Admits (hull first last) := hfirst.hull hlast
    have hstop : (p.cut (hull first last)).stop ≤ p.span.stop := (hlib.holds_cut hp hhull).2.2
    exact ⟨hlib.isShown hp hfirst, hlib.isShown hp hlast, hlib.isShown hp hhull,
      hlib.merge_cut hp hfirst hlast, Nat.lt_of_le_of_lt hstop hfits⟩
  result := by
    intro source next
    have hmem : ctx.sources.place source ∈ next.sources.placed := List.mem_cons_self
    cases h : readJoints text with
    | ok joints =>
      exact Or.inl ⟨_, Pass.readChain_run_ok h ctx, rfl, .whole source, hlib.lookUp_span hmem⟩
    | error failure =>
      obtain ⟨f, hf, rfl⟩ := exists_failure_of_readJoints h
      have hbreaks := breaks_readAllItems hf
      obtain ⟨i, j, e⟩ := hbreaks.bounds_eq text
      refine Or.inr ⟨f.cause, i, j, hbreaks.cause_ne, ?_⟩
      rw [← e]
      exact Pass.readChain_run_located hlib h ctx

end Reading

/-- After a source with a character of two bytes: an open bracket, a character of two bytes and one
of four, and a CR LF at the end. -/
theorem readChain_located_open_bracket :
    let ctx : Context := { options := {}, sources := .add .empty ⟨"stdin", "é"⟩ }
    let text := "[é=\"😀\"\r\n"
    CodeMap.Documented ∧ (ctx.sources.place ⟨"stdin", text⟩).span.stop < positionLimit ∧
      readJoints text = .error ⟨.missing ']', 0, 12⟩ ∧
      tokenBounds (tokens text) 6 = (11, 12) ∧ ReadsLocated ctx text := by
  intro ctx text
  have hfits : (ctx.sources.place ⟨"stdin", text⟩).span.stop < positionLimit := by
    decide +kernel
  exact ⟨Consecutive.documented, hfits, by decide +kernel, by decide +kernel,
    readChain_located Consecutive.documented hfits⟩

end SelectorAlgebra
