import SelectorAlgebra.Text.Token

/-
  Sources and the places in them. A place is told by line and column, both from zero: only a
  line feed ends a line, and columns count characters. Offsets count bytes.

  A pass leaves it to a library to keep its sources in one space of positions and to find places
  in them. That library is not defined here: `CodeMap` is what it can be asked, and
  `CodeMap.Documented` is what it promises. What is proved from the promises holds of every library
  that keeps them; `Source.Consecutive` has one that does.
-/

namespace SelectorAlgebra

structure LineColumn where
  line : Nat
  column : Nat
  deriving DecidableEq, Repr

/-- The place after one more character. -/
def LineColumn.advance (p : LineColumn) (c : Char) : LineColumn :=
  if c = '\n' then ⟨p.line + 1, 0⟩ else ⟨p.line, p.column + 1⟩

/-- The place after the characters `cs` of a text. -/
def LineColumn.after (cs : List Char) : LineColumn := cs.foldl advance ⟨0, 0⟩

theorem LineColumn.after_append (cs ds : List Char) :
    after (cs ++ ds) = ds.foldl advance (after cs) := by
  simp [after]

/-- A text and the name it goes by in messages. -/
structure Source where
  name : String
  text : String
  deriving DecidableEq, Repr

/-- A stretch of a source, from its first character to the one after it. -/
structure Location where
  source : Source
  start : LineColumn
  stop : LineColumn
  deriving DecidableEq, Repr

/-- A stretch that may be cut out of a source: it ends no earlier than it starts, it lies in the
text, and both its ends are between two characters. -/
structure Source.Admits (s : Source) (stretch : Nat × Nat) : Prop where
  ordered : stretch.1 ≤ stretch.2
  inside : stretch.2 ≤ s.text.utf8ByteSize
  start_isValid : String.Pos.Raw.IsValid s.text ⟨stretch.1⟩
  stop_isValid : String.Pos.Raw.IsValid s.text ⟨stretch.2⟩

/-- A text without the carriage returns at its end. -/
def dropReturns (cs : List Char) : List Char := (cs.reverse.dropWhile (· = '\r')).reverse

/-! ## Positions -/

/-- A stretch of positions. -/
structure Span where
  start : Nat
  stop : Nat
  deriving DecidableEq, Repr

/-- A source and its positions, from that of its first byte to the one after its last. -/
structure PlacedSource where
  source : Source
  span : Span
  deriving DecidableEq, Repr

/-- Whether a position is one of the source. -/
def PlacedSource.Holds (p : PlacedSource) (position : Nat) : Prop :=
  p.span.start ≤ position ∧ position ≤ p.span.stop

/-- What was added to a map of sources, one source after another. All that a library says of a
map depends on this only. -/
inductive SourceMap where
  | empty
  | add (m : SourceMap) (s : Source)
  deriving DecidableEq, Repr

/-! ## The library -/

/-- The operations of a library that keeps sources in one space of positions. -/
class CodeMap where
  /-- The positions of a source that is added to a map. -/
  allot : SourceMap → Source → Span
  /-- The positions in a span from one byte to another. -/
  subspan : Span → Nat → Nat → Span
  /-- The least span that covers two. -/
  merge : Span → Span → Span
  /-- Where a span lies. -/
  lookUp : SourceMap → Span → Location
  /-- The place of a byte in a source. -/
  lineColumn : Source → Nat → LineColumn
  /-- A line of a source, as it is shown. -/
  line : Source → Nat → String

section Library

variable [CodeMap]

/-- A source with the positions that it gets in a map. -/
def SourceMap.place (m : SourceMap) (s : Source) : PlacedSource := ⟨s, CodeMap.allot m s⟩

/-- The positions of a stretch of bytes of a source. -/
def PlacedSource.cut (p : PlacedSource) (stretch : Nat × Nat) : Span :=
  CodeMap.subspan p.span stretch.1 stretch.2

/-- The sources of a map with their positions, the latest first. -/
def SourceMap.placed : SourceMap → List PlacedSource
  | empty => []
  | add m s => m.place s :: m.placed

/-- The stretch from byte `start` to byte `stop`. -/
def Source.location (s : Source) (start stop : Nat) : Location :=
  ⟨s, CodeMap.lineColumn s start, CodeMap.lineColumn s stop⟩

/-- What the library promises. Of what it refuses to do nothing is said: to cut a stretch out of a
span that it does not fit in, to look up what lies in no source or not between characters, and to
show a line that there is not. -/
structure CodeMap.Documented : Prop where
  /-- A source has a position for each of its bytes, and one for its end. -/
  allot_size (m : SourceMap) (s : Source) :
    (allot m s).stop = (allot m s).start + s.text.utf8ByteSize
  /-- The positions of a source are above those of all sources that were added before it. -/
  allot_fresh (m : SourceMap) (s : Source) : ∀ p ∈ m.placed, p.span.stop < (allot m s).start
  /-- Stretches are counted from the start of a span. -/
  subspan_eq {span : Span} {start stop : Nat} (hle : start ≤ stop)
    (hinside : span.start + stop ≤ span.stop) :
    subspan span start stop = ⟨span.start + start, span.start + stop⟩
  merge_eq (a b : Span) : merge a b = ⟨min a.start b.start, max a.stop b.stop⟩
  /-- A span is looked up in the source that holds its first position, if there is no other. -/
  lookUp_eq {m : SourceMap} {p : PlacedSource} {start stop : Nat} (hp : p ∈ m.placed)
    (honly : ∀ q ∈ m.placed, q.Holds (p.span.start + start) → q = p)
    (hadmits : p.source.Admits (start, stop)) :
    lookUp m ⟨p.span.start + start, p.span.start + stop⟩ = p.source.location start stop
  /-- Lines are counted by their line feeds, and columns by characters. -/
  lineColumn_eq {s : Source} {before after : List Char} (h : s.text.toList = before ++ after) :
    lineColumn s (byteCount before) = .after before
  /-- A line is shown without its line feed and without any carriage returns before that. -/
  line_eq {s : Source} {n : Nat} {cs : List Char}
    (h : (s.text.toList.splitOn '\n')[n]? = some cs) : line s n = .ofList (dropReturns cs)

end Library

end SelectorAlgebra
