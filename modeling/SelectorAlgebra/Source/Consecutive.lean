import SelectorAlgebra.Source

/-
  A library of sources for runs. It gives every source the positions right after those of the one
  before it, and keeps what `CodeMap.Documented` asks for (`documented`). No proof about all passes
  looks into it, only those about a fixed run.
-/

namespace SelectorAlgebra.Consecutive

/-- The last position that is taken; none is below 1. -/
def limit : SourceMap → Nat
  | .empty => 0
  | .add m s => limit m + 1 + s.text.utf8ByteSize

/-- The characters of `cs` that start before byte `offset`. -/
def takeBytes (offset : Nat) : List Char → List Char
  | [] => []
  | c :: cs => if offset = 0 then [] else c :: takeBytes (offset - c.utf8Size) cs

/-- The place after the characters that start before a byte. -/
def lineColumn (s : Source) (offset : Nat) : LineColumn := .after (takeBytes offset s.text.toList)

/-- The place of a span in the latest source that does not start after it. -/
def lookUp (span : Span) : SourceMap → Location
  | .empty => ⟨⟨"", ""⟩, ⟨0, 0⟩, ⟨0, 0⟩⟩
  | .add m s =>
    if limit m < span.start then
      ⟨s, lineColumn s (span.start - (limit m + 1)), lineColumn s (span.stop - (limit m + 1))⟩
    else lookUp span m

instance : CodeMap where
  allot m s := ⟨limit m + 1, limit m + 1 + s.text.utf8ByteSize⟩
  subspan span start stop := ⟨span.start + start, span.start + stop⟩
  merge a b := ⟨min a.start b.start, max a.stop b.stop⟩
  lookUp m span := lookUp span m
  lineColumn := lineColumn
  line s n := .ofList (dropReturns ((s.text.toList.splitOn '\n')[n]?.getD []))

theorem takeBytes_append (before after : List Char) :
    takeBytes (byteCount before) (before ++ after) = before := by
  induction before with
  | nil => cases after <;> simp [takeBytes, byteCount]
  | cons c before ih =>
    have hpos := c.utf8Size_pos
    rw [byteCount, List.cons_append, takeBytes, if_neg (by omega), Nat.add_sub_cancel_left, ih]

variable {m : SourceMap} {p : PlacedSource}

/-- A source has the positions that it needs, and no more than are taken. -/
theorem bounds_of_mem (hp : p ∈ m.placed) :
    p.span.stop = p.span.start + p.source.text.utf8ByteSize ∧ p.span.stop ≤ limit m := by
  induction m with
  | empty => cases hp
  | add m s ih =>
    rcases List.mem_cons.1 hp with rfl | hp
    · exact ⟨rfl, Nat.le_refl _⟩
    · obtain ⟨hsize, hle⟩ := ih hp
      unfold limit
      exact ⟨hsize, by omega⟩

/-- What starts within the positions of a source is found in that source. -/
theorem lookUp_of_mem (hp : p ∈ m.placed) {start : Nat}
    (hle : start ≤ p.source.text.utf8ByteSize) (stop : Nat) :
    lookUp ⟨p.span.start + start, p.span.start + stop⟩ m = p.source.location start stop := by
  induction m with
  | empty => cases hp
  | add m s ih =>
    unfold lookUp
    rcases List.mem_cons.1 hp with rfl | hp
    · have hbase : (m.place s).span.start = limit m + 1 := rfl
      rw [hbase, if_pos (by dsimp only; omega), Nat.add_sub_cancel_left, Nat.add_sub_cancel_left]
      rfl
    · obtain ⟨hsize, hlimit⟩ := bounds_of_mem hp
      rw [if_neg (by dsimp only; omega), ih hp]

/-- **A library that gives out positions one after another keeps its promises.** -/
theorem documented : CodeMap.Documented where
  allot_size _ _ := rfl
  allot_fresh _ _ _ hp := Nat.lt_succ_of_le (bounds_of_mem hp).2
  subspan_eq _ _ := rfl
  merge_eq _ _ := rfl
  lookUp_eq hp _ hadmits := lookUp_of_mem hp (Nat.le_trans hadmits.ordered hadmits.inside) _
  lineColumn_eq h := by
    change LineColumn.after (takeBytes _ _) = _
    rw [h, takeBytes_append]
  line_eq h := by
    change String.ofList (dropReturns (Option.getD _ _)) = _
    rw [h, Option.getD_some]

end SelectorAlgebra.Consecutive
