import Mathlib.Data.List.Induction
import SelectorAlgebra.Source

/-
  What follows from the promises of a library of sources. A position belongs to one source only
  (`eq_of_holds`), so what is cut out of a source is found there, whatever sources were added before
  or are added later (`lookUp_cut`), and the positions of a source are all of its text
  (`lookUp_span`).
-/

namespace SelectorAlgebra

variable {before after : List Char} {s : Source} {stretch : Nat × Nat}

/-! ## The end of a text -/

/-- The place after a text: its line feeds, and the characters after the last of them. -/
theorem LineColumn.after_eq (cs : List Char) :
    LineColumn.after cs = ⟨cs.count '\n', (cs.reverse.takeWhile (· ≠ '\n')).length⟩ := by
  induction cs using List.reverseRecOn with
  | nil => rfl
  | append_singleton cs c ih =>
    rw [after_append, ih, List.foldl_cons, List.foldl_nil, advance, List.reverse_concat]
    by_cases hc : c = '\n'
    · simp [hc]
    · simp [hc]

/-- All of a source: from its start to the line after its last line feed, at the column after the
characters that follow it. -/
def Source.whole (s : Source) : Location where
  source := s
  start := ⟨0, 0⟩
  stop :=
    { line := s.text.toList.count '\n'
      column := (s.text.toList.reverse.takeWhile (· ≠ '\n')).length }

/-! ## Stretches of a source -/

theorem isValid_byteCount (h : s.text.toList = before ++ after) :
    String.Pos.Raw.IsValid s.text ⟨byteCount before⟩ := by
  refine String.Pos.Raw.isValid_iff_exists_append.2 ⟨.ofList before, .ofList after, ?_, ?_⟩
  · rw [← String.ofList_append, ← h, String.ofList_toList]
  · rw [← byteCount_ofList]
    rfl

namespace Source.Admits

/-- From one place between characters to a later one. -/
theorem of_append {mid : List Char} (h : s.text.toList = before ++ (mid ++ after)) :
    s.Admits (byteCount before, byteCount (before ++ mid)) where
  ordered := by
    rw [byteCount_append]
    exact Nat.le_add_right _ _
  inside := by
    rw [← byteCount_toList, h, byteCount_append, byteCount_append, byteCount_append]
    omega
  start_isValid := isValid_byteCount h
  stop_isValid := isValid_byteCount (h.trans (List.append_assoc _ _ _).symm)

/-- All of a source. -/
theorem whole (s : Source) : s.Admits (0, s.text.utf8ByteSize) := by
  have h : s.text.toList = [] ++ (s.text.toList ++ []) := by simp
  have hw := of_append h
  rw [List.nil_append, byteCount_toList] at hw
  exact hw

/-- A stretch starts after some of the characters of its source. -/
theorem exists_before (h : s.Admits stretch) :
    ∃ before after, s.text.toList = before ++ after ∧ stretch.1 = byteCount before := by
  obtain ⟨before, after, e, hstart⟩ := String.Pos.Raw.isValid_iff_exists_append.1 h.start_isValid
  refine ⟨before.toList, after.toList, by rw [e, String.toList_append], ?_⟩
  rw [byteCount_toList]
  exact congrArg String.Pos.Raw.byteIdx hstart

end Source.Admits

/-! ## Maps of sources -/

namespace SourceMap

/-- Adds sources one after another. -/
def addAll (m : SourceMap) (ss : List Source) : SourceMap := ss.foldl add m

theorem addAll_append (m : SourceMap) (ss ts : List Source) :
    m.addAll (ss ++ ts) = (m.addAll ss).addAll ts := List.foldl_append

end SourceMap

variable [CodeMap] {m : SourceMap} {p q : PlacedSource} {position : Nat}

/-- A source keeps its positions when others are added. -/
theorem SourceMap.mem_addAll (hp : p ∈ m.placed) (ss : List Source) :
    p ∈ (m.addAll ss).placed := by
  induction ss generalizing m with
  | nil => exact hp
  | cons s ss ih => exact ih (m := m.add s) (List.mem_cons_of_mem _ hp)

/-! ## Promises -/

namespace CodeMap.Documented

theorem lineColumn_zero (hlib : Documented) (s : Source) : lineColumn s 0 = ⟨0, 0⟩ := by
  have htext : s.text.toList = [] ++ s.text.toList := rfl
  exact hlib.lineColumn_eq htext

theorem location_whole (hlib : Documented) (s : Source) :
    s.location 0 s.text.utf8ByteSize = s.whole := by
  have hstop := hlib.lineColumn_eq (List.append_nil s.text.toList).symm
  rw [byteCount_toList, LineColumn.after_eq] at hstop
  rw [Source.location, hlib.lineColumn_zero, hstop]
  rfl

theorem stop_eq (hlib : Documented) (hp : p ∈ m.placed) :
    p.span.stop = p.span.start + p.source.text.utf8ByteSize := by
  induction m with
  | empty => cases hp
  | add m s ih =>
    rcases List.mem_cons.1 hp with rfl | hp
    · exact hlib.allot_size m s
    · exact ih hp

/-- A position belongs to one source only. -/
theorem eq_of_holds (hlib : Documented) (hp : p ∈ m.placed) (hq : q ∈ m.placed)
    (hold : p.Holds position) (hold' : q.Holds position) : p = q := by
  obtain ⟨hstart, hstop⟩ := hold
  obtain ⟨hstart', hstop'⟩ := hold'
  induction m with
  | empty => cases hp
  | add m s ih =>
    have hfresh := hlib.allot_fresh m s
    rcases List.mem_cons.1 hp with rfl | hp
    · rcases List.mem_cons.1 hq with rfl | hq
      · rfl
      · have hlt : q.span.stop < (m.place s).span.start := hfresh q hq
        omega
    · rcases List.mem_cons.1 hq with rfl | hq
      · have hlt : p.span.stop < (m.place s).span.start := hfresh p hp
        omega
      · exact ih hp hq

/-- What is cut out of a source is counted from its first position, and lies within its last. -/
theorem cut_eq (hlib : Documented) (hp : p ∈ m.placed) (h : p.source.Admits stretch) :
    p.cut stretch = ⟨p.span.start + stretch.1, p.span.start + stretch.2⟩ ∧
      p.span.start + stretch.2 ≤ p.span.stop := by
  have hinside : p.span.start + stretch.2 ≤ p.span.stop := by
    rw [hlib.stop_eq hp]
    exact Nat.add_le_add_left h.inside _
  exact ⟨hlib.subspan_eq h.ordered hinside, hinside⟩

/-- The positions of what is cut out of a source are positions of that source. -/
theorem holds_cut (hlib : Documented) (hp : p ∈ m.placed) (h : p.source.Admits stretch) :
    p.Holds (p.cut stretch).start ∧ p.Holds (p.cut stretch).stop := by
  obtain ⟨hcut, hinside⟩ := hlib.cut_eq hp h
  have hstart := Nat.le_trans (Nat.add_le_add_left h.ordered p.span.start) hinside
  rw [hcut]
  exact ⟨⟨Nat.le_add_right _ _, hstart⟩, Nat.le_add_right _ _, hinside⟩

/-- **What is cut out of a source is found there, whatever other sources there are.** -/
theorem lookUp_cut (hlib : Documented) (hp : p ∈ m.placed) (h : p.source.Admits stretch) :
    lookUp m (p.cut stretch) = p.source.location stretch.1 stretch.2 := by
  have hold := (hlib.holds_cut hp h).1
  rw [(hlib.cut_eq hp h).1] at hold ⊢
  exact hlib.lookUp_eq hp (fun q hq hold' => hlib.eq_of_holds hq hp hold' hold) h

/-- The positions of a source are all of it. -/
theorem lookUp_span (hlib : Documented) (hp : p ∈ m.placed) :
    lookUp m p.span = p.source.whole := by
  have hwhole := Source.Admits.whole p.source
  have hspan : p.cut (0, p.source.text.utf8ByteSize) = p.span := by
    rw [(hlib.cut_eq hp hwhole).1, ← hlib.stop_eq hp]
    rfl
  have hlook := hlib.lookUp_cut hp hwhole
  rw [hspan, hlib.location_whole] at hlook
  exact hlook

end CodeMap.Documented

end SelectorAlgebra
