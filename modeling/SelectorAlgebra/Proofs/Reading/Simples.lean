import SelectorAlgebra.Proofs.Reading.Attributes
import SelectorAlgebra.Proofs.Reading.Pseudos

/-
  What the reader of simple selectors takes: `readSimple_eq_ok` says that it gives a value exactly
  if that is readable and one of its layouts stands first, before a character at which reading
  stops.
-/

namespace SelectorAlgebra

variable {cs rest : List Char} {s : Simple}

/-! ## How layouts begin -/

/-- The characters at which a simple selector other than an element begins. -/
def isMark (c : Char) : Bool := ['[', '.', '#', '%', ':', '&'].contains c

theorem readSimple_of_not_isMark {c : Char} (h : isMark c = false) (cs : List Char) :
    readSimple (c :: cs) = readElement (c :: cs) := by
  rw [readSimple]
  all_goals
    intro _ e
    rw [(List.cons.inj e).1] at h
    exact absurd h (by decide)

theorem isMark_of_beginsElement {c : Char} (h : beginsElement c) : isMark c = false := by
  cases hc : isMark c with
  | false => rfl
  | true =>
    rw [eq_false_of_mem (p := beginsElement) (by decide) (List.contains_iff_mem.1 hc)] at h
    cases h

/-! ## Simple selectors -/

theorem readSimple_sound (h : readSimple cs = .ok (s, rest)) :
    s.Readable ∧ ∃ used, s.Layout used ∧ cs = used ++ rest ∧ StopsBefore s.absorbs rest := by
  unfold readSimple at h
  split at h
  · obtain ⟨⟨a, rest'⟩, h, e⟩ := map_eq_ok.1 h
    cases e
    obtain ⟨hr, used, hl, rfl⟩ := readAttribute_sound h
    refine ⟨hr, _, ⟨used, hl, rfl⟩, rfl, ?_⟩
    exact stopsBefore_false _
  · obtain ⟨⟨name, rest'⟩, h, e⟩ := map_eq_ok.1 h
    cases e
    obtain ⟨hn, rfl, hs⟩ := readIdentifier_eq_ok.1 h
    exact ⟨hn, _, rfl, by simp [Simple.text], hs⟩
  · obtain ⟨⟨name, rest'⟩, h, e⟩ := map_eq_ok.1 h
    cases e
    obtain ⟨hn, rfl, hs⟩ := readIdentifier_eq_ok.1 h
    exact ⟨hn, _, rfl, by simp [Simple.text], hs⟩
  · obtain ⟨⟨name, rest'⟩, h, e⟩ := map_eq_ok.1 h
    cases e
    obtain ⟨hn, rfl, hs⟩ := readIdentifier_eq_ok.1 h
    exact ⟨hn, _, rfl, by simp [Simple.text], hs⟩
  · obtain ⟨⟨p, rest'⟩, h, e⟩ := map_eq_ok.1 h
    cases e
    obtain ⟨hr, used, hl, e, hs⟩ := readPseudo_sound h
    exact ⟨hr, used, hl, e, hs⟩
  · cases h
  · obtain ⟨he, hr, rfl, hs⟩ := readElement_eq_ok.1 h
    refine ⟨hr, _, ?_, rfl, hs⟩
    cases s with
    | universal space => rfl
    | element n => rfl
    | _ => cases he

theorem readSimple_layout {used : List Char} (hr : s.Readable) (hl : s.Layout used)
    (hs : StopsBefore s.absorbs rest) : readSimple (used ++ rest) = .ok (s, rest) := by
  have hname : ∀ {name : String}, isName name.toList → StopsBefore continuesName rest →
      readIdentifier (name.toList ++ rest) = .ok (name, rest) :=
    fun hn hs => readIdentifier_eq_ok.2 ⟨hn, rfl, hs⟩
  have helement : s.IsElement → readSimple (s.text.toList ++ rest) = .ok (s, rest) := by
    intro he
    obtain ⟨c, more, e, hc⟩ := he.exists_cons hr
    have h := readElement_eq_ok.2 ⟨he, hr, rfl, hs⟩
    rw [e, List.cons_append] at h ⊢
    rw [readSimple_of_not_isMark (isMark_of_beginsElement hc), h]
  cases s with
  | universal space => exact hl ▸ helement trivial
  | element n => exact hl ▸ helement trivial
  | classed name =>
    rw [show used = '.' :: name.toList from hl.trans (Simple.toList_text_classed name)]
    exact map_eq_ok.2 ⟨(name, rest), hname hr hs, rfl⟩
  | id name =>
    rw [show used = '#' :: name.toList from hl.trans (Simple.toList_text_id name)]
    exact map_eq_ok.2 ⟨(name, rest), hname hr hs, rfl⟩
  | placeholder name =>
    rw [show used = '%' :: name.toList from hl.trans (Simple.toList_text_placeholder name)]
    exact map_eq_ok.2 ⟨(name, rest), hname hr hs, rfl⟩
  | pseudo p =>
    obtain ⟨inside, rfl⟩ : ∃ inside, used = ':' :: inside := by
      obtain ⟨written, _, rfl⟩ := hl
      exact ⟨_, rfl⟩
    exact map_eq_ok.2 ⟨(p, rest), readPseudo_layout hr hl hs, rfl⟩
  | attr a =>
    obtain ⟨inside, hl, rfl⟩ := hl
    exact map_eq_ok.2 ⟨(a, rest), readAttribute_layout hr hl, rfl⟩

/-- A simple selector is read if a layout of it stands first and reading stops after it. -/
theorem readSimple_eq_ok :
    readSimple cs = .ok (s, rest) ↔
      s.Readable ∧ ∃ used, s.Layout used ∧ cs = used ++ rest ∧ StopsBefore s.absorbs rest := by
  constructor
  · exact readSimple_sound
  · rintro ⟨hr, used, hl, rfl, hs⟩
    exact readSimple_layout hr hl hs

end SelectorAlgebra
