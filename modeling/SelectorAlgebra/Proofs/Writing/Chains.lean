import SelectorAlgebra.Proofs.Reading.Rows
import SelectorAlgebra.Proofs.Writing.Simples
import SelectorAlgebra.Source.Consecutive

/-
  What chains are written as. The items of a chain that was read are written with one space
  between any two, and reading that gives the same items again (`ItemRow.spaced`): at a space
  every simple selector ends, and within a compound each one is followed by the character that
  followed it before. `readJoints_jointsText` says so of whole texts, and `readChain_text_same` of
  the chains of a pass.
-/

namespace SelectorAlgebra

variable {cs rest rest' used : List Char} {s : Simple} {ss : List Simple}

/-! ## Compounds -/

theorem Simple.absorbs_space (s : Simple) : s.absorbs ' ' = false :=
  eq_false_of_mem s.absorbs_ends (by decide)

/-- Everything ends before a space, and before the end of a text. -/
theorem stopsBefore_of_space {p : Char → Bool} (hp : p ' ' = false)
    (h : StopsBefore (· != ' ') rest) : StopsBefore p rest := by
  cases rest with
  | nil => rfl
  | cons c rest =>
    have hc : c = ' ' := by simpa using h
    rw [hc]
    exact stopsBefore_cons.2 hp

/-- All layouts of a simple selector begin with the same character. -/
theorem Simple.Layout.head?_eq (hr : s.Readable) (hl : s.Layout used) :
    used.head? = s.text.toList.head? := by
  cases s with
  | pseudo p =>
    obtain ⟨written, _, rfl⟩ := hl
    rw [Simple.text, Pseudo.toList_text]
    rfl
  | attr a =>
    obtain ⟨inside, _, rfl⟩ := hl
    rw [Simple.text, Attribute.toList_text]
    rfl
  | _ => exact congrArg List.head? hl

/-- The texts of simple selectors one after another. -/
def componentsText (ss : List Simple) : List Char := ss.flatMap fun s => s.text.toList

theorem toList_text_components (s : Simple) (ss : List Simple) :
    (Compound.mk (s :: ss)).text.toList = s.text.toList ++ componentsText ss := by
  simp [Compound.text, componentsText, String.toList_join, List.flatMap_map]

/-- Written anew, components begin as before, or else there are none. -/
theorem ComponentRow.stopsBefore {p : Char → Bool} (hp : p ' ' = false)
    (h : ComponentRow rest ss cs) (hs : StopsBefore p cs) (h' : StopsBefore (· != ' ') rest') :
    StopsBefore p (componentsText ss ++ rest') := by
  cases h with
  | nil => exact stopsBefore_of_space hp h'
  | @cons s ss used cs hr hl =>
    obtain ⟨d, more, rfl, _⟩ := hl.exists_cons hr
    obtain ⟨d', more', e, _⟩ := hr.layout_text.exists_cons hr
    have hd := hl.head?_eq hr
    rw [e] at hd
    cases hd
    rw [componentsText, List.flatMap_cons, e]
    exact hs

theorem ComponentRow.text (h : ComponentRow rest ss cs) (h' : StopsBefore (· != ' ') rest') :
    ComponentRow rest' ss (componentsText ss ++ rest') := by
  induction h with
  | nil => exact .nil (stopsBefore_of_space (by decide) h')
  | @cons s ss used cs hr hl hm hs h ih =>
    have hm' : s.text.toList.head?.any startsSimple := by
      rw [← hl.head?_eq hr]
      exact hm
    rw [componentsText, List.flatMap_cons, List.append_assoc]
    exact .cons hr hr.layout_text hm' (h.stopsBefore s.absorbs_space hs h') ih

/-- What a compound selector is written as is read as the same, before a space or the end. -/
theorem CompoundRow.text {c : Compound} (h : CompoundRow rest c cs)
    (h' : StopsBefore (· != ' ') rest') : CompoundRow rest' c (c.text.toList ++ rest') := by
  obtain ⟨hr, hl, hs, h⟩ := h
  rw [toList_text_components, List.append_assoc]
  exact .mk hr hr.layout_text (h.stopsBefore (Simple.absorbs_space _) hs h') (h.text h')

/-! ## Items -/

def Item.text : Item → String
  | compound c => c.text
  | combinator k => k.text

/-- The texts of items, with a space before each. -/
def spacedItems (items : List Item) : List Char := items.flatMap fun i => ' ' :: i.text.toList

theorem stopsBefore_spacedItems (items : List Item) :
    StopsBefore (· != ' ') (spacedItems items) := by
  cases items with
  | nil => rfl
  | cons i items => exact stopsBefore_cons.2 (by decide)

theorem toList_text_of_ofChar? {c : Char} {k : Combinator} (h : Combinator.ofChar? c = some k) :
    k.text.toList = [c] := by
  unfold Combinator.ofChar? at h
  split at h <;> cases h <;> rfl

/-- What items are written as is read as the same items. -/
theorem ItemRow.spaced {b : Bool} {items : List Item} (h : ItemRow b items cs) :
    ItemRow b items (spacedItems items) := by
  induction h with
  | nil => exact .nil
  | separator hc h ih => exact ih
  | @combinator k items c cs hk h ih =>
    rw [spacedItems, List.flatMap_cons, Item.text, toList_text_of_ofChar? hk]
    exact .separator (by decide) (.combinator hk ih)
  | @compound b c items cs rest hc h ih =>
    rw [spacedItems, List.flatMap_cons]
    exact .separator (by decide) (.compound (hc.text (stopsBefore_spacedItems items)) ih)

theorem ItemRow.of_separator {b : Bool} {items : List Item} {c : Char} (hc : isSeparator c)
    (h : ItemRow b items (c :: cs)) : ItemRow b items cs := by
  generalize e : c :: cs = text at h
  cases h with
  | nil => cases e
  | separator _ h => exact (List.cons.inj e).2 ▸ h
  | combinator hk =>
    rw [← (List.cons.inj e).1] at hk
    exact absurd hc (by rw [isSeparator_of_ofChar? hk]; simp)
  | compound h =>
    obtain ⟨d, more, e', hd, _⟩ := h.exists_cons
    rw [← e] at e'
    rw [← (List.cons.inj e').1] at hd
    exact absurd hc (by rw [hd]; simp)

/-! ## Links -/

theorem ItemRow.ne_descendant {b : Bool} {items : List Item} (h : ItemRow b items cs) :
    .combinator .descendant ∉ items := by
  induction h with
  | nil => simp
  | separator _ _ ih => exact ih
  | @combinator k items c cs hk h ih =>
    have hne : k ≠ .descendant := by
      rintro rfl
      unfold Combinator.ofChar? at hk
      split at hk <;> cases hk
    simp [ih, hne.symm]
  | compound _ _ ih => simp [ih]

theorem Combinator.between_of_ne {k : Combinator} (h : k ≠ .descendant) (hasHead hasTail : Bool) :
    k.between hasHead hasTail =
      (if hasHead then " " else "") ++ k.text ++ (if hasTail then " " else "") := by
  cases k with
  | descendant => exact absurd rfl h
  | _ => rfl

/-- The links of items are written as the items are, with one space between any two. -/
theorem toList_jointsText {items : List Item} (h : .combinator .descendant ∉ items) :
    (if items.isEmpty then [] else [' ']) ++ (jointsText (jointsOfItems items)).toList =
      spacedItems items := by
  -- two compounds in a row are parted by the descendant combinator, which is the space itself
  fun_induction jointsOfItems items with
  | case1 => rfl
  | case2 k items ih =>
    rw [List.mem_cons, not_or] at h
    have hk : k ≠ .descendant := fun e => h.1 (by rw [e])
    rw [spacedItems, List.flatMap_cons, ← spacedItems, ← ih h.2]
    cases hi : items.isEmpty <;>
      simp [jointsText, Combinator.between_of_ne hk, isEmpty_jointsOfItems, Item.text, hi]
  | case3 c k items ih =>
    simp only [List.mem_cons, not_or] at h
    have hk : k ≠ .descendant := fun e => h.2.1 (by rw [e])
    rw [spacedItems, List.flatMap_cons, List.flatMap_cons, ← spacedItems, ← ih h.2.2]
    cases hi : items.isEmpty <;>
      simp [jointsText, Combinator.between_of_ne hk, isEmpty_jointsOfItems, Item.text, hi]
  | case4 c items hne ih =>
    rw [List.mem_cons, not_or] at h
    rw [spacedItems, List.flatMap_cons, ← spacedItems, ← ih h.2]
    cases hi : items.isEmpty <;>
      simp [jointsText, Combinator.between, isEmpty_jointsOfItems, Item.text, hi]

/-! ## Characters -/

variable {d : Char}

theorem ComponentRow.mem_text (h : ComponentRow rest ss cs) (hd : d ∈ componentsText ss) :
    d ∈ cs ∨ d ∈ writtenAnew := by
  induction h with
  | nil => cases hd
  | cons _ hl _ _ _ ih =>
    rw [componentsText, List.flatMap_cons, List.mem_append] at hd
    rcases hd with hd | hd
    · exact (hl.mem_text hd).imp_left (List.mem_append_left _)
    · exact (ih hd).imp_left (List.mem_append_right _)

theorem CompoundRow.mem_text {c : Compound} (h : CompoundRow rest c cs) (hd : d ∈ c.text.toList) :
    d ∈ cs ∨ d ∈ writtenAnew := by
  obtain ⟨_, hl, _, h⟩ := h
  rw [toList_text_components, List.mem_append] at hd
  rcases hd with hd | hd
  · exact (hl.mem_text hd).imp_left (List.mem_append_left _)
  · exact (h.mem_text hd).imp_left (List.mem_append_right _)

theorem ComponentRow.suffix (h : ComponentRow rest ss cs) : rest <:+ cs := by
  induction h with
  | nil => exact List.suffix_refl _
  | cons _ _ _ _ _ ih => exact ih.trans (List.suffix_append _ _)

theorem CompoundRow.suffix {c : Compound} (h : CompoundRow rest c cs) : rest <:+ cs := by
  obtain ⟨_, _, _, h⟩ := h
  exact h.suffix.trans (List.suffix_append _ _)

/-- Items are written with the characters of the text they were read from, and quotes and
spaces. -/
theorem ItemRow.mem_spaced {b : Bool} {items : List Item} (h : ItemRow b items cs)
    (hd : d ∈ spacedItems items) : d ∈ cs ∨ d ∈ writtenAnew := by
  have hspace : ' ' ∈ writtenAnew := by decide
  induction h with
  | nil => cases hd
  | separator _ _ ih => exact (ih hd).imp_left (List.mem_cons_of_mem _)
  | @combinator k items c cs hk h ih =>
    rw [spacedItems, List.flatMap_cons, Item.text, toList_text_of_ofChar? hk, List.mem_append,
      List.mem_cons, List.mem_singleton] at hd
    rcases hd with (rfl | rfl) | hd
    · exact Or.inr hspace
    · exact Or.inl (List.mem_cons_self ..)
    · exact (ih hd).imp_left (List.mem_cons_of_mem _)
  | @compound b c items cs rest hc h ih =>
    rw [spacedItems, List.flatMap_cons, List.mem_append, List.mem_cons] at hd
    rcases hd with (rfl | hd) | hd
    · exact Or.inr hspace
    · exact hc.mem_text hd
    · exact (ih hd).imp_left (hc.suffix.subset ·)

theorem ItemRow.isUnified_spaced {b : Bool} {items : List Item} (h : ItemRow b items cs)
    (hu : IsUnified cs) : IsUnified (spacedItems items) := by
  intro c hc
  rcases h.mem_spaced hc with h | h
  · exact hu c h
  · have hnew : (c == '\r' || c == '\x0c') = false :=
      eq_false_of_mem (p := fun c => c == '\r' || c == '\x0c') (by decide) h
    simpa using hnew

/-! ## Whole texts -/

/-- What the links of a text are written as is read as the same links. -/
theorem readJoints_jointsText {text : String} {joints : List Joint}
    (h : readJoints text = .ok joints) : readJoints (jointsText joints) = .ok joints := by
  obtain ⟨items, hn, hr, rfl⟩ := readJoints_eq_ok.1 h
  have hi : items.isEmpty = false := by simpa using hn
  have hs : ' ' :: (jointsText (jointsOfItems items)).toList = spacedItems items := by
    simpa [hi] using toList_jointsText hr.ne_descendant
  have hu : IsUnified (jointsText (jointsOfItems items)).toList := by
    intro c hc
    exact hr.isUnified_spaced (isUnified_unifyLineEnds _) c (hs ▸ List.mem_cons_of_mem _ hc)
  refine readJoints_eq_ok.2 ⟨items, hn, ?_, rfl⟩
  rw [unifyLineEnds_of_isUnified hu]
  exact .of_separator (c := ' ') (by decide) (hs ▸ hr.spaced)

/-! ## Round trips -/

/-- **Written and read again, a chain that was read is the same chain.** The second reading may
happen in any context. -/
theorem readChain_text_same [CodeMap] {ctx next : Context} {text : String} {c : Chain}
    (h : (Pass.readChain text).run ctx = (.ok c, next)) (ctx' : Context) :
    ∃ c' next', (Pass.readChain c.text).run ctx' = (.ok c', next') ∧ c'.same c := by
  obtain ⟨c', next', h', e⟩ :=
    readChain_of_readJoints (readJoints_jointsText (readJoints_of_readChain h)) ctx'
  exact ⟨c', next', h', Chain.same_iff.2 e⟩

/-- Namespaces, quotes, a modifier, an argument with parentheses, line ends of all kinds and
combinators at both ends. -/
theorem readChain_text_same_mixed :
    ∃ c next, (Pass.readChain ">ns|*[a|b ^=\r\n'x\"y'i ]:Not(\t(c )\x0c)~").run { options := {} } =
        (.ok c, next) ∧
      c.text = "> ns|*[a|b^='x\"y' i]:Not((c )) ~" ∧
      ∃ c' next', (Pass.readChain c.text).run next = (.ok c', next') ∧ c'.same c := by
  have h : readJoints ">ns|*[a|b ^=\r\n'x\"y'i ]:Not(\t(c )\x0c)~" = .ok
      [(none, .child), (some ⟨[.universal (.named "ns"),
        .attr ⟨⟨.named "a", "b"⟩, .startsWith, some "x\"y", some 'i'⟩,
        .pseudo ⟨"Not", true, true, some "(c )"⟩]⟩, .followingSibling)] := by decide +kernel
  obtain ⟨c, next, hc, e⟩ := readChain_of_readJoints h { options := {} }
  exact ⟨c, next, hc, by rw [Chain.text, e]; decide +kernel, readChain_text_same hc next⟩

end SelectorAlgebra
