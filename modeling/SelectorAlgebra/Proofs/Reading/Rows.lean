import SelectorAlgebra.Context
import SelectorAlgebra.Proofs.Reading.Simples

/-
  What the readers of compound and complex selectors take. `ComponentRow`, `CompoundRow` and
  `ItemRow` say how a text is made up of layouts of simple selectors, each ending where reading
  stops, of combinators and of gaps. `readCompound_eq_ok` and `readAllItems_eq_ok` say that the
  readers find such a row exactly where there is one. A pass reads a text exactly if there are
  links in it, whatever its context, and the chain it gives has these links
  (`readChain_of_readJoints`).
-/

namespace SelectorAlgebra

variable {cs rest used : List Char} {s : Simple} {ss : List Simple}

/-! ## Rows -/

/-- Simple selectors one right after another, up to `rest`. None of them begins with a name. -/
inductive ComponentRow (rest : List Char) : List Simple → List Char → Prop where
  | nil (hs : StopsBefore startsSimple rest) : ComponentRow rest [] rest
  | cons {s : Simple} {ss : List Simple} {used cs : List Char} (hr : s.Readable)
      (hl : s.Layout used) (hm : used.head?.any startsSimple) (hs : StopsBefore s.absorbs cs)
      (h : ComponentRow rest ss cs) : ComponentRow rest (s :: ss) (used ++ cs)

/-- A compound selector up to `rest`: any simple selector, and more of those that follow one. -/
inductive CompoundRow (rest : List Char) : Compound → List Char → Prop where
  | mk {s : Simple} {ss : List Simple} {used cs : List Char} (hr : s.Readable)
      (hl : s.Layout used) (hs : StopsBefore s.absorbs cs) (h : ComponentRow rest ss cs) :
      CompoundRow rest ⟨s :: ss⟩ (used ++ cs)

/-- Items and gaps that make up a whole text. After a combinator, which `afterCombinator` says
there is before the text, there is no other one. -/
inductive ItemRow : (afterCombinator : Bool) → List Item → List Char → Prop where
  | nil {b : Bool} : ItemRow b [] []
  | separator {b : Bool} {items : List Item} {c : Char} {cs : List Char} (hc : isSeparator c)
      (h : ItemRow b items cs) : ItemRow b items (c :: cs)
  | combinator {k : Combinator} {items : List Item} {c : Char} {cs : List Char}
      (hk : Combinator.ofChar? c = some k) (h : ItemRow true items cs) :
      ItemRow false (.combinator k :: items) (c :: cs)
  | compound {b : Bool} {c : Compound} {items : List Item} {cs rest : List Char}
      (hc : CompoundRow rest c cs) (h : ItemRow false items rest) :
      ItemRow b (.compound c :: items) cs

theorem ItemRow.gap {b : Bool} {items : List Item} {gap : List Char} (hg : IsGap gap)
    (h : ItemRow b items cs) : ItemRow b items (gap ++ cs) := by
  induction gap with
  | nil => exact h
  | cons c gap ih =>
    obtain ⟨hc, hg⟩ := isGap_cons.1 hg
    exact .separator hc (ih hg)

/-! ## How they begin -/

theorem Simple.Layout.exists_cons (hr : s.Readable) (hl : s.Layout used) :
    ∃ d more, used = d :: more ∧ (isMark d ∨ beginsElement d) := by
  cases s with
  | universal space =>
    obtain ⟨d, more, e, hd⟩ := Simple.IsElement.exists_cons (s := .universal space) trivial hr
    exact ⟨d, more, hl.trans e, Or.inr hd⟩
  | element n =>
    obtain ⟨d, more, e, hd⟩ := Simple.IsElement.exists_cons (s := .element n) trivial hr
    exact ⟨d, more, hl.trans e, Or.inr hd⟩
  | classed name => exact ⟨'.', name.toList, hl.trans (toList_text_classed name), Or.inl rfl⟩
  | id name => exact ⟨'#', name.toList, hl.trans (toList_text_id name), Or.inl rfl⟩
  | placeholder name =>
    exact ⟨'%', name.toList, hl.trans (toList_text_placeholder name), Or.inl rfl⟩
  | pseudo p =>
    obtain ⟨written, _, rfl⟩ := hl
    exact ⟨':', _, rfl, Or.inl rfl⟩
  | attr a =>
    obtain ⟨inside, _, rfl⟩ := hl
    exact ⟨'[', inside, rfl, Or.inl rfl⟩

theorem startsIdentifier_of_isName (h : isName used) (rest : List Char) :
    startsIdentifier (used ++ rest) := by
  rcases isName_iff.1 h with ⟨more, rfl, _⟩ | ⟨c, more, rfl, hc, _⟩ | ⟨c, more, rfl, hc, _⟩
  · rfl
  · simp [startsIdentifier, hc]
  · rw [List.cons_append, startsIdentifier]
    · exact hc
    · rintro _ _ rfl _
      exact absurd hc (by decide)

theorem startsCompound_of_isName (h : isName used) (rest : List Char) :
    startsCompound (used ++ rest) := by
  rw [startsCompound, startsIdentifier_of_isName h, Bool.or_true]

theorem startsCompound_of_namespace {space : Namespace} (hr : space.Readable)
    (hw : space ≠ .unwritten) (rest : List Char) : startsCompound (space.text.toList ++ rest) := by
  cases space with
  | unwritten => exact absurd rfl hw
  | empty => rfl
  | any => rfl
  | named first =>
    rw [Namespace.toList_text_named, List.append_assoc]
    exact startsCompound_of_isName hr _

/-- A compound selector is looked for where the layout of a simple selector stands. -/
theorem Simple.Layout.startsCompound (hr : s.Readable) (hl : s.Layout used) (rest : List Char) :
    startsCompound (used ++ rest) := by
  cases s with
  | universal space =>
    rw [show used = space.text.toList ++ ['*'] from hl.trans (toList_text_universal space)]
    change space.Readable at hr
    cases space with
    | unwritten => rfl
    | _ =>
      rw [List.append_assoc]
      exact startsCompound_of_namespace hr (by simp) _
  | element n =>
    rw [show used = n.space.text.toList ++ n.name.toList from hl.trans (toList_text_element n)]
    obtain ⟨space, name⟩ := n
    cases space with
    | unwritten => exact startsCompound_of_isName hr.2 rest
    | _ =>
      rw [List.append_assoc]
      exact startsCompound_of_namespace hr.1 (by simp) _
  | classed name =>
    rw [show used = '.' :: name.toList from hl.trans (toList_text_classed name)]
    rfl
  | id name =>
    rw [show used = '#' :: name.toList from hl.trans (toList_text_id name)]
    rfl
  | placeholder name =>
    rw [show used = '%' :: name.toList from hl.trans (toList_text_placeholder name)]
    rfl
  | pseudo p =>
    obtain ⟨written, _, rfl⟩ := hl
    rfl
  | attr a =>
    obtain ⟨inside, _, rfl⟩ := hl
    rfl

theorem isSeparator_of_isMark {c : Char} (h : isMark c) : isSeparator c = false := by
  exact eq_false_of_mem (by decide) (List.contains_iff_mem.1 h)

theorem ofChar?_eq_none {p : Char → Bool} {c : Char} (hp : ['+', '>', '~'].any p = false)
    (h : p c) : Combinator.ofChar? c = none := by
  unfold Combinator.ofChar?
  split
  case h_4 => rfl
  all_goals
    rw [eq_false_of_mem hp (by simp)] at h
    cases h

theorem isSeparator_of_ofChar? {c : Char} {k : Combinator} (h : Combinator.ofChar? c = some k) :
    isSeparator c = false := by
  unfold Combinator.ofChar? at h
  split at h
  · rfl
  · rfl
  · rfl
  · cases h

/-- What a compound selector begins with is neither white space nor a combinator. -/
theorem CompoundRow.exists_cons {c : Compound} (h : CompoundRow rest c cs) :
    ∃ d more, cs = d :: more ∧ isSeparator d = false ∧ Combinator.ofChar? d = none ∧
      startsCompound cs := by
  obtain ⟨hr, hl, hs, _⟩ := h
  have hc := hl.startsCompound hr
  obtain ⟨d, more, rfl, hd | hd⟩ := hl.exists_cons hr
  · exact ⟨d, _, rfl, isSeparator_of_isMark hd, ofChar?_eq_none (by decide) hd, hc _⟩
  · exact ⟨d, _, rfl, isSeparator_of_beginsElement hd, ofChar?_eq_none (by decide) hd, hc _⟩

/-! ## Compounds -/

theorem readComponents_sound (h : readComponents cs = .ok (ss, rest)) :
    ComponentRow rest ss cs := by
  induction cs using readComponents.induct generalizing ss with
  | case1 cs hc failure hs =>
    rw [readComponents_eq, if_pos hc, hs] at h
    cases h
  | case2 cs hc s mid hs hlt ih =>
    rw [readComponents_eq, if_pos hc, hs] at h
    change (readComponents mid >>= _) = _ at h
    obtain ⟨⟨ss', rest'⟩, h₁, e⟩ := bind_eq_ok.1 h
    cases e
    obtain ⟨hr, used, hl, rfl, hs'⟩ := readSimple_eq_ok.1 hs
    obtain ⟨d, more, rfl, _⟩ := hl.exists_cons hr
    exact .cons hr hl hc hs' (ih h₁)
  | case3 cs hc =>
    rw [readComponents_eq, if_neg hc] at h
    cases h
    exact .nil (by simpa [StopsBefore] using hc)

theorem readComponents_row (h : ComponentRow rest ss cs) :
    readComponents cs = .ok (ss, rest) := by
  induction h with
  | nil hs =>
    rw [readComponents_eq, if_neg (by rw [hs]; simp)]
  | @cons s ss used cs hr hl hm hs h ih =>
    have hm' : (used ++ cs).head?.any startsSimple := by
      obtain ⟨d, more, rfl, _⟩ := hl.exists_cons hr
      exact hm
    rw [readComponents_eq, if_pos hm', readSimple_layout hr hl hs]
    show (readComponents cs >>= _) = _
    rw [ih]
    rfl

theorem readCompound_eq_ok {c : Compound} :
    readCompound cs = .ok (c, rest) ↔ CompoundRow rest c cs := by
  constructor
  · intro h
    obtain ⟨⟨s, mid⟩, h₁, h⟩ := bind_eq_ok.1 h
    obtain ⟨⟨ss, rest'⟩, h₂, e⟩ := bind_eq_ok.1 h
    cases e
    obtain ⟨hr, used, hl, rfl, hs⟩ := readSimple_eq_ok.1 h₁
    exact .mk hr hl hs (readComponents_sound h₂)
  · rintro ⟨hr, hl, hs, h⟩
    simp only [readCompound, readSimple_layout hr hl hs, readComponents_row h, bind, Except.bind]
    rfl

/-! ## Items -/

theorem readItems_sound {b : Bool} {items : List Item} (h : readItems b cs = .ok (items, [])) :
    ItemRow b items cs := by
  -- by length, since a compound of any length is taken at once
  induction hn : cs.length using Nat.strongRecOn generalizing b cs items with
  | ind n ih =>
    subst hn
    obtain ⟨gap, hg, e, _⟩ := exists_gap cs
    have hlen : (skipSeparators cs).length ≤ cs.length := (skipSeparators_suffix cs).length_le
    rw [readItems_eq] at h
    rw [e]
    refine ItemRow.gap hg ?_
    split at h
    · rename_i hk
      cases h
      rw [hk]
      exact .nil
    · rename_i c tail hk
      rw [hk, List.length_cons] at hlen
      rw [hk]
      split at h
      · rename_i k hc
        split at h
        · cases h
        · rename_i hb
          obtain ⟨⟨items', rest'⟩, h₁, h⟩ := bind_eq_ok.1 h
          cases h
          rw [Bool.not_eq_true] at hb
          subst hb
          exact .combinator hc (ih _ (by omega) h₁ rfl)
      · split at h
        · obtain ⟨⟨compound, mid⟩, h₁, h⟩ := bind_eq_ok.1 h
          obtain ⟨⟨items', rest'⟩, h₂, h⟩ := bind_eq_ok.1 h
          cases h
          have hlt := (readCompound_suffix h₁).length_lt
          rw [List.length_cons] at hlt
          exact .compound (readCompound_eq_ok.1 h₁) (ih _ (by omega) h₂ rfl)
        · cases h

theorem readItems_row {b : Bool} {items : List Item} (h : ItemRow b items cs) :
    readItems b cs = .ok (items, []) := by
  induction h with
  | nil => exact readItems_eq _ _
  | @separator b items c cs hc h ih =>
    have hk : skipSeparators (c :: cs) = skipSeparators cs := by
      rw [skipSeparators, List.dropWhile_cons, if_pos hc]
      rfl
    rw [readItems_eq, hk, ← readItems_eq, ih]
  | @combinator k items c cs hk h ih =>
    rw [readItems_eq, skipSeparators_of_stops (stopsBefore_cons.2 (isSeparator_of_ofChar? hk))]
    simp only [hk, ih, bind, Except.bind]
    rfl
  | @compound b c items cs rest hc h ih =>
    obtain ⟨d, more, rfl, hd, hk, hs⟩ := hc.exists_cons
    rw [readItems_eq, skipSeparators_of_stops (stopsBefore_cons.2 hd)]
    simp only [hk, hs, readCompound_eq_ok.2 hc, ih, bind, Except.bind]
    rfl

/-- A whole text is read if items make it up and there is one at least. -/
theorem readAllItems_eq_ok {items : List Item} :
    readAllItems cs = .ok items ↔ items ≠ [] ∧ ItemRow false items cs := by
  constructor
  · intro h
    obtain ⟨⟨items', rest⟩, h₁, h⟩ := bind_eq_ok.1 h
    split at h
    · cases h
    · rename_i hn e
      cases e
      cases h
      exact ⟨hn, readItems_sound h₁⟩
    · cases h
  · rintro ⟨hn, h⟩
    simp only [readAllItems, readItems_row h, bind, Except.bind]
    rfl

/-! ## Whole texts -/

/-- Whether all line ends of a text are line feeds. -/
def IsUnified (cs : List Char) : Prop := ∀ c ∈ cs, c ≠ '\r' ∧ c ≠ '\x0c'

instance : DecidablePred IsUnified := fun cs =>
  List.decidableBAll (fun c => c ≠ '\r' ∧ c ≠ '\x0c') cs

theorem isUnified_unifyLineEnds (cs : List Char) : IsUnified (unifyLineEnds cs) := by
  fun_induction unifyLineEnds cs with
  | case1 => simp [IsUnified]
  | case2 cs ih => simpa [IsUnified] using ih
  | case3 c cs h ih =>
    intro d hd
    rcases List.mem_cons.1 hd with rfl | hd
    · split
      · decide
      · rename_i hc
        exact not_or.1 hc
    · exact ih d hd

theorem unifyLineEnds_of_isUnified (h : IsUnified cs) : unifyLineEnds cs = cs := by
  fun_induction unifyLineEnds cs with
  | case1 => rfl
  | case2 cs ih => exact absurd rfl (h '\r' (by simp)).1
  | case3 c cs hne ih =>
    have hc := h c (by simp)
    rw [if_neg (by simp [hc.1, hc.2]), ih fun d hd => h d (List.mem_cons_of_mem _ hd)]

theorem readJoints_of_items {text : String} {items : List Item}
    (h : readAllItems (unifyLineEnds text.toList) = .ok items) :
    readJoints text = .ok (jointsOfItems items) := by
  rw [readJoints, map_char_tokens, h]

theorem readJoints_of_failure {text : String} {failure : Failure}
    (h : readAllItems (unifyLineEnds text.toList) = .error failure) :
    readJoints text = .error (failure.inText (tokens text)) := by
  rw [readJoints, map_char_tokens, h]

/-- A text is read as the links of the items that make it up, its line ends unified. -/
theorem readJoints_eq_ok {text : String} {joints : List Joint} :
    readJoints text = .ok joints ↔
      ∃ items, items ≠ [] ∧ ItemRow false items (unifyLineEnds text.toList) ∧
        joints = jointsOfItems items := by
  rw [readJoints, map_char_tokens]
  constructor
  · intro h
    split at h
    · rename_i items hi
      cases h
      obtain ⟨hn, h⟩ := readAllItems_eq_ok.1 hi
      exact ⟨items, hn, h, rfl⟩
    · cases h
  · rintro ⟨items, hn, h, rfl⟩
    rw [readAllItems_eq_ok.2 ⟨hn, h⟩]

/-! ## Chains of a pass -/

theorem isEmpty_jointsOfItems (items : List Item) :
    (jointsOfItems items).isEmpty = items.isEmpty := by
  fun_cases jointsOfItems items <;> rfl

theorem jointsOfItems_ne_nil {items : List Item} (h : items ≠ []) : jointsOfItems items ≠ [] := by
  intro e
  have hi := isEmpty_jointsOfItems items
  rw [e] at hi
  exact h (List.isEmpty_iff.1 hi.symm)

/-- A text that is read has one link at least. -/
theorem ne_nil_of_readJoints {text : String} {joints : List Joint}
    (h : readJoints text = .ok joints) : joints ≠ [] := by
  obtain ⟨items, hn, _, rfl⟩ := readJoints_eq_ok.1 h
  exact jointsOfItems_ne_nil hn

theorem joints_ofJoints_of_ne_nil {joints : List Joint} (h : joints ≠ []) :
    (Chain.ofJoints joints).joints = joints := by
  cases joints with
  | nil => exact absurd rfl h
  | cons j js => exact Chain.joints_ofJoints j js

theorem readChain_of_readJoints [CodeMap] {text : String} {joints : List Joint}
    (h : readJoints text = .ok joints) (ctx : Context) :
    ∃ c next, (Pass.readChain text).run ctx = (.ok c, next) ∧ c.joints = joints := by
  refine ⟨_, _, Pass.readChain_run_ok h ctx, ?_⟩
  rw [Chain.joints_withSpan, joints_ofJoints_of_ne_nil (ne_nil_of_readJoints h)]

/-- The chain that is read from a text has the links that the text has. -/
theorem readJoints_of_readChain [CodeMap] {ctx next : Context} {text : String} {c : Chain}
    (h : (Pass.readChain text).run ctx = (.ok c, next)) : readJoints text = .ok c.joints := by
  cases hr : readJoints text with
  | error failure =>
    rw [Pass.readChain_run_error hr] at h
    cases h
  | ok joints =>
    obtain ⟨c', next', h', e⟩ := readChain_of_readJoints hr ctx
    rw [h] at h'
    cases h'
    rw [e]

end SelectorAlgebra
