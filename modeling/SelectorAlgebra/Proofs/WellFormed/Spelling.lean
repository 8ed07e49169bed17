import SelectorAlgebra.Proofs.WellFormed.Reading
import SelectorAlgebra.Source.Consecutive

/-
  The ways to write a well-formed chain, and that all of them read as that chain. The layouts of
  simple selectors have line feeds for line ends; in a text each may be any line end, and any
  white space may stand around combinators and at the two ends. What keeps compounds apart is
  that every simple selector ends before white space and before a combinator.
-/

namespace SelectorAlgebra

variable {cs rest used gap : List Char} {s : Simple} {ss : List Simple} {c : Compound} {b : Bool}
  {js : List Joint} {items : List Item}

/-! ## Spellings -/

/-- White space as it may be written: a separator, or another line end. -/
def isWhite (c : Char) : Bool := isSeparator c || c == '\r' || c == '\x0c'

def IsWhite (cs : List Char) : Prop := cs.all isWhite

/-- Layouts of simple selectors, one right after another. -/
inductive ComponentsLayout : List Simple → List Char → Prop where
  | nil : ComponentsLayout [] []
  | cons {s : Simple} {ss : List Simple} {used cs : List Char} (hl : s.Layout used)
      (h : ComponentsLayout ss cs) : ComponentsLayout (s :: ss) (used ++ cs)

/-- The ways to write a compound selector: a layout of it, with line ends of any kind. -/
def Compound.Spelling (c : Compound) (cs : List Char) : Prop :=
  ComponentsLayout c.components (unifyLineEnds cs)

/-- The ways to write what a link may do without. -/
def HeadSpelling : Option Compound → List Char → Prop
  | none, cs => cs = []
  | some c, cs => c.Spelling cs

/-- The ways to write links. A combinator has any white space around it; the descendant combinator
is white space, and only the last one may be none at all. -/
inductive LinksSpelling : List Joint → List Char → Prop where
  | nil : LinksSpelling [] []
  | joined {head : Option Compound} {k : Combinator} {js : List Joint}
      {used gap₁ gap₂ cs : List Char} (hh : HeadSpelling head used) (hk : k ≠ .descendant)
      (h₁ : IsWhite gap₁) (h₂ : IsWhite gap₂) (h : LinksSpelling js cs) :
      LinksSpelling ((head, k) :: js) (used ++ (gap₁ ++ (k.text.toList ++ (gap₂ ++ cs))))
  | apart {c : Compound} {js : List Joint} {used gap cs : List Char} (hc : c.Spelling used)
      (hg : IsWhite gap) (hne : js ≠ [] → gap ≠ []) (h : LinksSpelling js cs) :
      LinksSpelling ((some c, .descendant) :: js) (used ++ (gap ++ cs))

/-- The ways to write a chain: its links, after any white space. -/
def Chain.Spelling (c : Chain) (cs : List Char) : Prop :=
  ∃ gap used, IsWhite gap ∧ LinksSpelling c.joints used ∧ cs = gap ++ used

/-! ## Line ends -/

/-- A character, or a line feed for a line end. -/
def unifyLineEnd (c : Char) : Char := if c = '\r' ∨ c = '\x0c' then '\n' else c

theorem head?_unifyLineEnds (cs : List Char) :
    (unifyLineEnds cs).head? = cs.head?.map unifyLineEnd := by
  fun_cases unifyLineEnds cs <;> simp [unifyLineEnd]

/-- One more character before a text makes one line end with its first, or stands on its own. -/
theorem unifyLineEnds_cons (c : Char) (cs : List Char) :
    unifyLineEnds (c :: cs) = unifyLineEnds cs ∨
      unifyLineEnds (c :: cs) = unifyLineEnd c :: unifyLineEnds cs := by
  by_cases h : c = '\r' ∧ ∃ more, cs = '\n' :: more
  · obtain ⟨rfl, more, rfl⟩ := h
    left
    simp [unifyLineEnds]
  · right
    rw [unifyLineEnds, unifyLineEnd]
    intro more hc hcs
    exact h ⟨hc, more, hcs⟩

theorem getLast?_ne_of_cons {d e : Char} (h : (d :: cs).getLast? ≠ some e) :
    cs.getLast? ≠ some e := by
  intro he
  rw [List.getLast?_cons, he] at h
  exact h rfl

/-- Only a line end at the end of a text can make one line end with what comes after it. -/
theorem unifyLineEnds_append (h : (unifyLineEnds used).getLast? ≠ some '\n') (cs : List Char) :
    unifyLineEnds (used ++ cs) = unifyLineEnds used ++ unifyLineEnds cs := by
  fun_induction unifyLineEnds used with
  | case1 => rfl
  | case2 used ih =>
    rw [List.cons_append, List.cons_append, unifyLineEnds, ih (getLast?_ne_of_cons h)]
    rfl
  | case3 d used hne ih =>
    have hne' : ∀ more, d = '\r' → used ++ cs = '\n' :: more → False := by
      intro more hd he
      cases used with
      | nil => simp [hd, unifyLineEnds] at h
      | cons d' used =>
        rw [List.cons_append, List.cons.injEq] at he
        exact hne used hd (by rw [he.1])
    rw [List.cons_append, unifyLineEnds, ih (getLast?_ne_of_cons h)]
    · rfl
    · exact hne'

theorem unifyLineEnds_combinator {k : Combinator} (hk : k ≠ .descendant) (cs : List Char) :
    unifyLineEnds (k.text.toList ++ cs) = k.text.toList ++ unifyLineEnds cs := by
  cases k with
  | descendant => exact absurd rfl hk
  | _ => simp [Combinator.text, unifyLineEnds]

theorem isSeparator_of_isWhite {d : Char} (h : isWhite d) :
    isSeparator (unifyLineEnd d) := by
  unfold unifyLineEnd
  split
  · rfl
  · simp_all [isWhite]

/-- White space before items is skipped. -/
theorem ItemRow.white (hg : IsWhite gap) (h : ItemRow b items (unifyLineEnds cs)) :
    ItemRow b items (unifyLineEnds (gap ++ cs)) := by
  induction gap with
  | nil => exact h
  | cons d gap ih =>
    rw [IsWhite, List.all_cons, Bool.and_eq_true] at hg
    rw [List.cons_append]
    rcases unifyLineEnds_cons d (gap ++ cs) with e | e
    · rw [e]
      exact ih hg.2
    · rw [e]
      exact .separator (isSeparator_of_isWhite hg.1) (ih hg.2)

/-! ## Where compounds end -/

theorem mem_ends_of_isWhite {d : Char} (h : isWhite d) : unifyLineEnd d ∈ ends := by
  have hs := isSeparator_of_isWhite h
  simp only [isSeparator, Bool.or_eq_true, beq_iff_eq] at hs
  rcases hs with (hs | hs) | hs <;> rw [hs] <;> decide

theorem getLast?_append_isName (h : isName used) (lead : List Char) :
    (lead ++ used).getLast? ≠ some '\n' := by
  intro he
  have hne : used ≠ [] := by
    rintro rfl
    cases h
  rw [List.getLast?_append_of_ne_nil _ hne] at he
  have hn := List.all_eq_true.1 (isNameChar_of_isName h) _ (List.mem_of_getLast? he)
  exact absurd hn (by decide)

theorem Attribute.Layout.getLast?_eq {a : Attribute} (h : a.Layout used) :
    used.getLast? = some ']' := by
  cases h with
  | present => simp only [← List.append_assoc, List.getLast?_concat]
  | test => simp only [← List.append_assoc, List.getLast?_concat]

/-- No layout ends in a line end. -/
theorem Simple.Layout.getLast?_ne (hr : s.Readable) (hl : s.Layout used) :
    used.getLast? ≠ some '\n' := by
  cases s with
  | universal space =>
    rw [show used = space.text.toList ++ ['*'] from hl.trans (toList_text_universal space)]
    simp
  | element n =>
    rw [show used = n.space.text.toList ++ n.name.toList from hl.trans (toList_text_element n)]
    exact getLast?_append_isName hr.2 _
  | classed name =>
    rw [show used = '.' :: name.toList from hl.trans (toList_text_classed name)]
    exact getLast?_append_isName hr ['.']
  | id name =>
    rw [show used = '#' :: name.toList from hl.trans (toList_text_id name)]
    exact getLast?_append_isName hr ['#']
  | placeholder name =>
    rw [show used = '%' :: name.toList from hl.trans (toList_text_placeholder name)]
    exact getLast?_append_isName hr ['%']
  | pseudo p =>
    obtain ⟨name, isClass, isSyntacticClass, argument⟩ := p
    obtain ⟨written, h, rfl⟩ := hl
    cases argument with
    | none =>
      rw [show written = [] from h, List.append_nil]
      exact getLast?_append_isName hr.1 _
    | some argument =>
      obtain ⟨lead, trail, _, _, rfl⟩ := h
      simp [List.getLast?_append, List.getLast?_cons]
  | attr a =>
    obtain ⟨inside, h, rfl⟩ := hl
    rw [List.getLast?_cons, h.getLast?_eq]
    simp

/-! ## Compounds -/

theorem ComponentsLayout.getLast?_ne (h : ComponentsLayout ss cs) (hr : ∀ s ∈ ss, s.Readable) :
    cs.getLast? ≠ some '\n' := by
  induction h with
  | nil => simp
  | @cons s ss used cs hl h ih =>
    obtain ⟨hs, hr⟩ := List.forall_mem_cons.1 hr
    rw [List.getLast?_append]
    cases he : cs.getLast? with
    | none => exact hl.getLast?_ne hs
    | some d =>
      rw [he] at ih
      exact ih hr

/-- Layouts of simple selectors that may follow `s` are a row, after which reading `s` stops. -/
theorem ComponentsLayout.row (h : ComponentsLayout ss cs) (hr : ∀ s ∈ ss, s.Readable)
    (hc : (s :: ss).IsChain Simple.Precedes) (he : ∀ d ∈ rest.head?, d ∈ ends) :
    StopsBefore s.absorbs (cs ++ rest) ∧ ComponentRow rest ss (cs ++ rest) := by
  induction h generalizing s with
  | nil =>
    exact ⟨stopsBefore_of_ends s.absorbs_ends he, .nil (stopsBefore_of_ends (by decide) he)⟩
  | @cons t ss used cs hl h ih =>
    obtain ⟨ht, hr⟩ := List.forall_mem_cons.1 hr
    obtain ⟨hst, hc⟩ := List.isChain_cons_cons.1 hc
    obtain ⟨hstops, hrow⟩ := ih hr hc
    have hm : used.head?.any startsSimple := (hl.startsSimple_iff ht).2 hst.1
    rw [List.append_assoc]
    exact ⟨(hl.stopsBefore_iff ht hm).2 hst, .cons ht hl hm hstops hrow⟩

/-- A spelling of a well-formed compound selector is read as it, up to white space, a combinator
or the end. -/
theorem Compound.Spelling.row (h : c.Spelling used) (hw : c.WellFormed)
    (he : ∀ d ∈ (unifyLineEnds rest).head?, d ∈ ends) :
    CompoundRow (unifyLineEnds rest) c (unifyLineEnds (used ++ rest)) := by
  have hr : ∀ s ∈ c.components, s.Readable := fun s hs => (hw.components s hs).1
  have hlast : (unifyLineEnds used).getLast? ≠ some '\n' := ComponentsLayout.getLast?_ne h hr
  rw [unifyLineEnds_append hlast]
  obtain ⟨components⟩ := c
  change ComponentsLayout components (unifyLineEnds used) at h
  generalize unifyLineEnds used = layout at h
  cases h with
  | nil => exact absurd rfl hw.ne_nil
  | cons hl h =>
    obtain ⟨hs, hr⟩ := List.forall_mem_cons.1 hr
    obtain ⟨hstops, hrow⟩ := h.row hr hw.precedes he
    rw [List.append_assoc]
    exact .mk hs hl hstops hrow

/-! ## Links -/

theorem exists_ofChar? {k : Combinator} (hk : k ≠ .descendant) :
    ∃ d, k.text.toList = [d] ∧ Combinator.ofChar? d = some k ∧ d ∈ ends := by
  cases k with
  | descendant => exact absurd rfl hk
  | child => exact ⟨'>', rfl, rfl, by decide⟩
  | nextSibling => exact ⟨'+', rfl, rfl, by decide⟩
  | followingSibling => exact ⟨'~', rfl, rfl, by decide⟩

/-- What white space begins ends compounds, and else what comes after it does. -/
theorem mem_ends_of_isWhite_append (hg : IsWhite gap)
    (h : gap = [] → ∀ d ∈ (unifyLineEnds cs).head?, d ∈ ends) :
    ∀ d ∈ (unifyLineEnds (gap ++ cs)).head?, d ∈ ends := by
  cases gap with
  | nil => exact h rfl
  | cons w gap =>
    rw [IsWhite, List.all_cons, Bool.and_eq_true] at hg
    intro d hd
    rw [head?_unifyLineEnds] at hd
    cases hd
    exact mem_ends_of_isWhite hg.1

theorem AllHeaded.tail (h : AllHeaded js) : AllHeaded js.tail :=
  fun j hj => h j (List.mem_of_mem_tail hj)

/-- A compound right before others makes a link of its own. -/
theorem jointsOfItems_apart (h : AllHeaded (jointsOfItems items)) (c : Compound) :
    jointsOfItems (.compound c :: items) = (some c, .descendant) :: jointsOfItems items := by
  cases items with
  | nil => rfl
  | cons i items =>
    cases i with
    | compound c' => rfl
    | combinator k =>
      have hhead := (allHeaded_cons.1 h).1
      cases hhead

/-- A spelling of links is a row of the items that are paired into them. Only the first link may
lack a head, and not right after a combinator. -/
theorem LinksSpelling.exists_items (h : LinksSpelling js cs)
    (hw : ∀ j ∈ js, ∀ head ∈ j.1, head.WellFormed) (ht : AllHeaded js.tail)
    (hb : b → AllHeaded js) :
    ∃ items, ItemRow b items (unifyLineEnds cs) ∧ jointsOfItems items = js := by
  induction h generalizing b with
  | nil => exact ⟨[], .nil, rfl⟩
  | @joined head k js used gap₁ gap₂ cs hh hk h₁ h₂ h ih =>
    obtain ⟨hhead, hw⟩ := List.forall_mem_cons.1 hw
    obtain ⟨items, hrow, rfl⟩ := ih hw (AllHeaded.tail ht) fun _ => ht
    obtain ⟨d, hd, hk', hends⟩ := exists_ofChar? hk
    have hdrow : ItemRow false (.combinator k :: items)
        (unifyLineEnds (k.text.toList ++ (gap₂ ++ cs))) := by
      rw [unifyLineEnds_combinator hk, hd]
      exact .combinator hk' (hrow.white h₂)
    cases head with
    | none =>
      have hb' : b = false := by
        cases b with
        | false => rfl
        | true => cases (allHeaded_cons.1 (hb rfl)).1
      rw [hb', show used = [] from hh, List.nil_append]
      exact ⟨_, hdrow.white h₁, rfl⟩
    | some c =>
      have hends' : ∀ e ∈ (unifyLineEnds (gap₁ ++ (k.text.toList ++ (gap₂ ++ cs)))).head?,
          e ∈ ends := by
        refine mem_ends_of_isWhite_append h₁ fun _ e he => ?_
        rw [unifyLineEnds_combinator hk, hd] at he
        cases he
        exact hends
      exact ⟨_, .compound (Compound.Spelling.row hh (hhead c rfl) hends') (hdrow.white h₁), rfl⟩
  | @apart c js used gap cs hc hg hne h ih =>
    obtain ⟨hhead, hw⟩ := List.forall_mem_cons.1 hw
    obtain ⟨items, hrow, rfl⟩ := ih hw (AllHeaded.tail ht) fun _ => ht
    have hends : ∀ e ∈ (unifyLineEnds (gap ++ cs)).head?, e ∈ ends := by
      refine mem_ends_of_isWhite_append hg fun hg => ?_
      -- only the last link does without white space, and nothing comes after it
      have hlast : jointsOfItems items = [] := not_imp_not.1 hne hg
      rw [hlast] at h
      cases h
      simp [unifyLineEnds]
    exact ⟨_, .compound (Compound.Spelling.row hc (hhead c rfl) hends) (hrow.white hg),
      jointsOfItems_apart ht c⟩

/-! ## Whole texts -/

theorem readJoints_of_spelling {text : String} {c : Chain} (hw : c.WellFormed)
    (hs : c.Spelling text.toList) : readJoints text = .ok c.joints := by
  obtain ⟨gap, used, hg, hl, e⟩ := hs
  have hheads : ∀ j ∈ c.joints, ∀ head ∈ j.1, head.WellFormed := by
    intro j hj
    obtain ⟨l, hl, rfl⟩ := List.mem_map.1 hj
    exact hw.heads l hl
  obtain ⟨items, hrow, hi⟩ := hl.exists_items (b := false) hheads
    (allHeaded_tail_joints hw.rest) fun hb => by cases hb
  refine readJoints_eq_ok.2 ⟨items, ?_, ?_, hi.symm⟩
  · rintro rfl
    exact c.joints_ne_nil hi.symm
  · rw [e]
    exact hrow.white hg

/-- **Every spelling of a well-formed chain is read as that chain**, in any context. -/
theorem readChain_spelling [CodeMap] {text : String} {c : Chain} (hw : c.WellFormed)
    (hs : c.Spelling text.toList) (ctx : Context) :
    ∃ c' next, (Pass.readChain text).run ctx = (.ok c', next) ∧ c'.same c := by
  obtain ⟨c', next, h, e⟩ := readChain_of_readJoints (readJoints_of_spelling hw hs) ctx
  exact ⟨c', next, h, Chain.same_iff.2 e⟩

/-- White space of all kinds, also around an argument and within brackets. -/
theorem readChain_spelling_white :
    let a : Compound := ⟨[.element ⟨.any, "a"⟩,
      .attr ⟨⟨.unwritten, "b"⟩, .includes, some "c", some 'i'⟩]⟩
    let d : Compound := ⟨[.pseudo ⟨"not", true, true, some "e"⟩]⟩
    let c : Chain := .ofJoints [(none, .child), (some a, .descendant), (some d, .nextSibling)]
    let text := "\x0c>\r*|a[\tb\r\n~= c\x0ci]\r\x0c:not(\u00a0e\r)+\r\n"
    c.WellFormed ∧ c.Spelling text.toList ∧
      ∃ c' next, (Pass.readChain text).run { options := {} } = (.ok c', next) ∧ c'.same c := by
  intro a d c text
  -- read from another of its spellings
  have hc : c.WellFormed := by
    have h : readJoints "> *|a[b~='c' i] :not(e) +" = .ok c.joints := by decide +kernel
    exact wellFormed_of_readJoints h
  have hinside : Attribute.Layout ⟨⟨.unwritten, "b"⟩, .includes, some "c", some 'i'⟩ _ :=
    .test (show IsGap ['\t'] from rfl) (show IsGap ['\n'] from rfl) (show IsGap [' '] from rfl)
      (show IsGap ['\n'] from rfl) (show ModifierLayout _ ['i'] from ⟨[], rfl, rfl⟩)
      (.bare rfl rfl)
  have ha : a.Spelling "*|a[\tb\r\n~= c\x0ci]".toList := by
    have e : unifyLineEnds "*|a[\tb\r\n~= c\x0ci]".toList =
      "*|a".toList ++ ("[\tb\n~= c\ni]".toList ++ []) := by decide +kernel
    have hs : "*|a".toList = (Simple.element ⟨.any, "a"⟩).text.toList := by decide +kernel
    unfold Compound.Spelling
    rw [e]
    exact .cons hs (.cons ⟨_, hinside, by decide +kernel⟩ .nil)
  have hargument : ArgumentLayout (some "e") "(\u00a0e\n)".toList :=
    ⟨['\u00a0'], ['\n'], by decide, by decide, by decide⟩
  have hd : d.Spelling ":not(\u00a0e\r)".toList := by
    have e : unifyLineEnds ":not(\u00a0e\r)".toList = ":not(\u00a0e\n)".toList ++ [] := by
      decide +kernel
    unfold Compound.Spelling
    rw [e]
    exact .cons ⟨_, hargument, by decide +kernel⟩ .nil
  have hs : c.Spelling text.toList := by
    have h₃ : LinksSpelling [(some d, .nextSibling)] _ :=
      .joined hd (by decide) (show IsWhite [] from rfl) (show IsWhite ['\r', '\n'] from rfl) .nil
    have h₂ : LinksSpelling [(some a, .descendant), (some d, .nextSibling)] _ :=
      .apart ha (show IsWhite ['\r', '\x0c'] from rfl) (by decide) h₃
    have h₁ : LinksSpelling c.joints _ :=
      .joined rfl (by decide) (show IsWhite [] from rfl) (show IsWhite ['\r'] from rfl) h₂
    exact ⟨['\x0c'], _, rfl, h₁, by decide +kernel⟩
  exact ⟨hc, hs, readChain_spelling hc hs _⟩

end SelectorAlgebra
