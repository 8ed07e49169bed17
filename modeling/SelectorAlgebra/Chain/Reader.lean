import SelectorAlgebra.Chain.Basic
import SelectorAlgebra.Simple.Reader

/-
  Reading compound and complex selectors. A complex selector is read as a row of items,
  compounds and combinators, and the items are then paired into links. `readJoints` reads a
  whole text; it sees tokens and tells a failure by the bytes that it blames.
-/

namespace SelectorAlgebra

/-! ## Compounds -/

/-- Takes simple selectors as long as a character follows that begins one. A name does not:
it could only follow another name. -/
def readComponents (cs : List Char) : Reading (List Simple × List Char) :=
  if cs.head?.any startsSimple then
    match h : readSimple cs with
    | .error failure => .error failure
    | .ok (s, rest) =>
      have := (readSimple_suffix h).length_lt
      (readComponents rest).map fun (ss, rest) => (s :: ss, rest)
  else .ok ([], cs)
termination_by cs.length

/-- Takes a simple selector and all that are written right after it. -/
def readCompound (cs : List Char) : Reading (Compound × List Char) := do
  let (s, cs) ← readSimple cs
  let (ss, cs) ← readComponents cs
  return (⟨s :: ss⟩, cs)

/-- The recursion of `readComponents`, without its proof of termination. -/
theorem readComponents_eq (cs : List Char) :
    readComponents cs =
      if cs.head?.any startsSimple then do
        let (s, rest) ← readSimple cs
        let (ss, rest) ← readComponents rest
        return (s :: ss, rest)
      else .ok ([], cs) := by
  rw [readComponents]
  split
  · split
    · rename_i failure h; rw [h]; rfl
    · rename_i s rest h
      dsimp only
      rw [h]
      cases h' : readComponents rest <;> simp [h', bind, Except.bind, Except.map, pure, Except.pure]
  · rfl

theorem readComponents_suffix {cs rest : List Char} {ss : List Simple}
    (h : readComponents cs = .ok (ss, rest)) : rest <:+ cs := by
  induction cs using readComponents.induct generalizing ss with
  | case1 cs hc failure hs =>
    rw [readComponents_eq, if_pos hc, hs] at h
    cases h
  | case2 cs hc s mid hs hlt ih =>
    rw [readComponents_eq, if_pos hc, hs] at h
    change (readComponents mid >>= _) = _ at h
    obtain ⟨⟨ss', rest'⟩, h₁, h⟩ := bind_eq_ok.1 h
    cases h
    exact (ih h₁).trans (readSimple_suffix hs).suffix
  | case3 cs hc =>
    rw [readComponents_eq, if_neg hc] at h
    cases h
    exact List.suffix_refl _

theorem readCompound_suffix {cs rest : List Char} {c : Compound}
    (h : readCompound cs = .ok (c, rest)) : ProperSuffix rest cs := by
  obtain ⟨⟨s, mid⟩, h₁, h⟩ := bind_eq_ok.1 h
  obtain ⟨⟨ss, mid'⟩, h₂, h⟩ := bind_eq_ok.1 h
  cases h
  exact (readSimple_suffix h₁).trans_suffix (readComponents_suffix h₂)

/-! ## Items -/

/-- What a complex selector is a row of. -/
inductive Item where
  | compound (c : Compound)
  | combinator (k : Combinator)
  deriving DecidableEq, Repr

/-- The combinator that a character stands for. -/
def Combinator.ofChar? : Char → Option Combinator
  | '+' => some .nextSibling
  | '>' => some .child
  | '~' => some .followingSibling
  | _ => none

/-- Whether a compound selector can start here. -/
def startsCompound (cs : List Char) : Bool := cs.head?.any startsSimple || startsIdentifier cs

/-- Takes the items up to the end, or to a character that begins none, and the separators among
them. After a combinator there cannot be another one. -/
def readItems (afterCombinator : Bool) (cs : List Char) : Reading (List Item × List Char) :=
  match h : skipSeparators cs with
  | [] => .ok ([], [])
  | c :: tail =>
    have hc : tail.length < cs.length := by
      have := (skipSeparators_suffix cs).length_le
      rw [h, List.length_cons] at this
      omega
    match Combinator.ofChar? c with
    | some k =>
      if afterCombinator then failAt .missingSelector (c :: tail)
      else (readItems true tail).map fun (items, rest) => (.combinator k :: items, rest)
    | none =>
      if startsCompound (c :: tail) then
        match h' : readCompound (c :: tail) with
        | .error failure => .error failure
        | .ok (compound, rest) =>
          have : rest.length < cs.length := by
            have := (readCompound_suffix h').length_lt
            rw [List.length_cons] at this
            omega
          (readItems false rest).map fun (items, rest) => (.compound compound :: items, rest)
      else .ok ([], c :: tail)
termination_by cs.length

/-- The recursion of `readItems`, without its proof of termination. -/
theorem readItems_eq (afterCombinator : Bool) (cs : List Char) :
    readItems afterCombinator cs =
      match skipSeparators cs with
      | [] => .ok ([], [])
      | c :: tail =>
        match Combinator.ofChar? c with
        | some k =>
          if afterCombinator then failAt .missingSelector (c :: tail)
          else do
            let (items, rest) ← readItems true tail
            return (.combinator k :: items, rest)
        | none =>
          if startsCompound (c :: tail) then do
            let (compound, rest) ← readCompound (c :: tail)
            let (items, rest) ← readItems false rest
            return (.compound compound :: items, rest)
          else .ok ([], c :: tail) := by
  rw [readItems]
  split
  · rename_i h; rw [h]
  · rename_i c tail h
    dsimp only
    rw [h]
    dsimp only
    cases Combinator.ofChar? c with
    | some k =>
      dsimp only
      split
      · rfl
      · cases readItems true tail <;> rfl
    | none =>
      dsimp only
      split
      · split
        · rename_i failure h'; rw [h']; rfl
        · rename_i compound rest h'
          rw [h']
          cases h'' : readItems false rest <;>
            simp [h'', bind, Except.bind, Except.map, pure, Except.pure]
      · rfl

theorem readItems_suffix {afterCombinator : Bool} {cs rest : List Char} {items : List Item}
    (h : readItems afterCombinator cs = .ok (items, rest)) : rest <:+ cs := by
  induction hn : cs.length using Nat.strongRecOn generalizing afterCombinator cs items with
  | ind n ih =>
    subst hn
    have hs := skipSeparators_suffix cs
    rw [readItems_eq] at h
    split at h
    · cases h
      exact List.nil_suffix
    · rename_i c tail e
      rw [e] at hs
      have hlt := hs.length_le
      rw [List.length_cons] at hlt
      split at h
      · split at h
        · cases h
        · obtain ⟨⟨items', rest'⟩, h₁, h⟩ := bind_eq_ok.1 h
          cases h
          exact (ih _ (by omega) h₁ rfl).trans ((List.suffix_cons c tail).trans hs)
      · split at h
        · obtain ⟨⟨compound, mid⟩, h₁, h⟩ := bind_eq_ok.1 h
          obtain ⟨⟨items', rest'⟩, h₂, h⟩ := bind_eq_ok.1 h
          cases h
          have h₁ := readCompound_suffix h₁
          have := h₁.length_lt
          rw [List.length_cons] at this
          exact (ih _ (by omega) h₂ rfl).trans (h₁.suffix.trans hs)
        · cases h
          exact hs

/-- Pairs every compound with the combinator after it. A combinator without a compound before it
makes a link of its own, and a compound right before another is followed by the descendant
combinator. -/
def jointsOfItems : List Item → List Joint
  | [] => []
  | .combinator k :: items => (none, k) :: jointsOfItems items
  | .compound c :: .combinator k :: items => (some c, k) :: jointsOfItems items
  | .compound c :: items => (some c, .descendant) :: jointsOfItems items

/-! ## Whole texts -/

/-- The items of a whole text, of which there must be one at least. -/
def readAllItems (cs : List Char) : Reading (List Item) := do
  match ← readItems false cs with
  | ([], rest) => failAt .missingSelector rest
  | (items, []) => return items
  | (_, rest) => failAt .missingSelector rest

/-- A failure in a text: what is wrong, and the bytes it is seen at. -/
structure TextFailure where
  cause : SyntaxCause
  start : Nat
  stop : Nat
  deriving DecidableEq, Repr

def Failure.inText (f : Failure) (ts : List Token) : TextFailure :=
  ⟨f.cause, (f.place.bounds ts).1, (f.place.bounds ts).2⟩

/-- Reads a text that is one complex selector. -/
def readJoints (text : String) : Except TextFailure (List Joint) :=
  let ts := tokens text
  match readAllItems (ts.map Token.char) with
  | .ok items => .ok (jointsOfItems items)
  | .error failure => .error (failure.inText ts)

end SelectorAlgebra
