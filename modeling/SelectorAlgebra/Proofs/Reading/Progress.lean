import SelectorAlgebra.Chain.Reader

/-
  Readers go forward and come to an end. What a reader leaves when it succeeds is told by the lemmas
  `…_suffix`; here `FailsWithin` says of each reader that it does not go back when it fails
  either. The two loops are taken apart into rounds (`ReadLoop`): a round that does not end its loop
  takes a character, so there cannot be more of them than characters. `Lexer.Progress` tells
  all of this by the cursor into a list of tokens.
-/

namespace SelectorAlgebra

variable {α β σ : Type} {cs rest : List Char} {f : Failure}

/-! ## Where a failure leaves the text -/

/-- How many characters were unread when reading failed, which is where every place is told from. -/
def Place.unread : Place → Nat
  | next unread => unread
  | last unread => unread
  | since _ unread => unread

/-- A reading of `cs` that fails in `cs` or at its end, if it fails. -/
def FailsWithin (cs : List Char) (x : Reading α) : Prop :=
  ∀ f, x = .error f → f.place.unread ≤ cs.length

namespace FailsWithin

variable {x : Reading α}

theorem ok (a : α) : FailsWithin cs (.ok a : Reading α) := nofun

theorem error (h : f.place.unread ≤ cs.length) : FailsWithin cs (.error f : Reading α) := by
  intro f' e
  cases e
  exact h

theorem here (cause : SyntaxCause) (cs : List Char) :
    FailsWithin cs (failAt cause cs : Reading α) :=
  error (Nat.le_refl _)

theorem mono (h : FailsWithin rest x) (hs : rest <:+ cs) : FailsWithin cs x :=
  fun f hf => Nat.le_trans (h f hf) hs.length_le

theorem cons (h : FailsWithin cs x) (c : Char) : FailsWithin (c :: cs) x :=
  h.mono (List.suffix_cons c cs)

theorem map (h : FailsWithin cs x) (g : α → β) : FailsWithin cs (x.map g) :=
  fun f hf => h f (map_eq_error.1 hf)

theorem bind {g : α → Reading β} (hx : FailsWithin cs x)
    (hg : ∀ a, x = .ok a → FailsWithin cs (g a)) : FailsWithin cs (x >>= g) := by
  intro f hf
  rcases bind_eq_error.1 hf with hf | ⟨a, ha, hf⟩
  · exact hx f hf
  · exact hg a ha f hf

/-- Two readings, the second of which goes on where the first stopped. -/
theorem andThen {x : Reading (α × List Char)} {g : α × List Char → Reading β}
    (hx : FailsWithin cs x) (hs : ∀ {a rest}, x = .ok (a, rest) → rest <:+ cs)
    (hg : ∀ a rest, FailsWithin rest (g (a, rest))) : FailsWithin cs (x >>= g) :=
  hx.bind fun _ ha => (hg _ _).mono (hs ha)

end FailsWithin

/-! ## Names and strings -/

theorem failsWithin_readChar (c : Char) (cs : List Char) : FailsWithin cs (readChar c cs) := by
  unfold readChar
  split
  · split
    · exact .ok _
    · exact .error (Nat.le_refl _)
  · exact .error (Nat.le_refl _)

theorem readChar_suffix {c : Char} (h : readChar c cs = .ok rest) : ProperSuffix rest cs :=
  readChar_eq_ok.1 h ▸ properSuffix_cons c rest

theorem failsWithin_readNameRest (lead cs : List Char) : FailsWithin cs (readNameRest lead cs) := by
  simp only [readNameRest]
  split
  · exact (FailsWithin.here _ _).mono (List.dropWhile_suffix _)
  · exact .ok _

theorem failsWithin_readNameFrom (lead cs : List Char) : FailsWithin cs (readNameFrom lead cs) := by
  unfold readNameFrom
  split
  · split
    · exact (failsWithin_readNameRest _ _).cons _
    · split
      · exact .here _ _
      · exact .here _ _
  · exact .here _ _

theorem failsWithin_readIdentifier (cs : List Char) : FailsWithin cs (readIdentifier cs) := by
  unfold readIdentifier
  split
  · exact ((failsWithin_readNameRest _ _).cons _).cons _
  · exact (failsWithin_readNameFrom _ _).cons _
  · exact failsWithin_readNameFrom _ _

theorem failsWithin_readQuoted (quote : Char) (cs : List Char) :
    FailsWithin cs (readQuoted quote cs) := by
  induction cs with
  | nil => exact .here _ []
  | cons c cs ih =>
    rw [readQuoted]
    split
    · exact .ok _
    · split
      · exact (FailsWithin.here _ cs).cons c
      · split
        · exact .error (Nat.le_succ _)
        · exact (ih.map _).cons c

theorem failsWithin_readString (cs : List Char) : FailsWithin cs (readString cs) := by
  unfold readString
  split
  · exact (failsWithin_readQuoted _ _).cons _
  · exact (failsWithin_readQuoted _ _).cons _
  · exact (FailsWithin.here _ _).mono (List.tail_suffix _)

/-! ## Simple selectors -/

theorem failsWithin_readAttributeName (cs : List Char) :
    FailsWithin cs (readAttributeName cs) := by
  unfold readAttributeName
  split
  · refine ((failsWithin_readChar _ _).bind fun mid hmid => ?_).cons _
    have hname := (failsWithin_readIdentifier mid).mono (readChar_suffix hmid).suffix
    exact hname.bind fun _ _ => .ok _
  · exact ((failsWithin_readIdentifier _).bind fun _ _ => .ok _).cons _
  · refine (failsWithin_readIdentifier _).andThen (fun h => (readIdentifier_suffix h).suffix) ?_
    intro first mid
    dsimp only
    split
    · exact .ok _
    · exact ((failsWithin_readIdentifier _).bind fun _ _ => .ok _).cons _
    · exact .ok _

theorem failsWithin_readInNamespace (space : Namespace) (cs : List Char) :
    FailsWithin cs (readInNamespace space cs) := by
  unfold readInNamespace
  split
  · exact .ok _
  · exact (failsWithin_readIdentifier _).bind fun _ _ => .ok _

theorem failsWithin_readElement (cs : List Char) : FailsWithin cs (readElement cs) := by
  unfold readElement
  split
  · exact ((failsWithin_readInNamespace _ _).cons _).cons _
  · exact .ok _
  · exact (failsWithin_readInNamespace _ _).cons _
  · refine (failsWithin_readIdentifier _).andThen (fun h => (readIdentifier_suffix h).suffix) ?_
    intro first mid
    dsimp only
    split
    · exact (failsWithin_readInNamespace _ _).cons _
    · exact .ok _

theorem failsWithin_readAttributeOp (cs : List Char) : FailsWithin cs (readAttributeOp cs) := by
  unfold readAttributeOp
  split
  · exact .error (Nat.le_refl _)
  · exact .ok _
  · split
    · exact ((failsWithin_readChar _ _).bind fun _ _ => .ok _).cons _
    · exact .error (Nat.le_succ _)

theorem failsWithin_readAttributeValue (cs : List Char) :
    FailsWithin cs (readAttributeValue cs) := by
  unfold readAttributeValue
  split
  · exact (failsWithin_readString _).map _
  · exact (failsWithin_readString _).map _
  · exact failsWithin_readIdentifier _

theorem failsWithin_readAttributeTest (start : Nat) (name : QualifiedName) (cs : List Char) :
    FailsWithin cs (readAttributeTest start name cs) := by
  unfold readAttributeTest
  split
  · exact .ok _
  · refine (failsWithin_readAttributeOp _).andThen (fun h => (readAttributeOp_suffix h).suffix) ?_
    intro op mid
    have hvalue := (failsWithin_readAttributeValue (skipSeparators mid)).mono
      (skipSeparators_suffix mid)
    refine hvalue.andThen
      (fun h => (readAttributeValue_suffix h).suffix.trans (skipSeparators_suffix _)) ?_
    intro value mid
    have hmodifier := (readModifier_suffix (skipSeparators mid)).trans (skipSeparators_suffix mid)
    dsimp only
    split
    · exact .ok _
    · rename_i e
      rw [e] at hmodifier
      exact .error hmodifier.length_le

theorem failsWithin_readAttribute (cs : List Char) : FailsWithin cs (readAttribute cs) := by
  have hname := (failsWithin_readAttributeName (skipSeparators cs)).mono (skipSeparators_suffix cs)
  refine hname.andThen
    (fun h => (readAttributeName_suffix h).suffix.trans (skipSeparators_suffix _)) ?_
  intro name mid
  exact (failsWithin_readAttributeTest _ _ _).mono (skipSeparators_suffix mid)

theorem failsWithin_readArgument (depth : Nat) (cs : List Char) :
    FailsWithin cs (readArgument depth cs) := by
  induction cs generalizing depth with
  | nil => exact .here _ []
  | cons c cs ih =>
    rw [readArgument]
    split
    · exact .ok _
    · exact ((ih _).map _).cons c

theorem failsWithin_readOptionalArgument (cs : List Char) :
    FailsWithin cs (readOptionalArgument cs) := by
  unfold readOptionalArgument
  split
  · refine ((failsWithin_readArgument _ _).andThen
      (fun h => (readArgument_suffix h).suffix) ?_).cons _
    intro written mid
    dsimp only
    split
    · exact .error (Nat.le_refl _)
    · exact .ok _
  · exact .ok _

theorem failsWithin_readPseudoAfter (isSyntacticClass : Bool) (cs : List Char) :
    FailsWithin cs (readPseudoAfter isSyntacticClass cs) := by
  refine (failsWithin_readIdentifier _).andThen (fun h => (readIdentifier_suffix h).suffix) ?_
  intro name mid
  exact (failsWithin_readOptionalArgument mid).bind fun _ _ => .ok _

theorem failsWithin_readPseudo (cs : List Char) : FailsWithin cs (readPseudo cs) := by
  unfold readPseudo
  split
  · exact (failsWithin_readPseudoAfter _ _).cons _
  · exact failsWithin_readPseudoAfter _ _

theorem failsWithin_readSimple (cs : List Char) : FailsWithin cs (readSimple cs) := by
  unfold readSimple
  split
  · exact ((failsWithin_readAttribute _).map _).cons _
  · exact ((failsWithin_readIdentifier _).map _).cons _
  · exact ((failsWithin_readIdentifier _).map _).cons _
  · exact ((failsWithin_readIdentifier _).map _).cons _
  · exact ((failsWithin_readPseudo _).map _).cons _
  · exact .here _ _
  · exact failsWithin_readElement _

/-! ## Loops -/

/-- A loop that reads one thing in each round and ends with a round that reads none. A round after
which it goes on takes a character at least. -/
structure ReadLoop (σ α : Type) where
  /-- What a round reads, by the state that the rounds before have left. -/
  round : σ → List Char → Reading (Option α × List Char)
  next : α → σ
  round_suffix : ∀ {s cs a rest}, round s cs = .ok (some a, rest) → ProperSuffix rest cs

namespace ReadLoop

variable {l : ReadLoop σ α} {loop : σ → List Char → Reading (List α × List Char)}

/-- What a first round and then `loop` read. -/
def unroll (l : ReadLoop σ α) (loop : σ → List Char → Reading (List α × List Char)) (s : σ)
    (cs : List Char) : Reading (List α × List Char) :=
  match l.round s cs with
  | .error f => .error f
  | .ok (none, rest) => .ok ([], rest)
  | .ok (some a, rest) => (loop (l.next a) rest).map fun (as, rest) => (a :: as, rest)

/-- What the loop reads in `n` rounds, the last of them included; nothing if it takes more. -/
def atMost (l : ReadLoop σ α) : Nat → σ → List Char → Option (Reading (List α × List Char))
  | 0, _, _ => none
  | n + 1, s, cs =>
    match l.round s cs with
    | .error f => some (.error f)
    | .ok (none, rest) => some (.ok ([], rest))
    | .ok (some a, rest) =>
      (l.atMost n (l.next a) rest).map fun x => x.map fun (as, rest) => (a :: as, rest)

/-- The loop comes to its end in as many rounds as there are characters, and the last one. -/
theorem atMost_eq_some (hloop : ∀ s cs, loop s cs = l.unroll loop s cs) {n : Nat} (s : σ)
    (hn : cs.length < n) : l.atMost n s cs = some (loop s cs) := by
  induction n generalizing s cs with
  | zero => exact absurd hn (Nat.not_lt_zero _)
  | succ n ih =>
    rw [atMost, hloop, unroll]
    split
    · rfl
    · rfl
    · rename_i a rest hround
      have hlt := (l.round_suffix hround).length_lt
      rw [ih (l.next a) (by omega)]
      rfl

/-- A loop does not go back where no round does. -/
theorem failsWithin (hround : ∀ s cs, FailsWithin cs (l.round s cs))
    (hloop : ∀ s cs, loop s cs = l.unroll loop s cs) (s : σ) (cs : List Char) :
    FailsWithin cs (loop s cs) := by
  induction hn : cs.length using Nat.strongRecOn generalizing s cs with
  | ind n ih =>
    subst hn
    rw [hloop, unroll]
    split
    · rename_i f hf
      exact .error (hround s cs f hf)
    · exact .ok _
    · rename_i a rest hok
      have hs := l.round_suffix hok
      exact ((ih _ hs.length_lt _ _ rfl).map _).mono hs.suffix

end ReadLoop

/-- The simple selectors of a compound after its first. -/
def componentLoop : ReadLoop Unit Simple where
  round _ cs :=
    if cs.head?.any startsSimple then (readSimple cs).map fun (s, rest) => (some s, rest)
    else .ok (none, cs)
  next _ := ()
  round_suffix := by
    intro _ cs s rest h
    split at h
    · obtain ⟨⟨s', rest'⟩, h, e⟩ := map_eq_ok.1 h
      cases e
      exact readSimple_suffix h
    · cases h

/-- The items of a complex selector. Its state tells whether a combinator was read last. -/
def itemLoop : ReadLoop Bool Item where
  round afterCombinator cs :=
    match skipSeparators cs with
    | [] => .ok (none, [])
    | c :: tail =>
      match Combinator.ofChar? c with
      | some k =>
        if afterCombinator then failAt .missingSelector (c :: tail)
        else .ok (some (.combinator k), tail)
      | none =>
        if startsCompound (c :: tail) then
          (readCompound (c :: tail)).map fun (compound, rest) => (some (.compound compound), rest)
        else .ok (none, c :: tail)
  next
    | .combinator _ => true
    | .compound _ => false
  round_suffix := by
    intro afterCombinator cs item rest h
    have hs := skipSeparators_suffix cs
    split at h
    · cases h
    · rename_i c tail hskip
      rw [hskip] at hs
      have hcons := (properSuffix_cons c tail).of_suffix hs
      split at h
      · split at h
        · cases h
        · cases h
          exact hcons
      · split at h
        · obtain ⟨⟨compound, rest'⟩, h, e⟩ := map_eq_ok.1 h
          cases e
          exact (readCompound_suffix h).of_suffix hs
        · cases h

theorem readComponents_unroll (cs : List Char) :
    readComponents cs = componentLoop.unroll (fun _ => readComponents) () cs := by
  rw [readComponents_eq, ReadLoop.unroll, componentLoop]
  dsimp only
  split
  · cases readSimple cs with
    | error f => rfl
    | ok r =>
      obtain ⟨s, rest⟩ := r
      change (readComponents rest >>= _) = (readComponents rest).map _
      cases readComponents rest <;> rfl
  · rfl

theorem readItems_unroll (afterCombinator : Bool) (cs : List Char) :
    readItems afterCombinator cs = itemLoop.unroll readItems afterCombinator cs := by
  rw [readItems_eq, ReadLoop.unroll, itemLoop]
  dsimp only
  cases skipSeparators cs with
  | nil => rfl
  | cons c tail =>
    dsimp only
    cases Combinator.ofChar? c with
    | some k =>
      dsimp only
      split
      · rfl
      · change (readItems true tail >>= _) = (readItems true tail).map _
        cases readItems true tail <;> rfl
    | none =>
      dsimp only
      split
      · cases readCompound (c :: tail) with
        | error f => rfl
        | ok r =>
          obtain ⟨compound, rest⟩ := r
          change (readItems false rest >>= _) = (readItems false rest).map _
          cases readItems false rest <;> rfl
      · rfl

theorem failsWithin_componentRound (cs : List Char) :
    FailsWithin cs (componentLoop.round () cs) := by
  unfold componentLoop
  dsimp only
  split
  · exact (failsWithin_readSimple _).map _
  · exact .ok _

theorem failsWithin_readComponents (cs : List Char) : FailsWithin cs (readComponents cs) :=
  ReadLoop.failsWithin (fun _ => failsWithin_componentRound) (fun _ => readComponents_unroll) () cs

theorem failsWithin_readCompound (cs : List Char) : FailsWithin cs (readCompound cs) := by
  refine (failsWithin_readSimple _).andThen (fun h => (readSimple_suffix h).suffix) ?_
  intro s mid
  exact (failsWithin_readComponents mid).bind fun _ _ => .ok _

theorem failsWithin_itemRound (afterCombinator : Bool) (cs : List Char) :
    FailsWithin cs (itemLoop.round afterCombinator cs) := by
  have hs := skipSeparators_suffix cs
  unfold itemLoop
  dsimp only
  split
  · exact .ok _
  · rename_i c tail hskip
    rw [hskip] at hs
    refine FailsWithin.mono ?_ hs
    split
    · split
      · exact .here _ _
      · exact .ok _
    · split
      · exact (failsWithin_readCompound _).map _
      · exact .ok _

theorem failsWithin_readItems (afterCombinator : Bool) (cs : List Char) :
    FailsWithin cs (readItems afterCombinator cs) :=
  ReadLoop.failsWithin failsWithin_itemRound readItems_unroll afterCombinator cs

theorem failsWithin_readAllItems (cs : List Char) : FailsWithin cs (readAllItems cs) := by
  refine (failsWithin_readItems _ _).andThen readItems_suffix ?_
  intro items rest
  split
  · rename_i e
    cases e
    exact .here _ _
  · exact .ok _
  · rename_i e
    cases e
    exact .here _ _

/-! ## Cursors -/

/-- The characters from a cursor on. -/
def charsFrom (ts : List Token) (cursor : Nat) : List Char := (ts.drop cursor).map Token.char

/-- A list of tokens, of which those before the cursor are read. -/
structure Lexer where
  tokens : List Token
  cursor : Nat
  cursor_le : cursor ≤ tokens.length

/-- What readers see of a lexer. -/
def Lexer.unread (l : Lexer) : List Char := charsFrom l.tokens l.cursor

/-- A reading of what is unread leaves the cursor between where it was and the end of the tokens,
and past `least` tokens if it succeeds. -/
structure Lexer.Advances (l : Lexer) (least : α → Nat) (x : Reading (α × List Char)) : Prop where
  ok : ∀ a rest, x = .ok (a, rest) → ∃ cursor, l.cursor + least a ≤ cursor ∧
    cursor ≤ l.tokens.length ∧ rest = charsFrom l.tokens cursor
  error : ∀ f, x = .error f → ∃ cursor, l.cursor ≤ cursor ∧
    cursor ≤ l.tokens.length ∧ f.place.unread = (charsFrom l.tokens cursor).length

theorem length_charsFrom (ts : List Token) (cursor : Nat) :
    (charsFrom ts cursor).length = ts.length - cursor := by
  rw [charsFrom, List.length_map, List.length_drop]

namespace Lexer

variable {l : Lexer} {least : α → Nat} {x : Reading (α × List Char)}

/-- What is left of the unread characters begins at a cursor further on. -/
theorem eq_charsFrom_of_suffix (h : rest <:+ l.unread) :
    rest = charsFrom l.tokens (l.cursor + (l.unread.length - rest.length)) := by
  have hdrop := List.suffix_iff_eq_drop.1 h
  rw [unread, charsFrom, ← List.map_drop, List.drop_drop] at hdrop
  exact hdrop

theorem Advances.of_suffix
    (hok : ∀ {a rest}, x = .ok (a, rest) →
      rest <:+ l.unread ∧ rest.length + least a ≤ l.unread.length)
    (herror : FailsWithin l.unread x) : l.Advances least x := by
  have hlength : l.unread.length = l.tokens.length - l.cursor := length_charsFrom _ _
  have hcursor := l.cursor_le
  refine ⟨fun a rest h => ?_, fun f h => ?_⟩
  · obtain ⟨hs, hlt⟩ := hok h
    exact ⟨_, by omega, by omega, eq_charsFrom_of_suffix hs⟩
  · have hle := herror f h
    refine ⟨l.tokens.length - f.place.unread, by omega, Nat.sub_le _ _, ?_⟩
    rw [length_charsFrom]
    omega

theorem Advances.zero (hok : ∀ {a rest}, x = .ok (a, rest) → rest <:+ l.unread)
    (herror : FailsWithin l.unread x) : l.Advances (fun _ => 0) x :=
  .of_suffix (fun h => ⟨hok h, (hok h).length_le⟩) herror

theorem Advances.one (hok : ∀ {a rest}, x = .ok (a, rest) → ProperSuffix rest l.unread)
    (herror : FailsWithin l.unread x) : l.Advances (fun _ => 1) x :=
  .of_suffix (fun h => ⟨(hok h).suffix, (hok h).length_lt⟩) herror

/-- A round moves the cursor past a token unless it is the last. -/
theorem Advances.round {loop : ReadLoop σ α}
    (whole : σ → List Char → Reading (List α × List Char)) {s : σ}
    (hwhole : whole s l.unread = loop.unroll whole s l.unread)
    (hs : ∀ {as rest}, whole s l.unread = .ok (as, rest) → rest <:+ l.unread)
    (herror : FailsWithin l.unread (loop.round s l.unread)) :
    l.Advances (fun item => item.elim 0 fun _ => 1) (loop.round s l.unread) := by
  refine .of_suffix (fun {item rest} h => ?_) herror
  cases item with
  | none =>
    have hend : whole s l.unread = .ok ([], rest) := by rw [hwhole, ReadLoop.unroll, h]
    exact ⟨hs hend, (hs hend).length_le⟩
  | some a =>
    have hproper := loop.round_suffix h
    exact ⟨hproper.suffix, hproper.length_lt⟩

/-- What reading does to the cursor, from wherever it begins. -/
structure Progress (l : Lexer) : Prop where
  separators : l.Advances (fun _ => 0) (.ok ((), skipSeparators l.unread))
  char : ∀ c, l.Advances (fun _ => 1) ((readChar c l.unread).map fun rest => ((), rest))
  nameRest : ∀ lead, l.Advances (fun _ => 0) (readNameRest lead l.unread)
  identifier : l.Advances (fun _ => 1) (readIdentifier l.unread)
  string : l.Advances (fun _ => 1) (readString l.unread)
  attributeName : l.Advances (fun _ => 1) (readAttributeName l.unread)
  attributeOp : l.Advances (fun _ => 1) (readAttributeOp l.unread)
  attributeValue : l.Advances (fun _ => 1) (readAttributeValue l.unread)
  modifier : l.Advances (fun _ => 0) (.ok (readModifier l.unread))
  attr : l.Advances (fun _ => 1) (readAttribute l.unread)
  argument : ∀ depth, l.Advances (fun _ => 1) (readArgument depth l.unread)
  pseudo : l.Advances (fun _ => 1) (readPseudo l.unread)
  element : l.Advances (fun _ => 1) (readElement l.unread)
  simple : l.Advances (fun _ => 1) (readSimple l.unread)
  compound : l.Advances (fun _ => 1) (readCompound l.unread)
  components : l.Advances (fun _ => 0) (readComponents l.unread)
  items : ∀ afterCombinator, l.Advances (fun _ => 0) (readItems afterCombinator l.unread)
  allItems : l.Advances (fun _ => 0) ((readAllItems l.unread).map fun items => (items, []))
  /-- A round of a loop takes a token unless the loop ends with it. -/
  componentRound :
    l.Advances (fun item => item.elim 0 fun _ => 1) (componentLoop.round () l.unread)
  itemRound : ∀ afterCombinator,
    l.Advances (fun item => item.elim 0 fun _ => 1) (itemLoop.round afterCombinator l.unread)
  /-- So no loop takes more rounds than there are tokens, and the last one. -/
  components_end : componentLoop.atMost (l.tokens.length - l.cursor + 1) () l.unread =
    some (readComponents l.unread)
  items_end : ∀ afterCombinator,
    itemLoop.atMost (l.tokens.length - l.cursor + 1) afterCombinator l.unread =
      some (readItems afterCombinator l.unread)

end Lexer

theorem length_unread_lt (l : Lexer) : l.unread.length < l.tokens.length - l.cursor + 1 := by
  rw [Lexer.unread, length_charsFrom]
  exact Nat.lt_succ_self _

theorem Lexer.progress (l : Lexer) : l.Progress where
  separators := .zero
    (fun h => by
      cases h
      exact skipSeparators_suffix _)
    (.ok _)
  char c := .one
    (fun h => by
      obtain ⟨rest, h, e⟩ := map_eq_ok.1 h
      cases e
      exact readChar_suffix h)
    ((failsWithin_readChar c _).map _)
  nameRest lead := .zero readNameRest_suffix (failsWithin_readNameRest lead _)
  identifier := .one readIdentifier_suffix (failsWithin_readIdentifier _)
  string := .one readString_suffix (failsWithin_readString _)
  attributeName := .one readAttributeName_suffix (failsWithin_readAttributeName _)
  attributeOp := .one readAttributeOp_suffix (failsWithin_readAttributeOp _)
  attributeValue := .one readAttributeValue_suffix (failsWithin_readAttributeValue _)
  modifier := .zero
    (fun h => by
      have hs := readModifier_suffix l.unread
      rw [Except.ok.inj h] at hs
      exact hs)
    (.ok _)
  attr := .one readAttribute_suffix (failsWithin_readAttribute _)
  argument depth := .one readArgument_suffix (failsWithin_readArgument depth _)
  pseudo := .one readPseudo_suffix (failsWithin_readPseudo _)
  element := .one readElement_suffix (failsWithin_readElement _)
  simple := .one readSimple_suffix (failsWithin_readSimple _)
  compound := .one readCompound_suffix (failsWithin_readCompound _)
  components := .zero readComponents_suffix (failsWithin_readComponents _)
  items b := .zero readItems_suffix (failsWithin_readItems b _)
  allItems := .zero
    (fun h => by
      obtain ⟨items, _, e⟩ := map_eq_ok.1 h
      cases e
      exact List.nil_suffix)
    ((failsWithin_readAllItems _).map _)
  componentRound := .round (fun _ => readComponents) (readComponents_unroll _)
    readComponents_suffix (failsWithin_componentRound _)
  itemRound b := .round readItems (readItems_unroll b _) readItems_suffix
    (failsWithin_itemRound b _)
  components_end := ReadLoop.atMost_eq_some (fun _ => readComponents_unroll) ()
    (length_unread_lt l)
  items_end b := ReadLoop.atMost_eq_some readItems_unroll b (length_unread_lt l)

/-- **Reading makes progress.** From every cursor in every list of tokens, no reader moves the
cursor back or past the end, whether it succeeds or fails, and a reader of a name, a string, a
simple or a compound selector that succeeds moves it on. So does every round of a loop that is not
its last, and reading comes to an end on every text. -/
theorem reading_progresses :
    (∀ l : Lexer, l.Progress) ∧
      ∀ text, itemLoop.atMost ((tokens text).length + 1) false ((tokens text).map Token.char) =
        some (readItems false ((tokens text).map Token.char)) := by
  refine ⟨Lexer.progress, fun text => ?_⟩
  refine ReadLoop.atMost_eq_some readItems_unroll false ?_
  rw [List.length_map]
  exact Nat.lt_succ_self _

end SelectorAlgebra
