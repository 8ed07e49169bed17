import SelectorAlgebra.Text.Token

/-
  Readings: what a reader makes of the characters that are still unread. It either takes some
  of them and gives a value and the rest, or fails with a cause and the place it blames.

  A reader sees characters only, so a place is told by how many characters were unread there;
  `Place.bounds` turns it into bytes once the tokens of the whole text are at hand.
-/

namespace SelectorAlgebra

/-! ## Failures -/

/-- Why a text is no selector. -/
inductive SyntaxCause where
  /-- A backslash where a name or a string is read. -/
  | escape
  /-- `&`, which stands for a selector of the surroundings. -/
  | parentSelector
  | missingIdentifier
  | missingSelector
  /-- Parentheses with nothing but blanks between them. -/
  | missingArgument
  /-- Neither an operator nor a bracket after the name of an attribute. -/
  | missingOperator
  /-- Another character where only `c` may stand. -/
  | missing (c : Char)
  /-- A string that its line or the text ends before the closing quote. -/
  | openString (quote : Char)
  /-- No quote where a string is read. -/
  | missingString
  deriving DecidableEq, Repr

/-- The words for a cause. -/
def SyntaxCause.message : SyntaxCause → String
  | escape => "Escapes are not supported in selectors."
  | parentSelector => "Parent selectors must be resolved before extending."
  | missingIdentifier => "Expected identifier."
  | missingSelector => "expected selector."
  | missingArgument => "Expected expression."
  | missingOperator => "Expected \"]\"."
  | missing c => "expected \"" ++ String.singleton c ++ "\"."
  | openString quote => "Expected " ++ String.singleton quote ++ "."
  | missingString => "Expected string."

/-- The token or tokens that a failure blames, told by numbers of unread characters. -/
inductive Place where
  /-- The first unread token, or the last token of the text if all are read. -/
  | next (unread : Nat)
  /-- The token read last. -/
  | last (unread : Nat)
  /-- From the token that was first unread when there were `start`, to the token read last. -/
  | since (start unread : Nat)
  deriving DecidableEq, Repr

/-- Where the token with number `i` starts and stops: past the end the last one, and nothing at
all in a text without tokens. -/
def tokenBounds (ts : List Token) (i : Nat) : Nat × Nat :=
  match ts[i]?.or ts.getLast? with
  | some t => (t.offset, t.stop)
  | none => (0, 0)

/-- The first byte of a place and the first byte after it. -/
def Place.bounds (ts : List Token) : Place → Nat × Nat
  | next unread => tokenBounds ts (ts.length - unread)
  | last unread => tokenBounds ts (ts.length - unread - 1)
  | since start unread =>
    ((tokenBounds ts (ts.length - start)).1, (tokenBounds ts (ts.length - unread - 1)).2)

/-- What is wrong, and where. -/
structure Failure where
  cause : SyntaxCause
  place : Place
  deriving DecidableEq, Repr

/-- What a reader gives: mostly a value together with the characters left after it. -/
abbrev Reading := Except Failure

/-! ## Elementary readers -/

/-- Fails at the first of the unread characters `cs`. -/
def failAt {α : Type} (cause : SyntaxCause) (cs : List Char) : Reading α :=
  .error ⟨cause, .next cs.length⟩

/-- Takes exactly the character `c`. -/
def readChar (c : Char) : List Char → Reading (List Char)
  | d :: cs => if d = c then .ok cs else .error ⟨.missing c, .next (cs.length + 1)⟩
  | [] => .error ⟨.missing c, .next 0⟩

/-- A sequence of two readings succeeds if both do. -/
theorem bind_eq_ok {ε α β : Type} {x : Except ε α} {f : α → Except ε β} {b : β} :
    (x >>= f) = .ok b ↔ ∃ a, x = .ok a ∧ f a = .ok b := by
  cases x <;> simp [bind, Except.bind]

/-- A sequence of two readings fails where the first of them fails that does. -/
theorem bind_eq_error {ε α β : Type} {x : Except ε α} {f : α → Except ε β} {e : ε} :
    (x >>= f) = .error e ↔ x = .error e ∨ ∃ a, x = .ok a ∧ f a = .error e := by
  cases x <;> simp [bind, Except.bind]

theorem map_eq_error {ε α β : Type} {x : Except ε α} {f : α → β} {e : ε} :
    x.map f = .error e ↔ x = .error e := by
  cases x <;> simp [Except.map]

theorem map_eq_ok {ε α β : Type} {x : Except ε α} {f : α → β} {b : β} :
    x.map f = .ok b ↔ ∃ a, x = .ok a ∧ f a = b := by
  cases x <;> simp [Except.map]

/-! ## Progress -/

/-- What is left of `cs` once one character at least is read. -/
def ProperSuffix (rest cs : List Char) : Prop := ∃ c mid, cs = c :: mid ∧ rest <:+ mid

theorem properSuffix_cons (c : Char) (cs : List Char) : ProperSuffix cs (c :: cs) :=
  ⟨c, cs, rfl, List.suffix_refl cs⟩

namespace ProperSuffix

variable {rest mid cs : List Char}

theorem suffix (h : ProperSuffix rest cs) : rest <:+ cs := by
  obtain ⟨c, tail, rfl, h⟩ := h
  exact h.trans (List.suffix_cons c tail)

theorem length_lt (h : ProperSuffix rest cs) : rest.length < cs.length := by
  obtain ⟨c, tail, rfl, h⟩ := h
  have := h.length_le
  simp only [List.length_cons]; omega

theorem trans_suffix (h : ProperSuffix mid cs) (h' : rest <:+ mid) : ProperSuffix rest cs := by
  obtain ⟨c, tail, rfl, h⟩ := h
  exact ⟨c, tail, rfl, h'.trans h⟩

theorem of_suffix (h : ProperSuffix rest mid) (h' : mid <:+ cs) : ProperSuffix rest cs := by
  obtain ⟨c, tail, rfl, h⟩ := h
  obtain ⟨used, rfl⟩ := h'
  cases used with
  | nil => exact ⟨c, tail, rfl, h⟩
  | cons d used => exact ⟨d, used ++ c :: tail, rfl, h.trans ⟨used ++ [c], by simp⟩⟩

theorem trans (h : ProperSuffix mid cs) (h' : ProperSuffix rest mid) : ProperSuffix rest cs :=
  h.trans_suffix h'.suffix

end ProperSuffix

theorem readChar_eq_ok {c : Char} {cs rest : List Char} :
    readChar c cs = .ok rest ↔ cs = c :: rest := by
  cases cs with
  | nil => simp [readChar]
  | cons d cs =>
    by_cases h : d = c
    · simp [readChar, h]
    · simp [readChar, h]

end SelectorAlgebra
