/-
  Tokens: the characters of a text as the readers see them, each with its place in the text.
  A line end is one LF however it is written: as LF, CR, CR LF or form feed. `map_char_tokens`
  says that the tokens spell the text with its line ends so unified.
-/

namespace SelectorAlgebra

/-- A character of a text and the byte at which it starts. -/
structure Token where
  char : Char
  offset : Nat
  deriving DecidableEq, Repr

/-- The first byte after a token. -/
def Token.stop (t : Token) : Nat := t.offset + t.char.utf8Size

/-- The text with every CR LF, lone CR and form feed written as one LF. -/
def unifyLineEnds : List Char → List Char
  | [] => []
  | '\r' :: '\n' :: cs => '\n' :: unifyLineEnds cs
  | c :: cs => (if c = '\r' ∨ c = '\x0c' then '\n' else c) :: unifyLineEnds cs

/-- The tokens of a text whose first character is at byte `offset`. A CR LF is a token at its LF. -/
def tokensFrom (offset : Nat) : List Char → List Token
  | [] => []
  | '\r' :: '\n' :: cs => ⟨'\n', offset + 1⟩ :: tokensFrom (offset + 2) cs
  | c :: cs =>
    let t : Token := ⟨if c = '\r' ∨ c = '\x0c' then '\n' else c, offset⟩
    t :: tokensFrom t.stop cs

/-- The tokens of a whole text. -/
def tokens (text : String) : List Token := tokensFrom 0 text.toList

theorem map_char_tokensFrom (offset : Nat) (cs : List Char) :
    (tokensFrom offset cs).map Token.char = unifyLineEnds cs := by
  fun_induction tokensFrom offset cs with
  | case1 => rfl
  | case2 offset cs ih => simp [unifyLineEnds, ih]
  | case3 offset c cs h t ih =>
    rw [unifyLineEnds]
    · simp [ih, t]
    · exact h

theorem map_char_tokens (text : String) :
    (tokens text).map Token.char = unifyLineEnds text.toList :=
  map_char_tokensFrom 0 _

/-! ## Bytes -/

/-- The number of bytes that characters take. -/
def byteCount : List Char → Nat
  | [] => 0
  | c :: cs => c.utf8Size + byteCount cs

theorem byteCount_append (before after : List Char) :
    byteCount (before ++ after) = byteCount before + byteCount after := by
  induction before with
  | nil => simp [byteCount]
  | cons c before ih => rw [List.cons_append, byteCount, byteCount, ih, Nat.add_assoc]

theorem byteCount_ofList (cs : List Char) : (String.ofList cs).utf8ByteSize = byteCount cs := by
  induction cs with
  | nil => rfl
  | cons c cs ih =>
    have hcons : String.ofList (c :: cs) = String.singleton c ++ String.ofList cs := by
      rw [String.singleton_eq_ofList, ← String.ofList_append]
      rfl
    rw [hcons, String.utf8ByteSize_append, String.utf8ByteSize_singleton, ih, byteCount]

theorem byteCount_toList (s : String) : byteCount s.toList = s.utf8ByteSize := by
  rw [← byteCount_ofList, String.ofList_toList]

/-- The characters that stand for a line end have one byte each, as LF has. -/
theorem utf8Size_unified (c : Char) :
    (if c = '\r' ∨ c = '\x0c' then '\n' else c).utf8Size = c.utf8Size := by
  split
  · rename_i h
    rcases h with rfl | rfl <;> rfl
  · rfl

end SelectorAlgebra
