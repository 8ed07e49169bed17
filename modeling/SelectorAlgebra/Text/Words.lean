import SelectorAlgebra.Reading

/-
  The words of a selector: blanks, names, identifiers and quoted strings.

  There are two notions of white space. Between the parts of a selector only the space, the tab and
  the line end count; around the argument of a pseudo selector every character with the Unicode
  property White_Space does.

  The reader of identifiers takes as many name characters as there are. A backslash where the name
  would go on is a failure, for escapes have no meaning here.

  The values of attributes are written as quoted strings. Writing escapes what would end the string;
  reading knows no escapes and takes the characters up to the closing quote as they are.
-/

namespace SelectorAlgebra

/-! ## Blanks -/

/-- White space between the parts of a selector. -/
def isSeparator (c : Char) : Bool := c == ' ' || c == '\t' || c == '\n'

/-- The text after its leading separators. -/
def skipSeparators (cs : List Char) : List Char := cs.dropWhile isSeparator

/-- The ranges of code points with the Unicode property White_Space, in order. -/
def blankRanges : List (Nat × Nat) :=
  [(0x9, 0xd), (0x20, 0x20), (0x85, 0x85), (0xa0, 0xa0), (0x1680, 0x1680), (0x2000, 0x200a),
   (0x2028, 0x2029), (0x202f, 0x202f), (0x205f, 0x205f), (0x3000, 0x3000)]

/-- The Unicode property White_Space. -/
def isBlank (c : Char) : Bool := blankRanges.any fun (low, high) => low ≤ c.toNat && c.toNat ≤ high

/-- A text without the blanks at its two ends. -/
def trimBlanks (cs : List Char) : List Char :=
  ((cs.dropWhile isBlank).reverse.dropWhile isBlank).reverse

theorem skipSeparators_suffix (cs : List Char) : skipSeparators cs <:+ cs :=
  List.dropWhile_suffix _

/-! ## Names -/

/-- Letters, the underscore and every character beyond ASCII. -/
def isNameStart (c : Char) : Bool := c == '_' || c.isAlpha || decide (0x80 ≤ c.val)

/-- What may follow in a name: also digits and the hyphen. -/
def isNameChar (c : Char) : Bool := isNameStart c || c.isDigit || c == '-'

/-- A text less its leading hyphens, of which there may be one or two. -/
def dropHyphens : List Char → List Char
  | '-' :: '-' :: cs => cs
  | '-' :: cs => cs
  | cs => cs

/-- Whether a text is an identifier with a name start in it: one or two hyphens may stand in front. -/
def isIdentifier (s : List Char) : Bool :=
  match dropHyphens s with
  | [] => false
  | c :: cs => isNameStart c && cs.all isNameChar

/-- Whether an identifier can start here: at a name start, or at a hyphen before one or before a
second hyphen. -/
def startsIdentifier : List Char → Bool
  | '-' :: c :: _ => isNameStart c || c == '-'
  | c :: _ => isNameStart c
  | [] => false

/-! ## Identifiers -/

/-- Takes name characters, which come after `lead`. -/
def readNameRest (lead cs : List Char) : Reading (String × List Char) :=
  let rest := cs.dropWhile isNameChar
  if rest.head? = some '\\' then failAt .escape rest
  else .ok (String.ofList (lead ++ cs.takeWhile isNameChar), rest)

/-- Takes a name start and the name characters after it; `lead` is what was read before. -/
def readNameFrom (lead : List Char) : List Char → Reading (String × List Char)
  | c :: cs =>
    if isNameStart c then readNameRest (lead ++ [c]) cs
    else if c = '\\' then failAt .escape (c :: cs)
    else failAt .missingIdentifier (c :: cs)
  | [] => failAt .missingIdentifier []

/-- Takes an identifier: two hyphens and name characters, or one hyphen or none before a name
start and name characters. -/
def readIdentifier : List Char → Reading (String × List Char)
  | '-' :: '-' :: cs => readNameRest ['-', '-'] cs
  | '-' :: cs => readNameFrom ['-'] cs
  | cs => readNameFrom [] cs

theorem readNameRest_suffix {lead cs rest : List Char} {name : String}
    (h : readNameRest lead cs = .ok (name, rest)) : rest <:+ cs := by
  simp only [readNameRest] at h
  split at h
  · cases h
  · simp only [Except.ok.injEq, Prod.mk.injEq] at h
    exact h.2 ▸ List.dropWhile_suffix _

theorem readNameFrom_suffix {lead cs rest : List Char} {name : String}
    (h : readNameFrom lead cs = .ok (name, rest)) : ProperSuffix rest cs := by
  cases cs with
  | nil => simp [readNameFrom, failAt] at h
  | cons c cs =>
    simp only [readNameFrom, failAt] at h
    split at h
    · exact (properSuffix_cons c cs).trans_suffix (readNameRest_suffix h)
    · split at h <;> cases h

/-- An identifier has at least one character. -/
theorem readIdentifier_suffix {cs rest : List Char} {name : String}
    (h : readIdentifier cs = .ok (name, rest)) : ProperSuffix rest cs := by
  unfold readIdentifier at h
  split at h
  · exact (properSuffix_cons _ _).trans_suffix
      ((readNameRest_suffix h).trans (List.suffix_cons _ _))
  · exact (properSuffix_cons _ _).trans (readNameFrom_suffix h)
  · exact readNameFrom_suffix h

/-! ## Quoted strings, written -/

/-- The quotes put around a value: single ones only if it holds a double quote and no single one. -/
def quoteFor (value : List Char) : Char :=
  if '"' ∈ value ∧ '\'' ∉ value then '\'' else '"'

/-- Whether a character right after the digits of an escape would be read as a part of it. -/
def extendsEscape (c : Char) : Bool :=
  c.isDigit || ('a' ≤ c && c ≤ 'f') || ('A' ≤ c && c ≤ 'F') || c == ' ' || c == '\t'

/-- The inside of a quoted string. A backslash and the quote get a backslash before them; a line
feed is written by its code, with a space after it where the next character would be read into
the code. -/
def escapeFor (quote : Char) : List Char → List Char
  | [] => []
  | c :: cs =>
    if c = '\\' then '\\' :: '\\' :: escapeFor quote cs
    else if c = '\n' then
      '\\' :: 'a' :: ((if cs.head?.any extendsEscape then [' '] else []) ++ escapeFor quote cs)
    else if c = quote then '\\' :: c :: escapeFor quote cs
    else c :: escapeFor quote cs

/-- A value as a quoted string. -/
def quoted (value : List Char) : List Char :=
  quoteFor value :: escapeFor (quoteFor value) value ++ [quoteFor value]

/-! ## Quoted strings, read -/

/-- Takes a string whose opening quote is read. It ends at the same quote, on the same line. -/
def readQuoted (quote : Char) : List Char → Reading (List Char × List Char)
  | [] => failAt (.openString quote) []
  | c :: cs =>
    if c = quote then .ok ([], cs)
    else if c = '\n' then failAt (.openString quote) cs
    else if c = '\\' then .error ⟨.escape, .last cs.length⟩
    else (readQuoted quote cs).map fun (value, rest) => (c :: value, rest)

/-- Takes a string with its quotes. -/
def readString : List Char → Reading (List Char × List Char)
  | '"' :: cs => readQuoted '"' cs
  | '\'' :: cs => readQuoted '\'' cs
  | cs => failAt .missingString cs.tail

theorem readQuoted_suffix {quote : Char} {cs value rest : List Char}
    (h : readQuoted quote cs = .ok (value, rest)) : ProperSuffix rest cs := by
  induction cs generalizing value with
  | nil => cases h
  | cons c cs ih =>
    simp only [readQuoted, failAt] at h
    split at h
    · cases h; exact properSuffix_cons _ _
    · split at h
      · cases h
      · split at h
        · cases h
        · obtain ⟨⟨value', rest'⟩, h', e⟩ := map_eq_ok.1 h
          cases e
          exact (properSuffix_cons c cs).trans (ih h')

theorem readString_suffix {cs value rest : List Char} (h : readString cs = .ok (value, rest)) :
    ProperSuffix rest cs := by
  unfold readString at h
  split at h
  · exact (properSuffix_cons _ _).trans (readQuoted_suffix h)
  · exact (properSuffix_cons _ _).trans (readQuoted_suffix h)
  · cases h

end SelectorAlgebra
