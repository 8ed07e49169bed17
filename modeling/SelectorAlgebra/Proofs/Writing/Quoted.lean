import SelectorAlgebra.Proofs.Failures.Places
import SelectorAlgebra.Proofs.Writing.Simples

/-
  What a quoted string denotes to a reader that knows escapes. `unescape` reads by the rules of
  CSS: a backslash stands before a character that is meant as it is, or before the code of one, of
  six digits at most and with a separator after it. `unescape_escapeFor` says that it reads a value
  back, since a code is never written right before a character that would go on with it.

  Only LF is written by its code. A CR or a form feed stands in the string as it is, and for the
  tokens of the string that is a line end like any other (`count_unifyLineEnds`).
-/

namespace SelectorAlgebra

variable {quote c : Char} {cs rest digits value : List Char}

/-! ## Reading escapes -/

def isHexDigit (c : Char) : Bool :=
  c.isDigit || ('a' ≤ c && c ≤ 'f') || ('A' ≤ c && c ≤ 'F')

/-- The value of a hexadecimal digit. -/
def hexValue (c : Char) : Nat :=
  if c.isDigit then c.toNat - '0'.toNat
  else if 'a' ≤ c then c.toNat - 'a'.toNat + 10
  else c.toNat - 'A'.toNat + 10

/-- The number that hexadecimal digits stand for. -/
def hexNumber (digits : List Char) : Nat := digits.foldl (fun n c => 16 * n + hexValue c) 0

/-- The character that a number is the code of, if there is one. -/
def charOfCode? (code : Nat) : Option Char :=
  if code.isValidChar then some (Char.ofNat code) else none

/-- The digits of a code: all that stand here, but six at most. -/
def codeDigits (cs : List Char) : List Char := (cs.takeWhile isHexDigit).take 6

/-- A text less the one separator that may end a code. -/
def dropSeparator : List Char → List Char
  | [] => []
  | c :: cs => if isSeparator c then cs else c :: cs

/-- Takes what stands after a backslash: the code of a character, or a character that is meant as
it is. -/
def readEscape (cs : List Char) : Option (Char × List Char) :=
  let digits := codeDigits cs
  if digits = [] then cs.head?.map fun c => (c, cs.tail)
  else (charOfCode? (hexNumber digits)).map fun c => (c, dropSeparator (cs.drop digits.length))

theorem length_dropSeparator_le (cs : List Char) : (dropSeparator cs).length ≤ cs.length := by
  fun_cases dropSeparator cs <;> simp

theorem length_le_of_readEscape (h : readEscape cs = some (c, rest)) :
    rest.length ≤ cs.length := by
  simp only [readEscape] at h
  split at h
  · obtain ⟨d, _, e⟩ := Option.map_eq_some_iff.1 h
    cases e
    simp
  · obtain ⟨d, _, e⟩ := Option.map_eq_some_iff.1 h
    cases e
    exact (length_dropSeparator_le _).trans (by simp)

/-- What a text with escapes denotes. A backslash at its end denotes nothing, and neither does the
code of no character. -/
def unescape (cs : List Char) : Option (List Char) :=
  match cs with
  | [] => some []
  | c :: cs =>
    if c = '\\' then
      match h : readEscape cs with
      | none => none
      | some (d, rest) =>
        have := length_le_of_readEscape h
        (unescape rest).map (d :: ·)
    else (unescape cs).map (c :: ·)
termination_by cs.length

/-- Whether every `quote` in a text comes right after a backslash that escapes it. What comes after
a backslash is escaped, so it is no backslash that escapes. -/
def escapesAll (quote : Char) : List Char → Bool
  | '\\' :: _ :: cs => escapesAll quote cs
  | c :: cs => c != quote && escapesAll quote cs
  | [] => true

theorem dropSeparator_of_stops (h : StopsBefore isSeparator cs) : dropSeparator cs = cs := by
  cases cs with
  | nil => rfl
  | cons c cs => rw [dropSeparator, if_neg (by simpa using h)]

theorem unescape_cons (h : c ≠ '\\') : unescape (c :: cs) = (unescape cs).map (c :: ·) := by
  rw [unescape, if_neg h]

theorem unescape_backslash (h : readEscape cs = some (c, rest)) :
    unescape ('\\' :: cs) = (unescape rest).map (c :: ·) := by
  rw [unescape, if_pos rfl]
  split
  · rename_i h'
    rw [h] at h'
    cases h'
  · rename_i h'
    rw [h] at h'
    cases h'
    rfl

/-- A character that is no digit of a code is meant as it is. -/
theorem readEscape_of_ne (h : isHexDigit c = false) : readEscape (c :: cs) = some (c, cs) := by
  have hdigits : codeDigits (c :: cs) = [] := by simp [codeDigits, h]
  simp [readEscape, hdigits]

/-- A code is read up to the end of its digits, with a separator after it. -/
theorem readEscape_code (hne : digits ≠ []) (hd : digits.all isHexDigit) (hlen : digits.length ≤ 6)
    (hs : StopsBefore isHexDigit rest) (hc : charOfCode? (hexNumber digits) = some c) :
    readEscape (digits ++ rest) = some (c, dropSeparator rest) := by
  have hdigits : codeDigits (digits ++ rest) = digits := by
    rw [codeDigits, takeWhile_append_stops hd hs, List.take_of_length_le hlen]
  simp only [readEscape, hdigits, if_neg hne, hc, List.drop_left, Option.map_some]

example : unescape "\\00004142\\41 1\\g".toList = some "A42A1g".toList := by decide +kernel

/-! ## What is written -/

/-- A value that begins with no character that goes on with a code is written so, too. -/
theorem stopsBefore_escapeFor (h : StopsBefore extendsEscape value) (quote : Char) :
    StopsBefore (fun c => isHexDigit c || isSeparator c) (escapeFor quote value) := by
  fun_cases escapeFor quote value with
  | case1 => rfl
  | case2 | case3 | case4 => exact stopsBefore_cons.2 (by decide)
  | case5 c cs _ hn =>
    have hc : extendsEscape c = false := stopsBefore_cons.1 h
    simp only [extendsEscape, Bool.or_eq_false_iff, beq_eq_false_iff_ne] at hc
    simp [isHexDigit, isSeparator, hc, hn]

/-- The code of a line feed and what is written next are read apart. -/
theorem readEscape_lineFeed (quote : Char) (value : List Char) :
    readEscape ('a' :: ((if value.head?.any extendsEscape then [' '] else []) ++
      escapeFor quote value)) = some ('\n', escapeFor quote value) := by
  have hcode : charOfCode? (hexNumber ['a']) = some '\n' := by decide
  rw [← List.singleton_append]
  cases h : value.head?.any extendsEscape with
  | true =>
    exact readEscape_code (by simp) (by decide) (by simp) (stopsBefore_cons.2 (by decide)) hcode
  | false =>
    obtain ⟨hd, hs⟩ := stopsBefore_or.1 (stopsBefore_escapeFor h quote)
    have hread := readEscape_code (by simp) (by decide) (by simp) hd hcode
    rwa [dropSeparator_of_stops hs] at hread

/-- What is written for a value denotes that value. -/
theorem unescape_escapeFor (hq : quote ∈ quotes) (value : List Char) :
    unescape (escapeFor quote value) = some value := by
  have hquote : isHexDigit quote = false := eq_false_of_mem (by decide) hq
  fun_induction escapeFor quote value with
  | case1 => rw [unescape]
  | case2 cs ih =>
    rw [unescape_backslash (readEscape_of_ne (by decide)), ih]
    rfl
  | case3 cs _ ih =>
    rw [unescape_backslash (readEscape_lineFeed quote cs), ih]
    rfl
  | case4 cs _ _ ih =>
    rw [unescape_backslash (readEscape_of_ne hquote), ih]
    rfl
  | case5 c cs hc _ _ ih =>
    rw [unescape_cons hc, ih]
    rfl

theorem escapesAll_cons (h : c ≠ '\\') :
    escapesAll quote (c :: cs) = (c != quote && escapesAll quote cs) := by
  rw [escapesAll]
  intro _ _ e
  exact absurd e h

/-- The quote is always written behind a backslash that escapes it. -/
theorem escapesAll_escapeFor (hq : quote ∈ quotes) (value : List Char) :
    escapesAll quote (escapeFor quote value) := by
  have hspace : ' ' ≠ quote := by
    rintro rfl
    exact absurd hq (by decide)
  fun_induction escapeFor quote value with
  | case1 => rfl
  | case2 cs ih => exact ih
  | case3 cs _ ih =>
    rw [escapesAll]
    split
    · rw [List.singleton_append, escapesAll_cons (by decide)]
      simp [hspace, ih]
    · exact ih
  | case4 cs _ _ ih => exact ih
  | case5 c cs hc _ hne ih =>
    rw [escapesAll_cons hc]
    simp [hne, ih]

theorem lineFeed_not_mem_escapeFor (quote : Char) (value : List Char) :
    '\n' ∉ escapeFor quote value := by
  fun_induction escapeFor quote value with
  | case1 => simp
  | case2 cs ih => simp [ih]
  | case3 cs _ ih => split <;> simp [ih]
  | case4 cs _ hn ih => simp [ih, Ne.symm hn]
  | case5 c cs _ hn _ ih => simp [ih, Ne.symm hn]

theorem lineFeed_not_mem_quoted (value : List Char) : '\n' ∉ quoted value := by
  have hquote : quoteFor value ≠ '\n' := by
    intro h
    exact absurd (h ▸ quoteFor_mem_quotes value) (by decide)
  simp [quoted, hquote.symm, lineFeed_not_mem_escapeFor]

/-- **A quoted string denotes its value.** It begins and ends with the same quote, which stands in
between only behind a backslash that escapes it, and there is no line feed in it. -/
theorem unescape_quoted (value : List Char) :
    ∃ quote ∈ quotes, ∃ inside, quoted value = quote :: inside ++ [quote] ∧
      escapesAll quote inside ∧ '\n' ∉ quoted value ∧ unescape inside = some value := by
  have hq := quoteFor_mem_quotes value
  exact ⟨_, hq, _, rfl, escapesAll_escapeFor hq value, lineFeed_not_mem_quoted value,
    unescape_escapeFor hq value⟩

/-! ## Line ends -/

/-- In a text without line feeds every CR and every form feed is a line end of its own. -/
theorem count_unifyLineEnds (h : '\n' ∉ cs) :
    (unifyLineEnds cs).count '\n' = cs.count '\r' + cs.count '\x0c' := by
  fun_induction unifyLineEnds cs with
  | case1 => rfl
  | case2 cs ih => simp at h
  | case3 c cs _ ih =>
    rw [List.mem_cons, not_or] at h
    rw [List.count_cons, ih h.2, List.count_cons, List.count_cons]
    by_cases hr : c = '\r'
    · simp [hr]
      omega
    · by_cases hf : c = '\x0c'
      · simp [hf]
        omega
      · simp [hr, hf, Ne.symm h.1]

/-- A character that no escape is written with stands in the text as often as in the value. -/
theorem count_escapeFor (h : c ∉ [quote, '\\', '\n', 'a', ' ']) (value : List Char) :
    (escapeFor quote value).count c = value.count c := by
  simp only [List.mem_cons, List.not_mem_nil, or_false, not_or, ← ne_eq] at h
  obtain ⟨hq, hb, hn, ha, hs⟩ := h
  fun_induction escapeFor quote value with
  | case1 => rfl
  | case2 cs ih =>
    rw [List.count_cons_of_ne hb.symm, List.count_cons_of_ne hb.symm,
      List.count_cons_of_ne hb.symm, ih]
  | case3 cs _ ih =>
    rw [List.count_cons_of_ne hb.symm, List.count_cons_of_ne ha.symm,
      List.count_cons_of_ne hn.symm, List.count_append, ih]
    split <;> simp [hs.symm]
  | case4 cs _ _ ih =>
    rw [List.count_cons_of_ne hb.symm, List.count_cons_of_ne hq.symm,
      List.count_cons_of_ne hq.symm, ih]
  | case5 d cs _ _ _ ih => rw [List.count_cons, List.count_cons, ih]

theorem count_quoted (h : c ∉ quotes ++ ['\\', '\n', 'a', ' ']) (value : List Char) :
    (quoted value).count c = value.count c := by
  rw [List.mem_append, not_or] at h
  have hq : c ≠ quoteFor value := fun e => h.1 (e ▸ quoteFor_mem_quotes value)
  have hinside : c ∉ quoteFor value :: ['\\', '\n', 'a', ' '] := by
    rw [List.mem_cons, not_or]
    exact ⟨hq, h.2⟩
  rw [quoted, List.cons_append, List.count_cons_of_ne hq.symm, List.count_append,
    count_escapeFor hinside, List.count_singleton, if_neg (by simpa using hq.symm), Nat.add_zero]

/-- **A quoted string has one line end for every CR and every form feed of its value**, and no
others: a line feed is never written as it is. -/
theorem count_lineEnds_quoted (value : List Char) :
    '\n' ∉ quoted value ∧
      ((tokens (.ofList (quoted value))).map Token.char).count '\n' =
        value.count '\r' + value.count '\x0c' ∧
      ((∀ t ∈ tokens (.ofList (quoted value)), t.char ≠ '\n') ↔
        '\r' ∉ value ∧ '\x0c' ∉ value) := by
  have hn := lineFeed_not_mem_quoted value
  have hcount : ((tokens (.ofList (quoted value))).map Token.char).count '\n' =
      value.count '\r' + value.count '\x0c' := by
    rw [map_char_tokens, String.toList_ofList, count_unifyLineEnds hn, count_quoted (by decide),
      count_quoted (by decide)]
  have hnone : (∀ t ∈ tokens (.ofList (quoted value)), t.char ≠ '\n') ↔
      ((tokens (.ofList (quoted value))).map Token.char).count '\n' = 0 := by
    rw [List.count_eq_zero, List.mem_map]
    simp
  refine ⟨hn, hcount, ?_⟩
  rw [hnone, hcount, Nat.add_eq_zero_iff, List.count_eq_zero, List.count_eq_zero]

/-- A CR and a form feed are line ends between the quotes. -/
theorem tokens_quoted_lineEnd :
    (∃ t ∈ tokens (.ofList (quoted ['a', '\r', 'b'])), t.char = '\n') ∧
      ∃ t ∈ tokens (.ofList (quoted ['\x0c'])), t.char = '\n' := by
  decide +kernel

end SelectorAlgebra
