import SelectorAlgebra.Simple.Basic

/-
  Reading a simple selector. What stands first decides its kind, and every reader takes as much
  as it can. The lemmas `…_suffix` say that each takes one character at least.
-/

namespace SelectorAlgebra

/-! ## Names of elements and attributes -/

/-- Takes the name of an attribute. A bar before `=` belongs to the operator that follows. -/
def readAttributeName : List Char → Reading (QualifiedName × List Char)
  | '*' :: cs => do
    let cs ← readChar '|' cs
    let (name, cs) ← readIdentifier cs
    return (⟨.any, name⟩, cs)
  | '|' :: cs => do
    let (name, cs) ← readIdentifier cs
    return (⟨.empty, name⟩, cs)
  | cs => do
    let (first, cs) ← readIdentifier cs
    match cs with
    | '|' :: '=' :: _ => return (⟨.unwritten, first⟩, cs)
    | '|' :: cs => do
      let (name, cs) ← readIdentifier cs
      return (⟨.named first, name⟩, cs)
    | cs => return (⟨.unwritten, first⟩, cs)

/-- Takes what follows the bar after a namespace: `*` or the name of an element. -/
def readInNamespace (space : Namespace) : List Char → Reading (Simple × List Char)
  | '*' :: cs => .ok (.universal space, cs)
  | cs => do
    let (name, cs) ← readIdentifier cs
    return (.element ⟨space, name⟩, cs)

/-- Takes `*` or the name of an element, with its namespace. -/
def readElement : List Char → Reading (Simple × List Char)
  | '*' :: '|' :: cs => readInNamespace .any cs
  | '*' :: cs => .ok (.universal .unwritten, cs)
  | '|' :: cs => readInNamespace .empty cs
  | cs => do
    let (first, cs) ← readIdentifier cs
    match cs with
    | '|' :: cs => readInNamespace (.named first) cs
    | cs => return (.element ⟨.unwritten, first⟩, cs)

/-! ## Attributes -/

/-- The operator that a character begins, other than `=`. -/
def AttributeOp.ofChar? : Char → Option AttributeOp
  | '~' => some .includes
  | '|' => some .dashMatch
  | '^' => some .startsWith
  | '$' => some .endsWith
  | '*' => some .contains
  | _ => none

def readAttributeOp : List Char → Reading (AttributeOp × List Char)
  | [] => .error ⟨.missingOperator, .last 0⟩
  | '=' :: cs => .ok (.equals, cs)
  | c :: cs =>
    match AttributeOp.ofChar? c with
    | some op => do
      let cs ← readChar '=' cs
      return (op, cs)
    | none => .error ⟨.missingOperator, .last cs.length⟩

/-- Takes a quoted string or an identifier. -/
def readAttributeValue : List Char → Reading (String × List Char)
  | '"' :: cs => (readString ('"' :: cs)).map fun (value, cs) => (String.ofList value, cs)
  | '\'' :: cs => (readString ('\'' :: cs)).map fun (value, cs) => (String.ofList value, cs)
  | cs => readIdentifier cs

/-- Takes one ASCII letter and the separators after it, if there is one. -/
def readModifier : List Char → Option Char × List Char
  | c :: cs => if c.isAlpha then (some c, skipSeparators cs) else (none, c :: cs)
  | [] => (none, [])

/-- Takes what comes after the separators behind the name of an attribute; `start` characters
were unread at the opening bracket. -/
def readAttributeTest (start : Nat) (name : QualifiedName) : List Char → Reading (Attribute × List Char)
  | ']' :: cs => .ok (⟨name, .present, none, none⟩, cs)
  | cs => do
    let (op, cs) ← readAttributeOp cs
    let (value, cs) ← readAttributeValue (skipSeparators cs)
    match readModifier (skipSeparators cs) with
    | (modifier, ']' :: cs) => return (⟨name, op, some value, modifier⟩, cs)
    | (_, cs) => throw ⟨.missing ']', .since start cs.length⟩

/-- Takes an attribute whose opening bracket is read. -/
def readAttribute (cs : List Char) : Reading (Attribute × List Char) := do
  let (name, rest) ← readAttributeName (skipSeparators cs)
  readAttributeTest (cs.length + 1) name (skipSeparators rest)

/-! ## Pseudo selectors -/

/-- Takes everything up to the `)` that closes an argument, and that `)`; `depth` parentheses
were opened inside it. -/
def readArgument (depth : Nat) : List Char → Reading (List Char × List Char)
  | [] => failAt (.missing ')') []
  | c :: cs =>
    if c = ')' ∧ depth = 0 then .ok ([], cs)
    else
      let depth := if c = '(' then depth + 1 else if c = ')' then depth - 1 else depth
      (readArgument depth cs).map fun (argument, rest) => (c :: argument, rest)

/-- Takes the argument of a pseudo selector, if a parenthesis opens one. It is kept as it is
written, but for the blanks at its ends. -/
def readOptionalArgument : List Char → Reading (Option String × List Char)
  | '(' :: cs => do
    let (written, rest) ← readArgument 0 cs
    match trimBlanks written with
    | [] => throw ⟨.missingArgument, .since cs.length rest.length⟩
    | argument => return (some (String.ofList argument), rest)
  | cs => .ok (none, cs)

/-- Takes the name and argument of a pseudo selector whose colons are read. -/
def readPseudoAfter (isSyntacticClass : Bool) (cs : List Char) : Reading (Pseudo × List Char) := do
  let (name, cs) ← readIdentifier cs
  let (argument, cs) ← readOptionalArgument cs
  return (⟨name, isSyntacticClass && !isLegacyElement name, isSyntacticClass, argument⟩, cs)

/-- Takes a pseudo selector whose first colon is read. -/
def readPseudo : List Char → Reading (Pseudo × List Char)
  | ':' :: cs => readPseudoAfter false cs
  | cs => readPseudoAfter true cs

/-! ## Simple selectors -/

/-- The characters that begin a simple selector, those of names apart. -/
def startsSimple (c : Char) : Bool :=
  ['*', '[', '.', '#', '%', ':', '|', '&'].contains c

def readSimple : List Char → Reading (Simple × List Char)
  | '[' :: cs => (readAttribute cs).map fun (a, cs) => (.attr a, cs)
  | '.' :: cs => (readIdentifier cs).map fun (name, cs) => (.classed name, cs)
  | '#' :: cs => (readIdentifier cs).map fun (name, cs) => (.id name, cs)
  | '%' :: cs => (readIdentifier cs).map fun (name, cs) => (.placeholder name, cs)
  | ':' :: cs => (readPseudo cs).map fun (p, cs) => (.pseudo p, cs)
  | '&' :: cs => failAt .parentSelector ('&' :: cs)
  | cs => readElement cs

/-! ## Progress -/

theorem readAttributeName_suffix {cs rest : List Char} {name : QualifiedName}
    (h : readAttributeName cs = .ok (name, rest)) : ProperSuffix rest cs := by
  unfold readAttributeName at h
  split at h
  · obtain ⟨mid, h₁, h⟩ := bind_eq_ok.1 h
    obtain ⟨⟨n, rest'⟩, h₂, h⟩ := bind_eq_ok.1 h
    cases h
    rw [readChar_eq_ok.1 h₁]
    exact (properSuffix_cons _ _).trans ((properSuffix_cons _ _).trans (readIdentifier_suffix h₂))
  · obtain ⟨⟨n, rest'⟩, h₂, h⟩ := bind_eq_ok.1 h
    cases h
    exact (properSuffix_cons _ _).trans (readIdentifier_suffix h₂)
  · obtain ⟨⟨first, mid⟩, h₁, h⟩ := bind_eq_ok.1 h
    have h₁ := readIdentifier_suffix h₁
    dsimp only at h
    split at h
    · cases h; exact h₁
    · obtain ⟨⟨n, rest'⟩, h₂, h⟩ := bind_eq_ok.1 h
      cases h
      exact h₁.trans ((properSuffix_cons _ _).trans (readIdentifier_suffix h₂))
    · cases h; exact h₁

theorem readInNamespace_suffix {space : Namespace} {cs rest : List Char} {s : Simple}
    (h : readInNamespace space cs = .ok (s, rest)) : ProperSuffix rest cs := by
  unfold readInNamespace at h
  split at h
  · cases h; exact properSuffix_cons _ _
  · obtain ⟨⟨n, rest'⟩, h₁, h⟩ := bind_eq_ok.1 h
    cases h
    exact readIdentifier_suffix h₁

theorem readElement_suffix {cs rest : List Char} {s : Simple}
    (h : readElement cs = .ok (s, rest)) : ProperSuffix rest cs := by
  unfold readElement at h
  split at h
  · exact (properSuffix_cons _ _).trans
      ((properSuffix_cons _ _).trans (readInNamespace_suffix h))
  · cases h; exact properSuffix_cons _ _
  · exact (properSuffix_cons _ _).trans (readInNamespace_suffix h)
  · obtain ⟨⟨first, mid⟩, h₁, h⟩ := bind_eq_ok.1 h
    have h₁ := readIdentifier_suffix h₁
    dsimp only at h
    split at h
    · exact h₁.trans ((properSuffix_cons _ _).trans (readInNamespace_suffix h))
    · cases h; exact h₁

theorem readAttributeOp_suffix {cs rest : List Char} {op : AttributeOp}
    (h : readAttributeOp cs = .ok (op, rest)) : ProperSuffix rest cs := by
  unfold readAttributeOp at h
  split at h
  · cases h
  · cases h; exact properSuffix_cons _ _
  · split at h
    · obtain ⟨mid, h₁, h⟩ := bind_eq_ok.1 h
      cases h
      rw [readChar_eq_ok.1 h₁]
      exact (properSuffix_cons _ _).trans (properSuffix_cons _ _)
    · cases h

theorem readAttributeValue_suffix {cs rest : List Char} {value : String}
    (h : readAttributeValue cs = .ok (value, rest)) : ProperSuffix rest cs := by
  unfold readAttributeValue at h
  split at h
  · obtain ⟨⟨v, rest'⟩, h₁, h⟩ := map_eq_ok.1 h
    cases h
    exact readString_suffix h₁
  · obtain ⟨⟨v, rest'⟩, h₁, h⟩ := map_eq_ok.1 h
    cases h
    exact readString_suffix h₁
  · exact readIdentifier_suffix h

theorem readModifier_suffix (cs : List Char) : (readModifier cs).2 <:+ cs := by
  unfold readModifier
  split
  · split
    · exact (skipSeparators_suffix _).trans (List.suffix_cons _ _)
    · exact List.suffix_refl _
  · exact List.suffix_refl _

theorem readAttributeTest_suffix {start : Nat} {name : QualifiedName} {cs rest : List Char}
    {a : Attribute} (h : readAttributeTest start name cs = .ok (a, rest)) :
    ProperSuffix rest cs := by
  unfold readAttributeTest at h
  split at h
  · cases h; exact properSuffix_cons _ _
  · obtain ⟨⟨op, cs₁⟩, h₁, h⟩ := bind_eq_ok.1 h
    obtain ⟨⟨value, cs₂⟩, h₂, h⟩ := bind_eq_ok.1 h
    have h₁ := readAttributeOp_suffix h₁
    have h₂ := (readAttributeValue_suffix h₂).suffix.trans (skipSeparators_suffix _)
    have h₃ := (readModifier_suffix (skipSeparators cs₂)).trans (skipSeparators_suffix _)
    dsimp only at h
    split at h
    · rename_i m mid e
      cases h
      rw [e] at h₃
      exact h₁.trans_suffix ((((properSuffix_cons _ _).suffix).trans h₃).trans h₂)
    · cases h

theorem readAttribute_suffix {cs rest : List Char} {a : Attribute}
    (h : readAttribute cs = .ok (a, rest)) : ProperSuffix rest cs := by
  obtain ⟨⟨name, mid⟩, h₁, h⟩ := bind_eq_ok.1 h
  exact ((readAttributeName_suffix h₁).of_suffix (skipSeparators_suffix _)).trans_suffix
    ((readAttributeTest_suffix h).suffix.trans (skipSeparators_suffix _))

theorem readArgument_suffix {depth : Nat} {cs rest argument : List Char}
    (h : readArgument depth cs = .ok (argument, rest)) : ProperSuffix rest cs := by
  induction cs generalizing depth argument with
  | nil => cases h
  | cons c cs ih =>
    simp only [readArgument] at h
    split at h
    · cases h; exact properSuffix_cons _ _
    · obtain ⟨⟨argument', rest'⟩, h₁, h⟩ := map_eq_ok.1 h
      cases h
      exact (properSuffix_cons c cs).trans (ih h₁)

theorem readOptionalArgument_suffix {cs rest : List Char} {argument : Option String}
    (h : readOptionalArgument cs = .ok (argument, rest)) : rest <:+ cs := by
  unfold readOptionalArgument at h
  split at h
  · obtain ⟨⟨written, mid⟩, h₁, h⟩ := bind_eq_ok.1 h
    dsimp only at h
    split at h
    · cases h
    · cases h
      exact ((properSuffix_cons _ _).trans (readArgument_suffix h₁)).suffix
  · cases h; exact List.suffix_refl _

theorem readPseudoAfter_suffix {isSyntacticClass : Bool} {cs rest : List Char} {p : Pseudo}
    (h : readPseudoAfter isSyntacticClass cs = .ok (p, rest)) : ProperSuffix rest cs := by
  obtain ⟨⟨name, mid⟩, h₁, h⟩ := bind_eq_ok.1 h
  obtain ⟨⟨argument, mid'⟩, h₂, h⟩ := bind_eq_ok.1 h
  cases h
  exact (readIdentifier_suffix h₁).trans_suffix (readOptionalArgument_suffix h₂)

theorem readPseudo_suffix {cs rest : List Char} {p : Pseudo}
    (h : readPseudo cs = .ok (p, rest)) : ProperSuffix rest cs := by
  unfold readPseudo at h
  split at h
  · exact (properSuffix_cons _ _).trans (readPseudoAfter_suffix h)
  · exact readPseudoAfter_suffix h

theorem readSimple_suffix {cs rest : List Char} {s : Simple}
    (h : readSimple cs = .ok (s, rest)) : ProperSuffix rest cs := by
  unfold readSimple at h
  split at h
  · obtain ⟨⟨a, rest'⟩, h₁, h⟩ := map_eq_ok.1 h
    cases h
    exact (properSuffix_cons _ _).trans (readAttribute_suffix h₁)
  · obtain ⟨⟨name, rest'⟩, h₁, h⟩ := map_eq_ok.1 h
    cases h
    exact (properSuffix_cons _ _).trans (readIdentifier_suffix h₁)
  · obtain ⟨⟨name, rest'⟩, h₁, h⟩ := map_eq_ok.1 h
    cases h
    exact (properSuffix_cons _ _).trans (readIdentifier_suffix h₁)
  · obtain ⟨⟨name, rest'⟩, h₁, h⟩ := map_eq_ok.1 h
    cases h
    exact (properSuffix_cons _ _).trans (readIdentifier_suffix h₁)
  · obtain ⟨⟨p, rest'⟩, h₁, h⟩ := map_eq_ok.1 h
    cases h
    exact (properSuffix_cons _ _).trans (readPseudo_suffix h₁)
  · cases h
  · exact readElement_suffix h

end SelectorAlgebra
