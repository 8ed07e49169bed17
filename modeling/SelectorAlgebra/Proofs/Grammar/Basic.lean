import SelectorAlgebra.Proofs.Reading.Rows
import Mathlib.Data.List.Chain

/-
  The grammar of selectors, over texts in which every line end is a line feed. It says which texts
  are selectors and nothing of what they mean, and it is ambiguous: `ab` may be one element or two.
  `Derivable` is the same language as a walk from left to right that takes one simple selector,
  one combinator or one separator at a time.
-/

namespace SelectorAlgebra.Grammar

/-! ## Simple selectors -/

/-- What may stand before a name to say its namespace. -/
inductive IsPrefix : List Char → Prop where
  | none : IsPrefix []
  | empty : IsPrefix ['|']
  | any : IsPrefix ['*', '|']
  | named {name : List Char} (hn : isName name) : IsPrefix (name ++ ['|'])

/-- The operators between the name and the value of an attribute. -/
def operators : List String := ["=", "~=", "|=", "^=", "$=", "*="]

/-- The value of an attribute: an identifier, or what stands between two equal quotes and holds
neither that quote nor a line feed or backslash. -/
inductive IsValue : List Char → Prop where
  | bare {value : List Char} (hn : isName value) : IsValue value
  | quoted {quote : Char} {value : List Char} (hq : quote ∈ quotes)
      (hv : value.all (isQuotable quote)) : IsValue (quote :: value ++ [quote])

/-- One letter and a gap, or nothing. -/
inductive IsModifier : List Char → Prop where
  | none : IsModifier []
  | letter {c : Char} {gap : List Char} (hc : c.isAlpha) (hg : IsGap gap) : IsModifier (c :: gap)

/-- What stands between the brackets of an attribute. -/
inductive IsAttribute : List Char → Prop where
  | present {gap₁ space name gap₂ : List Char} (h₁ : IsGap gap₁) (hp : IsPrefix space)
      (hn : isName name) (h₂ : IsGap gap₂) : IsAttribute (gap₁ ++ (space ++ (name ++ gap₂)))
  | test {gap₁ space name gap₂ value gap₃ gap₄ modified : List Char} {op : String}
      (h₁ : IsGap gap₁) (hp : IsPrefix space) (hn : isName name) (h₂ : IsGap gap₂)
      (ho : op ∈ operators) (h₃ : IsGap gap₃) (hv : IsValue value) (h₄ : IsGap gap₄)
      (hm : IsModifier modified) :
      IsAttribute (gap₁ ++ (space ++ (name ++ (gap₂ ++ (op.toList ++ (gap₃ ++
        (value ++ (gap₄ ++ modified))))))))

/-- An argument in parentheses, or nothing. The argument is not blank. -/
inductive IsParenthesized : List Char → Prop where
  | none : IsParenthesized []
  | argument {argument : List Char} (hb : isBalanced 0 argument) (hn : ¬ argument.all isBlank) :
      IsParenthesized ('(' :: argument ++ [')'])

inductive IsSimple : List Char → Prop where
  | marked {mark : Char} {name : List Char} (hm : mark ∈ ['.', '#', '%']) (hn : isName name) :
      IsSimple (mark :: name)
  | pseudo {colons name argument : List Char} (hc : colons = [':'] ∨ colons = [':', ':'])
      (hn : isName name) (ha : IsParenthesized argument) : IsSimple (colons ++ (name ++ argument))
  | element {space name : List Char} (hp : IsPrefix space) (hn : isName name) :
      IsSimple (space ++ name)
  | universal {space : List Char} (hp : IsPrefix space) : IsSimple (space ++ ['*'])
  | bracketed {inside : List Char} (hi : IsAttribute inside) : IsSimple ('[' :: inside ++ [']'])

/-! ## Selectors -/

/-- Whether a simple selector that begins with a character may stand right after another one. -/
def continuesCompound (c : Char) : Bool := ['*', '[', '.', '#', '%', ':', '|'].contains c

/-- Simple selectors one right after another. -/
def IsCompound (cs : List Char) : Prop :=
  ∃ (first : List Char) (more : List (List Char)), IsSimple first ∧
    (∀ used ∈ more, IsSimple used ∧ used.head?.any continuesCompound) ∧ cs = first ++ more.flatten

/-- The combinators that are written as one character. -/
def combinators : List Char := ['+', '>', '~']

/-- A compound selector or a combinator, and the gap after it. -/
structure Piece where
  isCombinator : Bool
  item : List Char
  gap : List Char
  isItem : if isCombinator then ∃ c ∈ combinators, item = [c] else IsCompound item
  isGap : IsGap gap

def Piece.text (p : Piece) : List Char := p.item ++ p.gap

/-- Whether one piece may come right before another: two combinators may not. -/
def Piece.Precedes (p q : Piece) : Prop := ¬ (p.isCombinator ∧ q.isCombinator)

/-- A complex selector: a gap, and one piece or more. -/
def IsSelector (cs : List Char) : Prop :=
  ∃ (gap : List Char) (pieces : List Piece), IsGap gap ∧ pieces ≠ [] ∧
    pieces.IsChain Piece.Precedes ∧ cs = gap ++ pieces.flatMap Piece.text

/-! ## How they begin -/

theorem IsPrefix.exists_cons {space : List Char} (hp : IsPrefix space) {d : Char}
    (hd : continuesCompound d ∨ isNameChar d) (cs : List Char) :
    ∃ e more, space ++ d :: cs = e :: more ∧ (continuesCompound e ∨ isNameChar e) := by
  cases hp with
  | none => exact ⟨d, cs, rfl, hd⟩
  | empty => exact ⟨'|', _, rfl, Or.inl rfl⟩
  | any => exact ⟨'*', _, rfl, Or.inl rfl⟩
  | named hn =>
    obtain ⟨c, more, rfl, hc⟩ := exists_cons_of_isName hn
    exact ⟨c, _, rfl, Or.inr hc⟩

/-- A simple selector begins with one of the marks or with a name. -/
theorem IsSimple.exists_cons {used : List Char} (h : IsSimple used) :
    ∃ d more, used = d :: more ∧ (continuesCompound d ∨ isNameChar d) := by
  cases h with
  | @marked mark name hm hn =>
    exact ⟨mark, name, rfl, Or.inl (List.all_eq_true.1 (by decide) mark hm)⟩
  | pseudo hc =>
    rcases hc with rfl | rfl
    · exact ⟨':', _, rfl, Or.inl rfl⟩
    · exact ⟨':', _, rfl, Or.inl rfl⟩
  | element hp hn =>
    obtain ⟨c, more, rfl, hc⟩ := exists_cons_of_isName hn
    exact hp.exists_cons (Or.inr hc) more
  | universal hp => exact hp.exists_cons (Or.inl rfl) []
  | bracketed => exact ⟨'[', _, rfl, Or.inl rfl⟩

/-! ## Walks -/

/-- A text that is made up of simple selectors, combinators and separators. `afterCombinator`
says that there is a combinator before the text, so it has to have a simple selector before the
next one. -/
inductive Derivable : (afterCombinator : Bool) → List Char → Prop where
  | done {b : Bool} : Derivable b []
  | separator {b : Bool} {c : Char} {cs : List Char} (hc : isSeparator c) (h : Derivable b cs) :
      Derivable b (c :: cs)
  | combinator {c : Char} {cs : List Char} (hc : c ∈ combinators) (h : Derivable true cs) :
      Derivable false (c :: cs)
  | simple {b : Bool} {used cs : List Char} (hu : IsSimple used) (h : Derivable false cs) :
      Derivable b (used ++ cs)

variable {b : Bool} {cs used rest : List Char} {pieces : List Piece}

theorem Derivable.gap {gap : List Char} (hg : IsGap gap) (h : Derivable b cs) :
    Derivable b (gap ++ cs) := by
  induction gap with
  | nil => exact h
  | cons c gap ih =>
    obtain ⟨hc, hg⟩ := isGap_cons.1 hg
    exact .separator hc (ih hg)

theorem IsCompound.derivable (hc : IsCompound used) (h : Derivable false cs) :
    Derivable b (used ++ cs) := by
  obtain ⟨first, more, hf, hm, rfl⟩ := hc
  rw [List.append_assoc]
  refine .simple hf ?_
  induction more with
  | nil => exact h
  | cons used more ih =>
    rw [List.flatten_cons, List.append_assoc]
    exact .simple (hm used (by simp)).1 (ih fun used' hu => hm used' (List.mem_cons_of_mem _ hu))

/-- Pieces are walked through one by one. After a combinator the next piece is a compound. -/
theorem derivable_pieces (hp : pieces.IsChain Piece.Precedes)
    (hb : b → ∀ p ∈ pieces.head?, p.isCombinator = false) :
    Derivable b (pieces.flatMap Piece.text) := by
  induction pieces generalizing b with
  | nil => exact .done
  | cons p pieces ih =>
    obtain ⟨hh, ht⟩ := List.isChain_cons.1 hp
    have hi := p.isItem
    rw [List.flatMap_cons, Piece.text, List.append_assoc]
    split at hi
    · rename_i hk
      obtain ⟨c, hc, e⟩ := hi
      have hbf : b = false := by
        cases b with
        | false => rfl
        | true => exact absurd hk (by simp [hb rfl p (by simp)])
      subst hbf
      rw [e, List.singleton_append]
      refine .combinator hc (Derivable.gap p.isGap (ih ht fun _ q hq => ?_))
      exact Bool.eq_false_iff.2 fun hq' => hh q hq ⟨hk, hq'⟩
    · exact hi.derivable (Derivable.gap p.isGap (ih ht fun h => absurd h (by simp)))

theorem IsSelector.derivable (h : IsSelector cs) : Derivable false cs := by
  obtain ⟨gap, pieces, hg, _, hp, rfl⟩ := h
  exact Derivable.gap hg (derivable_pieces hp fun h => absurd h (by simp))

end SelectorAlgebra.Grammar
