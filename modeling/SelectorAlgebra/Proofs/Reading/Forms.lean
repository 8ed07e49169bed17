import SelectorAlgebra.Proofs.Reading.Names
import SelectorAlgebra.Simple.Reader

/-
  Simple selectors that can be read from a text, and the texts they can be read from. `Readable`
  says of a value that some text reads as it, and `Layout` says of a text that it is one way of
  writing a value: gaps may stand within brackets, blanks around an argument, and a value may be
  quoted or bare. `Simple.absorbs` tells which characters may not come next, because reading
  would not stop before them.
-/

namespace SelectorAlgebra

/-! ## Names as characters -/

namespace Namespace

@[simp] theorem toList_text_unwritten : unwritten.text.toList = [] := rfl

@[simp] theorem toList_text_empty : empty.text.toList = ['|'] := rfl

@[simp] theorem toList_text_any : any.text.toList = ['*', '|'] := rfl

@[simp] theorem toList_text_named (name : String) :
    (named name).text.toList = name.toList ++ ['|'] := by
  simp [text]

end Namespace

@[simp] theorem QualifiedName.toList_text (n : QualifiedName) :
    n.text.toList = n.space.text.toList ++ n.name.toList := by
  simp [text]

@[simp] theorem Simple.toList_text_universal (space : Namespace) :
    (universal space).text.toList = space.text.toList ++ ['*'] := by
  simp [text]

@[simp] theorem Simple.toList_text_element (n : QualifiedName) :
    (element n).text.toList = n.space.text.toList ++ n.name.toList :=
  n.toList_text

@[simp] theorem Simple.toList_text_classed (name : String) :
    (classed name).text.toList = '.' :: name.toList := by
  simp [text]

@[simp] theorem Simple.toList_text_id (name : String) :
    (id name).text.toList = '#' :: name.toList := by
  simp [text]

@[simp] theorem Simple.toList_text_placeholder (name : String) :
    (placeholder name).text.toList = '%' :: name.toList := by
  simp [text]

/-! ## Readable values -/

def Namespace.Readable : Namespace → Prop
  | named name => isName name.toList
  | _ => True

def QualifiedName.Readable (n : QualifiedName) : Prop := n.space.Readable ∧ isName n.name.toList

/-- The two quotes. -/
def quotes : List Char := ['"', '\'']

/-- Between the quotes of one kind or the other, a value may stand as it is. -/
def IsQuotableValue (value : List Char) : Prop := ∃ quote ∈ quotes, value.all (isQuotable quote)

/-- An attribute is tested for a value and maybe with a modifier, or only for being there. -/
inductive Attribute.Readable : Attribute → Prop where
  | present {name : QualifiedName} (hn : name.Readable) : Readable ⟨name, .present, none, none⟩
  | test {name : QualifiedName} {op : AttributeOp} {value : String} {modifier : Option Char}
      (hn : name.Readable) (ho : op ≠ .present) (hv : IsQuotableValue value.toList)
      (hm : ∀ c ∈ modifier, c.isAlpha) : Readable ⟨name, op, some value, modifier⟩

/-- The number of open parentheses after one more character. -/
def depthAfter (depth : Nat) (c : Char) : Nat :=
  if c = '(' then depth + 1 else if c = ')' then depth - 1 else depth

/-- Whether a text closes the `depth` parentheses that are open before it and all of its own, and
no others. -/
def isBalanced (depth : Nat) : List Char → Bool
  | [] => depth == 0
  | c :: cs => !decide (c = ')' ∧ depth = 0) && isBalanced (depthAfter depth c) cs

/-- What is kept of an argument: its parentheses are balanced and no blank is at its ends. -/
def IsArgument (argument : List Char) : Prop :=
  isBalanced 0 argument ∧ argument ≠ [] ∧ StopsBefore isBlank argument ∧
    StopsBefore isBlank argument.reverse

def Pseudo.Readable (p : Pseudo) : Prop :=
  isName p.name.toList ∧ p.isClass = (p.isSyntacticClass && !isLegacyElement p.name) ∧
    ∀ argument ∈ p.argument, IsArgument argument.toList

def Simple.Readable : Simple → Prop
  | universal space => space.Readable
  | element name => name.Readable
  | classed name | id name | placeholder name => isName name.toList
  | pseudo p => p.Readable
  | attr a => a.Readable

/-! ## Layouts -/

/-- The ways to write a value after the operator of an attribute; `after` is what comes next. A
bare value must not run into it. -/
inductive ValueLayout (value after : List Char) : List Char → Prop where
  | bare (hn : isName value) (hs : StopsBefore continuesName after) : ValueLayout value after value
  | quoted (quote : Char) (hq : quote ∈ quotes) (hv : value.all (isQuotable quote)) :
      ValueLayout value after (quote :: value ++ [quote])

/-- The ways to write a modifier, if there is one. -/
def ModifierLayout : Option Char → List Char → Prop
  | none, cs => cs = []
  | some c, cs => ∃ gap, IsGap gap ∧ cs = c :: gap

/-- The ways to write an attribute after its opening bracket. -/
inductive Attribute.Layout : Attribute → List Char → Prop where
  | present {name : QualifiedName} {gap₁ gap₂ : List Char} (h₁ : IsGap gap₁) (h₂ : IsGap gap₂) :
      Layout ⟨name, .present, none, none⟩ (gap₁ ++ (name.text.toList ++ (gap₂ ++ [']'])))
  | test {name : QualifiedName} {op : AttributeOp} {value : String} {modifier : Option Char}
      {gap₁ gap₂ gap₃ gap₄ written modified : List Char}
      (h₁ : IsGap gap₁) (h₂ : IsGap gap₂) (h₃ : IsGap gap₃) (h₄ : IsGap gap₄)
      (hm : ModifierLayout modifier modified)
      (hv : ValueLayout value.toList (gap₄ ++ (modified ++ [']'])) written) :
      Layout ⟨name, op, some value, modifier⟩
        (gap₁ ++ (name.text.toList ++ (gap₂ ++ (op.text.toList ++ (gap₃ ++
          (written ++ (gap₄ ++ (modified ++ [']']))))))))

/-- The ways to write an argument, if there is one. -/
def ArgumentLayout : Option String → List Char → Prop
  | none, cs => cs = []
  | some argument, cs => ∃ lead trail, lead.all isBlank ∧ trail.all isBlank ∧
      cs = '(' :: (lead ++ (argument.toList ++ (trail ++ [')'])))

def Pseudo.colons (p : Pseudo) : List Char := ':' :: if p.isSyntacticClass then [] else [':']

/-- The ways to write a pseudo selector. -/
def Pseudo.Layout (p : Pseudo) (cs : List Char) : Prop :=
  ∃ written, ArgumentLayout p.argument written ∧ cs = p.colons ++ (p.name.toList ++ written)

/-- The ways to write a simple selector. -/
def Simple.Layout : Simple → List Char → Prop
  | pseudo p, cs => p.Layout cs
  | attr a, cs => ∃ inside, a.Layout inside ∧ cs = '[' :: inside
  | s, cs => cs = s.text.toList

/-- Whether a character right after a simple selector keeps it from ending there. -/
def Simple.absorbs : Simple → Char → Bool
  | universal .unwritten, c => c == '|'
  | universal _, _ => false
  | element ⟨.unwritten, _⟩, c => continuesName c || c == '|'
  | element _, c | classed _, c | id _, c | placeholder _, c => continuesName c
  | pseudo p, c => p.argument.isNone && (continuesName c || c == '(')
  | attr _, _ => false

theorem Simple.absorbs_universal {space : Namespace} (hw : space ≠ .unwritten) :
    (universal space).absorbs = fun _ => false := by
  cases space with
  | unwritten => exact absurd rfl hw
  | _ => rfl

theorem Simple.absorbs_element {space : Namespace} (hw : space ≠ .unwritten) (name : String) :
    (element ⟨space, name⟩).absorbs = continuesName := by
  cases space with
  | unwritten => exact absurd rfl hw
  | _ => rfl

/-! ## Where compounds end -/

/-- The characters after a compound selector: white space and combinators. -/
def ends : List Char := [' ', '\t', '\n', '+', '>', '~']

theorem Simple.absorbs_ends (s : Simple) : ends.any s.absorbs = false := by
  have hends : (ends.any fun d => continuesName d || d == '|' || d == '(') = false := by decide
  rw [List.any_eq_false]
  intro d hd
  have h := eq_false_of_mem hends hd
  simp only [Bool.or_eq_false_iff, beq_eq_false_iff_ne] at h
  obtain ⟨⟨hn, hbar⟩, hp⟩ := h
  cases s with
  | universal space => cases space <;> simp [absorbs, hbar]
  | element n =>
    obtain ⟨space, name⟩ := n
    cases space <;> simp [absorbs, hn, hbar]
  | _ => simp [absorbs, hn, hp]

theorem stopsBefore_of_ends {p : Char → Bool} {rest : List Char} (hp : ends.any p = false)
    (h : ∀ d ∈ rest.head?, d ∈ ends) : StopsBefore p rest := by
  cases rest with
  | nil => rfl
  | cons d rest => exact stopsBefore_cons.2 (eq_false_of_mem hp (h d rfl))

end SelectorAlgebra
