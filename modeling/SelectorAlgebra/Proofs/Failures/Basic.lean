import SelectorAlgebra.Proofs.Grammar.Sound

/-
  Where reading goes wrong. `Failure.Breaks` says of a failure how it stands to the language of the
  reader that fails: what is read before the place it blames can be completed to a text of that
  language. The exception is a string that its line cuts off, whose failure is told behind the line
  end. A reader that is made of others fails where one of them does, with what was read before as
  its lead (`Failure.Breaks.within`).
-/

namespace SelectorAlgebra

/-! ## Places -/

/-- How many tokens are left where a place starts. The place past all tokens is the last one. -/
def Place.left : Place → Nat
  | next unread => max unread 1
  | last unread => unread + 1
  | since start _ => start

/-! ## Failures -/

/-- How a reader of the language `G` fails on the characters `cs`. -/
structure Failure.Breaks (f : Failure) (G : List Char → Prop) (cs : List Char) : Prop where
  /-- Strings are read only where there is a quote. -/
  cause_ne : f.cause ≠ .missingString
  /-- Of the failures that blame several tokens, there are two causes. The last of the tokens is no
  separator, or the one that follows it is none. -/
  stretch : ∀ start unread, f.place = .since start unread →
    (f.cause = .missing ']' ∨ f.cause = .missingArgument) ∧ unread < start ∧
      ∃ used c rest, cs = used ++ c :: rest ∧ rest.length = unread ∧
        (isSeparator c = false ∨ StopsBefore isSeparator rest)
  /-- What stands before the place can be completed, unless it ends in a string that its line cuts
  off and the text goes on. -/
  completes : (∀ quote, f.cause = .openString quote → f.place = .next 0) →
    ∃ used rest more, cs = used ++ rest ∧ rest.length ≤ f.place.left ∧ IsUnified more ∧
      G (used ++ more)

variable {f : Failure} {G H : List Char → Prop} {cs lead tail more : List Char}
  {cause : SyntaxCause}

theorem isUnified_append (h : IsUnified lead) (h' : IsUnified tail) : IsUnified (lead ++ tail) := by
  intro c hc
  rcases List.mem_append.1 hc with hc | hc
  · exact h c hc
  · exact h' c hc

namespace Failure.Breaks

/-- A failure stays one if more was read before, and if more is needed after. -/
theorem within (h : f.Breaks G cs) (lead tail : List Char) (ht : IsUnified tail)
    (hG : ∀ w, G w → H (lead ++ (w ++ tail))) : f.Breaks H (lead ++ cs) where
  cause_ne := h.cause_ne
  stretch := by
    intro start unread hplace
    obtain ⟨hcause, hlt, used, c, rest, rfl, hlen, hend⟩ := h.stretch start unread hplace
    exact ⟨hcause, hlt, lead ++ used, c, rest, (List.append_assoc _ _ _).symm, hlen, hend⟩
  completes := by
    intro hopen
    obtain ⟨used, rest, more, rfl, hlen, hmore, hw⟩ := h.completes hopen
    refine ⟨lead ++ used, rest, more ++ tail, (List.append_assoc _ _ _).symm, hlen,
      isUnified_append hmore ht, ?_⟩
    have hH := hG _ hw
    rw [List.append_assoc] at hH
    rw [List.append_assoc]
    exact hH

theorem after (h : f.Breaks G cs) (lead : List Char) (hG : ∀ w, G w → H (lead ++ w)) :
    f.Breaks H (lead ++ cs) := by
  have hnil : IsUnified [] := by simp [IsUnified]
  refine h.within lead [] hnil fun w hw => ?_
  rw [List.append_nil]
  exact hG w hw

theorem mono (h : f.Breaks G cs) (hG : ∀ w, G w → H w) : f.Breaks H cs :=
  h.after [] hG

/-- A failure at the first unread character, where `more` could stand. -/
theorem here (cs : List Char) (hs : cause ≠ .missingString) (hm : IsUnified more) (hG : G more) :
    (⟨cause, .next cs.length⟩ : Failure).Breaks G cs where
  cause_ne := hs
  stretch := nofun
  completes := fun _ => ⟨[], cs, more, rfl, Nat.le_max_left _ _, hm, hG⟩

/-- A failure at the character that was read last, where `more` could stand. -/
theorem behind {unread : Nat} (hs : cause ≠ .missingString) (hlen : cs.length ≤ unread + 1)
    (hm : IsUnified more) (hG : G more) :
    (⟨cause, .last unread⟩ : Failure).Breaks G cs where
  cause_ne := hs
  stretch := nofun
  completes := fun _ => ⟨[], cs, more, rfl, hlen, hm, hG⟩

end Failure.Breaks

/-- Where one character is missing, it completes the text. -/
theorem breaks_readChar {c : Char} (h : readChar c cs = .error f) (hm : IsUnified [c]) :
    f.Breaks (· = [c]) cs := by
  cases cs with
  | nil =>
    cases h
    exact .here [] (by simp) hm rfl
  | cons d cs =>
    simp only [readChar] at h
    split at h
    · cases h
    · cases h
      exact .here (d :: cs) (by simp) hm rfl

end SelectorAlgebra
