import SelectorAlgebra.Proofs.Failures.Simples
import SelectorAlgebra.Proofs.Grammar.Complete

/-
  Where reading a whole text goes wrong. A failure among the items has a derivable text before it,
  which one more element makes a selector. So every failure in a text breaks off a selector
  (`breaks_readAllItems`).
-/

namespace SelectorAlgebra

open Grammar

variable {f : Failure} {cs used rest : List Char} {b : Bool}

/-! ## Compounds -/

theorem Grammar.IsSimple.derivable (hu : IsSimple used) : Derivable b used := by
  have hd : Derivable b (used ++ []) := .simple hu .done
  rw [List.append_nil] at hd
  exact hd

theorem breaks_readComponents (h : readComponents cs = .error f) :
    f.Breaks (Derivable false) cs := by
  induction cs using readComponents.induct with
  | case1 cs hc failure hs =>
    rw [readComponents_eq, if_pos hc, hs] at h
    cases h
    exact (breaks_readSimple hs).mono fun w hw => hw.derivable
  | case2 cs hc s mid hs hlt ih =>
    rw [readComponents_eq, if_pos hc, hs] at h
    change (readComponents mid >>= _) = _ at h
    rcases bind_eq_error.1 h with h' | ⟨_, _, h'⟩
    · obtain ⟨hr, used, hl, rfl, _⟩ := readSimple_eq_ok.1 hs
      exact (ih h').after used fun w hw => .simple (hl.isSimple hr) hw
    · cases h'
  | case3 cs hc =>
    rw [readComponents_eq, if_neg hc] at h
    cases h

theorem breaks_readCompound (h : readCompound cs = .error f) : f.Breaks (Derivable b) cs := by
  rcases bind_eq_error.1 h with h' | ⟨⟨s, mid⟩, h₁, h'⟩
  · exact (breaks_readSimple h').mono fun w hw => hw.derivable
  · obtain ⟨hr, used, hl, rfl, _⟩ := readSimple_eq_ok.1 h₁
    rcases bind_eq_error.1 h' with h₂ | ⟨_, _, h₂⟩
    · exact (breaks_readComponents h₂).after used fun w hw => .simple (hl.isSimple hr) hw
    · cases h₂

/-! ## Items -/

/-- Reading items fails so, or stops where a selector is missing if the text goes on. -/
def StopsWith (x : Reading (List Item × List Char)) (f : Failure) : Prop :=
  x = .error f ∨ ∃ items rest, x = .ok (items, rest) ∧ f = ⟨.missingSelector, .next rest.length⟩

/-- With one more item in front, reading stops where it does without. -/
theorem StopsWith.of_cons {x : Reading (List Item × List Char)} {i : Item}
    (h : StopsWith (do let (items, rest) ← x; return (i :: items, rest)) f) : StopsWith x f := by
  rcases h with h | ⟨items, rest, h, rfl⟩
  · rcases bind_eq_error.1 h with h | ⟨_, _, h⟩
    · exact Or.inl h
    · cases h
  · obtain ⟨⟨items', rest'⟩, h, e⟩ := bind_eq_ok.1 h
    cases e
    exact Or.inr ⟨items', rest, h, rfl⟩

theorem StopsWith.breaks_readItems (h : StopsWith (readItems b cs) f) :
    f.Breaks (Derivable b) cs := by
  have hunified : IsUnified [] := by simp [IsUnified]
  -- by length, since a compound of any length is read at once
  induction hn : cs.length using Nat.strongRecOn generalizing b cs with
  | ind n ih =>
    subst hn
    obtain ⟨gap, hg, e, _⟩ := exists_gap cs
    have hlen : (skipSeparators cs).length ≤ cs.length := (skipSeparators_suffix cs).length_le
    rw [readItems_eq] at h
    rw [e]
    refine Failure.Breaks.after (G := Derivable b) ?_ gap fun w hw => hw.gap hg
    split at h
    · rename_i hk
      rcases h with h | ⟨_, _, h, rfl⟩
      · cases h
      · cases h
        rw [hk]
        exact .here [] (by simp) hunified .done
    · rename_i c tail hk
      rw [hk, List.length_cons] at hlen
      rw [hk]
      split at h
      · rename_i k hc
        split at h
        · rcases h with h | ⟨_, _, h, _⟩
          · cases h
            exact .here (c :: tail) (by simp) hunified .done
          · cases h
        · rename_i hb
          rw [Bool.not_eq_true] at hb
          subst hb
          have hb := ih _ (by omega) h.of_cons rfl
          exact hb.after [c] fun w hw => .combinator (mem_combinators hc) hw
      · split at h
        · cases hr : readCompound (c :: tail) with
          | error f' =>
            rw [hr] at h
            rcases h with h | ⟨_, _, h, _⟩
            · cases h
              exact breaks_readCompound hr
            · cases h
          | ok r =>
            obtain ⟨compound, mid⟩ := r
            rw [hr] at h
            have hlt := (readCompound_suffix hr).length_lt
            rw [List.length_cons] at hlt
            obtain ⟨used, hu, e'⟩ := (readCompound_eq_ok.1 hr).isCompound
            have hb := ih mid.length (by omega) (StopsWith.of_cons h) rfl
            rw [e']
            exact hb.after used fun w hw => hu.derivable hw
        · rcases h with h | ⟨_, _, h, rfl⟩
          · cases h
          · cases h
            exact .here (c :: tail) (by simp) hunified .done

/-! ## Whole texts -/

theorem stopsWith_of_readAllItems (h : readAllItems cs = .error f) :
    StopsWith (readItems false cs) f := by
  rcases bind_eq_error.1 h with h | ⟨⟨items, rest⟩, h, h'⟩
  · exact Or.inl h
  · refine Or.inr ⟨items, rest, h, ?_⟩
    split at h'
    · rename_i e
      cases e
      cases h'
      rfl
    · cases h'
    · rename_i e
      cases e
      cases h'
      rfl

/-- An element at the end of a derivable text leaves it derivable. -/
theorem Grammar.Derivable.append_simple (h : Derivable b cs) (hu : IsSimple used) :
    Derivable b (cs ++ used) := by
  induction h with
  | done => exact hu.derivable
  | separator hc _ ih => exact .separator hc ih
  | combinator hc _ ih => exact .combinator hc ih
  | simple hu' _ ih =>
    rw [List.append_assoc]
    exact .simple hu' ih

/-- One element more makes a selector of a derivable text. -/
theorem Grammar.Derivable.isSelector (h : Derivable false cs) : IsSelector (cs ++ ['a']) := by
  have hname : isName ['a'] := rfl
  obtain ⟨items, hi⟩ := (h.append_simple (.element .none hname)).exists_items
  refine isSelector_iff.2 ⟨items, fun hn => ?_, hi⟩
  have hgap := isGap_of_itemRow_nil hi hn
  simp [IsGap, isSeparator] at hgap

/-- Every failure in a text breaks off a selector. -/
theorem breaks_readAllItems (h : readAllItems cs = .error f) : f.Breaks IsSelector cs :=
  (stopsWith_of_readAllItems h).breaks_readItems.within [] ['a'] (by simp [IsUnified])
    fun _ hw => hw.isSelector

end SelectorAlgebra
