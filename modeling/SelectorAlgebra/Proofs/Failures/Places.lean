import SelectorAlgebra.Chain.Reader
import SelectorAlgebra.Proofs.Sources
import SelectorAlgebra.Proofs.WellFormed.Spelling

/-
  Tokens and places in the text they come from. Every token stands for one character of the text,
  the last of its line end, and cuts the text there (`IsTokenSplit`): the tokens before it spell the
  text before it, less the CR of a CR LF. From that come the bytes and the line of a token.
-/

namespace SelectorAlgebra

variable {cs before after : List Char} {ts : List Token} {t : Token} {text : String} {c : Char}
  {offset i j : Nat}

/-! ## Cutting a text at a token -/

/-- The characters before a place, less a CR that is one line end with the LF after it. -/
def wholeLineEnds (before after : List Char) : List Char :=
  if before.getLast? = some '\r' ∧ after.head? = some '\n' then before.dropLast else before

theorem wholeLineEnds_cons (h : before = [] → ¬ (c = '\r' ∧ after.head? = some '\n')) :
    wholeLineEnds (c :: before) after = c :: wholeLineEnds before after := by
  cases before with
  | nil =>
    have hc : ¬ ([c].getLast? = some '\r' ∧ after.head? = some '\n') := by simpa using h rfl
    rw [wholeLineEnds, if_neg hc]
    rfl
  | cons d before =>
    rw [wholeLineEnds, wholeLineEnds, List.getLast?_cons_cons, List.dropLast_cons_cons]
    split <;> rfl

theorem wholeLineEnds_prefix (before after : List Char) :
    wholeLineEnds before after <+: before := by
  unfold wholeLineEnds
  split
  · exact List.dropLast_prefix before
  · exact List.prefix_refl before

/-- The character `c` between `before` and `after` is what token number `i` of a text stands for,
or the LF of the CR LF that it stands for. -/
structure IsTokenSplit (cs : List Char) (i : Nat) (before : List Char) (c : Char)
    (after : List Char) : Prop where
  text_eq : cs = before ++ c :: after
  before_eq : unifyLineEnds (wholeLineEnds before (c :: after)) = (unifyLineEnds cs).take i
  char_eq : (unifyLineEnds cs)[i]? = some (unifyLineEnd c)
  after_eq : unifyLineEnds after = (unifyLineEnds cs).drop (i + 1)

theorem IsTokenSplit.append_eq (hs : IsTokenSplit cs i before c after) :
    cs = (before ++ [c]) ++ after := by
  rw [hs.text_eq, List.append_assoc, List.singleton_append]

/-- Where a line end is no CR LF, it is unified on its own. -/
theorem unifyLineEnds_cons_of_ne (h : c = '\r' → cs.head? ≠ some '\n') :
    unifyLineEnds (c :: cs) = unifyLineEnd c :: unifyLineEnds cs := by
  rw [unifyLineEnds]
  · rfl
  · rintro more hc rfl
    exact h hc rfl

/-- Every token cuts the text, at the byte where it starts. -/
theorem exists_split_of_tokensFrom (h : (tokensFrom offset cs)[i]? = some t) :
    ∃ before c after, IsTokenSplit cs i before c after ∧
      t.offset = offset + byteCount before ∧ t.stop = offset + byteCount (before ++ [c]) := by
  fun_induction tokensFrom offset cs generalizing i with
  | case1 => cases h
  | case2 offset cs ih =>
    cases i with
    | zero =>
      cases h
      have hcut : wholeLineEnds ['\r'] ('\n' :: cs) = [] := rfl
      exact ⟨['\r'], '\n', cs, ⟨rfl, by rw [hcut]; rfl, rfl, rfl⟩, rfl, rfl⟩
    | succ i =>
      obtain ⟨before, c, after, hs, hstart, hstop⟩ := ih (by simpa using h)
      refine ⟨'\r' :: '\n' :: before, c, after, ⟨?_, ?_, ?_, ?_⟩, ?_, ?_⟩
      · rw [hs.text_eq]
        rfl
      · rw [wholeLineEnds_cons (by simp), wholeLineEnds_cons (by simp), unifyLineEnds,
          unifyLineEnds, hs.before_eq]
        rfl
      · simpa [unifyLineEnds] using hs.char_eq
      · simpa [unifyLineEnds] using hs.after_eq
      · have hbytes : byteCount ('\r' :: '\n' :: before) = 1 + (1 + byteCount before) := rfl
        omega
      · have hbytes : byteCount ('\r' :: '\n' :: before ++ [c]) =
          1 + (1 + byteCount (before ++ [c])) := rfl
        omega
  | case3 offset c cs hcr first =>
    rename_i ih
    have hne : c = '\r' → cs.head? ≠ some '\n' := by
      intro hc hh
      obtain ⟨more, rfl⟩ := List.head?_eq_some_iff.1 hh
      exact hcr more hc rfl
    have hstop : first.stop = offset + c.utf8Size := congrArg (offset + ·) (utf8Size_unified c)
    cases i with
    | zero =>
      obtain rfl : first = t := by simpa using h
      refine ⟨[], c, cs, ⟨rfl, rfl, ?_, ?_⟩, rfl, ?_⟩
      · rw [unifyLineEnds_cons_of_ne hne]
        rfl
      · rw [unifyLineEnds_cons_of_ne hne]
        rfl
      · rw [hstop]
        rfl
    | succ i =>
      obtain ⟨before, d, after, hs, hstart, hstop'⟩ := ih (by simpa using h)
      refine ⟨c :: before, d, after, ⟨?_, ?_, ?_, ?_⟩, ?_, ?_⟩
      · rw [hs.text_eq]
        rfl
      · have hcut : before = [] → ¬ (c = '\r' ∧ (d :: after).head? = some '\n') := by
          rintro rfl ⟨hc, hd⟩
          refine hne hc ?_
          rw [hs.text_eq]
          exact hd
        have hhead : c = '\r' → (wholeLineEnds before (d :: after)).head? ≠ some '\n' := by
          intro hc hh
          refine hne hc ?_
          obtain ⟨more, e⟩ := wholeLineEnds_prefix before (d :: after)
          rw [hs.text_eq, ← e, List.append_assoc, List.head?_append, hh]
          rfl
        rw [wholeLineEnds_cons hcut, unifyLineEnds_cons_of_ne hhead, unifyLineEnds_cons_of_ne hne,
          hs.before_eq]
        rfl
      · rw [unifyLineEnds_cons_of_ne hne]
        exact hs.char_eq
      · rw [unifyLineEnds_cons_of_ne hne]
        exact hs.after_eq
      · rw [hstart, hstop, byteCount, Nat.add_assoc]
      · rw [hstop', hstop, List.cons_append, byteCount, Nat.add_assoc]

/-! ## Tokens in order -/

theorem le_offset_of_mem_tokensFrom (h : t ∈ tokensFrom offset cs) : offset ≤ t.offset := by
  fun_induction tokensFrom offset cs with
  | case1 => cases h
  | case2 offset cs ih =>
    rcases List.mem_cons.1 h with rfl | h
    · exact Nat.le_add_right offset 1
    · have hle := ih h
      omega
  | case3 offset c cs hcr first ih =>
    rcases List.mem_cons.1 h with rfl | h
    · exact Nat.le_refl _
    · exact Nat.le_trans (Nat.le_add_right _ _) (ih h)

/-- A token starts where the one before it stops, or later. -/
theorem pairwise_tokensFrom (offset : Nat) (cs : List Char) :
    (tokensFrom offset cs).Pairwise fun a b => a.stop ≤ b.offset := by
  fun_induction tokensFrom offset cs with
  | case1 => exact .nil
  | case2 offset cs ih =>
    exact List.pairwise_cons.2 ⟨fun t ht => le_offset_of_mem_tokensFrom ht, ih⟩
  | case3 offset c cs hcr first ih =>
    exact List.pairwise_cons.2 ⟨fun t ht => le_offset_of_mem_tokensFrom ht, ih⟩

theorem pairwise_tokens (text : String) :
    (tokens text).Pairwise fun a b => a.stop ≤ b.offset :=
  pairwise_tokensFrom 0 text.toList

theorem length_tokens (text : String) :
    (tokens text).length = (unifyLineEnds text.toList).length := by
  rw [← map_char_tokens, List.length_map]

/-- The bounds of a token, or those of the last one past the end. -/
theorem exists_tokenBounds (hne : ts ≠ []) (i : Nat) :
    ∃ t, ts[min i (ts.length - 1)]? = some t ∧ tokenBounds ts i = (t.offset, t.stop) := by
  have hpos : 0 < ts.length := List.length_pos_of_ne_nil hne
  by_cases hi : i < ts.length
  · have hmin : min i (ts.length - 1) = i := by omega
    obtain ⟨t, ht⟩ : ∃ t, ts[i]? = some t := ⟨ts[i], List.getElem?_eq_getElem hi⟩
    refine ⟨t, by rw [hmin, ht], ?_⟩
    rw [tokenBounds, ht]
    rfl
  · have hmin : min i (ts.length - 1) = ts.length - 1 := by omega
    have hout : ts[i]? = none := List.getElem?_eq_none (by omega)
    obtain ⟨t, ht⟩ : ∃ t, ts[ts.length - 1]? = some t :=
      ⟨ts[ts.length - 1], List.getElem?_eq_getElem (by omega)⟩
    refine ⟨t, by rw [hmin, ht], ?_⟩
    rw [tokenBounds, hout, List.getLast?_eq_getElem?, ht]
    rfl

theorem tokenBounds_nil (i : Nat) : tokenBounds [] i = (0, 0) := rfl

/-- Past the end, all bounds are those of the last token. -/
theorem tokenBounds_congr (h : min i (ts.length - 1) = min j (ts.length - 1)) :
    tokenBounds ts i = tokenBounds ts j := by
  by_cases hne : ts = []
  · rw [hne, tokenBounds_nil, tokenBounds_nil]
  · obtain ⟨a, ha, ea⟩ := exists_tokenBounds hne i
    obtain ⟨b, hb, eb⟩ := exists_tokenBounds hne j
    rw [h, hb] at ha
    cases ha
    rw [ea, eb]

theorem exists_split_of_tokenBounds (hne : tokens text ≠ []) (i : Nat) :
    ∃ before c after,
      IsTokenSplit text.toList (min i ((tokens text).length - 1)) before c after ∧
        tokenBounds (tokens text) i = (byteCount before, byteCount (before ++ [c])) := by
  obtain ⟨t, ht, e⟩ := exists_tokenBounds hne i
  obtain ⟨before, c, after, hs, hstart, hstop⟩ := exists_split_of_tokensFrom ht
  rw [Nat.zero_add] at hstart hstop
  exact ⟨before, c, after, hs, by rw [e, hstart, hstop]⟩

/-- The token before what is left of a text, and the cut there. -/
theorem exists_split_of_append {used rest : List Char}
    (e : unifyLineEnds text.toList = used ++ c :: rest) :
    ∃ before d after, IsTokenSplit text.toList used.length before d after ∧
      unifyLineEnd d = c ∧ unifyLineEnds after = rest ∧
      tokenBounds (tokens text) ((tokens text).length - rest.length - 1) =
        (byteCount before, byteCount (before ++ [d])) := by
  have hcount : (tokens text).length = used.length + 1 + rest.length := by
    rw [length_tokens, e, List.length_append, List.length_cons]
    omega
  have hne : tokens text ≠ [] := by
    intro hnil
    rw [hnil, List.length_nil] at hcount
    omega
  obtain ⟨before, d, after, hs, hbounds⟩ :=
    exists_split_of_tokenBounds hne ((tokens text).length - rest.length - 1)
  have hindex : min ((tokens text).length - rest.length - 1) ((tokens text).length - 1) =
      used.length := by omega
  rw [hindex] at hs
  have hchar : unifyLineEnd d = c := by
    have hc := hs.char_eq
    rw [e, List.getElem?_append_right (Nat.le_refl _), Nat.sub_self] at hc
    exact (Option.some.inj hc).symm
  have hafter : unifyLineEnds after = rest := by
    rw [hs.after_eq, e, List.drop_append]
    simp
  exact ⟨before, d, after, hs, hchar, hafter, hbounds⟩

theorem Token.offset_le_stop (t : Token) : t.offset ≤ t.stop := Nat.le_add_right _ _

/-- Of two tokens, the later one neither starts nor stops before the other. -/
theorem tokenBounds_mono (hij : i ≤ j) (text : String) :
    (tokenBounds (tokens text) i).1 ≤ (tokenBounds (tokens text) j).1 ∧
      (tokenBounds (tokens text) i).2 ≤ (tokenBounds (tokens text) j).2 := by
  by_cases hne : tokens text = []
  · rw [hne, tokenBounds_nil, tokenBounds_nil]
    exact ⟨Nat.le_refl _, Nat.le_refl _⟩
  · obtain ⟨a, ha, ea⟩ := exists_tokenBounds hne i
    obtain ⟨b, hb, eb⟩ := exists_tokenBounds hne j
    have hle : min i ((tokens text).length - 1) ≤ min j ((tokens text).length - 1) := by omega
    rcases Nat.lt_or_eq_of_le hle with hlt | heq
    · obtain ⟨hi, ga⟩ := List.getElem?_eq_some_iff.1 ha
      obtain ⟨hj, gb⟩ := List.getElem?_eq_some_iff.1 hb
      have hab := List.pairwise_iff_getElem.1 (pairwise_tokens text) _ _ hi hj hlt
      rw [ga, gb] at hab
      rw [ea, eb]
      exact ⟨Nat.le_trans a.offset_le_stop hab, Nat.le_trans hab b.offset_le_stop⟩
    · rw [tokenBounds_congr heq]
      exact ⟨Nat.le_refl _, Nat.le_refl _⟩

/-! ## Lines -/

/-- What comes after the last line feed. -/
def lastLine (cs : List Char) : List Char := (cs.reverse.takeWhile (· ≠ '\n')).reverse

theorem lastLine_concat (hc : c ≠ '\n') (cs : List Char) :
    lastLine (cs ++ [c]) = lastLine cs ++ [c] := by
  simp [lastLine, hc]

theorem lastLine_lineFeed (cs : List Char) : lastLine (cs ++ ['\n']) = [] := by
  simp [lastLine]

theorem LineColumn.after_eq_lastLine (cs : List Char) :
    LineColumn.after cs = ⟨cs.count '\n', (lastLine cs).length⟩ := by
  rw [after_eq, lastLine, List.length_reverse]

theorem length_splitOn (cs : List Char) : (cs.splitOn '\n').length = cs.count '\n' + 1 := by
  induction cs with
  | nil => rfl
  | cons c cs ih =>
    rw [List.splitOn_cons_eq_if_modifyHead]
    by_cases hc : c = '\n'
    · simp [hc, ih]
    · simp [hc, ih]

theorem splitOn_head? (cs : List Char) :
    (cs.splitOn '\n')[0]? = some (cs.takeWhile (· ≠ '\n')) := by
  induction cs with
  | nil => rfl
  | cons c cs ih =>
    rw [List.splitOn_cons_eq_if_modifyHead]
    by_cases hc : c = '\n'
    · simp [hc]
    · simp [hc, ih]

/-- The line of a place is what comes before the place on it and what comes after. -/
theorem splitOn_append (before after : List Char) :
    ((before ++ after).splitOn '\n')[before.count '\n']? =
      some (lastLine before ++ after.takeWhile (· ≠ '\n')) := by
  induction before using List.reverseRecOn generalizing after with
  | nil => exact splitOn_head? after
  | append_singleton before c ih =>
    rw [List.append_assoc, List.singleton_append]
    by_cases hc : c = '\n'
    · subst hc
      have hlen := length_splitOn before
      rw [List.splitOn_append_cons_self, lastLine_lineFeed, List.nil_append, List.count_append,
        List.getElem?_append_right (by rw [hlen]; simp), hlen, ← splitOn_head? after]
      simp
    · rw [lastLine_concat hc, List.count_append, List.count_singleton, if_neg (by simp [hc]),
        Nat.add_zero, ih, List.takeWhile_cons, if_pos (by simpa using hc), List.append_assoc]
      rfl

end SelectorAlgebra
