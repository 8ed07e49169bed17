import Mathlib.Data.List.Infix
import SelectorAlgebra.Proofs.Failures.Places

/-
  The tokens of a text, told without reading it from the left: every character has one, but for the
  CR of a CR LF, and it starts where the character does (`tokens_eq`). From this come their bytes,
  which are those of the text less such CRs, and that a text reads as it does with its line ends
  unified (`tokens_standFor`).
-/

namespace SelectorAlgebra

variable {cs before after before' after' : List Char} {c c' : Char} {t : Token} {text : String}
  {offset byte size : Nat}

/-! ## One token for each character -/

/-- Whether characters begin with a CR that is one line end with the LF after it. -/
def startsPair : List Char → Bool
  | '\r' :: '\n' :: _ => true
  | _ => false

/-- The token of the first of the characters that a text of `size` bytes ends with. The CR of a
CR LF has none. -/
def firstToken? (size : Nat) : List Char → Option Token
  | [] => none
  | c :: cs =>
    if startsPair (c :: cs) then none else some ⟨unifyLineEnd c, size - byteCount (c :: cs)⟩

theorem startsPair_eq_false (h : ∀ more, c = '\r' → cs = '\n' :: more → False) :
    startsPair (c :: cs) = false := by
  unfold startsPair
  split
  · rename_i more e
    cases e
    exact (h more rfl rfl).elim
  · rfl

theorem startsPair_iff : startsPair cs ↔ ∃ more, cs = '\r' :: '\n' :: more := by
  unfold startsPair
  split
  · simp
  · rename_i h
    simp only [Bool.false_eq_true, false_iff, not_exists]
    exact h

theorem tokensFrom_eq (offset : Nat) (cs : List Char) :
    tokensFrom offset cs = cs.tails.filterMap (firstToken? (offset + byteCount cs)) := by
  fun_induction tokensFrom offset cs with
  | case1 => rfl
  | case2 offset cs ih =>
    have hcr : ('\r' : Char).utf8Size = 1 := rfl
    have hlf : ('\n' : Char).utf8Size = 1 := rfl
    have hsize : offset + byteCount ('\r' :: '\n' :: cs) = offset + 2 + byteCount cs := by
      rw [byteCount, byteCount, hcr, hlf]
      omega
    have hoffset : offset + 2 + byteCount cs - byteCount ('\n' :: cs) = offset + 1 := by
      rw [byteCount, hlf]
      omega
    have hpair : firstToken? (offset + 2 + byteCount cs) ('\r' :: '\n' :: cs) = none := rfl
    have hline : firstToken? (offset + 2 + byteCount cs) ('\n' :: cs) =
        some ⟨'\n', offset + 1⟩ := by
      rw [← hoffset]
      rfl
    rw [hsize, List.tails_cons, List.tails_cons, List.filterMap_cons_none hpair,
      List.filterMap_cons_some hline, ih]
  | case3 offset c cs hcr first ih =>
    have hstop : first.stop = offset + c.utf8Size := congrArg (offset + ·) (utf8Size_unified c)
    have hsize : offset + byteCount (c :: cs) = first.stop + byteCount cs := by
      rw [byteCount, hstop, Nat.add_assoc]
    have hfirst : firstToken? (offset + byteCount (c :: cs)) (c :: cs) = some first := by
      rw [firstToken?, startsPair_eq_false hcr, Nat.add_sub_cancel]
      rfl
    rw [List.tails_cons, List.filterMap_cons_some hfirst, hsize, ih]

/-- The tokens of a text are those of its characters, in order. -/
theorem tokens_eq (text : String) :
    tokens text = text.toList.tails.filterMap (firstToken? text.utf8ByteSize) := by
  rw [tokens, tokensFrom_eq, Nat.zero_add, byteCount_toList]

theorem mem_tokens_iff : t ∈ tokens text ↔
    ∃ before c after, text.toList = before ++ c :: after ∧ startsPair (c :: after) = false ∧
      t = ⟨unifyLineEnd c, byteCount before⟩ := by
  have hoffset {before cs : List Char} (h : text.toList = before ++ cs) :
      text.utf8ByteSize - byteCount cs = byteCount before := by
    rw [← byteCount_toList, h, byteCount_append, Nat.add_sub_cancel]
  rw [tokens_eq, List.mem_filterMap]
  constructor
  · rintro ⟨cs, hcs, h⟩
    obtain ⟨before, e⟩ := (List.mem_tails _ _).1 hcs
    cases cs with
    | nil => cases h
    | cons c after =>
      rw [firstToken?] at h
      split at h
      · cases h
      · rename_i hpair
        cases h
        exact ⟨before, c, after, e.symm, by simpa using hpair, by rw [hoffset e.symm]⟩
  · rintro ⟨before, c, after, e, hpair, rfl⟩
    refine ⟨c :: after, (List.mem_tails _ _).2 ⟨before, e.symm⟩, ?_⟩
    rw [firstToken?, hpair, hoffset e]
    rfl

/-! ## Bytes -/

/-- Every byte of characters is one of a character. -/
theorem exists_char_of_byte (h : byte < byteCount cs) : ∃ before c after,
    cs = before ++ c :: after ∧ byteCount before ≤ byte ∧ byte < byteCount (before ++ [c]) := by
  induction cs generalizing byte with
  | nil => exact absurd h (Nat.not_lt_zero byte)
  | cons d cs ih =>
    by_cases hd : byte < d.utf8Size
    · exact ⟨[], d, cs, rfl, Nat.zero_le _, hd⟩
    · rw [byteCount] at h
      have hrest : byte - d.utf8Size < byteCount cs := by omega
      obtain ⟨before, c, after, rfl, hle, hlt⟩ := ih hrest
      refine ⟨d :: before, c, after, rfl, ?_, ?_⟩
      · rw [byteCount]
        omega
      · rw [List.cons_append, byteCount]
        omega

/-- No byte is one of two characters. -/
theorem char_of_byte_unique (e : before ++ c :: after = before' ++ c' :: after')
    (hle : byteCount before ≤ byte) (hlt : byte < byteCount (before ++ [c]))
    (hle' : byteCount before' ≤ byte) (hlt' : byte < byteCount (before' ++ [c'])) :
    before = before' := by
  induction before generalizing before' byte with
  | nil =>
    cases before' with
    | nil => rfl
    | cons d before' =>
      cases e
      have hsize : byteCount ([] ++ [c]) = c.utf8Size := rfl
      rw [byteCount] at hle'
      omega
  | cons d before ih =>
    cases before' with
    | nil =>
      rw [List.cons_append, List.nil_append, List.cons.injEq] at e
      obtain ⟨rfl, -⟩ := e
      have hsize : byteCount ([] ++ [d]) = d.utf8Size := rfl
      rw [byteCount] at hle
      omega
    | cons d' before' =>
      rw [List.cons_append, List.cons_append, List.cons.injEq] at e
      obtain ⟨rfl, e⟩ := e
      rw [List.cons_append, byteCount] at hlt hlt'
      rw [byteCount] at hle hle'
      have hrest : byteCount before ≤ byte - d.utf8Size := by omega
      have hbefore : before = before' := ih e hrest (by omega) (by omega) (by omega)
      rw [hbefore]

/-- The bytes of a character in a text. -/
theorem extract_bytes (h : text.toList = before ++ c :: after) :
    text.toByteArray.extract (byteCount before) (byteCount (before ++ [c])) =
      (String.singleton c).toByteArray := by
  have htext : text = .ofList before ++ (.singleton c ++ .ofList after) := by
    rw [← String.ofList_toList (s := text), h, String.singleton_eq_ofList, ← String.ofList_append,
      ← String.ofList_append]
    rfl
  have hbefore : byteCount before = (String.ofList before).toByteArray.size + 0 :=
    (byteCount_ofList before).symm
  have hchar : byteCount (before ++ [c]) =
      (String.ofList before).toByteArray.size + (String.singleton c).toByteArray.size := by
    rw [String.singleton_eq_ofList, byteCount_append, ← byteCount_ofList, ← byteCount_ofList]
    rfl
  rw [htext, String.toByteArray_append, String.toByteArray_append, hbefore, hchar,
    ByteArray.extract_append_size_add, ByteArray.extract_append_eq_left rfl]

/-! ## What the tokens of a text are -/

/-- How tokens stand for the characters of a text. -/
structure StandFor (ts : List Token) (text : String) : Prop where
  /-- Every character but the CR of a CR LF has one, in order. -/
  of_chars : ts = text.toList.tails.filterMap (firstToken? text.utf8ByteSize)
  /-- They spell the text with its line ends unified. -/
  spell : ts.map Token.char = unifyLineEnds text.toList
  increasing : ts.Pairwise fun a b => a.offset < b.offset
  disjoint : ts.Pairwise fun a b => a.stop ≤ b.offset
  inside : ∀ t ∈ ts, t.stop ≤ text.utf8ByteSize
  /-- The bytes of a token are those of its character, which is the LF of a CR LF. -/
  bytes : ∀ t ∈ ts, ∃ before c after, text.toList = before ++ c :: after ∧
    ¬ (c = '\r' ∧ after.head? = some '\n') ∧ t.char = unifyLineEnd c ∧
    t.offset = byteCount before ∧
    text.toByteArray.extract t.offset t.stop = (String.singleton c).toByteArray
  /-- The bytes that no token has are those of the CRs of CR LFs. -/
  left_out : ∀ byte < text.utf8ByteSize, (∀ t ∈ ts, ¬ (t.offset ≤ byte ∧ byte < t.stop)) ↔
    ∃ before after, text.toList = before ++ '\r' :: '\n' :: after ∧ byte = byteCount before

theorem Token.offset_lt_stop (t : Token) : t.offset < t.stop :=
  Nat.lt_add_of_pos_right t.char.utf8Size_pos

theorem stop_unified (before : List Char) (c : Char) :
    Token.stop ⟨unifyLineEnd c, byteCount before⟩ = byteCount (before ++ [c]) := by
  rw [byteCount_append]
  exact congrArg (byteCount before + ·) (utf8Size_unified c)

/-- A byte that no token has is that of the CR of a CR LF. -/
theorem exists_pair_of_byte (hbyte : byte < text.utf8ByteSize)
    (h : ∀ t ∈ tokens text, ¬ (t.offset ≤ byte ∧ byte < t.stop)) :
    ∃ before after, text.toList = before ++ '\r' :: '\n' :: after ∧ byte = byteCount before := by
  rw [← byteCount_toList] at hbyte
  obtain ⟨before, c, after, e, hle, hlt⟩ := exists_char_of_byte hbyte
  have hpair : startsPair (c :: after) := by
    by_contra hpair
    refine h ⟨unifyLineEnd c, byteCount before⟩ ?_ ⟨hle, by rwa [stop_unified]⟩
    exact mem_tokens_iff.2 ⟨before, c, after, e, by simpa using hpair, rfl⟩
  obtain ⟨more, hmore⟩ := startsPair_iff.1 hpair
  cases hmore
  refine ⟨before, more, e, ?_⟩
  have hcr : byteCount ['\r'] = 1 := rfl
  rw [byteCount_append, hcr] at hlt
  omega

/-- The CR of a CR LF is none of the bytes of tokens. -/
theorem not_mem_bytes_of_pair (e : text.toList = before ++ '\r' :: '\n' :: after)
    (h : t ∈ tokens text) : ¬ (t.offset ≤ byteCount before ∧ byteCount before < t.stop) := by
  rintro ⟨hle, hlt⟩
  obtain ⟨before', c, after', e', hpair, rfl⟩ := mem_tokens_iff.1 h
  rw [stop_unified] at hlt
  have hcr : byteCount before < byteCount (before ++ ['\r']) := by
    have hone : byteCount ['\r'] = 1 := rfl
    rw [byteCount_append, hone]
    exact Nat.lt_succ_self _
  rw [e] at e'
  obtain rfl := char_of_byte_unique e' (Nat.le_refl _) hcr hle hlt
  cases List.append_cancel_left e'
  cases hpair

theorem standFor_tokens (text : String) : StandFor (tokens text) text where
  of_chars := tokens_eq text
  spell := map_char_tokens text
  increasing := (pairwise_tokens text).imp fun h => Nat.lt_of_lt_of_le (Token.offset_lt_stop _) h
  disjoint := pairwise_tokens text
  inside := by
    intro t h
    obtain ⟨before, c, after, e, -, rfl⟩ := mem_tokens_iff.1 h
    rw [stop_unified, ← byteCount_toList, e, byteCount_append, byteCount_append, byteCount,
      byteCount, byteCount]
    omega
  bytes := by
    intro t h
    obtain ⟨before, c, after, e, hpair, rfl⟩ := mem_tokens_iff.1 h
    refine ⟨before, c, after, e, ?_, rfl, rfl, ?_⟩
    · rintro ⟨rfl, hhead⟩
      obtain ⟨more, rfl⟩ := List.head?_eq_some_iff.1 hhead
      cases hpair
    · rw [stop_unified]
      exact extract_bytes e
  left_out := by
    refine fun byte hbyte => ⟨exists_pair_of_byte hbyte, ?_⟩
    rintro ⟨before, after, e, rfl⟩ t h
    exact not_mem_bytes_of_pair e h

/-! ## Reading texts with the same tokens -/

/-- Readings alike but for places: equal chains, or faults with one message. -/
def AlikeButPlaces : Except Fault Chain → Except Fault Chain → Prop
  | .ok c, .ok d => c.same d
  | .error fault, .error fault' => fault.message = fault'.message
  | _, _ => False

/-- Texts that are alike with their line ends unified read alike, in any contexts. -/
theorem alike_of_unifyLineEnds [CodeMap] {text' : String}
    (h : unifyLineEnds text'.toList = unifyLineEnds text.toList) (ctx ctx' : Context) :
    AlikeButPlaces ((Pass.readChain text).run ctx).1 ((Pass.readChain text').run ctx').1 := by
  cases hread : readAllItems (unifyLineEnds text.toList) with
  | ok items =>
    rw [Pass.readChain_run_ok (readJoints_of_items hread),
      Pass.readChain_run_ok (readJoints_of_items (h ▸ hread))]
    exact Chain.same_iff.2 rfl
  | error failure =>
    rw [Pass.readChain_run_error (readJoints_of_failure hread),
      Pass.readChain_run_error (readJoints_of_failure (h ▸ hread))]
    rfl

/-- **The tokens of a text are its characters, each with its bytes**, less the CRs of CR LFs and
with line feeds for all line ends. So the text with its line ends unified reads as it does. -/
theorem tokens_standFor [CodeMap] (text : String) : StandFor (tokens text) text ∧
    ∀ ctx ctx', AlikeButPlaces ((Pass.readChain text).run ctx).1
      ((Pass.readChain (.ofList (unifyLineEnds text.toList))).run ctx').1 := by
  refine ⟨standFor_tokens text, fun ctx ctx' => alike_of_unifyLineEnds ?_ ctx ctx'⟩
  rw [String.toList_ofList, unifyLineEnds_of_isUnified (isUnified_unifyLineEnds _)]

end SelectorAlgebra
