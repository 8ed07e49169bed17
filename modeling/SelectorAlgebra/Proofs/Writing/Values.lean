import SelectorAlgebra.Proofs.Failures.Prefixes
import SelectorAlgebra.Source.Consecutive

/-
  Values of attributes that are written and read again. Reading knows no escapes, so a value that is
  written with one cannot be read, and neither can one with a line end, which cuts off its string. A
  plain value is read as it is. No value is read as another one, since both an escape and a line
  end come before any quote that could close the string too early (`readQuoted_escapeFor_error`).
-/

namespace SelectorAlgebra

variable {quote c : Char} {cs rest used value : List Char} {name : QualifiedName}
  {op : AttributeOp} {modifier : Option Char} {f : Failure}

/-! ## Plain values -/

/-- Whether a value has no line end, no backslash and not both quotes. -/
def IsPlainValue (value : List Char) : Prop :=
  (∀ c ∈ value, c ∉ ['\n', '\r', '\x0c', '\\']) ∧ ¬ ('"' ∈ value ∧ '\'' ∈ value)

/-- Plain values are those that may stand as they are between the quotes that are put around
them. -/
theorem isPlainValue_iff :
    IsPlainValue value ↔ value.all (isQuotable (quoteFor value)) ∧ IsUnified value := by
  constructor
  · rintro ⟨hchars, hboth⟩
    have hc : ∀ c ∈ value, c ≠ '\n' ∧ c ≠ '\r' ∧ c ≠ '\x0c' ∧ c ≠ '\\' := by
      simpa using hchars
    refine ⟨quotable_quoteFor ?_, fun c h => ⟨(hc c h).2.1, (hc c h).2.2.1⟩⟩
    -- the quote that does not stand in it
    obtain ⟨quote, hq, hnot⟩ : ∃ quote ∈ quotes, quote ∉ value := by
      by_cases hd : '"' ∈ value
      · exact ⟨'\'', by simp [quotes], fun hs => hboth ⟨hd, hs⟩⟩
      · exact ⟨'"', by simp [quotes], hd⟩
    refine ⟨quote, hq, List.all_eq_true.2 fun c h => ?_⟩
    have hne : c ≠ quote := fun e => hnot (e ▸ h)
    simp [isQuotable, hne, hc c h]
  · rintro ⟨hv, hu⟩
    have hc : ∀ c ∈ value, c ≠ quoteFor value ∧ c ≠ '\n' ∧ c ≠ '\\' := by
      simpa [isQuotable, and_assoc] using hv
    refine ⟨fun c h => ?_, ?_⟩
    · simp [hc c h, hu c h]
    · rintro ⟨hd, hs⟩
      have hquote : quoteFor value = '"' := if_neg fun h => h.2 hs
      exact (hc _ hd).1 hquote.symm

instance : DecidablePred IsPlainValue := fun _ => decidable_of_iff _ isPlainValue_iff.symm

/-! ## Line ends -/

theorem isUnified_of_isName (h : isName cs) : IsUnified cs := by
  intro c hc
  have hn : isNameChar c := List.all_eq_true.1 (isNameChar_of_isName h) c hc
  exact ⟨ne_of_isNameChar hn (by decide), ne_of_isNameChar hn (by decide)⟩

theorem unifyLineEnds_append_of_isUnified (h : IsUnified used) (cs : List Char) :
    unifyLineEnds (used ++ cs) = used ++ unifyLineEnds cs := by
  induction used with
  | nil => rfl
  | cons c used ih =>
    obtain ⟨hc, hu⟩ := List.forall_mem_cons.1 h
    rw [List.cons_append, unifyLineEnds_cons_of_ne fun hr => absurd hr hc.1, ih hu, unifyLineEnd,
      if_neg (not_or.2 hc)]
    rfl

theorem QualifiedName.Readable.isUnified_text (h : name.Readable) :
    IsUnified name.text.toList := by
  obtain ⟨space, name⟩ := name
  have hn : IsUnified name.toList := isUnified_of_isName h.2
  rw [toList_text]
  refine isUnified_append ?_ hn
  cases space with
  | named first =>
    rw [Namespace.toList_text_named]
    exact isUnified_append (isUnified_of_isName h.1) (by decide)
  | _ => simp [IsUnified]

theorem AttributeOp.isUnified_text (op : AttributeOp) : IsUnified op.text.toList := by
  cases op <;> decide

theorem isUnified_quoteFor (value : List Char) : IsUnified [quoteFor value] := by
  have hquotes : IsUnified quotes := by decide
  exact hquotes.mono (List.cons_subset.2 ⟨quoteFor_mem_quotes value, List.nil_subset _⟩)

/-! ## Strings that cannot be read -/

/-- Why a string cannot be read: for an escape, or because its line ends. -/
def SyntaxCause.EndsString (cause : SyntaxCause) (quote : Char) : Prop :=
  cause = .escape ∨ cause = .openString quote

/-- At a line end and at a backslash, reading a string fails. -/
theorem readQuoted_error (hq : quote ∈ quotes) (h : unifyLineEnd c ∈ ['\n', '\\'])
    (cs : List Char) : ∃ f, readQuoted quote (unifyLineEnds (c :: cs)) = .error f ∧
      f.cause.EndsString quote := by
  obtain ⟨more, e⟩ : ∃ more, unifyLineEnds (c :: cs) = unifyLineEnd c :: more :=
    List.head?_eq_some_iff.1 (head?_unifyLineEnds _)
  have hne : unifyLineEnd c ≠ quote := by
    rintro rfl
    exact absurd hq (by rcases List.mem_pair.1 h with h | h <;> rw [h] <;> decide)
  rw [e, readQuoted, if_neg hne]
  rcases List.mem_pair.1 h with h | h
  · rw [h]
    exact ⟨_, rfl, Or.inr rfl⟩
  · rw [h]
    exact ⟨_, rfl, Or.inl rfl⟩

/-- A value that is not plain is written so that its string cannot be read, whatever follows. -/
theorem readQuoted_escapeFor_error (hq : quote ∈ quotes)
    (h : ¬ (value.all (isQuotable quote) ∧ IsUnified value)) (rest : List Char) :
    ∃ f, readQuoted quote (unifyLineEnds (escapeFor quote value ++ rest)) = .error f ∧
      f.cause.EndsString quote := by
  fun_induction escapeFor quote value with
  | case1 => exact absurd ⟨rfl, by simp [IsUnified]⟩ h
  | case2 | case3 | case4 => exact readQuoted_error hq (by decide) _
  | case5 c cs hc hn hne ih =>
    by_cases hl : c = '\r' ∨ c = '\x0c'
    · exact readQuoted_error hq (by simp [unifyLineEnd, hl]) _
    · have hrest : ¬ (cs.all (isQuotable quote) ∧ IsUnified cs) := by
        rintro ⟨hv, hu⟩
        refine h ⟨?_, List.forall_mem_cons.2 ⟨not_or.1 hl, hu⟩⟩
        simp [isQuotable, hc, hn, hne, hv]
      obtain ⟨f, hf, hcause⟩ := ih hrest
      rw [List.cons_append, unifyLineEnds_cons_of_ne fun hr => absurd (Or.inl hr) hl,
        unifyLineEnd, if_neg hl, readQuoted, if_neg hne, if_neg hn, if_neg hc, hf]
      exact ⟨f, rfl, hcause⟩

/-! ## Attributes -/

theorem readAttributeValue_quote (hq : quote ∈ quotes) (cs : List Char) :
    readAttributeValue (quote :: cs) =
      (readQuoted quote cs).map fun (value, cs) => (String.ofList value, cs) := by
  rcases List.mem_pair.1 hq with rfl | rfl <;> rfl

/-- An attribute whose value cannot be read cannot be read. -/
theorem readAttribute_error (hn : name.Readable) (ho : op ≠ .present)
    (hs : StopsBefore isSeparator rest) (hf : readAttributeValue rest = .error f) :
    readAttribute (name.text.toList ++ (op.text.toList ++ rest)) = .error f := by
  rw [readAttribute, skipSeparators_of_stops (hn.stopsBefore_isSeparator _),
    readAttributeName_text hn (endsBefore_op ho name _)]
  show readAttributeTest _ name (skipSeparators (op.text.toList ++ rest)) = _
  rw [skipSeparators_of_stops (stopsBefore_isSeparator_op ho _), readAttributeTest_op ho,
    readAttributeOp_text ho]
  simp only [bind, Except.bind, skipSeparators_of_stops hs, hf]

/-- A text that begins with an attribute that cannot be read cannot be read. -/
theorem readAllItems_error (hf : readAttribute cs = .error f) :
    readAllItems ('[' :: cs) = .error f := by
  have hsimple : readSimple ('[' :: cs) = .error f := by rw [readSimple, hf]; rfl
  have hcompound : readCompound ('[' :: cs) = .error f := by rw [readCompound, hsimple]; rfl
  have hskip : skipSeparators ('[' :: cs) = '[' :: cs :=
    skipSeparators_of_stops (stopsBefore_cons.2 (by decide))
  have hitems : readItems false ('[' :: cs) = .error f := by
    rw [readItems_eq, hskip]
    simp [Combinator.ofChar?, startsCompound, startsSimple, hcompound, bind, Except.bind]
  rw [readAllItems, hitems]
  rfl

/-! ## Chains of one attribute -/

/-- The chain of one link that tests one attribute for a value. -/
def valueChain (name : QualifiedName) (op : AttributeOp) (value : String)
    (modifier : Option Char) : Chain :=
  .ofJoints [(some ⟨[.attr ⟨name, op, some value, modifier⟩]⟩, .descendant)]

theorem text_valueChain (name : QualifiedName) (op : AttributeOp) (value : String)
    (modifier : Option Char) : (valueChain name op value modifier).text =
      (Simple.attr ⟨name, op, some value, modifier⟩).text := by
  rw [valueChain, Chain.text, Chain.joints_ofJoints]
  simp [jointsText, Combinator.between, Compound.text, String.join]

/-- A plain value is written without a line end, and so is its attribute. -/
theorem isUnified_text_valueChain (hn : name.Readable) (hm : ∀ m ∈ modifier, m.isAlpha)
    {value : String} (h : IsPlainValue value.toList) (op : AttributeOp) :
    IsUnified (valueChain name op value modifier).text.toList := by
  obtain ⟨hv, hu⟩ := isPlainValue_iff.1 h
  have hvalue : IsUnified (attributeValueText value).toList := by
    unfold attributeValueText
    split
    · exact hu
    · have hq := isUnified_quoteFor value.toList
      rw [String.toList_ofList, quoted, escapeFor_of_quotable hv]
      exact isUnified_append (isUnified_append hq hu) hq
  have hmodifier : IsUnified (modifier.elim [] fun c => [' ', c]) := by
    cases modifier with
    | none => decide
    | some m =>
      have hspace : IsUnified [' '] := by decide
      have hname : isName [m] := by simp [isName, isNameStart, hm m rfl]
      exact isUnified_append hspace (isUnified_of_isName hname)
  have hopen : IsUnified ['['] := by decide
  have hclose : IsUnified [']'] := by decide
  rw [text_valueChain, Simple.text, Attribute.toList_text]
  exact isUnified_append hopen (isUnified_append hn.isUnified_text
    (isUnified_append op.isUnified_text (isUnified_append hvalue
      (isUnified_append hmodifier hclose))))

/-- A plain value is read back. -/
theorem readJoints_valueChain (hn : name.Readable) (ho : op ≠ .present)
    (hm : ∀ m ∈ modifier, m.isAlpha) {value : String} (h : IsPlainValue value.toList) :
    readJoints (valueChain name op value modifier).text =
      .ok (valueChain name op value modifier).joints := by
  let s : Simple := .attr ⟨name, op, some value, modifier⟩
  have hv : IsQuotableValue value.toList := ⟨_, quoteFor_mem_quotes _, (isPlainValue_iff.1 h).1⟩
  have hr : s.Readable := Attribute.Readable.test hn ho hv hm
  have hrow : ItemRow false [.compound ⟨[s]⟩] (s.text.toList ++ []) :=
    .compound (.mk hr hr.layout_text rfl (.nil rfl)) .nil
  refine readJoints_eq_ok.2 ⟨[.compound ⟨[s]⟩], by simp, ?_, rfl⟩
  rw [unifyLineEnds_of_isUnified (isUnified_text_valueChain hn hm h op), text_valueChain]
  rwa [List.append_nil] at hrow

theorem isPlainValue_of_isName (h : isName value) : IsPlainValue value :=
  isPlainValue_iff.2 ⟨quotable_quoteFor (isQuotableValue_of_isName h), isUnified_of_isName h⟩

/-- A value that is not plain is never written bare. -/
theorem attributeValueText_of_not_plain {value : String} (h : ¬ IsPlainValue value.toList) :
    attributeValueText value = .ofList (quoted value.toList) := by
  unfold attributeValueText
  refine if_neg fun hi => h ?_
  rw [Bool.and_eq_true, Bool.not_eq_true'] at hi
  exact isPlainValue_of_isName (isName_of_isIdentifier hi.1 hi.2)

/-- A value that is not plain is written so that its attribute cannot be read. -/
theorem readAllItems_valueChain (hn : name.Readable) (ho : op ≠ .present) {value : String}
    (h : ¬ IsPlainValue value.toList) (modifier : Option Char) :
    ∃ f, readAllItems (unifyLineEnds (valueChain name op value modifier).text.toList) = .error f ∧
      f.cause.EndsString (quoteFor value.toList) := by
  let quote := quoteFor value.toList
  have hq : quote ∈ quotes := quoteFor_mem_quotes value.toList
  let after := quote :: (modifier.elim [] (fun c => [' ', c]) ++ [']'])
  obtain ⟨f, hf, hcause⟩ := readQuoted_escapeFor_error hq (mt isPlainValue_iff.2 h) after
  have hvalue : readAttributeValue
      (quote :: unifyLineEnds (escapeFor quote value.toList ++ after)) = .error f := by
    rw [readAttributeValue_quote hq, hf]
    rfl
  have hs : StopsBefore isSeparator
      (quote :: unifyLineEnds (escapeFor quote value.toList ++ after)) :=
    stopsBefore_cons.2 (eq_false_of_mem (by decide) hq)
  let lead := '[' :: (name.text.toList ++ (op.text.toList ++ [quote]))
  have hlead : IsUnified lead :=
    isUnified_append (show IsUnified ['['] by decide) (isUnified_append hn.isUnified_text
      (isUnified_append op.isUnified_text (isUnified_quoteFor value.toList)))
  have htext : (valueChain name op value modifier).text.toList =
      lead ++ (escapeFor quote value.toList ++ after) := by
    rw [text_valueChain, Simple.text, Attribute.toList_text]
    simp [attributeValueText_of_not_plain h, quoted, lead, after, quote]
  refine ⟨f, ?_, hcause⟩
  rw [htext, unifyLineEnds_append_of_isUnified hlead]
  have hattribute := readAllItems_error (readAttribute_error hn ho hs hvalue)
  simpa [lead] using hattribute

/-- **An attribute is read with the value that it was written with, or not at all.** It is read if
its value is plain; otherwise reading fails, for an escape or for a line end in the string. -/
theorem readChain_valueChain [CodeMap] (hn : name.Readable) (ho : op ≠ .present)
    (hm : ∀ m ∈ modifier, m.isAlpha) (value : String) (ctx : Context) :
    let c := valueChain name op value modifier
    (IsPlainValue value.toList →
      ∃ c' next, (Pass.readChain c.text).run ctx = (.ok c', next) ∧ c'.same c) ∧
    (¬ IsPlainValue value.toList →
      ∃ cause location next, (Pass.readChain c.text).run ctx =
          (.error (.unreadable cause location ctx.options.unicodeMessages), next) ∧
        cause.EndsString (quoteFor value.toList)) ∧
    ∀ c' next, (Pass.readChain c.text).run ctx = (.ok c', next) → c'.same c := by
  intro c
  have hplain : IsPlainValue value.toList →
      ∃ c' next, (Pass.readChain c.text).run ctx = (.ok c', next) ∧ c'.same c := by
    intro h
    obtain ⟨c', next, hrun, e⟩ := readChain_of_readJoints (readJoints_valueChain hn ho hm h) ctx
    exact ⟨c', next, hrun, Chain.same_iff.2 e⟩
  have hother : ¬ IsPlainValue value.toList →
      ∃ cause location next, (Pass.readChain c.text).run ctx =
          (.error (.unreadable cause location ctx.options.unicodeMessages), next) ∧
        cause.EndsString (quoteFor value.toList) := by
    intro h
    obtain ⟨f, hf, hcause⟩ := readAllItems_valueChain hn ho h modifier
    have hread : readJoints c.text = .error (f.inText (tokens c.text)) := by
      rw [readJoints, map_char_tokens, hf]
    exact ⟨f.cause, _, _, Pass.readChain_run_error hread ctx, hcause⟩
  refine ⟨hplain, hother, fun c' next hrun => ?_⟩
  by_cases h : IsPlainValue value.toList
  · obtain ⟨d, _, hd, hsame⟩ := hplain h
    rw [hrun] at hd
    cases hd
    exact hsame
  · obtain ⟨_, _, _, herror, _⟩ := hother h
    rw [hrun] at herror
    cases herror

/-- A value with quotes of one kind is read back, and one with a CR is not. -/
theorem readChain_valueChain_quotes :
    let name : QualifiedName := ⟨.named "n", "--d"⟩
    let plain := valueChain name .dashMatch "x \"y\"" (some 'i')
    let cut := valueChain name .dashMatch "x\ry" (some 'i')
    name.Readable ∧ (∀ m ∈ some 'i', m.isAlpha) ∧ plain.text = "[n|--d|='x \"y\"' i]" ∧
      (∃ c' next, (Pass.readChain plain.text).run { options := {} } = (.ok c', next) ∧
        c'.same plain) ∧
      ∃ cause location next, (Pass.readChain cut.text).run { options := {} } =
          (.error (.unreadable cause location true), next) ∧
        cause.EndsString '"' := by
  intro name plain cut
  have hn : name.Readable := ⟨show isName "n".toList by decide, show isName "--d".toList by decide⟩
  have hm : ∀ m ∈ some 'i', m.isAlpha := by simp
  refine ⟨hn, hm, by decide +kernel, ?_, ?_⟩
  · exact (readChain_valueChain hn (by decide) hm "x \"y\"" _).1 (by decide)
  · exact (readChain_valueChain hn (by decide) hm "x\ry" _).2.1 (by decide)

end SelectorAlgebra
