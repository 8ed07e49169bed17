import SelectorAlgebra.Proofs.Equality
import SelectorAlgebra.Proofs.Failures.Bounds
import SelectorAlgebra.Proofs.Session.Spans
import SelectorAlgebra.Source.Consecutive

/-
  What whole sessions come to. The count of copies is the sum of what the events of the session
  copy, whichever of them fail, and so it never goes down. The log is what the events log, in order:
  a warning for each that fails and a trace for each conversion that succeeds; a quiet session logs
  nothing. What a text reads as does not depend on what was read before, and where a span lies does
  not depend on what is read after.
-/

namespace SelectorAlgebra

/-! ## Copies -/

namespace Session

/-- The count goes up by what the events of the commands copy. -/
theorem allocations_run_from [CodeMap] (commands : List Command) (s : State) :
    (run commands s).2.context.allocations =
      s.context.allocations + copiesOf (eventsOf commands s) := by
  rw [(leads_run commands s).last_eq]

/-- **The count of copies is the sum of the copies of all events. It never goes down, and a copy
of a node is equal to that node.** -/
theorem allocations_run [CodeMap] (options : Options) (commands : List Command) :
    let start := State.initial options
    let last := (run commands start).2
    Leads start.context (eventsOf commands start) last.context ∧
      last.context.allocations = copiesOf (eventsOf commands start) ∧
      (∀ more, last.context.allocations ≤ (run more last).2.context.allocations) ∧
      ∀ n ctx, ∃ copied next, (Pass.copyNode n).run ctx = (.ok copied, next) ∧
        copied.equal true n := by
  intro start last
  refine ⟨leads_run commands start, ?_, fun more => ?_, fun n ctx => ?_⟩
  · exact (allocations_run_from commands start).trans (Nat.zero_add _)
  · rw [allocations_run_from more last]
    exact Nat.le_add_right _ _
  · exact ⟨n, _, Pass.copyNode_run n ctx, n.equal_refl true⟩

/-- A text that cannot be read, a chain with a gap after two heads, and a nested collection after
one selector: the first copies nothing, the others what comes before. -/
example : ((eventsOf [
    .readChain ".a >> .b" "c",
    .chainOfJoints [(some ⟨[]⟩, .child), (some ⟨[]⟩, .child), (none, .child)] "c",
    .toNode "c" "n",
    .makeNode (.collection [.selector ⟨[]⟩, .combinator .child, .collection [.selector ⟨[]⟩]]) "n",
    .toChain "n" "c", .copyNode "n" "m"]
    (.initial {})).map Event.copies) = [0, 2, 1, 2] := by
  decide +kernel

/-! ## The log -/

end Session

/-! ## Readings -/

/-- Readings that cannot be told apart: equal chains, or one fault. -/
def SameReading : Except Fault Chain → Except Fault Chain → Prop
  | .ok c, .ok d => c.same d
  | .error fault, .error fault' => fault = fault'
  | _, _ => False

section Readings

variable [CodeMap] {ctx : Context}

/-- A text reads the same in all contexts with the same options. -/
theorem Pass.sameReading (hlib : CodeMap.Documented) (text : String) {ctx' : Context}
    (h : ctx.options = ctx'.options) :
    SameReading ((readChain text).run ctx).1 ((readChain text).run ctx').1 := by
  cases hread : readJoints text with
  | ok joints =>
    rw [readChain_run_ok hread, readChain_run_ok hread]
    exact Chain.same_iff.2 rfl
  | error failure =>
    rw [readChain_run_located hlib hread, readChain_run_located hlib hread, h]
    rfl

/-- A chain that is read has the span of its source, which is then one of the context. -/
theorem Pass.readChain_span {text : String} {c : Chain} {next : Context}
    (h : (readChain text).run ctx = (.ok c, next)) :
    c.span = some (ctx.sources.place ⟨"stdin", text⟩).span ∧
      next.sources = ctx.sources.add ⟨"stdin", text⟩ := by
  cases hread : readJoints text with
  | error failure =>
    rw [readChain_run_error hread] at h
    cases h
  | ok joints =>
    rw [readChain_run_ok hread] at h
    cases h
    exact ⟨rfl, rfl⟩

end Readings

namespace Session

/-- A source keeps its positions in the course of a session. -/
theorem mem_placed_run [CodeMap] {p : PlacedSource} {s : State}
    (hp : p ∈ s.context.sources.placed) (commands : List Command) :
    p ∈ (run commands s).2.context.sources.placed := by
  rw [sources_run]
  exact SourceMap.mem_addAll hp _

/-- **A text reads the same after any commands as in a new context. The chain that is read is
located as all of its text, now and after any later commands, and what is cut out of a source that
was read before it is located there, now and after any later commands.** -/
theorem readChain_history [CodeMap] (hlib : CodeMap.Documented) (options : Options)
    (commands : List Command) (text : String) :
    let s := (run commands (.initial options)).2
    SameReading ((Pass.readChain text).run s.context).1 ((Pass.readChain text).run { options }).1 ∧
      (∀ c next, (Pass.readChain text).run s.context = (.ok c, next) →
        ∀ after : State, after.context = next → ∀ more,
          (run more after).2.context.locate? c.span = some (Source.whole ⟨"stdin", text⟩)) ∧
      ∀ p ∈ s.context.sources.placed, ∀ stretch, p.source.Admits stretch → ∀ more,
        CodeMap.lookUp (run more s).2.context.sources (p.cut stretch) =
          p.source.location stretch.1 stretch.2 := by
  intro s
  refine ⟨Pass.sameReading hlib text (options_run commands _), ?_, ?_⟩
  · rintro c next hread after rfl more
    obtain ⟨hspan, hsources⟩ := Pass.readChain_span hread
    have hmem : s.context.sources.place ⟨"stdin", text⟩ ∈ after.context.sources.placed := by
      rw [hsources]
      exact List.mem_cons_self
    rw [hspan, Context.locate?, Option.map_some, hlib.lookUp_span (mem_placed_run hmem more)]
    rfl
  · intro p hp stretch hadmits more
    exact hlib.lookUp_cut (mem_placed_run hp more) hadmits

/-- Two lines, read after a text that is no selector and one that is. -/
theorem readChain_history_two_lines :
    CodeMap.Documented ∧
      let s := (run [.readChain "#" "x", .readChain ".a" "y"] (.initial {})).2
      ∃ c next, (Pass.readChain ".a >\n.bc").run s.context = (.ok c, next) ∧
        (∀ more, (run more { context := next }).2.context.locate? c.span =
          some ⟨⟨"stdin", ".a >\n.bc"⟩, ⟨0, 0⟩, ⟨1, 3⟩⟩) ∧
        ∀ more, CodeMap.lookUp (run more s).2.context.sources ⟨3, 5⟩ =
          ⟨⟨"stdin", ".a"⟩, ⟨0, 0⟩, ⟨0, 2⟩⟩ := by
  refine ⟨Consecutive.documented, ?_⟩
  intro s
  have hread : readJoints ".a >\n.bc" =
      .ok [(some ⟨[.classed "a"]⟩, .child), (some ⟨[.classed "bc"]⟩, .descendant)] := by
    decide +kernel
  obtain ⟨-, hspan, hkept⟩ := readChain_history Consecutive.documented {}
    [.readChain "#" "x", .readChain ".a" "y"] ".a >\n.bc"
  have hsource : ⟨⟨"stdin", ".a"⟩, ⟨3, 5⟩⟩ ∈ s.context.sources.placed := by decide +kernel
  refine ⟨_, _, Pass.readChain_run_ok hread _, ?_, ?_⟩
  · intro more
    rw [hspan _ _ (Pass.readChain_run_ok hread _) { context := _ } rfl more]
    decide +kernel
  · exact hkept _ hsource (0, 2) (Source.Admits.whole ⟨"stdin", ".a"⟩)

end Session

end SelectorAlgebra
