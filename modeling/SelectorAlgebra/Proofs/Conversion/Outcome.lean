import SelectorAlgebra.Context

/-
  What conversions give. `outcome` runs a conversion on the number of copies made so far, and
  tells its result and the number of copies after it. A conversion of a pass succeeds exactly
  with what its outcome is, whatever else the context holds.
-/

namespace SelectorAlgebra

variable {α β : Type}

/-! ## Running what may fail -/

section Run

variable {ε σ : Type}

/-- What may fail runs one part after another, until one fails. -/
theorem run_bind (x : ExceptT ε (StateM σ) α) (f : α → ExceptT ε (StateM σ) β) (s : σ) :
    (x >>= f).run s = match x.run s with
      | (.ok a, next) => (f a).run next
      | (.error stop, next) => (.error stop, next) := by
  show (match x.run s with
    | (r, next) => (ExceptT.bindCont f r : StateM σ _) next) = _
  rcases x.run s with ⟨r, next⟩
  cases r <;> rfl

theorem run_map (g : α → β) (x : ExceptT ε (StateM σ) α) (s : σ) :
    (g <$> x).run s = ((x.run s).1.map g, (x.run s).2) := by
  show (match x.run s with
    | (r, next) => (ExceptT.bindCont (fun a => pure (g a)) r : StateM σ _) next) = _
  rcases x.run s with ⟨r, next⟩
  cases r <;> rfl

end Run

/-! ## Running conversions -/

namespace Converting

/-- The result of a conversion that begins after `count` copies, and the copies after it. -/
def outcome (x : Converting α) (count : Nat) : Except Malformation α × Nat := x.run.run count

@[simp] theorem outcome_pure (a : α) (count : Nat) :
    outcome (pure a) count = (.ok a, count) := rfl

/-- The copy of a compound selector is that compound selector, and counts as one. -/
@[simp] theorem outcome_copy_bind (c : Compound) (f : Compound → Converting β) (count : Nat) :
    outcome (do let copied ← c.copy; f copied) count = outcome (f c) (count + 1) := rfl

theorem outcome_bind_ok {x : Converting α} {count next : Nat} {a : α}
    (h : outcome x count = (.ok a, next)) (f : α → Converting β) :
    outcome (x >>= f) count = outcome (f a) next := by
  change x count = _ at h
  show (match x count with
    | (r, next) => ExceptT.bindCont f r next) = _
  rw [h]
  rfl

theorem outcome_bind_error {x : Converting α} {count next : Nat} {how : Malformation}
    (h : outcome x count = (.error how, next)) (f : α → Converting β) :
    outcome (x >>= f) count = (.error how, next) := by
  change x count = _ at h
  show (match x count with
    | (r, next) => ExceptT.bindCont f r next) = _
  rw [h]
  rfl

/-- A conversion in two parts succeeds if both do. -/
theorem outcome_bind_eq_ok {x : Converting α} {f : α → Converting β} {count next : Nat} {b : β} :
    outcome (x >>= f) count = (.ok b, next) ↔
      ∃ a mid, outcome x count = (.ok a, mid) ∧ outcome (f a) mid = (.ok b, next) := by
  constructor
  · intro h
    cases hx : outcome x count with
    | mk r mid =>
      cases r with
      | error how =>
        rw [outcome_bind_error hx] at h
        cases h
      | ok a =>
        rw [outcome_bind_ok hx] at h
        exact ⟨a, mid, rfl, h⟩
  · rintro ⟨a, mid, hx, h⟩
    rw [outcome_bind_ok hx, h]

/-- A conversion in two parts fails if either part does. -/
theorem outcome_bind_eq_error {x : Converting α} {f : α → Converting β} {count next : Nat}
    {how : Malformation} : outcome (x >>= f) count = (.error how, next) ↔
      outcome x count = (.error how, next) ∨
        ∃ a mid, outcome x count = (.ok a, mid) ∧ outcome (f a) mid = (.error how, next) := by
  constructor
  · intro h
    cases hx : outcome x count with
    | mk r mid =>
      cases r with
      | error how' =>
        rw [outcome_bind_error hx] at h
        cases h
        exact .inl rfl
      | ok a =>
        rw [outcome_bind_ok hx] at h
        exact .inr ⟨a, mid, rfl, h⟩
  · rintro (hx | ⟨a, mid, hx, h⟩)
    · exact outcome_bind_error hx f
    · rw [outcome_bind_ok hx, h]

end Converting

/-! ## Conversions in a pass -/

namespace Pass

open Converting

theorem copying_eq {x : Converting α} {ctx : Context} {r : Except Malformation α} {count : Nat}
    (h : outcome x ctx.allocations = (r, count)) :
    ctx.copying x.run = (r, { ctx with allocations := count }) := by
  have h : x.run.run ctx.allocations = (r, count) := h
  simp only [Context.copying, h]

variable [CodeMap]

/-- A pass whose conversion succeeds takes over the count of copies, and traces. -/
theorem convert_run_ok {span : Option Span} {x : Converting α} {ctx : Context} {a : α}
    {count : Nat} (h : outcome x ctx.allocations = (.ok a, count)) (traced : α → String) :
    (convert span x traced).run ctx =
      (.ok a, { ctx with allocations := count }.trace span (traced a)) := by
  simp only [convert, ExceptT.run]
  rw [show ctx.copying x = _ from copying_eq h]

/-- A pass whose conversion fails takes over the count of copies too, and warns. -/
theorem convert_run_error {span : Option Span} {x : Converting α} {ctx : Context}
    {how : Malformation} {count : Nat} (h : outcome x ctx.allocations = (.error how, count))
    (traced : α → String) :
    (convert span x traced).run ctx = (.error (.internal (.malformed how)),
      { ctx with allocations := count }.warn span (.internal (.malformed how))) := by
  simp only [convert, ExceptT.run]
  rw [show ctx.copying x = _ from copying_eq h]

/-- A pass converts to `a` exactly if the conversion gives `a`. -/
theorem convert_eq_ok {span : Option Span} {x : Converting α} {traced : α → String}
    {ctx : Context} {a : α} :
    (∃ next, (convert span x traced).run ctx = (.ok a, next)) ↔
      ∃ count, outcome x ctx.allocations = (.ok a, count) := by
  constructor
  · rintro ⟨next, hrun⟩
    cases h : outcome x ctx.allocations with
    | mk r count =>
      cases r with
      | error how =>
        rw [convert_run_error h] at hrun
        cases hrun
      | ok b =>
        rw [convert_run_ok h] at hrun
        cases hrun
        exact ⟨count, rfl⟩
  · rintro ⟨count, h⟩
    exact ⟨_, convert_run_ok h traced⟩

/-- A pass whose conversion fails fails with what that conversion fails with. -/
theorem convert_eq_error {span : Option Span} {x : Converting α} {traced : α → String}
    {ctx next : Context} {fault : Fault}
    (h : (convert span x traced).run ctx = (.error fault, next)) :
    ∃ how count, outcome x ctx.allocations = (.error how, count) ∧
      fault = .internal (.malformed how) := by
  cases hx : outcome x ctx.allocations with
  | mk r count =>
    cases r with
    | ok a =>
      rw [convert_run_ok hx] at h
      cases h
    | error how =>
      rw [convert_run_error hx] at h
      cases h
      exact ⟨how, count, rfl, rfl⟩

end Pass

end SelectorAlgebra
