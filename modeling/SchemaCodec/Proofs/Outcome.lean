import SchemaCodec.Error

/-! # Outcomes

Steps in sequence yield a value exactly if each of them does, and they fail with the errors of the
single steps.
-/

namespace SchemaCodec

variable {α β : Type} {outcome : Except Error α} {y : β}

theorem bind_eq_ok {next : α → Except Error β} :
    (outcome >>= next) = .ok y ↔ ∃ x, outcome = .ok x ∧ next x = .ok y := by
  cases outcome with
  | ok x =>
    constructor
    · intro h
      exact ⟨x, rfl, h⟩
    · rintro ⟨_, ⟨⟩, h⟩
      exact h
  | error e =>
    constructor
    · intro h
      cases h
    · rintro ⟨_, h, -⟩
      cases h

theorem map_eq_ok {f : α → β} : (f <$> outcome) = .ok y ↔ ∃ x, outcome = .ok x ∧ f x = y := by
  cases outcome with
  | ok x =>
    constructor
    · intro h
      exact ⟨x, rfl, Except.ok.inj h⟩
    · rintro ⟨_, ⟨⟩, rfl⟩
      rfl
  | error e =>
    constructor
    · intro h
      cases h
    · rintro ⟨_, h, -⟩
      cases h

theorem toOption_eq_some {x : α} : outcome.toOption = some x ↔ outcome = .ok x := by
  cases outcome with
  | ok y => simp [Except.toOption]
  | error e => simp [Except.toOption]

theorem return_eq_ok {x : β} : (pure x : Except Error β) = .ok y ↔ x = y :=
  ⟨Except.ok.inj, congrArg Except.ok⟩

/-! ## Errors -/

/-- The outcome is no error without `R`. -/
def FailsOnly (R : Error → Prop) (outcome : Except Error α) : Prop :=
  ∀ e, outcome = .error e → R e

variable {R : Error → Prop}

theorem failsOnly_ok (x : α) : FailsOnly R (.ok x) := fun _ no => by cases no

theorem failsOnly_error {e : Error} (h : R e) : FailsOnly R (.error e : Except Error α) := by
  rintro _ ⟨⟩
  exact h

theorem FailsOnly.bind {next : α → Except Error β} (h : FailsOnly R outcome)
    (rest : ∀ x, outcome = .ok x → FailsOnly R (next x)) : FailsOnly R (outcome >>= next) := by
  cases outcome with
  | ok x => exact rest x rfl
  | error e => exact failsOnly_error (h e rfl)

theorem FailsOnly.map {f : α → β} (h : FailsOnly R outcome) : FailsOnly R (f <$> outcome) := by
  cases outcome with
  | ok x => exact failsOnly_ok (f x)
  | error e => exact failsOnly_error (h e rfl)

end SchemaCodec
