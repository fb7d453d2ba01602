import Mathlib.Data.List.Forall2
import SchemaCodec.Action

/-! # How actions end

Every step ends, with a value or with an error, and in either case in a state. What holds then is
found backwards along the step.
-/

namespace SchemaCodec

namespace Action

variable {σ τ α β : Type} {s : σ} {Q : α → σ → Prop} {R : Error → σ → Prop}

/-- From the state, the step ends in a value and a state with `Q` or in an error and a state with
`R`. -/
def Ends (step : Action σ α) (s : σ) (Q : α → σ → Prop) (R : Error → σ → Prop) : Prop :=
  match (step s).result with
  | .ok x => Q x (step s).state
  | .error e => R e (step s).state

theorem Ends.mono {step : Action σ α} {Q' : α → σ → Prop} {R' : Error → σ → Prop}
    (h : step.Ends s Q R) (hQ : ∀ x s', Q x s' → Q' x s') (hR : ∀ e s', R e s' → R' e s') :
    step.Ends s Q' R' := by
  unfold Ends at h ⊢
  cases hr : (step s).result with
  | ok x => rw [hr] at h; exact hQ x _ h
  | error e => rw [hr] at h; exact hR e _ h

theorem Ends.and {step : Action σ α} {Q' : α → σ → Prop} {R' : Error → σ → Prop}
    (h : step.Ends s Q R) (h' : step.Ends s Q' R') :
    step.Ends s (fun x s' => Q x s' ∧ Q' x s') fun e s' => R e s' ∧ R' e s' := by
  unfold Ends at h h' ⊢
  cases hr : (step s).result with
  | ok x => rw [hr] at h h'; exact ⟨h, h'⟩
  | error e => rw [hr] at h h'; exact ⟨h, h'⟩

theorem ends_congr {step : Action σ α} {Q' I : α → σ → Prop} {R' J : Error → σ → Prop}
    (always : step.Ends s I J) (ok : ∀ x s', I x s' → (Q x s' ↔ Q' x s'))
    (error : ∀ e s', J e s' → (R e s' ↔ R' e s')) : step.Ends s Q R ↔ step.Ends s Q' R' := by
  constructor
  · intro h
    exact (h.and always).mono (fun x s' both => (ok x s' both.2).mp both.1)
      fun e s' both => (error e s' both.2).mp both.1
  · intro h
    exact (h.and always).mono (fun x s' both => (ok x s' both.2).mpr both.1)
      fun e s' both => (error e s' both.2).mpr both.1

theorem Ends.result {step : Action σ α} (h : step.Ends s Q fun _ _ => False) :
    ∃ x, (step s).result = .ok x ∧ Q x (step s).state := by
  unfold Ends at h
  cases hr : (step s).result with
  | ok x => rw [hr] at h; exact ⟨x, rfl, h⟩
  | error e => rw [hr] at h; exact h.elim

theorem Ends.of_ok {step : Action σ α} (h : step.Ends s Q R) {x : α}
    (hx : (step s).result = .ok x) : Q x (step s).state := by
  unfold Ends at h
  rwa [hx] at h

theorem Ends.of_error {step : Action σ α} (h : step.Ends s Q R) {e : Error}
    (he : (step s).result = .error e) : R e (step s).state := by
  unfold Ends at h
  rwa [he] at h

theorem ends_of_ok {step : Action σ α} {x : α} (hx : (step s).result = .ok x)
    (h : Q x (step s).state) : step.Ends s Q R := by
  unfold Ends
  rwa [hx]

/-- A step that fails just where `P` does not hold. -/
theorem ends_decided {step : Action σ α} {P : Prop} (ends : P → step.Ends s Q fun _ _ => False)
    (fails : ¬ P → step.Ends s (fun _ _ => False) R) :
    ((∃ x, (step s).result = .ok x) ↔ P) ∧
      (∀ x, (step s).result = .ok x → Q x (step s).state) ∧
      ∀ e, (step s).result = .error e → R e (step s).state := by
  by_cases holds : P
  · obtain ⟨x, result, -⟩ := (ends holds).result
    refine ⟨⟨fun _ => holds, fun _ => ⟨x, result⟩⟩, fun x result => (ends holds).of_ok result, ?_⟩
    intro e failed
    cases result.symm.trans failed
  · have never : ∀ x, (step s).result ≠ .ok x := fun x result => (fails holds).of_ok result
    refine ⟨⟨?_, fun h => absurd h holds⟩, fun x result => absurd result (never x), ?_⟩
    · rintro ⟨x, result⟩
      exact absurd result (never x)
    · exact fun e failed => (fails holds).of_error failed

theorem Ends.state {step : Action σ α} {I : σ → Prop} (h : step.Ends s Q R)
    (hQ : ∀ x s', Q x s' → I s') (hR : ∀ e s', R e s' → I s') : I (step s).state := by
  unfold Ends at h
  cases hr : (step s).result with
  | ok x => rw [hr] at h; exact hQ x _ h
  | error e => rw [hr] at h; exact hR e _ h

theorem ends_pure {x : α} : Ends (Pure.pure x : Action σ α) s Q R ↔ Q x s := Iff.rfl

theorem ends_bind {step : Action σ β} {next : β → Action σ α} :
    (step >>= next).Ends s Q R ↔ step.Ends s (fun x s' => (next x).Ends s' Q R) R := by
  show Ends (Action.bind step next) s Q R ↔ _
  unfold Ends Action.bind
  cases hr : (step s).result with
  | ok x => simp only [hr]
  | error e => simp only [hr]

theorem result_bind {step : Action σ β} {next : β → Action σ α} :
    ((step >>= next) s).result =
      ((step s).result >>= fun x => (next x (step s).state).result) := by
  show (Action.bind step next s).result = _
  unfold Action.bind
  cases hr : (step s).result with
  | ok x => simp only [hr]; rfl
  | error e => simp only [hr]; rfl

theorem bind_bind {γ : Type} (step : Action σ α) (next : α → Action σ β)
    (last : β → Action σ γ) : step >>= next >>= last = step >>= fun x => next x >>= last := by
  funext s
  show Action.bind (Action.bind step next) last s =
    Action.bind step (fun x => Action.bind (next x) last) s
  unfold Action.bind
  cases hr : (step s).result with
  | ok x =>
    cases hr' : (next x (step s).state).result with
    | ok y => simp only [hr, hr', List.append_assoc]
    | error e => simp only [hr, hr']
  | error e => simp only [hr]

theorem Ends.bind_congr {step : Action σ β} {next next' : β → Action σ α}
    (h : step.Ends s (fun x s' => next x s' = next' x s') R) :
    (step >>= next) s = (step >>= next') s := by
  show Action.bind step next s = Action.bind step next' s
  unfold Action.bind
  cases hr : (step s).result with
  | ok x =>
    have same := h.of_ok hr
    simp only [hr, same]
  | error e => simp only [hr]

theorem ends_map {f : β → α} {step : Action σ β} :
    (f <$> step).Ends s Q R ↔ step.Ends s (fun x => Q (f x)) R :=
  ends_bind

theorem ends_get {Q : σ → σ → Prop} : (get : Action σ σ).Ends s Q R ↔ Q s s := Iff.rfl

theorem ends_modify {Q : Unit → σ → Prop} {f : σ → σ} : (modify f).Ends s Q R ↔ Q () (f s) :=
  Iff.rfl

theorem ends_report {Q : Unit → σ → Prop} {event : Event} :
    (report event).Ends s Q R ↔ Q () s := Iff.rfl

theorem ends_ofExcept {outcome : Except Error α} :
    (ofExcept outcome).Ends s Q R ↔
      (∀ x, outcome = .ok x → Q x s) ∧ ∀ e, outcome = .error e → R e s := by
  cases outcome with
  | ok x =>
    constructor
    · intro h
      refine ⟨?_, (fun _ same => nomatch same)⟩
      rintro _ ⟨⟩
      exact h
    · rintro ⟨h, -⟩
      exact h x rfl
  | error e =>
    constructor
    · intro h
      refine ⟨(fun _ same => nomatch same), ?_⟩
      rintro _ ⟨⟩
      exact h
    · rintro ⟨-, h⟩
      exact h e rfl

theorem ends_ofStateful {step : EStateM Error σ α} :
    (ofStateful step).Ends s Q R ↔
      match step s with
      | .ok x s' => Q x s'
      | .error e s' => R e s' := by
  unfold Ends ofStateful
  cases step s with
  | ok x s' => rfl
  | error e s' => rfl

theorem ends_supplied {t : τ} {step : Action (σ × τ) α} :
    (supplied t step).Ends s Q R ↔
      step.Ends (s, t) (fun x p => Q x p.1) (fun e p => R e p.1) := Iff.rfl

theorem ends_within {part : σ → τ} {update : τ → σ → σ} {step : Action τ α} :
    (within part update step).Ends s Q R ↔
      step.Ends (part s) (fun x t => Q x (update t s)) (fun e t => R e (update t s)) := Iff.rfl

theorem ends_recover {step : Action σ α} {handler : Error → Option (Action σ α)} :
    (recover step handler).Ends s Q R ↔
      step.Ends s Q fun e s' =>
        match handler e with
        | none => R e s'
        | some other => other.Ends s' Q R := by
  unfold Ends recover
  cases hr : (step s).result with
  | ok x => simp only [hr]
  | error e =>
    cases hh : handler e with
    | none => simp only [hr, hh]
    | some other => simp only [hr, hh]

/-- A step for each item keeps what each single step keeps. -/
theorem ends_traverse {I : σ → Prop} {P : β → α → Prop} {Q : List α → σ → Prop}
    {step : β → Action σ α} {xs : List β} (hs : I s)
    (each : ∀ x ∈ xs, ∀ s, I s → (step x).Ends s (fun y s' => I s' ∧ P x y) R)
    (all : ∀ ys s', I s' → List.Forall₂ P xs ys → Q ys s') : (traverse step xs).Ends s Q R := by
  induction xs generalizing s Q with
  | nil => exact all [] s hs .nil
  | cons x xs ih =>
    rw [traverse, ends_bind]
    refine (each x List.mem_cons_self s hs).mono ?_ fun _ _ h => h
    rintro y s' ⟨hs', hy⟩
    rw [ends_bind]
    refine ih hs' (fun z hz => each z (List.mem_cons_of_mem x hz)) ?_
    intro ys s'' hs'' hys
    exact all (y :: ys) s'' hs'' (.cons hy hys)

/-! ## Invariants -/

section Keeps

variable {I : σ → Prop} {R : Error → Prop} {P : α → Prop} {P' : β → Prop} {step : Action σ α}

/-- Every end of the step keeps the invariant; its value has `P` and its error has `R`. -/
def Keeps (I : σ → Prop) (R : Error → Prop) (step : Action σ α) (P : α → Prop) : Prop :=
  ∀ s, I s → step.Ends s (fun x s' => I s' ∧ P x) (fun e s' => I s' ∧ R e)

theorem Keeps.mono {R' : Error → Prop} {Q : α → Prop} (h : step.Keeps I R P)
    (hP : ∀ x, P x → Q x) (hR : ∀ e, R e → R' e) : step.Keeps I R' Q :=
  fun s hs => (h s hs).mono (fun x _ hx => ⟨hx.1, hP x hx.2⟩) fun e _ he => ⟨he.1, hR e he.2⟩

theorem Keeps.weaken (h : step.Keeps I R P) : step.Keeps I (fun _ => True) fun _ => True :=
  h.mono (fun _ _ => trivial) fun _ _ => trivial

theorem Keeps.state (h : step.Keeps I R P) {s : σ} (hs : I s) : I (step s).state :=
  (h s hs).state (fun _ _ hx => hx.1) fun _ _ he => he.1

theorem Keeps.of_error (h : step.Keeps I R P) {s : σ} (hs : I s) {e : Error}
    (he : (step s).result = .error e) : R e :=
  ((h s hs).of_error he).2

theorem keeps_pure {x : α} (h : P x) : (pure x : Action σ α).Keeps I R P :=
  fun _ hs => ⟨hs, h⟩

theorem Keeps.bind {next : α → Action σ β} (h : step.Keeps I R P)
    (then_keeps : ∀ x, P x → (next x).Keeps I R P') : (step >>= next).Keeps I R P' := by
  intro s hs
  rw [ends_bind]
  exact (h s hs).mono (fun x s' hx => then_keeps x hx.2 s' hx.1) fun _ _ he => he

theorem Keeps.map {f : α → β} (h : step.Keeps I R fun x => P' (f x)) :
    (f <$> step).Keeps I R P' := by
  intro s hs
  rw [ends_map]
  exact h s hs

theorem keeps_fail {e : Error} (h : R e) : (fail e : Action σ α).Keeps I R P :=
  fun _ hs => ⟨hs, h⟩

theorem keeps_get : (get : Action σ σ).Keeps I R I := fun _ hs => ⟨hs, hs⟩

theorem keeps_modify {f : σ → σ} (h : ∀ s, I s → I (f s)) :
    (modify f).Keeps I R fun _ => True :=
  fun s hs => ⟨h s hs, trivial⟩

theorem keeps_report (event : Event) : (report event : Action σ Unit).Keeps I R fun _ => True :=
  fun _ hs => ⟨hs, trivial⟩

theorem keeps_ofExcept {outcome : Except Error α} (ok : ∀ x, outcome = .ok x → P x)
    (error : ∀ e, outcome = .error e → R e) : (ofExcept outcome : Action σ α).Keeps I R P :=
  fun _ hs => ends_ofExcept.mpr ⟨fun x h => ⟨hs, ok x h⟩, fun e h => ⟨hs, error e h⟩⟩

theorem Keeps.traverse {Q : β → α → Prop} {each : β → Action σ α} {xs : List β}
    (h : ∀ x ∈ xs, (each x).Keeps I R (Q x)) :
    (Action.traverse each xs).Keeps I R fun ys => List.Forall₂ Q xs ys :=
  fun _ hs => ends_traverse hs (fun x hx s hs => h x hx s hs) fun _ _ hs' hys => ⟨hs', hys⟩

theorem Keeps.recover {handler : Error → Option (Action σ α)} (h : step.Keeps I R P)
    (other_keeps : ∀ e other, handler e = some other → other.Keeps I R P) :
    (Action.recover step handler).Keeps I R P := by
  intro s hs
  rw [ends_recover]
  refine (h s hs).mono (fun _ _ hx => hx) ?_
  rintro e s' ⟨hs', he⟩
  cases hh : handler e with
  | none => exact ⟨hs', he⟩
  | some other => exact other_keeps e other hh s' hs'

theorem Keeps.within {part : τ → σ} {update : σ → τ → τ} {J : τ → Prop}
    (h : step.Keeps I R P) (old : ∀ t, J t → I (part t)) (new : ∀ s t, I s → J t → J (update s t)) :
    (Action.within part update step).Keeps J R P := by
  intro t ht
  rw [ends_within]
  exact (h (part t) (old t ht)).mono (fun _ s hx => ⟨new s t hx.1 ht, hx.2⟩)
    fun _ s he => ⟨new s t he.1 ht, he.2⟩

theorem Keeps.first (h : step.Keeps I R P) :
    (Action.first step : Action (σ × τ) α).Keeps (fun p => I p.1) R P :=
  h.within (fun _ hp => hp) fun _ _ hs _ => hs

theorem keeps_trivial (step : Action σ α) :
    step.Keeps (fun _ => True) (fun _ => True) fun _ => True := by
  intro s _
  unfold Ends
  split <;> exact ⟨trivial, trivial⟩

theorem keeps_second (step : Action τ α) :
    (Action.second step : Action (σ × τ) α).Keeps (fun p => I p.1) (fun _ => True)
      fun _ => True :=
  (keeps_trivial step).within (fun _ _ => trivial) fun _ _ _ hp => hp

theorem Keeps.supplied {step : Action (σ × τ) α} (h : step.Keeps (fun p => I p.1) R P) (t : τ) :
    (Action.supplied t step).Keeps I R P := by
  intro s hs
  exact h (s, t) hs

end Keeps

end Action

end SchemaCodec
