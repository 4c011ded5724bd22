import Mathlib.Data.List.Basic

/-!
# Refinement of a specification by a system

A system takes steps, each with an event that the outside sees. A specification says of every event
whether a state permits it and what the state becomes by it. A relation between the states of the
two that the steps keep gives a statement about whole runs (`Run.permits`), and a refinement may go
through a system in between (`Simulates.through`).
-/

namespace Refinement

variable {σ μ δ ε ε' : Type}

/-- A specification of events. -/
structure Spec (δ ε : Type) where
  /-- The event may happen in the state. -/
  Permits : δ → ε → Prop
  /-- The state after the event. -/
  next : δ → ε → δ

namespace Spec

/-- The events of a whole run are permitted, each in the state that those before it leave. -/
def PermitsAll (S : Spec δ ε) : δ → List ε → Prop
  | _, [] => True
  | d, e :: trace => S.Permits d e ∧ S.PermitsAll (S.next d e) trace

/-- The state after a run. -/
def after (S : Spec δ ε) (d : δ) (trace : List ε) : δ := trace.foldl S.next d

end Spec

/-- The runs of a system. -/
inductive Run (Step : σ → ε → σ → Prop) : σ → List ε → σ → Prop
  | nil (s : σ) : Run Step s [] s
  | cons {s s' s'' : σ} {e : ε} {trace : List ε} (h : Step s e s') (hrun : Run Step s' trace s'') :
      Run Step s (e :: trace) s''

/-- Related states take related steps: the specification permits what the outside sees of an event
that is allowed, and the states after it are related again. -/
def Simulates (Step : σ → ε → σ → Prop) (S : Spec δ ε') (view : ε → ε') (Allowed : ε → Prop)
    (R : σ → δ → Prop) : Prop :=
  ∀ s d e s', R s d → Allowed e → Step s e s' →
    S.Permits d (view e) ∧ R s' (S.next d (view e))

variable {Step : σ → ε → σ → Prop} {S : Spec δ ε'} {view : ε → ε'} {Allowed : ε → Prop}
  {R : σ → δ → Prop}

/-- What holds for one step holds for whole runs. -/
theorem Run.permits (hsim : Simulates Step S view Allowed R) {s s' : σ} {trace : List ε}
    (hrun : Run Step s trace s') {d : δ} (h : R s d) (hok : ∀ e ∈ trace, Allowed e) :
    S.PermitsAll d (trace.map view) ∧ R s' (S.after d (trace.map view)) := by
  induction hrun generalizing d with
  | nil s => exact ⟨trivial, h⟩
  | cons hstep _ ih =>
    obtain ⟨he, htrace⟩ := List.forall_mem_cons.mp hok
    obtain ⟨hpermits, hnext⟩ := hsim _ _ _ _ h he hstep
    obtain ⟨hall, hafter⟩ := ih hnext htrace
    exact ⟨⟨hpermits, hall⟩, hafter⟩

/-- A system refines a specification if it follows, up to what the specification does not tell
apart, a system that refines it. -/
theorem Simulates.through {StepM : μ → ε' → μ → Prop} {AllowedM : ε' → Prop} {R₁ : σ → μ → Prop}
    {R₂ : μ → δ → Prop} {Like : ε' → ε' → Prop}
    (hfollow : ∀ s m e s', R₁ s m → Allowed e → Step s e s' →
      ∃ e' m', StepM m e' m' ∧ AllowedM e' ∧ Like e' (view e) ∧ R₁ s' m')
    (hmiddle : Simulates StepM S id AllowedM R₂)
    (hlike : ∀ d e e', Like e e' → S.Permits d e → S.Permits d e' ∧ S.next d e' = S.next d e) :
    Simulates Step S view Allowed fun s d => ∃ m, R₁ s m ∧ R₂ m d := by
  rintro s d e s' ⟨m, h₁, h₂⟩ hallowed hstep
  obtain ⟨e', m', hstepM, hallowedM, hsame, h₁'⟩ := hfollow s m e s' h₁ hallowed hstep
  obtain ⟨hpermits, h₂'⟩ := hmiddle m d e' m' h₂ hallowedM hstepM
  obtain ⟨hpermits', hnext⟩ := hlike d e' (view e) hsame hpermits
  refine ⟨hpermits', m', h₁', ?_⟩
  rw [hnext]
  exact h₂'

end Refinement
