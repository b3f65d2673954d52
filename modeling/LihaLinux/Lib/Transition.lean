import Mathlib.Logic.Relation

/-!
# Runs of transition systems

A system is given by a set of initial states and a step relation. The safety
results of this development all have one shape: a predicate holds initially,
every step preserves it, hence it holds in every state of every run.
-/

namespace LihaLinux

variable {σ : Type*}

/-- The states met in the runs of a transition system. -/
def Reachable (init : σ → Prop) (step : σ → σ → Prop) (s : σ) : Prop :=
  ∃ s₀, init s₀ ∧ Relation.ReflTransGen step s₀ s

/-- Initial states are reachable. -/
theorem Reachable.of_init {init : σ → Prop} {step : σ → σ → Prop} {s : σ} (h : init s) :
    Reachable init step s := ⟨s, h, .refl⟩

/-- A run can be continued by one step. -/
theorem Reachable.tail {init : σ → Prop} {step : σ → σ → Prop} {s t : σ}
    (h : Reachable init step s) (hstep : step s t) : Reachable init step t := by
  obtain ⟨s₀, hinit, hrun⟩ := h
  exact ⟨s₀, hinit, hrun.tail hstep⟩

/-- A run of a system is a run of every system with more steps. -/
theorem Reachable.mono {init : σ → Prop} {step step' : σ → σ → Prop} {s : σ}
    (h : Reachable init step s) (hstep : ∀ s t, step s t → step' s t) :
    Reachable init step' s := by
  obtain ⟨s₀, hinit, hrun⟩ := h
  exact ⟨s₀, hinit, Relation.ReflTransGen.mono hstep s₀ s hrun⟩

/-- The invariant rule: what holds initially and is preserved by every step
holds in every reachable state. -/
theorem Reachable.invariant {init : σ → Prop} {step : σ → σ → Prop} {P : σ → Prop}
    (hinit : ∀ s, init s → P s) (hstep : ∀ s t, P s → step s t → P t) {s : σ}
    (h : Reachable init step s) : P s := by
  obtain ⟨s₀, hs₀, hrun⟩ := h
  induction hrun with
  | refl => exact hinit s₀ hs₀
  | tail _ hlast ih => exact hstep _ _ ih hlast

/-! ### Runs given by their events -/

/-- The state after a list of events, for a system whose next state is computed. -/
def runEvents {ε : Type*} (next : σ → ε → Option σ) (s : σ) : List ε → Option σ
  | [] => some s
  | e :: es => (next s e).bind fun s' => runEvents next s' es

/-- A computed run is a run. -/
theorem Reachable.runEvents {ε : Type*} {init : σ → Prop} {step : σ → σ → Prop}
    {next : σ → ε → Option σ} (hnext : ∀ s e t, next s e = some t → step s t) {s t : σ}
    {es : List ε} (h : Reachable init step s) (hrun : runEvents next s es = some t) :
    Reachable init step t := by
  induction es generalizing s with
  | nil =>
    simp only [LihaLinux.runEvents, Option.some.injEq] at hrun
    rwa [← hrun]
  | cons e es ih =>
    simp only [LihaLinux.runEvents, Option.bind_eq_some_iff] at hrun
    obtain ⟨s₁, hstep, hrest⟩ := hrun
    exact ih (h.tail (hnext s e s₁ hstep)) hrest

/-- A computed run that ends in a state with a property gives a reachable state with it. -/
theorem Reachable.exists_runEvents {ε : Type*} {init : σ → Prop} {step : σ → σ → Prop}
    {next : σ → ε → Option σ} (hnext : ∀ s e t, next s e = some t → step s t) {s : σ}
    {es : List ε} {P : σ → Bool} (h : Reachable init step s)
    (hrun : (LihaLinux.runEvents next s es).any P = true) :
    ∃ t, Reachable init step t ∧ LihaLinux.runEvents next s es = some t ∧ P t = true := by
  obtain ⟨t, ht, hP⟩ := (Option.any_eq_true P _).mp hrun
  exact ⟨t, h.runEvents hnext ht, ht, hP⟩

end LihaLinux
