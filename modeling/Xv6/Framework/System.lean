import Mathlib.Data.List.Basic

/-! # Labelled Transition Systems

    The kernel's concurrent parts are modelled as labelled transition
    systems: a state, a label for each atomic piece of code, and a step
    relation. This file defines:
    - `System`: initial states and labelled steps
    - `Reachable`: the states of all runs
    - `ReachableUnder P`: the states of the runs whose steps all meet `P`
    - `Trace`: a run as the list of the steps it takes
    - `IsRun`: a run as functions of the step number
    - the invariant rules for all three
    - runs of a step function, for systems that can be executed
-/

namespace LTS

universe u v

/-- A labelled transition system. -/
structure System (State : Type u) (Label : Type v) where
  init : State → Prop
  step : State → Label → State → Prop

variable {State : Type u} {Label : Type v} {sys : System State Label} {P : State → Label → Prop}

/-! ### Reachability -/

/-- The states reached by some run. -/
inductive Reachable (sys : System State Label) : State → Prop where
  | init {s : State} : sys.init s → Reachable sys s
  | step {s s' : State} (l : Label) :
      Reachable sys s → sys.step s l s' → Reachable sys s'

/-- The states reached by a run in which every step taken satisfies `P`
    in the state it is taken from. -/
inductive ReachableUnder (sys : System State Label) (P : State → Label → Prop) :
    State → Prop where
  | init {s : State} : sys.init s → ReachableUnder sys P s
  | step {s s' : State} (l : Label) :
      ReachableUnder sys P s → P s l → sys.step s l s' → ReachableUnder sys P s'

/-- **Invariant rule**: what holds initially and is kept by every step
    holds in every reachable state. -/
theorem Reachable.invariant {inv : State → Prop} (hinit : ∀ s, sys.init s → inv s)
    (hstep : ∀ s l s', inv s → sys.step s l s' → inv s') {s : State} (h : Reachable sys s) :
    inv s := by
  induction h with
  | init h0 => exact hinit _ h0
  | step l _ hst ih => exact hstep _ l _ ih hst

/-- **Invariant rule under a condition** on the steps of the run. -/
theorem ReachableUnder.invariant {inv : State → Prop} (hinit : ∀ s, sys.init s → inv s)
    (hstep : ∀ s l s', inv s → P s l → sys.step s l s' → inv s') {s : State}
    (h : ReachableUnder sys P s) : inv s := by
  induction h with
  | init h0 => exact hinit _ h0
  | step l _ hP hst ih => exact hstep _ l _ ih hP hst

theorem ReachableUnder.reachable {s : State} (h : ReachableUnder sys P s) : Reachable sys s := by
  induction h with
  | init h0 => exact .init h0
  | step l _ _ hst ih => exact .step l ih hst

/-! ### Runs of a step function

    Where the steps are computed, a run is a fold over its labels. -/

/-- A step that is taken under a condition. -/
theorem of_guard {c : Prop} [Decidable c] {s s' : State}
    (h : (if c then some s else none) = some s') : c ∧ s = s' := by
  rw [Option.ite_none_right_eq_some, Option.some.injEq] at h
  exact h

theorem ReachableUnder.foldlM {next : State → Label → Option State}
    (hnext : ∀ s l s', next s l = some s' → P s l ∧ sys.step s l s') (ls : List Label) :
    ∀ {s s' : State}, ReachableUnder sys P s → ls.foldlM next s = some s' →
      ReachableUnder sys P s' := by
  induction ls with
  | nil =>
    intro s s' hs h
    cases h
    exact hs
  | cons l ls ih =>
    intro s s' hs h
    obtain ⟨s₁, h₁, h₂⟩ := Option.bind_eq_some_iff.mp h
    exact ih (.step l hs (hnext s l s₁ h₁).1 (hnext s l s₁ h₁).2) h₂

theorem Reachable.foldlM {next : State → Label → Option State}
    (hnext : ∀ s l s', next s l = some s' → sys.step s l s') (ls : List Label) :
    ∀ {s s' : State}, Reachable sys s → ls.foldlM next s = some s' → Reachable sys s' := by
  induction ls with
  | nil =>
    intro s s' hs h
    cases h
    exact hs
  | cons l ls ih =>
    intro s s' hs h
    obtain ⟨s₁, h₁, h₂⟩ := Option.bind_eq_some_iff.mp h
    exact ih (.step l hs (hnext s l s₁ h₁)) h₂

/-! ### Runs by step numbers -/

/-- A run of `N` steps: the state before each step, and the step taken. -/
structure IsRun (sys : System State Label) (σ : Nat → State) (ls : Nat → Label) (N : Nat) :
    Prop where
  init : sys.init (σ 0)
  step : ∀ n, n < N → sys.step (σ n) (ls n) (σ (n + 1))

theorem IsRun.reachable {σ : Nat → State} {ls : Nat → Label} {N : Nat} (h : IsRun sys σ ls N)
    (n : Nat) (hn : n ≤ N) : Reachable sys (σ n) := by
  induction n with
  | zero => exact .init h.init
  | succ n ih => exact .step (ls n) (ih (by omega)) (h.step n hn)

/-! ### Traces -/

/-- `Trace sys s tr s'`: a run from `s` to `s'`. The trace lists each
    step with the state it was taken from. -/
inductive Trace (sys : System State Label) :
    State → List (State × Label) → State → Prop where
  | nil (s : State) : Trace sys s [] s
  | snoc {s₀ s s' : State} {tr : List (State × Label)} (l : Label) :
      Trace sys s₀ tr s → sys.step s l s' → Trace sys s₀ (tr ++ [(s, l)]) s'

theorem Trace.reachable {s₀ s : State} {tr : List (State × Label)} (h : Trace sys s₀ tr s)
    (h0 : sys.init s₀) : Reachable sys s := by
  induction h with
  | nil => exact .init h0
  | snoc l _ hst ih => exact .step l ih hst

end LTS
