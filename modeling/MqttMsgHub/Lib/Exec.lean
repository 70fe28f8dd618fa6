import Mathlib.Data.List.Basic

/-! # Runs of an executable specification

A specification is a partial step function: from a state and a label it
gives the next state together with the events the step emits, or nothing
when the label is not enabled. `Runs` is the set of (trace, state) pairs that
are reached when every step also meets a side condition `Good`, and
`run` executes a list of labels. Everything about a system is then proved
with one induction, packaged here once:

* `Runs.invariant` — a property of (trace, state) that holds initially and is
  kept by every good step holds after every run; there may be an assumption on
  the whole trace that every prefix inherits (distinct identifiers, for
  instance);
* `runs_of_run` — an executed run is a run.
-/

namespace Exec

variable {σ α ε : Type*}

/-- The (trace, state) pairs reached from `s₀` by steps that all meet `Good`. -/
inductive Runs (step : σ → α → Option (σ × List ε)) (Good : σ → α → Prop) (s₀ : σ) :
    List ε → σ → Prop where
  | start : Runs step Good s₀ [] s₀
  | next {tr : List ε} {s s' : σ} {a : α} {ev : List ε} :
      Runs step Good s₀ tr s → Good s a → step s a = some (s', ev) →
      Runs step Good s₀ (tr ++ ev) s'

/-- Execute a list of labels; a label that is disabled or does not meet `Good`
stops the execution. -/
def run (step : σ → α → Option (σ × List ε)) (Good : σ → α → Prop)
    [∀ s a, Decidable (Good s a)] : σ → List α → Option (σ × List ε)
  | s, [] => some (s, [])
  | s, a :: as =>
    if Good s a then
      (step s a).bind fun r => (run step Good r.1 as).map fun q => (q.1, r.2 ++ q.2)
    else none

variable {step : σ → α → Option (σ × List ε)} {Good : σ → α → Prop} {s₀ : σ}

/-! ## Invariance -/

/-- Under an assumption `H` on the trace that prefixes inherit. A step may use that
it starts in a state reached by a run. -/
theorem Runs.invariant {H : List ε → Prop} {P : List ε → σ → Prop}
    (hpre : ∀ tr ev, H (tr ++ ev) → H tr) (hinit : P [] s₀)
    (hstep : ∀ tr s a s' ev, Runs step Good s₀ tr s → H (tr ++ ev) → P tr s → Good s a →
      step s a = some (s', ev) → P (tr ++ ev) s')
    {tr : List ε} {s : σ} (h : Runs step Good s₀ tr s) (hH : H tr) : P tr s := by
  induction h with
  | start => exact hinit
  | next hrun hgood hs ih => exact hstep _ _ _ _ _ hrun hH (ih (hpre _ _ hH)) hgood hs

/-- A run goes on where another one has ended. -/
theorem Runs.trans {tr tr' : List ε} {s s' : σ} (h : Runs step Good s₀ tr s)
    (h' : Runs step Good s tr' s') : Runs step Good s₀ (tr ++ tr') s' := by
  induction h' with
  | start => simpa using h
  | next _ hgood hs ih =>
    rw [← List.append_assoc]
    exact ih.next hgood hs

/-! ## Execution -/

theorem Runs.append_run [∀ s a, Decidable (Good s a)] {tr : List ε} {s : σ}
    (h : Runs step Good s₀ tr s) :
    ∀ {as : List α} {s' : σ} {ev : List ε}, run step Good s as = some (s', ev) →
      Runs step Good s₀ (tr ++ ev) s' := by
  intro as
  induction as generalizing tr s with
  | nil =>
    intro s' ev hrun
    simp only [run, Option.some.injEq, Prod.mk.injEq] at hrun
    rcases hrun with ⟨rfl, rfl⟩
    simpa using h
  | cons a as ih =>
    intro s' ev hrun
    simp only [run] at hrun
    split at hrun
    · rename_i hgood
      simp only [Option.bind_eq_some_iff, Option.map_eq_some_iff] at hrun
      rcases hrun with ⟨⟨s₁, ev₁⟩, hs, ⟨s₂, ev₂⟩, hrest, heq⟩
      simp only [Prod.mk.injEq] at heq
      rcases heq with ⟨rfl, rfl⟩
      rw [← List.append_assoc]
      exact ih (h.next hgood hs) hrest
    · cases hrun

/-- What `run` computes is a run. -/
theorem runs_of_run [∀ s a, Decidable (Good s a)] {as : List α} {s : σ} {tr : List ε}
    (h : run step Good s₀ as = some (s, tr)) : Runs step Good s₀ tr s := by
  simpa using Runs.append_run (Runs.start ) h

/-- A list of labels that executes to its end gives a run. -/
theorem runs_of_isSome [∀ s a, Decidable (Good s a)] {as : List α}
    (h : (run step Good s₀ as).isSome) :
    Runs step Good s₀ ((run step Good s₀ as).get h).2 ((run step Good s₀ as).get h).1 :=
  runs_of_run (Option.eq_some_of_isSome h)

end Exec
