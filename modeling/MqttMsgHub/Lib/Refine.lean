import MqttMsgHub.Lib.Exec

/-! # Refinement of executable specifications

Two specifications with a partial step function each, a translation of the labels
of the first one, and a relation between their states. They agree on a label when
both steps are undefined, or both are defined with the same events and related
states.

* `Agrees` — two outcomes agree; `Agrees.bind` goes through a computation;
* `run_refine` — when all good steps from related states agree, executing a list of
  labels in the first specification emits what their translations do in the second;
* `Agrees.isSome_iff` — and a step is defined there if and only if it is here.
-/

namespace Refine

variable {σ τ α β ε γ δ : Type*}

/-- Both are undefined, or both are defined and their values are related. -/
inductive Agrees (R : σ → τ → Prop) : Option σ → Option τ → Prop where
  | undefined : Agrees R none none
  | defined {s : σ} {t : τ} : R s t → Agrees R (some s) (some t)

variable {R : σ → τ → Prop} {Q : γ → δ → Prop}

theorem Agrees.isSome_iff {x : Option σ} {y : Option τ} (h : Agrees R x y) : x.isSome ↔ y.isSome := by
  cases h <;> simp

theorem Agrees.of_eq_some {x : Option σ} {y : Option τ} {s : σ} (h : Agrees R x y)
    (hx : x = some s) : ∃ t, y = some t ∧ R s t := by
  cases h with
  | undefined => cases hx
  | defined hR =>
    cases hx
    exact ⟨_, rfl, hR⟩

/-- A computation that goes on from both. -/
theorem Agrees.bind {x : Option σ} {y : Option τ} {f : σ → Option γ} {g : τ → Option δ}
    (h : Agrees R x y) (hfg : ∀ s t, R s t → Agrees Q (f s) (g t)) :
    Agrees Q (x.bind f) (y.bind g) := by
  cases h with
  | undefined => exact .undefined
  | defined hR => exact hfg _ _ hR

variable {step : σ → α → Option (σ × List ε)} {step' : τ → β → Option (τ × List ε)}
  {Good : σ → α → Prop} [∀ s a, Decidable (Good s a)] {label : α → β}

/-- Related states, and the same events. -/
def SameEvents (R : σ → τ → Prop) (r : σ × List ε) (r' : τ × List ε) : Prop :=
  R r.1 r'.1 ∧ r.2 = r'.2

theorem run_refine
    (hstep : ∀ s t a, R s t → Good s a → Agrees (SameEvents R) (step s a) (step' t (label a)))
    {as : List α} {s s' : σ} {t : τ} {tr : List ε} (hR : R s t)
    (hrun : Exec.run step Good s as = some (s', tr)) :
    ∃ t', Exec.run step' (fun _ _ => True) t (as.map label) = some (t', tr) ∧ R s' t' := by
  induction as generalizing s t tr with
  | nil =>
    cases hrun
    exact ⟨t, rfl, hR⟩
  | cons a as ih =>
    rw [Exec.run] at hrun
    split at hrun
    · rename_i hgood
      simp only [Option.bind_eq_some_iff, Option.map_eq_some_iff] at hrun
      rcases hrun with ⟨⟨s₁, ev⟩, hs, ⟨s₂, tr₂⟩, hrest, heq⟩
      cases heq
      rcases (hstep s t a hR hgood).of_eq_some hs with ⟨⟨t₁, ev'⟩, ht, hR₁, hev⟩
      rcases ih hR₁ hrest with ⟨t', hrun', hR'⟩
      refine ⟨t', ?_, hR'⟩
      rw [List.map_cons, Exec.run, if_pos trivial, ht, Option.bind_some, hrun', Option.map_some]
      cases hev
      rfl
    · cases hrun

end Refine
