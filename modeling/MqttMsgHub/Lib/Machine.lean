import Mathlib.Data.Nat.Notation
import Mathlib.Order.Lattice

/-! # Machines that stop with a result

A machine takes turns: from a state it goes on to another one or it is out, with a
result; a turn may be undefined. `run` executes it with fuel.

* `run_cases` — the first turn of a run that ends;
* `run_unique` — runs that end give one result, whatever their fuel;
* `run_isSome` — an invariant under which turns are defined and a measure that falls:
  the machine comes to a result, with as much fuel as the measure says.
-/

namespace Machine

variable {S R : Type*}

/-- How a turn ends. -/
inductive Turn (S R : Type*) where
  | goOn (s : S)
  | out (r : R)

/-- Take turns until the machine is out. -/
def run (turn : S → Option (Turn S R)) : ℕ → S → Option R
  | 0, _ => none
  | n + 1, s =>
    match turn s with
    | none => none
    | some (.goOn s') => run turn n s'
    | some (.out r) => some r

variable {turn : S → Option (Turn S R)} {s s' : S} {r r' : R} {m n : ℕ}

theorem run_goOn (h : turn s = some (.goOn s')) : run turn (n + 1) s = run turn n s' := by
  simp only [run, h]

theorem run_out (h : turn s = some (.out r)) : run turn (n + 1) s = some r := by
  simp only [run, h]

/-- What the first turn of a run that ends is. -/
theorem run_cases (h : run turn n s = some r) :
    ∃ m, n = m + 1 ∧
      (turn s = some (.out r) ∨ ∃ s', turn s = some (.goOn s') ∧ run turn m s' = some r) := by
  cases n with
  | zero => simp [run] at h
  | succ m =>
    refine ⟨m, rfl, ?_⟩
    simp only [run] at h
    split at h
    · simp at h
    · rename_i s' hturn
      exact .inr ⟨s', hturn, h⟩
    · rename_i r' hturn
      simp only [Option.some.injEq] at h
      exact .inl (by rw [hturn, h])

/-- More fuel changes nothing. -/
theorem run_mono (h : run turn n s = some r) (hle : n ≤ m) : run turn m s = some r := by
  induction n generalizing m s with
  | zero => simp [run] at h
  | succ n ih =>
    rcases run_cases h with ⟨k, hk, hout | ⟨s', hturn, hrun⟩⟩
    · obtain ⟨m, rfl⟩ : ∃ j, m = j + 1 := ⟨m - 1, by omega⟩
      exact run_out hout
    · obtain ⟨m, rfl⟩ : ∃ j, m = j + 1 := ⟨m - 1, by omega⟩
      obtain rfl : n = k := by omega
      rw [run_goOn hturn]
      exact ih hrun (by omega)

theorem run_unique (h : run turn n s = some r) (h' : run turn m s = some r') : r = r' := by
  have hle := run_mono h (le_max_left n m)
  rw [run_mono h' (le_max_right n m)] at hle
  exact (Option.some.inj hle).symm

/-- Under an invariant every turn is defined, and a measure falls with it. -/
theorem run_isSome {P : S → Prop} {μ : S → ℕ}
    (hturn : ∀ s, P s →
      (∃ s', turn s = some (.goOn s') ∧ P s' ∧ μ s' < μ s) ∨ ∃ r, turn s = some (.out r))
    (h : P s) (hfuel : μ s < n) : ∃ r, run turn n s = some r := by
  induction n generalizing s with
  | zero => omega
  | succ n ih =>
    rcases hturn s h with ⟨s', hgo, h', hlt⟩ | ⟨r, hout⟩
    · rw [run_goOn hgo]
      exact ih h' (by omega)
    · exact ⟨r, run_out hout⟩

end Machine
