import Mathlib.Data.Nat.Notation

/-! # Counted loops

`for (i = a; i < a + k; i++)` over a loop state. An iteration may return from
the function around the loop, and it may be undefined (`none`), as an access
outside of an object is in C.

* `forLoop_of_invariant` — an invariant that every iteration keeps: the loop is
  defined and comes to its end;
* `forLoop_of_return` — iterations that keep the invariant up to one that
  returns.
-/

namespace Loop

variable {S R : Type*}

/-- How an iteration ends: the loop goes on, or the function returns. -/
inductive Flow (S R : Type*) where
  | next (s : S)
  | ret (r : R)

/-- `k` iterations from `i` on. -/
def forLoop (body : ℕ → S → Option (Flow S R)) : ℕ → ℕ → S → Option (Flow S R)
  | _, 0, s => some (.next s)
  | i, k + 1, s =>
    match body i s with
    | none => none
    | some (.ret r) => some (.ret r)
    | some (.next s') => forLoop body (i + 1) k s'

variable {body : ℕ → S → Option (Flow S R)} {P : ℕ → S → Prop} {i k : ℕ} {s s' : S}

theorem forLoop_succ_of_next (h : body i s = some (.next s')) :
    forLoop body i (k + 1) s = forLoop body (i + 1) k s' := by
  simp [forLoop, h]

theorem forLoop_succ_of_ret {r : R} (h : body i s = some (.ret r)) :
    forLoop body i (k + 1) s = some (.ret r) := by
  simp [forLoop, h]

/-- An invariant carries the loop over its first iterations. -/
theorem forLoop_add_of_invariant (l : ℕ)
    (hstep : ∀ j s, i ≤ j → j < i + k → P j s → ∃ s', body j s = some (.next s') ∧ P (j + 1) s')
    (h : P i s) :
    ∃ s', P (i + k) s' ∧ forLoop body i (k + l) s = forLoop body (i + k) l s' := by
  induction k generalizing i s with
  | zero => exact ⟨s, h, by rw [Nat.zero_add]; rfl⟩
  | succ k ih =>
    rcases hstep i s (Nat.le_refl i) (by omega) h with ⟨s₁, hbody, h₁⟩
    rcases ih (fun j s hi hj => hstep j s (by omega) (by omega)) h₁ with ⟨s', h', hrest⟩
    have hindex : i + 1 + k = i + (k + 1) := by omega
    have hcount : k + 1 + l = k + l + 1 := by omega
    rw [hindex] at h' hrest
    exact ⟨s', h', by rw [hcount, forLoop_succ_of_next hbody, hrest]⟩

theorem forLoop_of_invariant
    (hstep : ∀ j s, i ≤ j → j < i + k → P j s → ∃ s', body j s = some (.next s') ∧ P (j + 1) s')
    (h : P i s) : ∃ s', P (i + k) s' ∧ forLoop body i k s = some (.next s') :=
  forLoop_add_of_invariant 0 hstep h

theorem forLoop_of_return {l : ℕ} {r : S → R}
    (hstep : ∀ j s, i ≤ j → j < i + k → P j s → ∃ s', body j s = some (.next s') ∧ P (j + 1) s')
    (hret : ∀ s, P (i + k) s → body (i + k) s = some (.ret (r s))) (h : P i s) :
    ∃ s', P (i + k) s' ∧ forLoop body i (k + (l + 1)) s = some (.ret (r s')) := by
  rcases forLoop_add_of_invariant (l + 1) hstep h with ⟨s', h', hrest⟩
  exact ⟨s', h', by rw [hrest, forLoop_succ_of_ret (hret s' h')]⟩

end Loop
