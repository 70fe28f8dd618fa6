import Mathlib.Algebra.Order.BigOperators.Group.List
import Mathlib.Algebra.Order.Group.Nat
import Mathlib.Data.List.Perm.Basic
import MqttMsgHub.Lib.Exec

/-! # Pools of threads over a shared state

A pool is a shared state and the list of the threads that are alive. The
environment may `call` into the system, which leaves new threads behind, and
any thread may run its next atomic section, which updates the shared state,
emits events and replaces the thread by its continuation together with the
threads it created. Threads have no identity beyond their place in the list,
so every property below is stable under reordering:

* `step_cases` — what a step does, as a permutation of the thread list;
* `invariant` — the invariance rule for runs whose calls and sections meet a
  side condition: the running thread stands in front of the others;
  `invariant_relative` lets an invariant rest on others already proved;
* `total` — a quantity summed over the threads (a count, a multiset of held
  resources), with its one update rule `total_of_perm`;
* `Alone` — a thread that runs to its end while no other one takes a step,
  followed section by section with `alone_of_next` and `alone_of_exit`;
  `Alone.runs` says that this is a run of the pool.
-/

namespace Pool

variable {S T ι χ ε M : Type*}

/-- A shared state and its threads. -/
structure Config (S T : Type*) where
  shared : S
  threads : List T

/-- What an atomic section leaves behind: the shared state, the threads that
take the place of the running one, the events. -/
structure Outcome (S T ε : Type*) where
  shared : S
  threads : List T
  events : List ε

/-- Labels: a call from the environment, or the next section of thread `n`. -/
inductive Label (ι χ : Type*) where
  | call (i : ι)
  | run (n : ℕ) (c : χ)

/-- The thread that a label runs, with the environment's choices. -/
def acting (p : Config S T) : Label ι χ → Option (T × χ)
  | .call _ => none
  | .run n c => p.threads[n]?.map fun t => (t, c)

/-- The threads that a label leaves alone. -/
def others (p : Config S T) : Label ι χ → List T
  | .call _ => p.threads
  | .run n _ => p.threads.eraseIdx n

/-- One step of the pool. -/
def step (call : S → ι → Option (Outcome S T ε)) (sect : S → T → χ → Option (Outcome S T ε))
    (p : Config S T) : Label ι χ → Option (Config S T × List ε)
  | .call i => (call p.shared i).map fun r => (⟨r.shared, p.threads ++ r.threads⟩, r.events)
  | .run n c =>
    p.threads[n]?.bind fun t => (sect p.shared t c).map fun r =>
      (⟨r.shared, p.threads.take n ++ r.threads ++ p.threads.drop (n + 1)⟩, r.events)

variable {call : S → ι → Option (Outcome S T ε)} {sect : S → T → χ → Option (Outcome S T ε)}
  {p p' : Config S T} {a : Label ι χ} {ev : List ε}

/-- The threads that leave the pool in a step: none for a call, the running
thread for a section. -/
inductive Fires (call : S → ι → Option (Outcome S T ε))
    (sect : S → T → χ → Option (Outcome S T ε)) (p : Config S T) :
    Label ι χ → List T → Outcome S T ε → Prop where
  | call {i : ι} {r : Outcome S T ε} : call p.shared i = some r → Fires call sect p (.call i) [] r
  | run {n : ℕ} {c : χ} {t : T} {r : Outcome S T ε} :
      acting p (Label.run n c : Label ι χ) = some (t, c) → sect p.shared t c = some r →
      Fires call sect p (.run n c) [t] r

/-- What a step does: the threads `old` are replaced by the outcome's, all the
`others` stay. -/
theorem step_cases (h : step call sect p a = some (p', ev)) :
    ∃ old r, Fires call sect p a old r ∧ ev = r.events ∧ p'.shared = r.shared ∧
      p.threads.Perm (old ++ others p a) ∧ p'.threads.Perm (r.threads ++ others p a) := by
  cases a with
  | call i =>
    simp only [step, Option.map_eq_some_iff, Prod.mk.injEq] at h
    rcases h with ⟨r, hr, rfl, rfl⟩
    exact ⟨[], r, .call hr, rfl, rfl, List.Perm.refl _, List.perm_append_comm⟩
  | run n c =>
    simp only [step, Option.bind_eq_some_iff, Option.map_eq_some_iff, Prod.mk.injEq] at h
    rcases h with ⟨t, ht, r, hr, rfl, rfl⟩
    have hact : acting p (Label.run n c : Label ι χ) = some (t, c) := by
      simp [acting, ht]
    have hsplit : p.threads = p.threads.take n ++ t :: p.threads.drop (n + 1) := by
      rcases List.getElem?_eq_some_iff.mp ht with ⟨hn, hget⟩
      rw [← hget, List.cons_getElem_drop_succ, List.take_append_drop]
    refine ⟨[t], r, .run hact hr, rfl, rfl, ?_, ?_⟩
    · have hperm : p.threads.Perm (t :: (p.threads.take n ++ p.threads.drop (n + 1))) := by
        conv_lhs => rw [hsplit]
        exact List.perm_middle
      simpa [others, List.eraseIdx_eq_take_drop_succ] using hperm
    · show (p.threads.take n ++ r.threads ++ p.threads.drop (n + 1)).Perm _
      rw [others, List.eraseIdx_eq_take_drop_succ, ← List.append_assoc]
      exact List.perm_append_comm.append_right _

/-! ## Invariance -/

/-- A side condition on steps: `callOk` for the calls, and for a section
`sectOk`, which sees the shared state, the other threads, the running thread
and the environment's choices. -/
def Allowed (callOk : ι → Prop) (sectOk : S → List T → T → χ → Prop) (p : Config S T) :
    Label ι χ → Prop
  | .call i => callOk i
  | .run n c => ∀ t, p.threads[n]? = some t → sectOk p.shared (p.threads.eraseIdx n) t c

instance [DecidablePred (callOk : ι → Prop)] {sectOk : S → List T → T → χ → Prop}
    [∀ s ts t c, Decidable (sectOk s ts t c)] (p : Config S T) (a : Label ι χ) :
    Decidable (Allowed callOk sectOk p a) :=
  match a with
  | .call i => inferInstanceAs (Decidable (callOk i))
  | .run n c =>
    match hn : p.threads[n]? with
    | none => isTrue fun _ ht => nomatch hn.symm.trans ht
    | some t =>
      decidable_of_iff (sectOk p.shared (p.threads.eraseIdx n) t c)
        ⟨fun h _ hu => Option.some.inj (hn.symm.trans hu) ▸ h, fun h => h t hn⟩

variable {callOk : ι → Prop} {sectOk : S → List T → T → χ → Prop} {s₀ : S} {ts₀ : List T}

/-- The invariance rule, under an assumption `H` on the trace that prefixes
inherit, and relative to a property `Q` that is known to hold after every run.
Neither property may depend on the order of the threads; then it is enough to
look at a running thread in front of the others. -/
theorem invariant_relative {H : List ε → Prop} {Q P : List ε → S → List T → Prop}
    (hpre : ∀ tr ev, H (tr ++ ev) → H tr)
    (hknown : ∀ tr p, Exec.Runs (step call sect) (Allowed callOk sectOk) ⟨s₀, ts₀⟩ tr p → H tr →
      Q tr p.shared p.threads)
    (hpermQ : ∀ tr s ts us, ts.Perm us → Q tr s ts → Q tr s us)
    (hperm : ∀ tr s ts us, ts.Perm us → P tr s ts → P tr s us)
    (hinit : P [] s₀ ts₀)
    (hcall : ∀ tr s ts i r, H (tr ++ r.events) → Q tr s ts → P tr s ts → callOk i →
      call s i = some r → P (tr ++ r.events) r.shared (r.threads ++ ts))
    (hsect : ∀ tr s t ts c r, H (tr ++ r.events) → Q tr s (t :: ts) → P tr s (t :: ts) →
      sectOk s ts t c → sect s t c = some r → P (tr ++ r.events) r.shared (r.threads ++ ts))
    {tr : List ε} {p : Config S T}
    (h : Exec.Runs (step call sect) (Allowed callOk sectOk) ⟨s₀, ts₀⟩ tr p) (hH : H tr) :
    P tr p.shared p.threads := by
  refine Exec.Runs.invariant (P := fun tr p => P tr p.shared p.threads) hpre hinit ?_ h hH
  intro tr p a p' ev hrun hH hinv hok hstep
  rcases step_cases hstep with ⟨old, r, hfires, rfl, hshared, hold, hnew⟩
  have hQ := hknown tr p hrun (hpre _ _ hH)
  rw [hshared]
  apply hperm _ _ _ _ hnew.symm
  cases hfires with
  | call hr => exact hcall _ _ _ _ _ hH hQ hinv hok hr
  | run hact hr =>
    simp only [acting, Option.map_eq_some_iff, Prod.mk.injEq, and_true, exists_eq_right] at hact
    exact hsect _ _ _ _ _ _ hH (hpermQ _ _ _ _ hold hQ) (hperm _ _ _ _ hold hinv) (hok _ hact) hr

/-- The invariance rule under an assumption on the trace. -/
theorem invariant_of_trace {H : List ε → Prop} {P : List ε → S → List T → Prop}
    (hpre : ∀ tr ev, H (tr ++ ev) → H tr)
    (hperm : ∀ tr s ts us, ts.Perm us → P tr s ts → P tr s us)
    (hinit : P [] s₀ ts₀)
    (hcall : ∀ tr s ts i r, H (tr ++ r.events) → P tr s ts → callOk i → call s i = some r →
      P (tr ++ r.events) r.shared (r.threads ++ ts))
    (hsect : ∀ tr s t ts c r, H (tr ++ r.events) → P tr s (t :: ts) → sectOk s ts t c →
      sect s t c = some r → P (tr ++ r.events) r.shared (r.threads ++ ts))
    {tr : List ε} {p : Config S T}
    (h : Exec.Runs (step call sect) (Allowed callOk sectOk) ⟨s₀, ts₀⟩ tr p) (hH : H tr) :
    P tr p.shared p.threads :=
  invariant_relative (Q := fun _ _ _ => True) hpre (fun _ _ _ _ => trivial)
    (fun _ _ _ _ _ _ => trivial) hperm hinit (fun tr s ts i r hH _ => hcall tr s ts i r hH)
    (fun tr s t ts c r hH _ => hsect tr s t ts c r hH) h hH

/-- The invariance rule. -/
theorem invariant {P : List ε → S → List T → Prop}
    (hperm : ∀ tr s ts us, ts.Perm us → P tr s ts → P tr s us)
    (hinit : P [] s₀ ts₀)
    (hcall : ∀ tr s ts i r, P tr s ts → callOk i → call s i = some r →
      P (tr ++ r.events) r.shared (r.threads ++ ts))
    (hsect : ∀ tr s t ts c r, P tr s (t :: ts) → sectOk s ts t c → sect s t c = some r →
      P (tr ++ r.events) r.shared (r.threads ++ ts))
    {tr : List ε} {p : Config S T}
    (h : Exec.Runs (step call sect) (Allowed callOk sectOk) ⟨s₀, ts₀⟩ tr p) :
    P tr p.shared p.threads :=
  invariant_of_trace (H := fun _ => True) (fun _ _ _ => trivial) hperm hinit
    (fun tr s ts i r _ => hcall tr s ts i r) (fun tr s t ts c r _ => hsect tr s t ts c r) h trivial

/-! ## Quantities summed over the threads -/

/-- The sum of `f` over the threads. -/
def total [AddCommMonoid M] (f : T → M) (ts : List T) : M := (ts.map f).sum

@[simp] theorem total_nil [AddCommMonoid M] (f : T → M) : total f [] = 0 := rfl

@[simp] theorem total_cons [AddCommMonoid M] (f : T → M) (t : T) (ts : List T) :
    total f (t :: ts) = f t + total f ts := by
  simp [total]

@[simp] theorem total_append [AddCommMonoid M] (f : T → M) (ts us : List T) :
    total f (ts ++ us) = total f ts + total f us := by
  simp [total]

theorem total_of_perm [AddCommMonoid M] (f : T → M) {ts us : List T} (h : ts.Perm us) :
    total f ts = total f us :=
  (h.map f).sum_eq

theorem total_eq_zero [AddCommMonoid M] {f : T → M} {ts : List T} (h : ∀ t ∈ ts, f t = 0) :
    total f ts = 0 := by
  induction ts with
  | nil => rfl
  | cons t ts ih =>
    rw [total_cons, h t List.mem_cons_self, ih fun u hu => h u (List.mem_cons_of_mem _ hu), zero_add]

theorem le_total_of_mem {f : T → ℕ} {t : T} {ts : List T} (h : t ∈ ts) : f t ≤ total f ts :=
  List.le_sum_of_mem (List.mem_map_of_mem h)

/-! ## A thread that runs alone -/

/-- Thread `t`, started in `s`, comes to its end in `s'` with the events `ev`
while no other thread takes a step. The environment's choices for its `n`-th
section are `choose n`, in the state and at the point reached. -/
inductive Alone (sect : S → T → χ → Option (Outcome S T ε)) (choose : ℕ → S → T → χ) :
    ℕ → S → T → List ε → S → Prop where
  | exit {n : ℕ} {s s' : S} {t : T} {ev : List ε} :
      sect s t (choose n s t) = some ⟨s', [], ev⟩ → Alone sect choose n s t ev s'
  | next {n : ℕ} {s s₁ s' : S} {t t₁ : T} {ev tr : List ε} :
      sect s t (choose n s t) = some ⟨s₁, [t₁], ev⟩ → Alone sect choose (n + 1) s₁ t₁ tr s' →
      Alone sect choose n s t (ev ++ tr) s'

variable {choose : ℕ → S → T → χ} {n : ℕ} {s s₁ s' : S} {t t₁ : T} {tr : List ε}

theorem alone_of_exit (h : sect s t (choose n s t) = some ⟨s₁, [], ev⟩) :
    Alone sect choose n s t tr s' ↔ tr = ev ∧ s' = s₁ := by
  constructor
  · intro halone
    cases halone with
    | exit hexit =>
      rw [h] at hexit
      cases hexit
      exact ⟨rfl, rfl⟩
    | next hnext _ =>
      rw [h] at hnext
      cases hnext
  · rintro ⟨rfl, rfl⟩
    exact .exit h

theorem alone_of_next (h : sect s t (choose n s t) = some ⟨s₁, [t₁], ev⟩) :
    Alone sect choose n s t tr s' ↔
      ∃ tr', tr = ev ++ tr' ∧ Alone sect choose (n + 1) s₁ t₁ tr' s' := by
  constructor
  · intro halone
    cases halone with
    | exit hexit =>
      rw [h] at hexit
      cases hexit
    | next hnext hrest =>
      rw [h] at hnext
      cases hnext
      exact ⟨_, rfl, hrest⟩
  · rintro ⟨tr', rfl, hrest⟩
    exact .next h hrest

/-- A section without events. -/
theorem alone_of_silent (h : sect s t (choose n s t) = some ⟨s₁, [t₁], []⟩) :
    Alone sect choose n s t tr s' ↔ Alone sect choose (n + 1) s₁ t₁ tr s' := by
  rw [alone_of_next h]
  simp

theorem not_alone (h : sect s t (choose n s t) = none) : ¬ Alone sect choose n s t tr s' := by
  intro halone
  cases halone with
  | exit hexit =>
    rw [h] at hexit
    cases hexit
  | next hnext _ =>
    rw [h] at hnext
    cases hnext

/-- A thread that cannot leave a set of states and points does not come to an end. -/
theorem not_alone_of_trapped {X : S → T → Prop}
    (hX : ∀ n s t, X s t → ∃ s₁ t₁ ev, sect s t (choose n s t) = some ⟨s₁, [t₁], ev⟩ ∧ X s₁ t₁)
    (h : X s t) : ¬ Alone sect choose n s t tr s' := by
  intro halone
  induction halone with
  | exit hexit =>
    rcases hX _ _ _ h with ⟨s₁, t₁, ev, hnext, -⟩
    rw [hexit] at hnext
    cases hnext
  | next hnext' _ ih =>
    rcases hX _ _ _ h with ⟨s₁, t₁, ev, hnext, hX₁⟩
    rw [hnext'] at hnext
    cases hnext
    exact ih hX₁

/-- Choices that do not depend on the number of the section. -/
theorem alone_reindex {c : S → T → χ} (m : ℕ) :
    Alone sect (fun _ => c) n s t tr s' ↔ Alone sect (fun _ => c) m s t tr s' := by
  have hshift : ∀ {n : ℕ} (m : ℕ), Alone sect (fun _ => c) n s t tr s' →
      Alone sect (fun _ => c) m s t tr s' := by
    intro n m h
    induction h generalizing m with
    | exit hexit => exact .exit hexit
    | next hnext _ ih => exact .next hnext (ih (m + 1))
  exact ⟨hshift m, hshift n⟩

theorem runs_alone {c : χ} {r : Outcome S T ε} (hok : sectOk s [] t c) (hr : sect s t c = some r) :
    Exec.Runs (step call sect) (Allowed callOk sectOk) ⟨s, [t]⟩ r.events ⟨r.shared, r.threads⟩ := by
  have hgood : Allowed callOk sectOk ⟨s, [t]⟩ (.run 0 c) := by
    intro u hu
    cases hu
    exact hok
  have hstep : step call sect ⟨s, [t]⟩ (.run 0 c) = some (⟨r.shared, r.threads⟩, r.events) := by
    simp [step, hr]
  exact Exec.Runs.start.next hgood hstep

/-- What a thread does alone is a run of the pool. -/
theorem Alone.runs (h : Alone sect choose n s t tr s')
    (hok : ∀ n s t, sectOk s [] t (choose n s t)) :
    Exec.Runs (step call sect) (Allowed callOk sectOk) ⟨s, [t]⟩ tr ⟨s', []⟩ := by
  induction h with
  | exit hexit => exact runs_alone (hok _ _ _) hexit
  | next hnext _ ih => exact (runs_alone (hok _ _ _) hnext).trans ih

end Pool
