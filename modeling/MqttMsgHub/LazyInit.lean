import MqttMsgHub.Ledger
import MqttMsgHub.Priority

/-! # The first calls

When `scandir` fails, `load_offline_messages` returns without a list, and the
first calls of `enqueue_offline_message` make one. `init_list` locks the mutex
only after it has tested `g_list`: a call that was between the two when another
one assigned its list, and pushed its entry, assigns a second list and the entry is
lost. A list that is still empty can be replaced without harm.

* `enqueue_section_ledger` — one section of a call;
* `first_calls_keep_entries` — while no call replaces a list with an entry in it,
  every call that has returned SUCCESS has its entry;
* `replaced_entries_lost` — and only then.
-/

namespace MqttMsgHub

open Pool (Outcome)

variable {J : Text → Option Json} {s s₀ : Hub} {k : EnqueueCall} {env : Env}

/-! ## Observations -/

/-- Only `enqueue_offline_message` is called. -/
def onlyEnqueue : Call → Prop
  | .enqueueOfflineMessage _ => True
  | _ => False

/-- A new list is assigned only while there is no entry to lose. -/
def assignsEmpty (s : Hub) (_ : List Thread) (t : Thread) (_ : Env) : Prop :=
  ∀ k, t = .enqueue k .initAssign → s.queue = []

instance : DecidablePred onlyEnqueue
  | .enqueueOfflineMessage _ => isTrue trivial
  | .httpRequest _ _ _ _ | .asynSendOfflineMessages | .onConnect | .onConnectionLost => isFalse id

instance (s : Hub) (ts : List Thread) (t : Thread) (env : Env) : Decidable (assignsEmpty s ts t env) :=
  decidable_of_iff ((∃ k ∈ t.calls, t = .enqueue k .initAssign) → s.queue = []) (by
    constructor
    · rintro h k rfl
      exact h ⟨k, List.mem_singleton_self k, rfl⟩
    · rintro h ⟨k, -, heq⟩
      exact h k heq)

/-- The call that returns in an event. -/
def Event.finished : Event → List EnqueueCall
  | .returned k _ => [k]
  | _ => []

/-- The call that returns SUCCESS in an event. -/
def Event.succeeded : Event → List EnqueueCall
  | .returned k none => [k]
  | _ => []

def finishedCalls (tr : List Event) : List EnqueueCall := tr.flatMap Event.finished

def succeededCalls (tr : List Event) : List EnqueueCall := tr.flatMap Event.succeeded

/-- The queue has one entry for each call of the trace. -/
def OneEntryEach (tr : List Event) (s : Hub) : Prop :=
  ((enqueueCalls tr).map EnqueueCall.header).Subperm s.queue

@[simp] theorem finishedCalls_append (tr ev : List Event) :
    finishedCalls (tr ++ ev) = finishedCalls tr ++ finishedCalls ev :=
  List.flatMap_append

@[simp] theorem succeededCalls_append (tr ev : List Event) :
    succeededCalls (tr ++ ev) = succeededCalls tr ++ succeededCalls ev :=
  List.flatMap_append

theorem succeededCalls_sublist (tr : List Event) :
    (succeededCalls tr).Sublist (finishedCalls tr) := by
  induction tr with
  | nil => exact List.Sublist.refl _
  | cons x tr ih =>
    have hx : x.succeeded.Sublist x.finished := by
      cases x with
      | returned k msg =>
        cases msg with
        | none => exact List.Sublist.refl _
        | some msg => exact List.nil_sublist _
      | _ => exact List.Sublist.refl _
    exact hx.append ih

/-- When all calls return SUCCESS, there is no difference. -/
theorem succeededCalls_eq {tr : List Event} (hok : ∀ k msg, .returned k (some msg) ∉ tr) :
    succeededCalls tr = finishedCalls tr := by
  induction tr with
  | nil => rfl
  | cons x tr ih =>
    have hrest := ih fun k msg hmem => hok k msg (List.mem_cons_of_mem x hmem)
    have hx : x.succeeded = x.finished := by
      cases x with
      | returned k msg =>
        cases msg with
        | none => rfl
        | some msg => exact absurd List.mem_cons_self (hok k msg)
      | _ => rfl
    show x.succeeded ++ succeededCalls tr = x.finished ++ finishedCalls tr
    rw [hx, hrest]

/-! ## One section -/

/-- A section of a call, with room in the queue: the call goes on or returns, and an
entry is added if it returns SUCCESS. -/
theorem enqueue_section_ledger {pc : EnqueuePc} {r : Outcome Hub Thread Event} {ts : List Thread}
    (hroom : (s.queue.length : ℤ) < s.capacity.1) (hassign : assignsEmpty s ts (.enqueue k pc) env)
    (hr : Section J s env (.enqueue k pc) r) :
    (∀ u ∈ r.threads, ∃ k pc, u = .enqueue k pc) ∧
      r.threads.flatMap Thread.calls ++ finishedCalls r.events = [k] ∧
      r.shared.queue = s.queue ++ (succeededCalls r.events).map EnqueueCall.header ∧
      enqueueCalls r.events = [] := by
  cases hr with
  | initList =>
    refine ⟨by simp, rfl, ?_, rfl⟩
    rw [hassign k rfl]
    rfl
  | push hl hmade =>
    rename_i q q' d' removed
    have hq : s.queue = q := Hub.queue_of_list hl
    rw [hq] at hroom
    rw [makeRoom_of_room _ _ (not_le.mpr hroom)] at hmade
    simp only [Option.some.injEq, Prod.mk.injEq] at hmade
    rcases hmade with ⟨rfl, rfl, rfl⟩
    refine ⟨by simp, rfl, ?_, rfl⟩
    rw [hq]
    rfl
  | _ => exact ⟨by simp, rfl, (List.append_nil _).symm, rfl⟩

/-! ## Runs -/

/-- The calls that are neither in progress nor returned are none, and the entries of
those that have returned SUCCESS are queued. -/
structure NoneLost (capacity : CInt) (tr : List Event) (s : Hub) (ts : List Thread) : Prop where
  capacity : s.capacity = capacity
  threads : ∀ t ∈ ts, ∃ k pc, t = .enqueue k pc
  calls : (enqueueCalls tr).Perm (ts.flatMap Thread.calls ++ finishedCalls tr)
  queue : s.queue.Perm ((succeededCalls tr).map EnqueueCall.header)

section Runs

variable {capacity : CInt} {tr : List Event} {ts : List Thread} {t : Thread}
  {r : Outcome Hub Thread Event}

theorem NoneLost.of_perm {us : List Thread} (hperm : ts.Perm us) (h : NoneLost capacity tr s ts) :
    NoneLost capacity tr s us where
  capacity := h.capacity
  threads := fun t ht => h.threads t (hperm.mem_iff.mpr ht)
  calls := h.calls.trans ((hperm.flatMap_right _).append_right _)
  queue := h.queue

/-- There are no more entries than calls. -/
theorem NoneLost.length_le (h : NoneLost capacity tr s ts) :
    s.queue.length ≤ (enqueueCalls tr).length := by
  have hcalls := h.calls.length_eq
  have hsub := (succeededCalls_sublist tr).length_le
  rw [h.queue.length_eq, List.length_map, hcalls, List.length_append]
  omega

theorem noneLost_called {i : Call} (h : NoneLost capacity tr s ts) (hi : onlyEnqueue i)
    (hr : Called J s i r) : NoneLost capacity (tr ++ r.events) r.shared (r.threads ++ ts) := by
  cases hr with
  | enqueue =>
    rename_i k
    constructor
    · exact h.capacity
    · exact List.forall_mem_cons.mpr ⟨⟨k, .testList, rfl⟩, h.threads⟩
    · show (enqueueCalls (tr ++ [.enqueueCall k])).Perm
        (k :: (ts.flatMap Thread.calls ++ finishedCalls (tr ++ [.enqueueCall k])))
      rw [enqueueCalls_append, finishedCalls_append]
      show (enqueueCalls tr ++ [k]).Perm (k :: (ts.flatMap Thread.calls ++ (finishedCalls tr ++ [])))
      rw [List.append_nil]
      exact List.perm_append_comm.trans (h.calls.cons k)
    · rw [succeededCalls_append]
      show s.queue.Perm ((succeededCalls tr ++ []).map EnqueueCall.header)
      rw [List.append_nil]
      exact h.queue
  | _ => cases hi

theorem noneLost_section (h : NoneLost capacity tr s (t :: ts))
    (hcap : ((enqueueCalls tr).length : ℤ) < capacity.1) (hassign : assignsEmpty s ts t env)
    (hr : Section J s env t r) :
    NoneLost capacity (tr ++ r.events) r.shared (r.threads ++ ts) := by
  rcases h.threads t List.mem_cons_self with ⟨k, pc, rfl⟩
  have hroom : (s.queue.length : ℤ) < s.capacity.1 := by
    have hlen := h.length_le
    rw [h.capacity]
    omega
  rcases enqueue_section_ledger hroom hassign hr with ⟨hthreads, hcall, hqueue, hnew⟩
  constructor
  · rw [capacity_eq_section hr]
    exact h.capacity
  · exact List.forall_mem_append.mpr ⟨hthreads, (List.forall_mem_cons.mp h.threads).2⟩
  · -- the call is in the threads of the section or in its events
    rw [enqueueCalls_append, hnew, List.append_nil, finishedCalls_append, List.flatMap_append]
    have hbefore : (enqueueCalls tr).Perm ([k] ++ (ts.flatMap Thread.calls ++ finishedCalls tr)) :=
      h.calls
    rw [← hcall] at hbefore
    apply hbefore.trans
    rw [List.append_assoc, List.append_assoc, ← List.append_assoc _ (finishedCalls tr)]
    exact (List.perm_append_comm).append_left _
  · rw [hqueue, succeededCalls_append, List.map_append]
    exact h.queue.append_right _

theorem noneLost_inv {p : Pool.Config Hub Thread} (hnone : s₀.list = none)
    (hrun : HubRuns J onlyEnqueue assignsEmpty s₀ tr p)
    (hcap : ((enqueueCalls tr).length : ℤ) < s₀.capacity.1) :
    NoneLost s₀.capacity tr p.shared p.threads := by
  have hstart : NoneLost s₀.capacity [] s₀ [] := by
    refine ⟨rfl, by simp, List.Perm.refl _, ?_⟩
    rw [Hub.queue, hnone]
    exact List.Perm.refl _
  have hearlier : ∀ tr ev : List Event, ((enqueueCalls (tr ++ ev)).length : ℤ) < s₀.capacity.1 →
      ((enqueueCalls tr).length : ℤ) < s₀.capacity.1 := by
    intro tr ev hlt
    rw [enqueueCalls_append, List.length_append] at hlt
    omega
  apply Pool.invariant_of_trace (H := fun tr => ((enqueueCalls tr).length : ℤ) < s₀.capacity.1)
    (P := NoneLost s₀.capacity) hearlier ?_ hstart ?_ ?_ hrun hcap
  · intro tr s ts us hperm h
    exact h.of_perm hperm
  · intro tr s ts i r _ h hi hr
    exact noneLost_called h hi (called_of_call hr)
  · intro tr s t ts env r hlt h hassign hr
    exact noneLost_section h (hearlier _ _ hlt) hassign (section_of_sect hr)

/-- From a hub without a list, with any number of calls below the capacity, in any
order of their sections: when all calls have returned SUCCESS, there is one entry
for each. No call may have replaced a list with entries in it. -/
theorem first_calls_keep_entries {p : Pool.Config Hub Thread} (hnone : s₀.list = none)
    (hrun : HubRuns J onlyEnqueue assignsEmpty s₀ tr p)
    (hcap : ((enqueueCalls tr).length : ℤ) < s₀.capacity.1) (hend : p.threads = [])
    (hok : ∀ k msg, .returned k (some msg) ∉ tr) : OneEntryEach tr p.shared := by
  have h := noneLost_inv hnone hrun hcap
  have hcalls : (enqueueCalls tr).Perm (finishedCalls tr) := by
    have hall := h.calls
    rwa [hend, List.flatMap_nil, List.nil_append] at hall
  have hqueue := h.queue
  rw [succeededCalls_eq hok] at hqueue
  exact ((hcalls.map EnqueueCall.header).trans hqueue.symm).subperm

end Runs

/-- A hub with room for three messages, after a `scandir` that has failed. -/
def unlisted : Hub where
  capacity := 3
  list := none
  dir := ∅
  connected := false
  isAsyncSending := false

/-- Two calls come to the assignment of a list, one after the other. -/
def bothAssign : List (Pool.Label Call Env) :=
  .call (.enqueueOfflineMessage ⟨pingText, 8, 1⟩) :: .call (.enqueueOfflineMessage ⟨pingText, 8, 2⟩) ::
    List.replicate 2 (.run 0 quietEnv) ++ List.replicate 2 (.run 1 quietEnv)

/-- The second call runs to its end between the first one's assignment and its push. -/
def emptyReplaced : List (Pool.Label Call Env) :=
  bothAssign ++ .run 0 quietEnv :: List.replicate 4 (.run 1 quietEnv) ++
    List.replicate 3 (.run 0 quietEnv)

theorem emptyReplaced_executes : (Exec.run (hubStep pingTokener)
    (Pool.Allowed onlyEnqueue assignsEmpty) ⟨unlisted, []⟩ emptyReplaced).isSome := by decide

theorem first_calls_keep_entries_both :
    ∃ tr p, HubRuns pingTokener onlyEnqueue assignsEmpty unlisted tr p ∧
      enqueueCalls tr = [⟨pingText, 8, 1⟩, ⟨pingText, 8, 2⟩] ∧ OneEntryEach tr p.shared := by
  have hrun := Exec.runs_of_isSome emptyReplaced_executes
  have htrace : ((Exec.run (hubStep pingTokener) (Pool.Allowed onlyEnqueue assignsEmpty)
      ⟨unlisted, []⟩ emptyReplaced).get emptyReplaced_executes).2 =
        [.enqueueCall ⟨pingText, 8, 1⟩, .enqueueCall ⟨pingText, 8, 2⟩, .pushed ⟨8, 2⟩,
          .returned ⟨pingText, 8, 2⟩ none, .pushed ⟨8, 1⟩, .returned ⟨pingText, 8, 1⟩ none] := rfl
  rw [htrace] at hrun
  exact ⟨_, _, hrun, rfl, first_calls_keep_entries rfl hrun (by decide) (by decide) (by simp)⟩

/-- The second call assigns its list after the first one has returned. -/
def entryReplaced : List (Pool.Label Call Env) :=
  bothAssign ++ List.replicate 8 (.run 0 quietEnv)

theorem entryReplaced_executes : (Exec.run (hubStep pingTokener)
    (Pool.Allowed onlyEnqueue anySect) ⟨unlisted, []⟩ entryReplaced).isSome := by decide

/-- The entry of the first call is in the list that was replaced. -/
theorem first_entry_lost :
    ¬ ∀ (s₀ : Hub) (tr : List Event) (p : Pool.Config Hub Thread), s₀.list = none →
      HubRuns pingTokener onlyEnqueue anySect s₀ tr p →
      ((enqueueCalls tr).length : ℤ) < s₀.capacity.1 → p.threads = [] →
      (∀ k msg, .returned k (some msg) ∉ tr) → OneEntryEach tr p.shared := by
  intro hclaim
  have hrun := Exec.runs_of_isSome entryReplaced_executes
  have htrace : ((Exec.run (hubStep pingTokener) (Pool.Allowed onlyEnqueue anySect)
      ⟨unlisted, []⟩ entryReplaced).get entryReplaced_executes).2 =
        [.enqueueCall ⟨pingText, 8, 1⟩, .enqueueCall ⟨pingText, 8, 2⟩, .pushed ⟨8, 1⟩,
          .returned ⟨pingText, 8, 1⟩ none, .pushed ⟨8, 2⟩, .returned ⟨pingText, 8, 2⟩ none] := rfl
  rw [htrace] at hrun
  have heach := hclaim _ _ _ rfl hrun (by decide) (by decide) (by simp)
  exact absurd heach.length_le (by decide)

/-! ## A list with entries is replaced

What is lost does not come back: the queue and the calls in progress stay behind
the calls that were made. -/

section Replaced

variable {tr : List Event} {ts : List Thread} {t : Thread} {r : Outcome Hub Thread Event}

/-- At least `n` calls have failed or have lost their entry. -/
structure Behind (n : ℕ) (tr : List Event) (s : Hub) (ts : List Thread) : Prop where
  threads : ∀ t ∈ ts, ∃ k pc, t = .enqueue k pc
  bound : s.queue.length + (ts.flatMap Thread.calls).length + n ≤ (enqueueCalls tr).length

theorem Behind.of_perm {n : ℕ} {us : List Thread} (hperm : ts.Perm us) (h : Behind n tr s ts) :
    Behind n tr s us where
  threads := fun t ht => h.threads t (hperm.mem_iff.mpr ht)
  bound := by
    rw [← (hperm.flatMap_right Thread.calls).length_eq]
    exact h.bound

theorem behind_called {n : ℕ} {i : Call} (h : Behind n tr s ts) (hi : onlyEnqueue i)
    (hr : Called J s i r) : Behind n (tr ++ r.events) r.shared (r.threads ++ ts) := by
  cases hr with
  | enqueue =>
    rename_i k
    refine ⟨List.forall_mem_cons.mpr ⟨⟨k, .testList, rfl⟩, h.threads⟩, ?_⟩
    have hbound := h.bound
    rw [enqueueCalls_append, List.length_append]
    show s.queue.length + (ts.flatMap Thread.calls).length.succ + n ≤ (enqueueCalls tr).length + 1
    omega
  | _ => cases hi

/-- A section adds at most the entry of its call, which has returned then. -/
theorem enqueue_section_bound {pc : EnqueuePc} (hr : Section J s env (.enqueue k pc) r) :
    (∀ u ∈ r.threads, ∃ k pc, u = .enqueue k pc) ∧
      r.shared.queue.length + (r.threads.flatMap Thread.calls).length ≤ s.queue.length + 1 := by
  cases hr with
  | initList => exact ⟨by simp, Nat.succ_le_succ (Nat.zero_le _)⟩
  | push hl hmade =>
    refine ⟨by simp, ?_⟩
    have hsub := (makeRoom_spec hmade).sublist.length_le
    rw [Hub.queue, Hub.queue, hl]
    simpa using hsub
  | _ => exact ⟨by simp, by simp [Hub.queue, Thread.calls]⟩

theorem behind_section {n : ℕ} (h : Behind n tr s (t :: ts)) (hr : Section J s env t r) :
    Behind n (tr ++ r.events) r.shared (r.threads ++ ts) := by
  rcases h.threads t List.mem_cons_self with ⟨k, pc, rfl⟩
  rcases enqueue_section_bound hr with ⟨hthreads, hsect⟩
  refine ⟨List.forall_mem_append.mpr ⟨hthreads, (List.forall_mem_cons.mp h.threads).2⟩, ?_⟩
  have hbound := h.bound
  have hcons : ((Thread.enqueue k pc :: ts).flatMap Thread.calls).length =
      1 + (ts.flatMap Thread.calls).length := by
    rw [List.flatMap_cons, List.length_append]
    rfl
  rw [hcons] at hbound
  rw [enqueueCalls_append, List.length_append, List.flatMap_append, List.length_append]
  omega

theorem behind_runs {n : ℕ} {tr' : List Event} {p p' : Pool.Config Hub Thread}
    (h : Behind n tr p.shared p.threads)
    (hrun : Exec.Runs (hubStep J) (Pool.Allowed onlyEnqueue anySect) p tr' p') :
    Behind n (tr ++ tr') p'.shared p'.threads := by
  apply Pool.invariant (P := fun tr' s ts => Behind n (tr ++ tr') s ts) ?_ ?_ ?_ ?_ hrun
  · intro _ _ _ _ hperm hb
    exact hb.of_perm hperm
  · rw [List.append_nil]
    exact h
  · intro _ _ _ _ _ hb hi hr
    rw [← List.append_assoc]
    exact behind_called hb hi (called_of_call hr)
  · intro _ _ _ _ _ _ hb _ hr
    rw [← List.append_assoc]
    exact behind_section hb (section_of_sect hr)

/-- A call that replaces a list with entries in it has lost them, whatever happens
afterwards. -/
theorem replaced_entries_lost {tr' ev : List Event} {n : ℕ} {p p₁ p' : Pool.Config Hub Thread}
    (hnone : s₀.list = none) (hrun : HubRuns J onlyEnqueue anySect s₀ tr p)
    (hthread : p.threads[n]? = some (.enqueue k .initAssign)) (hqueue : p.shared.queue ≠ [])
    (hstep : hubStep J p (.run n env) = some (p₁, ev))
    (hrest : Exec.Runs (hubStep J) (Pool.Allowed onlyEnqueue anySect) p₁ tr' p')
    (hend : p'.threads = []) : ¬ OneEntryEach (tr ++ ev ++ tr') p'.shared := by
  have hstart : Behind 0 [] s₀ [] := by
    refine ⟨by simp, ?_⟩
    rw [Hub.queue, hnone]
    rfl
  have hbefore : Behind 0 tr p.shared p.threads := behind_runs hstart hrun
  have hafter : Behind 1 (tr ++ ev) p₁.shared p₁.threads := by
    rcases Pool.step_cases hstep with ⟨old, r, hfires, rfl, hshared, hold, hnew⟩
    cases hfires with
    | run hact hr =>
      rw [Pool.acting, hthread, Option.map_some, Option.some.injEq, Prod.mk.injEq] at hact
      rcases hact with ⟨rfl, -⟩
      cases hr
      rw [hshared]
      apply Behind.of_perm hnew.symm
      have hall := hbefore.of_perm hold
      have hpos := List.length_pos_iff.mpr hqueue
      have hothers := (List.forall_mem_cons.mp hall.threads).2
      refine ⟨List.forall_mem_cons.mpr ⟨⟨k, .admission, rfl⟩, hothers⟩, ?_⟩
      have hbound := hall.bound
      rw [enqueueCalls_append, List.length_append]
      simp only [List.singleton_append, List.flatMap_cons, Hub.queue, Hub.goto_shared,
        Hub.goto_threads, Hub.goto_events, Option.getD_some, List.length_nil, enqueueCalls_nil,
        Thread.calls] at hbound hpos ⊢
      omega
  intro heach
  have hbound := (behind_runs hafter hrest).bound
  have hlen := heach.length_le
  rw [hend] at hbound
  rw [List.length_map] at hlen
  omega

end Replaced

end MqttMsgHub
