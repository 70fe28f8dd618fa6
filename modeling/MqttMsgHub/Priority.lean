import MqttMsgHub.Drain

/-! # Priorities

What the hub guarantees about the entries it drops for lack of room. The queue
never grows beyond its capacity, so a push evicts at most one entry, and that
entry is of lowest priority among the queued ones.

Two things are outside the guarantee. An entry that the sender puts back into
a full queue is thrown away whatever its priority: the source says so at the
place ("Put back ... if not full, otherwise discard"). And the admission test
is made in an earlier section than the push; a push evicts nothing better than
the new entry as long as the test would still succeed.

* `queue_within_capacity` — the queue stays within its capacity, and a
  successful enqueue brings a longer one back to it;
* `dropped_entries` — what is left in the queue when an entry is dropped;
* `lower_entry_survives` — a run for each of the two exceptions.
-/

namespace MqttMsgHub

open Pool (Outcome)

variable {J : Text → Option Json} {s s₀ : Hub} {env : Env} {t : Thread} {i : Call}
  {r : Outcome Hub Thread Event} {tr : List Event} {p p' : Pool.Config Hub Thread}

/-! ## Capacity -/

/-- The queue is within the capacity that the hub was started with. -/
structure WithinCapacity (capacity : CInt) (s : Hub) : Prop where
  capacity_eq : s.capacity = capacity
  length_le : (s.queue.length : ℤ) ≤ capacity.1

theorem capacity_eq_section (hr : Section J s env t r) : r.shared.capacity = s.capacity := by
  cases hr <;> rfl

theorem capacity_eq_called (hr : Called J s i r) : r.shared.capacity = s.capacity := by
  cases hr <;> rfl

theorem capacity_section {capacity : CInt} (hc : 1 ≤ capacity.1) (h : WithinCapacity capacity s)
    (hr : Section J s env t r) : WithinCapacity capacity r.shared := by
  rcases h with ⟨rfl, hlen⟩
  refine ⟨capacity_eq_section hr, ?_⟩
  cases hr with
  | initList =>
    simp only [Hub.queue, Hub.goto_shared, Option.getD_some, List.length_nil]
    omega
  | push hl hroom =>
    have hlt := (makeRoom_spec hroom).room
    simp only [Hub.queue, Hub.exit_shared, Option.getD_some, List.length_append,
      List.length_singleton]
    omega
  | popSome hl =>
    simp only [Hub.queue, hl, Option.getD_some, List.length_cons] at hlen
    simp only [Hub.queue, Hub.goto_shared, Option.getD_some]
    omega
  | putBack hl hroom =>
    simp only [Hub.queue, Hub.goto_shared, Option.getD_some, List.length_cons]
    omega
  | _ => exact hlen

theorem capacity_called {capacity : CInt} (h : WithinCapacity capacity s) (hr : Called J s i r) :
    WithinCapacity capacity r.shared := by
  rcases h with ⟨rfl, hlen⟩
  exact ⟨capacity_eq_called hr, by cases hr <;> exact hlen⟩

section Runs

variable {callOk : Call → Prop} {sectOk : Hub → List Thread → Thread → Env → Prop}
  {p₀ : Pool.Config Hub Thread}

theorem capacity_inv (hc : 1 ≤ p₀.shared.capacity.1)
    (hq : (p₀.shared.queue.length : ℤ) ≤ p₀.shared.capacity.1)
    (hrun : Exec.Runs (hubStep J) (Pool.Allowed callOk sectOk) p₀ tr p) :
    WithinCapacity p₀.shared.capacity p.shared := by
  refine Pool.invariant (P := fun _ s _ => WithinCapacity p₀.shared.capacity s)
    (fun _ _ _ _ _ h => h) ⟨rfl, hq⟩ ?_ ?_ hrun
  · intro tr s ts i r hinv _ hr
    exact capacity_called hinv (called_of_call hr)
  · intro tr s t ts env r hinv _ hr
    exact capacity_section hc hinv (section_of_sect hr)

theorem capacity_const (hrun : Exec.Runs (hubStep J) (Pool.Allowed callOk sectOk) p₀ tr p) :
    p.shared.capacity = p₀.shared.capacity := by
  refine Pool.invariant (P := fun _ (s : Hub) _ => s.capacity = p₀.shared.capacity)
    (fun _ _ _ _ _ h => h) rfl ?_ ?_ hrun
  · intro tr s ts i r hinv _ hr
    rw [capacity_eq_called (called_of_call hr), hinv]
  · intro tr s t ts env r hinv _ hr
    rw [capacity_eq_section (section_of_sect hr), hinv]

end Runs

/-- The section in which an enqueue succeeds leaves the queue within the
capacity, however long it was before. -/
theorem length_of_returned {k : EnqueueCall} (hr : Section J s env t r)
    (hk : .returned k none ∈ r.events) : (r.shared.queue.length : ℤ) ≤ s.capacity.1 := by
  cases hr with
  | push hl hroom =>
    have hlt := (makeRoom_spec hroom).room
    simp only [Hub.queue, Hub.exit_shared, Option.getD_some, List.length_append,
      List.length_singleton]
    omega
  | _ => simp at hk

/-- From any state of the pool: every successful enqueue leaves at most as many
entries as the capacity allows, and a queue that is within the capacity stays
within it. -/
theorem queue_within_capacity {p₀ : Pool.Config Hub Thread} (hc : 1 ≤ p₀.shared.capacity.1)
    (hrun : Exec.Runs (hubStep J) (Pool.Allowed anyCall anySect) p₀ tr p) :
    (∀ (a : Pool.Label Call Env) (p' : Pool.Config Hub Thread) (ev : List Event) (k : EnqueueCall),
      hubStep J p a = some (p', ev) → .returned k none ∈ ev →
      (p'.shared.queue.length : ℤ) ≤ p₀.shared.capacity.1) ∧
    ((p₀.shared.queue.length : ℤ) ≤ p₀.shared.capacity.1 →
      (p.shared.queue.length : ℤ) ≤ p₀.shared.capacity.1) := by
  constructor
  · intro a p' ev k hstep hk
    obtain ⟨old, r, hfires, rfl, hshared, -, -⟩ := Pool.step_cases hstep
    rw [hshared, ← capacity_const hrun]
    cases hfires with
    | call hr =>
      -- a call only announces itself
      cases called_of_call hr <;> simp at hk
    | run _ hr => exact length_of_returned (section_of_sect hr) hk
  · intro hq
    exact (capacity_inv hc hq hrun).length_le

/-- A hub with room for one message, started with three cached ones. -/
def overfull : Hub := { roomForOne with list := some [⟨8, 1⟩, ⟨3, 2⟩, ⟨8, 3⟩] }

theorem overfull_executes : (Exec.run (hubStep pingTokener) (Pool.Allowed anyCall anySect)
    ⟨overfull, []⟩ (.call (.enqueueOfflineMessage ⟨pingText, 9, 4⟩) ::
      List.replicate 3 (.run 0 quietEnv))).isSome := by decide

theorem queue_within_capacity_overfull :
    ∃ tr p p' ev, Exec.Runs (hubStep pingTokener) (Pool.Allowed anyCall anySect) ⟨overfull, []⟩ tr p ∧
      hubStep pingTokener p (.run 0 quietEnv) = some (p', ev) ∧ p'.shared.queue = [⟨9, 4⟩] ∧
      (p'.shared.queue.length : ℤ) ≤ 1 := by
  have hrun := Exec.runs_of_isSome overfull_executes
  exact ⟨_, _, _, _, hrun, rfl, rfl,
    (queue_within_capacity (by decide) hrun).1 (.run 0 quietEnv) _ _ ⟨pingText, 9, 4⟩ rfl (by decide)⟩

/-! ## Dropped entries -/

/-- No entry of the queue has a lower priority than `e`. -/
def NoneLower (e : CacheFileHeader) (q : List CacheFileHeader) : Prop :=
  ∀ x ∈ q, ¬ x.cachePriority.1 < e.cachePriority.1

/-- The events in which an entry is dropped for lack of room. -/
def Event.Drops (e : CacheFileHeader) (x : Event) : Prop :=
  x = .rejected e ∨ x = .evicted e ∨ x = .thrownAway e

/-- What a step that drops entries leaves behind: nothing lower than a
rejected entry; nothing lower than an evicted one among the entries that were
queued, nor the pushed one if the admission test still lets it in; and for an
entry thrown away by the sender, the full queue as it was. -/
structure DropsFairly (s : Hub) (ev : List Event) (s' : Hub) : Prop where
  rejected : ∀ e, .rejected e ∈ ev → NoneLower e s'.queue
  evicted : ∀ e, .evicted e ∈ ev → ∃ q' k, .pushed k ∈ ev ∧ s'.queue = q' ++ [k] ∧
    NoneLower e q' ∧
    (canMessageEnterOffineQueue s.capacity s.queue k.cachePriority = true →
      ¬ k.cachePriority.1 < e.cachePriority.1)
  thrownAway : ∀ e, .thrownAway e ∈ ev →
    s'.queue = s.queue ∧ (s.queue.length : ℤ) = s.capacity.1

/-- A new entry that the admission test lets into a full queue is not below the
entry that has to go. -/
theorem not_lt_of_admitted {capacity k : CInt} {q : List CacheFileHeader} {e : CacheFileHeader}
    (hfull : capacity.1 ≤ q.length) (hmin : ∀ x ∈ q, e.cachePriority.1 ≤ x.cachePriority.1)
    (hcan : canMessageEnterOffineQueue capacity q k = true) : ¬ k.1 < e.cachePriority.1 := by
  rw [canMessageEnterOffineQueue, if_neg (not_lt.mpr hfull), List.any_eq_true] at hcan
  rcases hcan with ⟨x, hx, hle⟩
  exact not_lt.mpr (le_trans (hmin x hx) (of_decide_eq_true hle))

/-- An eviction from a queue within its capacity: the queue was full, and the
evicted entry was of lowest priority in it. -/
theorem evicted_lowest {q q' removed : List CacheFileHeader} {d d' : Directory} {capacity : CInt}
    {e : CacheFileHeader} (hlen : (q.length : ℤ) ≤ capacity.1)
    (hroom : makeRoom capacity q.length q d = some (q', d', removed)) (he : e ∈ removed) :
    capacity.1 ≤ q.length ∧ ∀ x ∈ q, e.cachePriority.1 ≤ x.cachePriority.1 := by
  have hmade := makeRoom_spec hroom
  constructor
  · by_contra hfree
    rw [makeRoom_of_room _ _ hfree] at hroom
    simp only [Option.some.injEq, Prod.mk.injEq] at hroom
    rw [← hroom.2.2] at he
    cases he
  · intro x hx
    rcases List.mem_append.mp (hmade.perm.subset hx) with hrem | hleft
    · -- at most one entry was removed, so it is `e` itself
      rcases List.length_eq_one_iff.mp (le_antisymm (makeRoom_removed_le_one hlen hroom)
        (List.length_pos_of_mem he)) with ⟨y, rfl⟩
      rw [List.mem_singleton.mp hrem, List.mem_singleton.mp he]
    · exact hmade.minimal e he x hleft

theorem dropsFairly_push {q q' removed : List CacheFileHeader} {d' : Directory} {k : EnqueueCall}
    {capacity : CInt} (h : WithinCapacity capacity s) (hl : s.list = some q)
    (hroom : makeRoom s.capacity q.length q s.dir = some (q', d', removed)) :
    DropsFairly s (evictions removed ++ [.pushed k.header, .returned k none])
      { s with list := some (q' ++ [k.header]), dir := d' } := by
  have hqueue : s.queue = q := Hub.queue_of_list hl
  have hlen : (q.length : ℤ) ≤ s.capacity.1 := by
    rw [← hqueue, h.capacity_eq]
    exact h.length_le
  have hnot : ∀ x, x ∈ evictions removed ++ [.pushed k.header, .returned k none] →
      (∃ e ∈ removed, x = .evicted e) ∨ x = .offlineDiscarded ∨ x = .pushed k.header ∨
        x = .returned k none := by
    intro x hx
    rcases List.mem_append.mp hx with hx | hx
    · rcases mem_evictions hx with hx | hx
      · exact .inl hx
      · exact .inr (.inl hx)
    · exact .inr (.inr (by simpa using hx))
  refine ⟨fun e he => ?_, fun e he => ?_, fun e he => ?_⟩
  · simpa using hnot _ he
  · have hrem : e ∈ removed := by simpa using hnot _ he
    obtain ⟨hfull, hmin⟩ := evicted_lowest hlen hroom hrem
    refine ⟨q', k.header, by simp, rfl, fun x hx => ?_, fun hcan => ?_⟩
    · exact not_lt.mpr ((makeRoom_spec hroom).minimal e hrem x hx)
    · rw [hqueue] at hcan
      exact not_lt_of_admitted hfull hmin hcan
  · simpa using hnot _ he

theorem dropsFairly_section {capacity : CInt} (h : WithinCapacity capacity s)
    (hr : Section J s env t r) : DropsFairly s r.events r.shared := by
  cases hr with
  | @rejected k hcan =>
    refine ⟨fun e he x hx => ?_, by simp, by simp⟩
    have heq : e = k.header := by simpa using he
    rw [heq]
    exact not_lt.mpr (le_of_lt ((lt_of_refused hcan).2 x hx))
  | push hl hroom => exact dropsFairly_push h hl hroom
  | thrownAway hl hfull =>
    refine ⟨by simp, by simp, fun e he => ⟨rfl, ?_⟩⟩
    have hle := h.length_le
    simp only [Hub.queue, hl, Option.getD_some, h.capacity_eq] at hle hfull ⊢
    omega
  | _ => exact ⟨by simp, by simp, by simp⟩

theorem dropsFairly_called (hr : Called J s i r) : DropsFairly s r.events r.shared := by
  cases hr <;> exact ⟨by simp, by simp, by simp⟩

/-- Every step of every run drops entries fairly. -/
theorem dropped_entries (hc : 1 ≤ s₀.capacity.1) (hq : (s₀.queue.length : ℤ) ≤ s₀.capacity.1)
    (hrun : HubRuns J anyCall anySect s₀ tr p) {a : Pool.Label Call Env} {ev : List Event}
    (hstep : hubStep J p a = some (p', ev)) : DropsFairly p.shared ev p'.shared := by
  have hcap := capacity_inv hc hq hrun
  obtain ⟨old, r, hfires, rfl, hshared, -, -⟩ := Pool.step_cases hstep
  rw [hshared]
  cases hfires with
  | call hr => exact dropsFairly_called (called_of_call hr)
  | run _ hr => exact dropsFairly_section hcap (section_of_sect hr)

/-! ## An entry that is overtaken while the sender holds it -/

theorem overtakingRun_executes : (Exec.run (hubStep pingTokener) (Pool.Allowed anyCall anySect)
    ⟨roomForOne, []⟩ overtakingRun).isSome := by decide

/-- The state in which the sender is about to put its entry back. -/
def overtaken : Pool.Config Hub Thread :=
  ((Exec.run (hubStep pingTokener) (Pool.Allowed anyCall anySect)
    ⟨roomForOne, []⟩ overtakingRun).get overtakingRun_executes).1

theorem overtaken_reached :
    ∃ tr, HubRuns pingTokener anyCall anySect roomForOne tr overtaken :=
  ⟨_, Exec.runs_of_isSome overtakingRun_executes⟩

/-- The put-back from there. -/
theorem overtaken_putBack : ∃ p', p'.shared.queue = [⟨1, 2⟩] ∧
    hubStep pingTokener overtaken (.run 1 quietEnv) =
      some (p', [.thrownAway ⟨9, 1⟩]) :=
  ⟨_, rfl, rfl⟩

theorem dropped_entries_overtaken :
    ∃ tr p', HubRuns pingTokener anyCall anySect roomForOne tr overtaken ∧
      hubStep pingTokener overtaken (.run 1 quietEnv) =
        some (p', [.thrownAway ⟨9, 1⟩]) ∧
      DropsFairly overtaken.shared [.thrownAway ⟨9, 1⟩] p'.shared := by
  rcases overtaken_reached with ⟨tr, hrun⟩
  rcases overtaken_putBack with ⟨p', -, hstep⟩
  exact ⟨tr, p', hrun, hstep, dropped_entries (by decide) (by decide) hrun hstep⟩

/-! ## An admission that is out of date -/

/-- Priority 1 is let in while the queue is empty; before it is pushed, priority 9 takes the
only place. -/
def staleRun : List (Pool.Label Call Env) :=
  .call (.enqueueOfflineMessage ⟨pingText, 1, 1⟩) :: List.replicate 3 (.run 0 quietEnv) ++
  .call (.enqueueOfflineMessage ⟨pingText, 9, 2⟩) :: List.replicate 4 (.run 1 quietEnv)

theorem staleRun_executes : (Exec.run (hubStep pingTokener) (Pool.Allowed anyCall anySect)
    ⟨roomForOne, []⟩ staleRun).isSome := by decide

/-- The state in which priority 1 is about to be pushed. -/
def outOfDate : Pool.Config Hub Thread :=
  ((Exec.run (hubStep pingTokener) (Pool.Allowed anyCall anySect)
    ⟨roomForOne, []⟩ staleRun).get staleRun_executes).1

theorem outOfDate_reached :
    ∃ tr, HubRuns pingTokener anyCall anySect roomForOne tr outOfDate :=
  ⟨_, Exec.runs_of_isSome staleRun_executes⟩

/-- The push from there. -/
theorem outOfDate_push : ∃ p', p'.shared.queue = [⟨1, 1⟩] ∧
    hubStep pingTokener outOfDate (.run 0 quietEnv) =
      some (p', [.evicted ⟨9, 2⟩, .offlineDiscarded, .pushed ⟨1, 1⟩,
        .returned ⟨pingText, 1, 1⟩ none]) :=
  ⟨_, rfl, rfl⟩

/-- It is not true that nothing lower is left in the queue whenever an entry is dropped: a
put-back throws away priority 9 and leaves priority 1, and a push whose admission is out of
date evicts priority 9 for priority 1. -/
theorem lower_entry_survives :
    (¬ ∀ (s₀ : Hub) (tr : List Event) (p p' : Pool.Config Hub Thread) (a : Pool.Label Call Env)
      (ev : List Event), 1 ≤ s₀.capacity.1 → (s₀.queue.length : ℤ) ≤ s₀.capacity.1 →
      s₀.isAsyncSending = false → HubRuns pingTokener anyCall anySect s₀ tr p →
      hubStep pingTokener p a = some (p', ev) →
      ∀ e, (∃ x ∈ ev, x.Drops e) → NoneLower e p'.shared.queue) ∧
    ∃ (tr : List Event) (p p' : Pool.Config Hub Thread) (a : Pool.Label Call Env)
      (ev : List Event) (e : CacheFileHeader), HubRuns pingTokener anyCall anySect roomForOne tr p ∧
      hubStep pingTokener p a = some (p', ev) ∧ .evicted e ∈ ev ∧
      ¬ NoneLower e p'.shared.queue := by
  constructor
  · intro hclaim
    rcases overtaken_reached with ⟨tr, hrun⟩
    rcases overtaken_putBack with ⟨p', hqueue, hstep⟩
    have hnone := hclaim _ _ _ _ _ _ (by decide) (by decide) rfl hrun hstep
      ⟨9, 1⟩ ⟨_, List.mem_singleton_self _, .inr (.inr rfl)⟩
    rw [hqueue] at hnone
    exact hnone _ (List.mem_singleton_self _) (by decide)
  · rcases outOfDate_reached with ⟨tr, hrun⟩
    rcases outOfDate_push with ⟨p', hqueue, hstep⟩
    refine ⟨tr, _, p', _, _, ⟨9, 2⟩, hrun, hstep, List.mem_cons_self, fun hnone => ?_⟩
    rw [hqueue] at hnone
    exact hnone _ (List.mem_singleton_self _) (by decide)

end MqttMsgHub
