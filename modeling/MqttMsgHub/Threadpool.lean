import Mathlib.Algebra.Order.Group.Multiset
import Mathlib.Logic.Relation
import Mathlib.Order.OrderIsoNat
import MqttMsgHub.Lib.Pool
import MqttMsgHub.Lib.Ring

/-! # The thread pool

`threadpool.c`: a ring buffer of tasks and workers that wait on a condition
variable while it is empty. What happens under the mutex is one section; a worker
that waits has given the mutex back. `pthread_cond_signal` wakes one of the
waiting threads at least, and a thread may wake up without being signalled.

`threadpool_destroy` leaves the loop with `break` when the pool is already
shutting down, and with it the only `pthread_mutex_unlock`. `threadpool_free` frees
the two arrays of the pool first and takes the mutex after that.

* `QueueInv`, `WorkerInv` — the books of the queue, of the workers and of the wake-ups,
  kept by every call and every section;
* `tasks_fifo` — tasks are taken in the order in which they were accepted, and
  nothing else is run;
* `no_wakeup_lost` — while a worker sleeps unsignalled there is another one on its way
  to each queued task, and some worker can always go on;
* `destroy_returns` — a destroy comes to its end whatever the scheduling, after
  the accepted tasks when it is graceful;
* `second_destroy_blocks` — a second one stops the pool for good, and the first with it.
-/

namespace MqttMsgHub.Threadpool

open Pool (total Outcome)

variable {τ : Type}

/-! ## The pool -/

/-- The field `shutdown`. -/
inductive Shutdown where
  | no
  | immediateShutdown
  | gracefulShutdown
deriving DecidableEq

/-- `threadpool_error_t`. -/
inductive ThreadpoolError where
  | invalid
  | lockFailure
  | queueFull
  | shutdown
  | threadFailure
deriving DecidableEq

/-- `struct threadpool_t`; the queue with its size, head, tail and count. -/
structure ThreadpoolT (τ : Type) where
  queue : Ring.Buffer τ
  threadCount : ℕ
  shutdown : Shutdown
  started : ℕ

def MAX_THREADS : ℤ := 64

def MAX_QUEUE : ℤ := 65536

/-- `threadpool_create`. The block of the queue holds what the heap held there. -/
def threadpoolCreate (threadCount queueSize : ℤ) (heap : ℕ → τ) : Option (ThreadpoolT τ) :=
  if threadCount ≤ 0 ∨ MAX_THREADS < threadCount ∨ queueSize ≤ 0 ∨ MAX_QUEUE < queueSize then none
  else
    let cells := (List.range queueSize.toNat).map heap
    some ⟨⟨cells, cells.length, 0, 0, 0⟩, threadCount.toNat, .no, threadCount.toNat⟩

/-- `threadpool_add`, under the mutex. -/
def threadpoolAdd (pool : ThreadpoolT τ) (task : τ) : Except ThreadpoolError (ThreadpoolT τ) :=
  if pool.queue.count = pool.queue.size then .error .queueFull
  else if pool.shutdown ≠ .no then .error .shutdown
  else .ok { pool with queue := Ring.put pool.queue task }

/-! ## Threads -/

/-- The pool, and what the system keeps about its threads. -/
structure Shared (τ : Type) where
  pool : ThreadpoolT τ
  /-- The threads in `pthread_cond_wait`. -/
  waiting : ℕ
  /-- Those among them that have been signalled. -/
  woken : ℕ
  /-- A thread has returned without unlocking the mutex. -/
  lockLeft : Bool
  /-- The workers whose thread has ended. -/
  returned : ℕ
  /-- `free(pool->threads); free(pool->queue);` -/
  arraysFreed : Bool
  freed : Bool

/-- Threads, at the section they run next. -/
inductive Thread (τ : Type) where
  /-- A worker in front of `pthread_mutex_lock`, or back from `pthread_cond_wait`. -/
  | check
  | wait
  | work (task : τ)
  /-- `threadpool_destroy` at `pthread_join`. -/
  | join
  /-- `threadpool_free` in front of `pthread_mutex_lock`. -/
  | free

inductive Event (τ : Type) where
  | accepted (task : τ)
  | refused (task : τ) (err : ThreadpoolError)
  | took (task : τ)
  | ran (task : τ)
  | exited
  /-- `threadpool_destroy` returns `threadpool_shutdown`. -/
  | destroyRefused
  | freed
  /-- `threadpool_free` returns -1. -/
  | notFreed
deriving DecidableEq

inductive Call (τ : Type) where
  /-- The signal wakes one thread, or `more`. -/
  | threadpoolAdd (task : τ) (more : ℕ)
  | threadpoolDestroy (graceful : Bool)

/-- `pthread_cond_signal`. -/
def signal (s : Shared τ) (more : ℕ) : Shared τ :=
  { s with woken := min s.waiting (s.woken + max 1 more) }

/-- The calls. They do not return when the mutex has been left locked. -/
def call (s : Shared τ) : Call τ → Option (Outcome (Shared τ) (Thread τ) (Event τ))
  | .threadpoolAdd task more =>
    if s.freed ∨ s.lockLeft then none
    else
      match threadpoolAdd s.pool task with
      | .ok pool =>
        if s.arraysFreed then none
        else some ⟨signal { s with pool := pool } more, [], [.accepted task]⟩
      | .error err => some ⟨s, [], [.refused task err]⟩
  | .threadpoolDestroy graceful =>
    if s.freed ∨ s.lockLeft then none
    else if s.pool.shutdown ≠ .no then some ⟨{ s with lockLeft := true }, [], [.destroyRefused]⟩
    else
      let shutdown := if graceful then Shutdown.gracefulShutdown else .immediateShutdown
      some ⟨{ s with pool := { s.pool with shutdown := shutdown }, woken := s.waiting }, [.join], []⟩

/-- `threadpool_thread` between two waits: it waits, ends or takes a task. -/
def threadpoolThread (s : Shared τ) : Option (Outcome (Shared τ) (Thread τ) (Event τ)) :=
  if s.freed ∨ s.lockLeft then none
  else if s.pool.queue.count = 0 ∧ s.pool.shutdown = .no then
    some ⟨{ s with waiting := s.waiting + 1 }, [.wait], []⟩
  else if s.pool.shutdown = .immediateShutdown ∨
      s.pool.shutdown = .gracefulShutdown ∧ s.pool.queue.count = 0 then
    some ⟨{ s with
      pool := { s.pool with started := s.pool.started - 1 }, returned := s.returned + 1 }, [],
      [.exited]⟩
  else if s.arraysFreed then none
  else
    (Ring.front s.pool.queue).map fun task =>
      ⟨{ s with pool := { s.pool with queue := Ring.pop s.pool.queue } }, [.work task], [.took task]⟩

/-- `threadpool_free` up to the mutex, which is not held here. -/
def threadpoolFree (s : Shared τ) : Option (Outcome (Shared τ) (Thread τ) (Event τ)) :=
  if s.freed then none
  else if 0 < s.pool.started then some ⟨s, [], [.notFreed]⟩
  else some ⟨{ s with arraysFreed := true }, [.free], []⟩

/-- The rest of it, from `pthread_mutex_lock` on. -/
def threadpoolFreeLocked (s : Shared τ) : Option (Outcome (Shared τ) (Thread τ) (Event τ)) :=
  if s.freed ∨ s.lockLeft then none
  else some ⟨{ s with freed := true }, [], [.freed]⟩

/-- The sections. The choice is whether a waiting thread wakes up unsignalled. -/
def sect (s : Shared τ) : Thread τ → Bool → Option (Outcome (Shared τ) (Thread τ) (Event τ))
  | .check, _ => threadpoolThread s
  | .wait, true =>
    some ⟨{ s with waiting := s.waiting - 1, woken := min s.woken (s.waiting - 1) }, [.check], []⟩
  | .wait, false =>
    if 0 < s.woken then
      some ⟨{ s with waiting := s.waiting - 1, woken := s.woken - 1 }, [.check], []⟩
    else none
  | .work task, _ => some ⟨s, [.check], [.ran task]⟩
  | .join, _ => if s.returned = s.pool.threadCount then threadpoolFree s else none
  | .free, _ => threadpoolFreeLocked s

abbrev Config (τ : Type) := Pool.Config (Shared τ) (Thread τ)

/-- A new pool and its workers. -/
def startUp (pool : ThreadpoolT τ) : Config τ :=
  ⟨⟨pool, 0, 0, false, 0, false, false⟩, List.replicate pool.threadCount .check⟩

def poolStep : Config τ → Pool.Label (Call τ) Bool → Option (Config τ × List (Event τ)) :=
  Pool.step call sect

/-- The runs from a state of the pool. -/
abbrev PoolRuns : Config τ → List (Event τ) → Config τ → Prop :=
  Exec.Runs poolStep (Pool.Allowed (fun _ => True) fun _ _ _ _ => True)

/-! ## Steps -/

variable {s s' : Shared τ} {t : Thread τ} {ts : List (Thread τ)} {c : Bool} {i : Call τ}
  {r : Outcome (Shared τ) (Thread τ) (Event τ)} {tr ev : List (Event τ)} {p q : Config τ}

/-- What a call does. -/
inductive Called (s : Shared τ) :
    Call τ → Outcome (Shared τ) (Thread τ) (Event τ) → Prop where
  | accepted {task more} : s.pool.queue.count ≠ s.pool.queue.size → s.pool.shutdown = .no →
      Called s (.threadpoolAdd task more)
        ⟨signal { s with pool := { s.pool with queue := Ring.put s.pool.queue task } } more, [],
          [.accepted task]⟩
  | refused {task more err} : Called s (.threadpoolAdd task more) ⟨s, [], [.refused task err]⟩
  | destroyRefused {graceful} : s.pool.shutdown ≠ .no →
      Called s (.threadpoolDestroy graceful) ⟨{ s with lockLeft := true }, [], [.destroyRefused]⟩
  | destroy {graceful shutdown} : s.pool.shutdown = .no → shutdown ≠ .no →
      (shutdown = .gracefulShutdown ↔ graceful = true) →
      Called s (.threadpoolDestroy graceful)
        ⟨{ s with pool := { s.pool with shutdown := shutdown }, woken := s.waiting }, [.join], []⟩

theorem called_of_call (h : call s i = some r) :
    s.freed = false ∧ s.lockLeft = false ∧ Called s i r := by
  cases i with
  | threadpoolAdd task more =>
    simp only [call] at h
    split at h
    · cases h
    · rename_i hfree
      simp only [not_or, Bool.not_eq_true] at hfree
      refine ⟨hfree.1, hfree.2, ?_⟩
      unfold threadpoolAdd at h
      split at h
      · rename_i pool hadd
        split at hadd
        · cases hadd
        · rename_i hroom
          split at hadd
          · cases hadd
          · rename_i hopen
            cases hadd
            split at h
            · cases h
            · cases h
              exact .accepted hroom (not_not.mp hopen)
      · cases h
        exact .refused
  | threadpoolDestroy graceful =>
    simp only [call] at h
    split at h
    · cases h
    · rename_i hfree
      simp only [not_or, Bool.not_eq_true] at hfree
      refine ⟨hfree.1, hfree.2, ?_⟩
      split at h
      · rename_i hshut
        cases h
        exact .destroyRefused hshut
      · rename_i hopen
        cases h
        exact .destroy (not_not.mp hopen) (by cases graceful <;> simp) (by cases graceful <;> simp)

/-- What a section does. -/
inductive Section (s : Shared τ) :
    Thread τ → Outcome (Shared τ) (Thread τ) (Event τ) → Prop where
  | wait : s.lockLeft = false → s.pool.queue.count = 0 → s.pool.shutdown = .no →
      Section s .check ⟨{ s with waiting := s.waiting + 1 }, [.wait], []⟩
  | exit : s.lockLeft = false → s.pool.shutdown ≠ .no →
      (s.pool.shutdown = .gracefulShutdown → s.pool.queue.count = 0) →
      Section s .check ⟨{ s with
        pool := { s.pool with started := s.pool.started - 1 }, returned := s.returned + 1 }, [],
        [.exited]⟩
  | take {task} : s.lockLeft = false → Ring.front s.pool.queue = some task →
      s.pool.queue.count ≠ 0 →
      Section s .check
        ⟨{ s with pool := { s.pool with queue := Ring.pop s.pool.queue } }, [.work task], [.took task]⟩
  | spurious :
      Section s .wait
        ⟨{ s with waiting := s.waiting - 1, woken := min s.woken (s.waiting - 1) }, [.check], []⟩
  | signalled : 0 < s.woken →
      Section s .wait ⟨{ s with waiting := s.waiting - 1, woken := s.woken - 1 }, [.check], []⟩
  | work {task} : Section s (.work task) ⟨s, [.check], [.ran task]⟩
  | notFreed : 0 < s.pool.started → s.returned = s.pool.threadCount →
      Section s .join ⟨s, [], [.notFreed]⟩
  | arraysFreed : s.pool.started = 0 → s.returned = s.pool.threadCount →
      Section s .join ⟨{ s with arraysFreed := true }, [.free], []⟩
  | freed : s.lockLeft = false → Section s .free ⟨{ s with freed := true }, [], [.freed]⟩

theorem section_of_sect (h : sect s t c = some r) : Section s t r := by
  cases t with
  | check =>
    simp only [sect, threadpoolThread] at h
    split at h
    · cases h
    · rename_i hlock
      simp only [not_or, Bool.not_eq_true] at hlock
      split at h
      · rename_i hidle
        cases h
        exact .wait hlock.2 hidle.1 hidle.2
      · rename_i hidle
        split at h
        · rename_i hend
          cases h
          apply Section.exit hlock.2
          · rcases hend with hend | ⟨hend, -⟩ <;> simp [hend]
          · intro hgraceful
            simpa [hgraceful] using hend
        · rename_i hend
          split at h
          · cases h
          · simp only [Option.map_eq_some_iff] at h
            rcases h with ⟨task, hfront, rfl⟩
            apply Section.take hlock.2 hfront
            intro hzero
            -- an empty queue: the worker waits, or ends
            cases hshut : s.pool.shutdown <;> simp_all
  | wait =>
    cases c with
    | true =>
      cases h
      exact .spurious
    | false =>
      simp only [sect] at h
      split at h
      · rename_i hwoken
        cases h
        exact .signalled hwoken
      · cases h
  | work task =>
    cases h
    exact .work
  | join =>
    simp only [sect] at h
    split at h
    · rename_i hreturned
      unfold threadpoolFree at h
      split at h
      · cases h
      · split at h
        · rename_i hstarted
          cases h
          exact .notFreed hstarted hreturned
        · rename_i hstarted
          cases h
          exact .arraysFreed (Nat.eq_zero_of_not_pos hstarted) hreturned
    · cases h
  | free =>
    simp only [sect, threadpoolFreeLocked] at h
    split at h
    · cases h
    · rename_i hlock
      simp only [not_or, Bool.not_eq_true] at hlock
      cases h
      exact .freed hlock.2

/-! ## Observations -/

def Event.acceptedTask : Event τ → List τ
  | .accepted task => [task]
  | _ => []

def Event.tookTask : Event τ → List τ
  | .took task => [task]
  | _ => []

def Event.ranTask : Event τ → List τ
  | .ran task => [task]
  | _ => []

/-- The tasks for which `threadpool_add` has returned 0, in order. -/
def acceptedTasks (tr : List (Event τ)) : List τ := tr.flatMap Event.acceptedTask

/-- The tasks that the workers have taken out of the queue, in order. -/
def tookTasks (tr : List (Event τ)) : List τ := tr.flatMap Event.tookTask

/-- The tasks that have been run to their end, in order. -/
def ranTasks (tr : List (Event τ)) : List τ := tr.flatMap Event.ranTask

@[simp] theorem tasks_nil : acceptedTasks ([] : List (Event τ)) = [] ∧
    tookTasks ([] : List (Event τ)) = [] ∧ ranTasks ([] : List (Event τ)) = [] := ⟨rfl, rfl, rfl⟩

@[simp] theorem acceptedTasks_cons (e : Event τ) (tr : List (Event τ)) :
    acceptedTasks (e :: tr) = e.acceptedTask ++ acceptedTasks tr := rfl

@[simp] theorem tookTasks_cons (e : Event τ) (tr : List (Event τ)) :
    tookTasks (e :: tr) = e.tookTask ++ tookTasks tr := rfl

@[simp] theorem ranTasks_cons (e : Event τ) (tr : List (Event τ)) :
    ranTasks (e :: tr) = e.ranTask ++ ranTasks tr := rfl

@[simp] theorem acceptedTasks_append (tr ev : List (Event τ)) :
    acceptedTasks (tr ++ ev) = acceptedTasks tr ++ acceptedTasks ev := List.flatMap_append

@[simp] theorem tookTasks_append (tr ev : List (Event τ)) :
    tookTasks (tr ++ ev) = tookTasks tr ++ tookTasks ev := List.flatMap_append

@[simp] theorem ranTasks_append (tr ev : List (Event τ)) :
    ranTasks (tr ++ ev) = ranTasks tr ++ ranTasks ev := List.flatMap_append

/-- The task that a worker is running. -/
def Thread.running : Thread τ → Multiset τ
  | .work task => {task}
  | _ => 0

/-- Workers in `pthread_cond_wait`. -/
def Thread.waits : Thread τ → ℕ
  | .wait => 1
  | _ => 0

/-- Workers that do not wait. -/
def Thread.awake : Thread τ → ℕ
  | .check => 1
  | .work _ => 1
  | _ => 0

/-- Workers on their way to a look at the queue. -/
def Thread.looks : Thread τ → ℕ
  | .check => 1
  | _ => 0

/-- Calls of `threadpool_destroy` that shut the pool down. -/
def Thread.joins : Thread τ → ℕ
  | .join => 1
  | .free => 1
  | _ => 0

/-- Those among them that have freed the arrays. -/
def Thread.frees : Thread τ → ℕ
  | .free => 1
  | _ => 0

/-! ## The queue -/

/-- The ring holds the accepted tasks that have not been taken. -/
structure QueueInv (size : ℕ) (tr : List (Event τ)) (s : Shared τ) (ts : List (Thread τ)) :
    Prop where
  size : s.pool.queue.size = size
  fifo : ∃ pending, Ring.Holds s.pool.queue pending ∧ acceptedTasks tr = tookTasks tr ++ pending
  running : (tookTasks tr : Multiset τ) = ranTasks tr + total Thread.running ts

variable {size : ℕ}

theorem QueueInv.of_perm {us : List (Thread τ)} (hperm : ts.Perm us) (h : QueueInv size tr s ts) :
    QueueInv size tr s us :=
  ⟨h.size, h.fifo, by rw [h.running, Pool.total_of_perm _ hperm]⟩

theorem queue_called (h : QueueInv size tr s ts) (hr : Called s i r) :
    QueueInv size (tr ++ r.events) r.shared (r.threads ++ ts) := by
  rcases h with ⟨hsize, ⟨pending, hholds, hfifo⟩, hrunning⟩
  cases hr with
  | @accepted task more hroom _ =>
    have hlt : pending.length < s.pool.queue.size := by
      rw [hholds.count] at hroom
      exact lt_of_le_of_ne hholds.room hroom
    refine ⟨hsize, ?_, ?_⟩
    · exact ⟨pending ++ [task], hholds.put task hlt, by
        simp [hfifo, Event.acceptedTask, Event.tookTask]⟩
    · simpa [Event.tookTask, Event.ranTask] using hrunning
  | _ =>
    refine ⟨hsize, ?_, ?_⟩
    · exact ⟨pending, hholds, by simpa [Event.acceptedTask, Event.tookTask] using hfifo⟩
    · simpa [Event.tookTask, Event.ranTask, Thread.running] using hrunning

theorem queue_section (h : QueueInv size tr s (t :: ts)) (hr : Section s t r) :
    QueueInv size (tr ++ r.events) r.shared (r.threads ++ ts) := by
  rcases h with ⟨hsize, ⟨pending, hholds, hfifo⟩, hrunning⟩
  cases hr with
  | @take task _ hfront hcount =>
    cases pending with
    | nil => exact absurd hholds.count hcount
    | cons x pending =>
      -- the task at the head is the first pending one
      have hx : x = task := Option.some.inj (hholds.front_eq.symm.trans hfront)
      subst hx
      refine ⟨hsize, ?_, ?_⟩
      · exact ⟨pending, hholds.pop, by simp [hfifo, Event.acceptedTask, Event.tookTask]⟩
      · have htook : (tookTasks tr : Multiset τ) = ranTasks tr + total Thread.running ts := by
          simpa [Thread.running] using hrunning
        have hstep : ((tookTasks tr ++ [x] : List τ) : Multiset τ) =
            ranTasks tr + ({x} + total Thread.running ts) := by
          rw [← Multiset.coe_add, htook, Multiset.coe_singleton, add_assoc,
            add_comm (total Thread.running ts)]
        simpa [Event.tookTask, Event.ranTask, Thread.running] using hstep
  | @work task =>
    refine ⟨hsize, ?_, ?_⟩
    · exact ⟨pending, hholds, by simpa [Event.acceptedTask, Event.tookTask] using hfifo⟩
    · have hstep : (tookTasks tr : Multiset τ) =
          (ranTasks tr ++ [task] : List τ) + total Thread.running ts := by
        rw [hrunning, ← Multiset.coe_add, Multiset.coe_singleton, Pool.total_cons, add_assoc]
        rfl
      simpa [Event.tookTask, Event.ranTask, Thread.running] using hstep
  | _ =>
    refine ⟨hsize, ?_, ?_⟩
    · exact ⟨pending, hholds, by simpa [Event.acceptedTask, Event.tookTask] using hfifo⟩
    · simpa [Event.tookTask, Event.ranTask, Thread.running] using hrunning

/-! ## The workers -/

/-- The workers are counted; as long as the pool is open, a queued task has a worker
that is awake or has been signalled, and while a worker sleeps every queued task has one of
its own that is about to look for it; in a pool that shuts down every waiting worker has
been signalled. At most one destroy waits for the workers or has freed the pool, and it
frees the arrays when they are gone. -/
structure WorkerInv (n : ℕ) (s : Shared τ) (ts : List (Thread τ)) : Prop where
  positive : 0 < n
  threadCount : s.pool.threadCount = n
  waiting : total Thread.waits ts = s.waiting
  woken : s.woken ≤ s.waiting
  alive : total Thread.awake ts + s.waiting = s.pool.started
  returned : s.returned + s.pool.started = n
  signalled : s.pool.queue.count ≠ 0 → s.pool.shutdown = .no → 0 < total Thread.awake ts + s.woken
  looking : s.woken < s.waiting → s.pool.queue.count ≤ total Thread.looks ts + s.woken
  running : s.pool.shutdown = .no → s.returned = 0
  broadcast : s.pool.shutdown ≠ .no → s.woken = s.waiting
  drained : s.pool.shutdown = .gracefulShutdown → 0 < s.returned → s.pool.queue.count = 0
  once : total Thread.joins ts + s.freed.toNat + (if s.pool.shutdown = .no then 1 else 0) = 1
  frees : total Thread.frees ts + s.freed.toNat = s.arraysFreed.toNat
  arrays : s.arraysFreed = true → s.pool.started = 0

variable {n : ℕ}

theorem frees_le_joins (ts : List (Thread τ)) : total Thread.frees ts ≤ total Thread.joins ts := by
  induction ts with
  | nil => exact le_rfl
  | cons t ts ih =>
    have ht : t.frees ≤ t.joins := by cases t <;> simp [Thread.frees, Thread.joins]
    rw [Pool.total_cons, Pool.total_cons]
    omega

/-- A pool that has been freed has no worker left. -/
theorem WorkerInv.freed (h : WorkerInv n s ts) (hfreed : s.freed = true) : s.pool.started = 0 := by
  apply h.arrays
  have hfrees := h.frees
  rw [hfreed, Bool.toNat_true] at hfrees
  cases harrays : s.arraysFreed with
  | true => rfl
  | false =>
    rw [harrays, Bool.toNat_false] at hfrees
    omega

theorem WorkerInv.of_perm {us : List (Thread τ)} (hperm : ts.Perm us) (h : WorkerInv n s ts) :
    WorkerInv n s us := by
  have hwaits := Pool.total_of_perm Thread.waits hperm
  have hawake := Pool.total_of_perm Thread.awake hperm
  exact { h with
    waiting := hwaits ▸ h.waiting
    alive := hawake ▸ h.alive
    signalled := hawake ▸ h.signalled
    looking := Pool.total_of_perm Thread.looks hperm ▸ h.looking
    once := Pool.total_of_perm Thread.joins hperm ▸ h.once
    frees := Pool.total_of_perm Thread.frees hperm ▸ h.frees }

theorem worker_called (h : WorkerInv n s ts) (hr : Called s i r) :
    WorkerInv n r.shared (r.threads ++ ts) := by
  cases hr with
  | accepted hroom hopen =>
    -- somebody waits and is woken, or all workers are awake
    have hnone := h.running hopen
    have hcount := h.returned
    have halive := h.alive
    have hpos := h.positive
    have hwoken := h.woken
    exact { h with
      woken := Nat.min_le_left _ _
      signalled := by
        intro _ _
        show 0 < total Thread.awake ts + min s.waiting _
        omega
      looking := by
        -- one more task, and one more worker that is woken
        have hlooking := h.looking
        show min s.waiting (s.woken + max 1 _) < s.waiting →
          s.pool.queue.count + 1 ≤ total Thread.looks ts + min s.waiting (s.woken + max 1 _)
        omega
      broadcast := fun hshut => absurd hopen hshut
      drained := fun hshut => absurd (hopen.symm.trans hshut) (by decide) }
  | refused => exact { h with }
  | destroyRefused hshut => exact { h with }
  | @destroy _ shutdown hopen hshut =>
    have honce := h.once
    rw [if_pos hopen] at honce
    have hnone := h.running hopen
    exact { h with
      waiting := by simpa [Thread.waits] using h.waiting
      woken := le_rfl
      alive := by simpa [Thread.awake] using h.alive
      signalled := fun _ hno => absurd hno hshut
      looking := fun hlt => absurd hlt (Nat.lt_irrefl s.waiting)
      running := fun hno => absurd hno hshut
      broadcast := fun _ => rfl
      drained := fun _ hreturned => absurd hnone (Nat.ne_of_gt hreturned)
      once := by
        show total Thread.joins (Thread.join :: ts) + _ + (if shutdown = .no then 1 else 0) = 1
        rw [if_neg hshut, Pool.total_cons]
        simp only [Thread.joins]
        omega
      frees := by simpa [Thread.frees] using h.frees }

/-- A worker that waits goes on, and `woken` of those that still wait have been signalled. -/
theorem WorkerInv.wake (h : WorkerInv n s (.wait :: ts)) {woken : ℕ}
    (hwoken : woken ≤ s.waiting - 1) (hbroadcast : s.pool.shutdown ≠ .no → woken = s.waiting - 1)
    (hsleeps : woken < s.waiting - 1 → s.woken ≤ woken + 1) :
    WorkerInv n { s with waiting := s.waiting - 1, woken := woken } (.check :: ts) := by
  have hwaiting := h.waiting
  have halive := h.alive
  have hlooking := h.looking
  simp only [Pool.total_cons, Thread.waits, Thread.awake, Thread.looks] at hwaiting halive hlooking
  exact { h with
    waiting := by
      show total Thread.waits (Thread.check :: ts) = s.waiting - 1
      simp only [Pool.total_cons, Thread.waits]
      omega
    woken := hwoken
    alive := by
      show total Thread.awake (Thread.check :: ts) + (s.waiting - 1) = s.pool.started
      simp only [Pool.total_cons, Thread.awake]
      omega
    -- the worker itself is awake now
    signalled := fun _ _ => by
      show 0 < total Thread.awake (Thread.check :: ts) + woken
      simp only [Pool.total_cons, Thread.awake]
      omega
    -- and it looks at the queue in place of the signal that it may have used up
    looking := fun hlt => by
      have hless : woken < s.waiting - 1 := hlt
      have hmore := hsleeps hless
      show s.pool.queue.count ≤ total Thread.looks (Thread.check :: ts) + woken
      simp only [Pool.total_cons, Thread.looks]
      omega
    broadcast := hbroadcast }

/-- A worker waits. -/
theorem WorkerInv.sleep (h : WorkerInv n s (.check :: ts)) (hempty : s.pool.queue.count = 0)
    (hopen : s.pool.shutdown = .no) :
    WorkerInv n { s with waiting := s.waiting + 1 } (.wait :: ts) := by
  have hwaiting := h.waiting
  have halive := h.alive
  simp only [Pool.total_cons, Thread.waits, Thread.awake] at hwaiting halive
  exact { h with
    waiting := by
      show total Thread.waits (Thread.wait :: ts) = s.waiting + 1
      simp only [Pool.total_cons, Thread.waits]
      omega
    woken := Nat.le_succ_of_le h.woken
    alive := by
      show total Thread.awake (Thread.wait :: ts) + (s.waiting + 1) = s.pool.started
      simp only [Pool.total_cons, Thread.awake]
      omega
    -- nothing is queued, so nobody has to be awake
    signalled := fun hcount => absurd hempty hcount
    looking := fun _ => by
      show s.pool.queue.count ≤ _
      rw [hempty]
      exact Nat.zero_le _
    broadcast := fun hshut => absurd hopen hshut }

/-- A worker ends. -/
theorem WorkerInv.exit (h : WorkerInv n s (.check :: ts)) (hshut : s.pool.shutdown ≠ .no)
    (hempty : s.pool.shutdown = .gracefulShutdown → s.pool.queue.count = 0) :
    WorkerInv n { s with
      pool := { s.pool with started := s.pool.started - 1 }, returned := s.returned + 1 } ts := by
  have halive := h.alive
  have hreturned := h.returned
  simp only [Pool.total_cons, Thread.awake] at halive
  exact { h with
    waiting := by simpa [Thread.waits] using h.waiting
    alive := by
      show total Thread.awake ts + s.waiting = s.pool.started - 1
      omega
    returned := by
      show s.returned + 1 + (s.pool.started - 1) = n
      omega
    signalled := fun _ hno => absurd hno hshut
    looking := fun hlt => by
      have hless : s.woken < s.waiting := hlt
      rw [h.broadcast hshut] at hless
      exact absurd hless (Nat.lt_irrefl _)
    running := fun hno => absurd hno hshut
    -- a graceful end comes with an empty queue, and nothing is accepted afterwards
    drained := fun hgraceful _ => hempty hgraceful
    once := by simpa [Thread.joins] using h.once
    frees := by simpa [Thread.frees] using h.frees
    arrays := fun harrays => by
      show s.pool.started - 1 = 0
      rw [h.arrays harrays] }

/-- A worker takes a task. -/
theorem WorkerInv.take (h : WorkerInv n s (.check :: ts)) (hcount : s.pool.queue.count ≠ 0)
    (task : τ) :
    WorkerInv n { s with pool := { s.pool with queue := Ring.pop s.pool.queue } }
      (.work task :: ts) :=
  { h with
    signalled := fun _ _ => by
      show 0 < total Thread.awake (Thread.work task :: ts) + s.woken
      rw [Pool.total_cons, Thread.awake]
      omega
    -- one task less, and one worker less that looks for one
    looking := fun hlt => by
      have hlooking := h.looking hlt
      show s.pool.queue.count - 1 ≤ total Thread.looks (Thread.work task :: ts) + s.woken
      simp only [Pool.total_cons, Thread.looks] at hlooking ⊢
      omega
    -- no worker has returned while there are tasks
    drained := fun hgraceful hreturned => absurd (h.drained hgraceful hreturned) hcount }

/-- The destroy frees the arrays. -/
theorem WorkerInv.freeArrays (h : WorkerInv n s (.join :: ts)) (hstarted : s.pool.started = 0) :
    WorkerInv n { s with arraysFreed := true } (.free :: ts) := by
  -- this is the only destroy, so nobody has freed the arrays before
  have honce := h.once
  have hfrees := h.frees
  have hle := frees_le_joins ts
  simp only [Pool.total_cons, Thread.joins, Thread.frees] at honce hfrees
  exact { h with
    frees := by
      show total Thread.frees (Thread.free :: ts) + s.freed.toNat = 1
      simp only [Pool.total_cons, Thread.frees]
      omega
    arrays := fun _ => hstarted }

/-- The destroy frees the pool. -/
theorem WorkerInv.freePool (h : WorkerInv n s (.free :: ts)) :
    WorkerInv n { s with freed := true } ts := by
  have honce := h.once
  have hfrees := h.frees
  have harrays := Bool.toNat_le s.arraysFreed
  simp only [Pool.total_cons, Thread.joins, Thread.frees] at honce hfrees
  exact { h with
    waiting := by simpa [Thread.waits] using h.waiting
    alive := by simpa [Thread.awake] using h.alive
    signalled := by simpa [Thread.awake] using h.signalled
    looking := by simpa [Thread.looks] using h.looking
    once := by
      show total Thread.joins ts + 1 + (if s.pool.shutdown = .no then 1 else 0) = 1
      omega
    frees := by
      show total Thread.frees ts + 1 = s.arraysFreed.toNat
      omega }

theorem worker_section (h : WorkerInv n s (t :: ts)) (hr : Section s t r) :
    WorkerInv n r.shared (r.threads ++ ts) := by
  have hwoken := h.woken
  cases hr with
  | wait _ hempty hopen => exact h.sleep hempty hopen
  | exit _ hshut hempty => exact h.exit hshut hempty
  | take _ _ hcount => exact h.take hcount _
  | spurious =>
    apply h.wake (Nat.min_le_right _ _)
    · intro hshut
      rw [h.broadcast hshut]
      omega
    · omega
  | signalled hpos =>
    apply h.wake (Nat.sub_le_sub_right hwoken 1)
    · intro hshut
      rw [h.broadcast hshut]
    · omega
  | work =>
    -- the worker looks at the queue again
    exact { h with
      looking := fun hlt => by
        have hlooking := h.looking hlt
        show s.pool.queue.count ≤ total Thread.looks (Thread.check :: ts) + s.woken
        simp only [Pool.total_cons, Thread.looks] at hlooking ⊢
        omega }
  | notFreed hstarted hreturned =>
    -- all workers have returned, so none of them is left
    have hcount := h.returned
    rw [hreturned, h.threadCount] at hcount
    omega
  | arraysFreed hstarted _ => exact h.freeArrays hstarted
  | freed _ => exact h.freePool

/-! ## Runs -/

variable {pool : ThreadpoolT τ} {threadCount queueSize : ℤ} {heap : ℕ → τ}

/-- What `threadpool_create` returns, when it does. -/
theorem threadpoolCreate_eq (h : threadpoolCreate threadCount queueSize heap = some pool) :
    0 < queueSize.toNat ∧ pool.queue.size = queueSize.toNat ∧ Ring.Holds pool.queue ([] : List τ) ∧
      0 < pool.threadCount ∧ pool.threadCount = threadCount.toNat ∧
      pool.started = pool.threadCount ∧ pool.shutdown = .no := by
  unfold threadpoolCreate at h
  split at h
  · cases h
  · rename_i hbounds
    simp only [not_or, not_le, not_lt] at hbounds
    cases h
    have hsize : 0 < queueSize.toNat := by omega
    refine ⟨hsize, by simp, Ring.holds_empty (by simpa using hsize), ?_, rfl, rfl, rfl⟩
    show 0 < threadCount.toNat
    omega

theorem total_replicate (f : Thread τ → ℕ) (k : ℕ) :
    total f (List.replicate k .check) = k * f .check := by
  simp [Pool.total]

theorem queue_inv (hcreate : threadpoolCreate threadCount queueSize heap = some pool)
    (hrun : PoolRuns (startUp pool) tr p) : QueueInv queueSize.toNat tr p.shared p.threads := by
  refine Pool.invariant (P := QueueInv queueSize.toNat) (fun _ _ _ _ => QueueInv.of_perm)
    ?_ ?_ ?_ hrun
  · rcases threadpoolCreate_eq hcreate with ⟨-, hsize, hholds, -⟩
    refine ⟨hsize, ⟨[], hholds, rfl⟩, ?_⟩
    have hidle : total Thread.running (List.replicate pool.threadCount .check) = (0 : Multiset τ) := by
      apply Pool.total_eq_zero
      intro t ht
      rw [List.eq_of_mem_replicate ht]
      rfl
    rw [hidle]
    rfl
  · intro tr s ts i r hinv _ hr
    exact queue_called hinv (called_of_call hr).2.2
  · intro tr s t ts c r hinv _ hr
    exact queue_section hinv (section_of_sect hr)

theorem worker_inv (hcreate : threadpoolCreate threadCount queueSize heap = some pool)
    (hrun : PoolRuns (startUp pool) tr p) : WorkerInv pool.threadCount p.shared p.threads := by
  refine Pool.invariant (P := fun _ => WorkerInv pool.threadCount) (fun _ _ _ _ => WorkerInv.of_perm)
    ?_ ?_ ?_ hrun
  · rcases threadpoolCreate_eq hcreate with ⟨-, -, hholds, hpos, -, hstarted, hopen⟩
    exact {
      positive := hpos
      threadCount := rfl
      waiting := total_replicate _ _
      woken := le_rfl
      alive := (total_replicate _ _).trans ((mul_one _).trans hstarted.symm)
      returned := (Nat.zero_add _).trans hstarted
      signalled := fun hcount => absurd hholds.count hcount
      looking := fun hlt => absurd hlt (Nat.lt_irrefl 0)
      running := fun _ => rfl
      broadcast := fun hshut => absurd hopen hshut
      drained := fun _ hreturned => absurd hreturned (Nat.lt_irrefl 0)
      once := by
        show total Thread.joins (List.replicate _ _) + 0 + (if pool.shutdown = .no then 1 else 0) = 1
        rw [if_pos hopen, total_replicate]
        rfl
      frees := total_replicate _ _
      arrays := fun harrays => absurd harrays Bool.false_ne_true }
  · intro tr s ts i r hinv _ hr
    exact worker_called hinv (called_of_call hr).2.2
  · intro tr s t ts c r hinv _ hr
    exact worker_section hinv (section_of_sect hr)

/-- After every run: the tasks that have been taken and those in the ring, at most
`queue_size`, are the accepted ones in the order in which they were accepted, and the
tasks that have been or are being run are the ones taken. -/
theorem tasks_fifo (hcreate : threadpoolCreate threadCount queueSize heap = some pool)
    (hrun : PoolRuns (startUp pool) tr p) :
    ∃ pending, acceptedTasks tr = tookTasks tr ++ pending ∧ (pending.length : ℤ) ≤ queueSize ∧
      Ring.Holds p.shared.pool.queue pending ∧
      (tookTasks tr : Multiset τ) = ranTasks tr + total Thread.running p.threads := by
  have hinv := queue_inv hcreate hrun
  rcases hinv.fifo with ⟨pending, hholds, hfifo⟩
  refine ⟨pending, hfifo, ?_, hholds, hinv.running⟩
  have hroom := hholds.room
  have hsize := (threadpoolCreate_eq hcreate).1
  rw [hinv.size] at hroom
  omega

/-- One worker and room for two tasks. -/
def onePool : ThreadpoolT ℕ := ⟨⟨[0, 0], 2, 0, 0, 0⟩, 1, .no, 1⟩

theorem onePool_created : threadpoolCreate 1 2 (fun _ => 0) = some onePool := rfl

/-- The worker waits, two tasks are added, and it runs the first one. -/
def twoTasks : List (Pool.Label (Call ℕ) Bool) :=
  [.run 0 false, .call (.threadpoolAdd 7 1), .call (.threadpoolAdd 8 1), .run 0 false, .run 0 false,
    .run 0 false]

theorem twoTasks_executes : (Exec.run poolStep (Pool.Allowed (fun _ => True) fun _ _ _ _ => True)
    (startUp onePool) twoTasks).isSome := by decide

theorem tasks_fifo_twoTasks :
    ∃ tr p, PoolRuns (startUp onePool) tr p ∧ tookTasks tr = [7] ∧
      ∃ pending, acceptedTasks tr = tookTasks tr ++ pending ∧ (pending.length : ℤ) ≤ 2 ∧
        Ring.Holds p.shared.pool.queue pending ∧
        (tookTasks tr : Multiset ℕ) = ranTasks tr + total Thread.running p.threads := by
  have hrun := Exec.runs_of_isSome twoTasks_executes
  exact ⟨_, _, hrun, rfl,
    tasks_fifo onePool_created hrun⟩

/-! ## One worker -/

theorem card_running_le (ts : List (Thread τ)) :
    (total Thread.running ts).card ≤ total Thread.awake ts := by
  induction ts with
  | nil => exact Nat.zero_le _
  | cons t ts ih =>
    have ht : t.running.card ≤ t.awake := by cases t <;> simp [Thread.running, Thread.awake]
    rw [Pool.total_cons, Pool.total_cons, Multiset.card_add]
    omega

/-- The tasks that have been taken are, in this order, those that have been run and
those that are being run. -/
def InOrder (tr : List (Event τ)) (ts : List (Thread τ)) : Prop :=
  ∃ l : List τ, tookTasks tr = ranTasks tr ++ l ∧ (l : Multiset τ) = total Thread.running ts

theorem inOrder_called (h : InOrder tr ts) (hr : Called s i r) :
    InOrder (tr ++ r.events) (r.threads ++ ts) := by
  rcases h with ⟨l, htook, hl⟩
  cases hr with
  | _ => exact ⟨l, by simpa [Event.tookTask, Event.ranTask] using htook,
      by simpa [Thread.running] using hl⟩

theorem inOrder_section (hone : WorkerInv 1 s (t :: ts)) (h : InOrder tr (t :: ts))
    (hr : Section s t r) : InOrder (tr ++ r.events) (r.threads ++ ts) := by
  rcases h with ⟨l, htook, hl⟩
  cases hr with
  | @take task _ hfront hcount =>
    refine ⟨l ++ [task], by simp [htook, Event.tookTask, Event.ranTask], ?_⟩
    have hrest : (l : Multiset τ) = total Thread.running ts := by simpa [Thread.running] using hl
    show ((l ++ [task] : List τ) : Multiset τ) = total Thread.running (Thread.work task :: ts)
    rw [← Multiset.coe_add, hrest, Multiset.coe_singleton, Pool.total_cons, add_comm]
    rfl
  | @work task =>
    -- the only worker runs the only task
    have hcard := card_running_le (Thread.work task :: ts)
    have halive := hone.alive
    have hcount := hone.returned
    rw [← hl, Multiset.coe_card] at hcard
    have hmem : task ∈ l := by
      rw [← Multiset.mem_coe, hl, Pool.total_cons]
      exact Multiset.mem_add.mpr (.inl (Multiset.mem_singleton_self task))
    have hpos := List.length_pos_of_mem hmem
    have hlength : l.length = 1 := by omega
    rcases List.length_eq_one_iff.mp hlength with ⟨x, rfl⟩
    have hx : task = x := List.mem_singleton.mp hmem
    subst hx
    refine ⟨[], by simp [htook, Event.tookTask, Event.ranTask], ?_⟩
    rw [Pool.total_cons, Multiset.coe_singleton] at hl
    have hrest : total Thread.running ts = 0 := left_eq_add.mp hl
    simp [Thread.running, hrest]
  | _ => exact ⟨l, by simpa [Event.tookTask, Event.ranTask] using htook,
      by simpa [Thread.running] using hl⟩

/-- With one worker, as the hub has it, the tasks are run in the order in which they
were accepted. -/
theorem single_worker_in_order (hcreate : threadpoolCreate 1 queueSize heap = some pool)
    (hrun : PoolRuns (startUp pool) tr p) : ranTasks tr <+: acceptedTasks tr := by
  have hone : pool.threadCount = 1 := (threadpoolCreate_eq hcreate).2.2.2.2.1
  have horder : InOrder tr p.threads := by
    refine Pool.invariant_relative (H := fun _ => True) (Q := fun _ => WorkerInv pool.threadCount)
      (P := fun tr _ ts => InOrder tr ts) (fun _ _ _ => trivial)
      (fun _ _ hrun _ => worker_inv hcreate hrun) (fun _ _ _ _ => WorkerInv.of_perm) ?_ ?_ ?_ ?_ hrun
      trivial
    · rintro tr s ts us hperm ⟨l, htook, hl⟩
      exact ⟨l, htook, hl.trans (Pool.total_of_perm _ hperm)⟩
    · refine ⟨[], rfl, (Pool.total_eq_zero ?_).symm⟩
      intro t ht
      rw [List.eq_of_mem_replicate ht]
      rfl
    · intro tr s ts i r _ _ hinv _ hr
      exact inOrder_called hinv (called_of_call hr).2.2
    · intro tr s t ts c r _ hworkers hinv _ hr
      rw [hone] at hworkers
      exact inOrder_section hworkers hinv (section_of_sect hr)
  rcases horder with ⟨l, htook, -⟩
  rcases tasks_fifo hcreate hrun with ⟨pending, hfifo, -⟩
  rw [hfifo, htook, List.append_assoc]
  exact List.prefix_append _ _

theorem single_worker_in_order_twoTasks :
    ∃ tr p, PoolRuns (startUp onePool) tr p ∧ ranTasks tr = [7] ∧
      ranTasks tr <+: acceptedTasks tr := by
  have hrun := Exec.runs_of_isSome twoTasks_executes
  exact ⟨_, _, hrun, rfl, single_worker_in_order onePool_created hrun⟩

/-! ## Wake-ups -/

theorem exists_of_total_pos {f : Thread τ → ℕ} (h : 0 < total f ts) : ∃ t ∈ ts, 0 < f t := by
  by_contra hnone
  have hzero : total f ts = 0 := Pool.total_eq_zero fun t ht =>
    Nat.eq_zero_of_not_pos fun hpos => hnone ⟨t, ht, hpos⟩
  omega

/-- A section that can be run gives a step of the pool. -/
theorem step_of_sect {k : ℕ} (ht : p.threads[k]? = some t) (hr : sect p.shared t c = some r) :
    ∃ q, poolStep p (.run k c) = some (q, r.events) := by
  simp [poolStep, Pool.step, ht, hr]

/-- A worker that does not wait can go on. -/
theorem sect_of_awake (hfree : s.freed = false) (hlock : s.lockLeft = false)
    (harrays : s.arraysFreed = false)
    (hfront : s.pool.queue.count ≠ 0 → (Ring.front s.pool.queue).isSome) (ht : 0 < t.awake) :
    (sect s t c).isSome := by
  cases t with
  | check =>
    simp only [sect, threadpoolThread, hfree, hlock, harrays]
    by_cases hcount : s.pool.queue.count = 0
    · cases hshut : s.pool.shutdown <;> simp [hcount]
    · have hsome := hfront hcount
      cases hshut : s.pool.shutdown <;> simp [hcount, hsome]
  | work task => rfl
  | wait => cases ht
  | join => cases ht
  | free => cases ht

/-- While a task is queued or the pool shuts down, and a worker is left, some worker can go
on without waking up by itself, unless the mutex has been left locked. -/
theorem worker_can_move (hcreate : threadpoolCreate threadCount queueSize heap = some pool)
    (hrun : PoolRuns (startUp pool) tr p) (hlock : p.shared.lockLeft = false)
    (hwork : p.shared.pool.queue.count ≠ 0 ∨ p.shared.pool.shutdown ≠ .no)
    (hleft : p.shared.pool.started ≠ 0) :
    ∃ k t, p.threads[k]? = some t ∧ t ≠ .join ∧ (poolStep p (.run k false)).isSome := by
  have hinv := worker_inv hcreate hrun
  have hfree : p.shared.freed = false := by
    by_contra hfreed
    exact hleft (hinv.freed (by simpa using hfreed))
  have harrays : p.shared.arraysFreed = false := by
    by_contra harrays
    exact hleft (hinv.arrays (by simpa using harrays))
  have hfront : p.shared.pool.queue.count ≠ 0 → (Ring.front p.shared.pool.queue).isSome := by
    intro hcount
    rcases (queue_inv hcreate hrun).fifo with ⟨pending, hholds, -⟩
    cases pending with
    | nil => exact absurd hholds.count hcount
    | cons x pending => rw [hholds.front_eq]; rfl
  have hready : 0 < total Thread.awake p.threads + p.shared.woken := by
    by_cases hshut : p.shared.pool.shutdown = .no
    · exact hinv.signalled (hwork.resolve_right fun h => h hshut) hshut
    · have hall := hinv.broadcast hshut
      have halive := hinv.alive
      omega
  have hthread : ∃ t ∈ p.threads, t ≠ .join ∧ (sect p.shared t false).isSome := by
    rcases Nat.eq_zero_or_pos (total Thread.awake p.threads) with hzero | hpos
    · -- all workers wait, and one has been signalled
      have hwoken : 0 < p.shared.woken := by omega
      have hwaits : 0 < total Thread.waits p.threads := by
        have hle := hinv.woken
        rw [hinv.waiting]
        omega
      rcases exists_of_total_pos hwaits with ⟨t, hmem, ht⟩
      cases t with
      | wait => exact ⟨.wait, hmem, by simp, by simp [sect, hwoken]⟩
      | _ => cases ht
    · rcases exists_of_total_pos hpos with ⟨t, hmem, ht⟩
      refine ⟨t, hmem, ?_, sect_of_awake hfree hlock harrays hfront ht⟩
      rintro rfl
      cases ht
  rcases hthread with ⟨t, hmem, hne, hsome⟩
  rcases List.getElem?_of_mem hmem with ⟨k, hk⟩
  rcases Option.isSome_iff_exists.mp hsome with ⟨r, hr⟩
  rcases step_of_sect hk hr with ⟨q, hq⟩
  exact ⟨k, t, hk, hne, by rw [hq]; rfl⟩

/-- No wake-up is lost. While a worker sleeps without having been signalled, there are at
least as many others signalled or about to look at the queue, and not busy with a task, as
tasks are queued. And some worker can go on, unless the mutex has been left locked, while a
task is queued or the pool shuts down and a worker is left. -/
theorem no_wakeup_lost (hcreate : threadpoolCreate threadCount queueSize heap = some pool)
    (hrun : PoolRuns (startUp pool) tr p) :
    (p.shared.woken < p.shared.waiting →
        p.shared.pool.queue.count ≤ total Thread.looks p.threads + p.shared.woken) ∧
      (p.shared.lockLeft = false →
        p.shared.pool.queue.count ≠ 0 ∨ p.shared.pool.shutdown ≠ .no → p.shared.pool.started ≠ 0 →
        ∃ k t, p.threads[k]? = some t ∧ t ≠ .join ∧ (poolStep p (.run k false)).isSome) :=
  ⟨(worker_inv hcreate hrun).looking, worker_can_move hcreate hrun⟩

/-- Three workers and room for two tasks. -/
def threePool : ThreadpoolT ℕ := ⟨⟨[0, 0], 2, 0, 0, 0⟩, 3, .no, 3⟩

theorem threePool_created : threadpoolCreate 3 2 (fun _ => 0) = some threePool := rfl

/-- All three wait, and two tasks are added. -/
def twoSignals : List (Pool.Label (Call ℕ) Bool) :=
  [.run 0 false, .run 1 false, .run 2 false, .call (.threadpoolAdd 7 1), .call (.threadpoolAdd 8 1)]

theorem twoSignals_executes : (Exec.run poolStep (Pool.Allowed (fun _ => True) fun _ _ _ _ => True)
    (startUp threePool) twoSignals).isSome := by decide

theorem no_wakeup_lost_twoSignals :
    ∃ tr p, PoolRuns (startUp threePool) tr p ∧ p.shared.pool.queue.count = 2 ∧
      p.shared.waiting = 3 ∧
      p.shared.pool.queue.count ≤ total Thread.looks p.threads + p.shared.woken ∧
      ∃ k t, p.threads[k]? = some t ∧ t ≠ .join ∧ (poolStep p (.run k false)).isSome := by
  have hrun := Exec.runs_of_isSome twoSignals_executes
  have hlost := no_wakeup_lost threePool_created hrun
  exact ⟨_, _, hrun, rfl, rfl, hlost.1 (by decide), hlost.2 rfl (.inl (by decide)) (by decide)⟩

/-! ## Shutting down -/

/-- Some thread runs its next section. -/
def Moves (p q : Config τ) : Prop := ∃ k c ev, poolStep p (.run k c) = some (q, ev)

/-- How far a thread is from its end when no more tasks are taken. -/
def Thread.distance : Thread τ → ℕ
  | .check => 1
  | .wait => 2
  | .work _ => 2
  | .join => 2
  | .free => 1

/-- A bound on the sections that can still be run. -/
def remaining (p : Config τ) : ℕ := total Thread.distance p.threads + 3 * p.shared.pool.queue.count

theorem section_keeps (h : Section s t r) :
    r.shared.pool.shutdown = s.pool.shutdown ∧ r.shared.lockLeft = s.lockLeft := by
  cases h <;> exact ⟨rfl, rfl⟩

/-- Nobody waits any more, so every section brings the end nearer. -/
theorem section_distance (hshut : s.pool.shutdown ≠ .no) (h : Section s t r) :
    total Thread.distance r.threads + 3 * r.shared.pool.queue.count <
      t.distance + 3 * s.pool.queue.count := by
  cases h with
  | wait _ _ hopen => exact absurd hopen hshut
  | take _ _ hcount =>
    -- the worker is one section further from its end, but three less are due for the queue
    simp only [Pool.total_cons, Pool.total_nil, Thread.distance, Ring.pop_count]
    omega
  | _ => simp [Thread.distance]

theorem moves_cases (h : Moves p q) :
    ∃ t ts r, p.threads.Perm (t :: ts) ∧ q.threads.Perm (r.threads ++ ts) ∧ q.shared = r.shared ∧
      Section p.shared t r := by
  rcases h with ⟨k, c, ev, hstep⟩
  rcases Pool.step_cases hstep with ⟨old, r, hfires, -, hshared, hold, hnew⟩
  cases hfires with
  | run _ hr => exact ⟨_, _, r, hold, hnew, hshared, section_of_sect hr⟩

theorem moves_keeps (h : Moves p q) :
    q.shared.pool.shutdown = p.shared.pool.shutdown ∧ q.shared.lockLeft = p.shared.lockLeft := by
  rcases moves_cases h with ⟨t, ts, r, -, -, hshared, hr⟩
  rw [hshared]
  exact section_keeps hr

theorem moves_remaining (hshut : p.shared.pool.shutdown ≠ .no) (h : Moves p q) :
    remaining q < remaining p := by
  rcases moves_cases h with ⟨t, ts, r, hold, hnew, hshared, hr⟩
  have hless := section_distance hshut hr
  rw [remaining, remaining, Pool.total_of_perm _ hold, Pool.total_of_perm _ hnew, hshared,
    Pool.total_append, Pool.total_cons]
  omega

theorem runs_of_moves (hrun : PoolRuns (startUp pool) tr p) (h : Relation.ReflTransGen Moves p q) :
    ∃ tr', PoolRuns (startUp pool) (tr ++ tr') q := by
  induction h with
  | refl => exact ⟨[], by simpa using hrun⟩
  | @tail b d _ hmove ih =>
    rcases ih with ⟨tr', hrun'⟩
    rcases hmove with ⟨k, c, ev, hstep⟩
    refine ⟨tr' ++ ev, ?_⟩
    have hok : Pool.Allowed (fun _ : Call τ => True) (fun _ _ _ _ => True) b (.run k c) :=
      fun _ _ => trivial
    rw [← List.append_assoc]
    exact hrun'.next hok hstep

/-- A pool in which no thread can go on, after a destroy, has been freed. -/
theorem freed_of_stuck (hcreate : threadpoolCreate threadCount queueSize heap = some pool)
    (hrun : PoolRuns (startUp pool) tr p) (hlock : p.shared.lockLeft = false)
    (hshut : p.shared.pool.shutdown ≠ .no) (hstuck : ∀ q, ¬ Moves p q) : p.shared.freed = true := by
  have hinv := worker_inv hcreate hrun
  have hnone : p.shared.pool.started = 0 := by
    by_contra hleft
    -- a worker that is left could go on
    rcases worker_can_move hcreate hrun hlock (.inr hshut) hleft with ⟨k, t, -, -, hsome⟩
    rcases Option.isSome_iff_exists.mp hsome with ⟨⟨q, ev⟩, hq⟩
    exact hstuck q ⟨k, false, ev, hq⟩
  by_contra hfreed
  have hfreed : p.shared.freed = false := by simpa using hfreed
  have hjoins : 0 < total Thread.joins p.threads := by
    have honce := hinv.once
    rw [if_neg hshut, hfreed] at honce
    simp only [Bool.toNat_false] at honce
    omega
  -- the destroy that waits for the workers or for the mutex could go on as well
  rcases exists_of_total_pos hjoins with ⟨t, hmem, ht⟩
  rcases List.getElem?_of_mem hmem with ⟨k, hk⟩
  cases t with
  | join =>
    have hreturned : p.shared.returned = p.shared.pool.threadCount := by
      have hcount := hinv.returned
      rw [hinv.threadCount]
      omega
    have hr : sect p.shared .join false =
        some ⟨{ p.shared with arraysFreed := true }, [.free], []⟩ := by
      simp [sect, threadpoolFree, hreturned, hnone, hfreed]
    rcases step_of_sect hk hr with ⟨q, hq⟩
    exact hstuck q ⟨k, false, _, hq⟩
  | free =>
    have hr : sect p.shared .free false = some ⟨{ p.shared with freed := true }, [], [.freed]⟩ := by
      simp [sect, threadpoolFreeLocked, hfreed, hlock]
    rcases step_of_sect hk hr with ⟨q, hq⟩
    exact hstuck q ⟨k, false, _, hq⟩
  | _ => cases ht

/-- Once a destroy has shut the pool down, the workers come to their end and the pool
is freed, in whatever order the threads are scheduled. -/
theorem destroy_returns (hcreate : threadpoolCreate threadCount queueSize heap = some pool)
    (hrun : PoolRuns (startUp pool) tr p) (hlock : p.shared.lockLeft = false)
    (hshut : p.shared.pool.shutdown ≠ .no) :
    (∀ f : ℕ → Config τ, f 0 = p → ∃ k, ¬ Moves (f k) (f (k + 1))) ∧
      ∀ q, Relation.ReflTransGen Moves p q → (∀ q', ¬ Moves q q') → q.shared.freed = true := by
  constructor
  · intro f hf
    by_contra hforever
    have hmoves : ∀ k, Moves (f k) (f (k + 1)) := by
      intro k
      by_contra hk
      exact hforever ⟨k, hk⟩
    have hshut' : ∀ k, (f k).shared.pool.shutdown ≠ .no := by
      intro k
      induction k with
      | zero => rwa [hf]
      | succ k ih => rwa [(moves_keeps (hmoves k)).1]
    have hanti : StrictAnti fun k => remaining (f k) :=
      strictAnti_nat_of_succ_lt fun k => moves_remaining (hshut' k) (hmoves k)
    exact not_strictAnti_of_wellFoundedLT _ hanti
  · intro q hq hstuck
    have hkeeps : q.shared.pool.shutdown ≠ .no ∧ q.shared.lockLeft = false := by
      clear hstuck
      induction hq with
      | refl => exact ⟨hshut, hlock⟩
      | tail _ hmove ih =>
        have hk := moves_keeps hmove
        rw [hk.1, hk.2]
        exact ih
    rcases runs_of_moves hrun hq with ⟨tr', hrun'⟩
    exact freed_of_stuck hcreate hrun' hkeeps.2 hkeeps.1 hstuck

/-- The pool is destroyed while the second task is queued. -/
def shutDown : List (Pool.Label (Call ℕ) Bool) := twoTasks ++ [.call (.threadpoolDestroy true)]

theorem shutDown_executes : (Exec.run poolStep (Pool.Allowed (fun _ => True) fun _ _ _ _ => True)
    (startUp onePool) shutDown).isSome := by decide

theorem destroy_returns_shutDown :
    ∃ tr p, PoolRuns (startUp onePool) tr p ∧ p.threads.length = 2 ∧
      (∀ f : ℕ → Config ℕ, f 0 = p → ∃ k, ¬ Moves (f k) (f (k + 1))) ∧
      ∀ q, Relation.ReflTransGen Moves p q → (∀ q', ¬ Moves q q') → q.shared.freed = true := by
  have hrun := Exec.runs_of_isSome shutDown_executes
  exact ⟨_, _, hrun, rfl, destroy_returns onePool_created hrun rfl (by decide)⟩

theorem length_eq (ts : List (Thread τ)) :
    ts.length = total Thread.awake ts + total Thread.waits ts + total Thread.joins ts := by
  induction ts with
  | nil => rfl
  | cons t ts ih =>
    have ht : t.awake + t.waits + t.joins = 1 := by cases t <;> rfl
    rw [List.length_cons, Pool.total_cons, Pool.total_cons, Pool.total_cons, ih]
    omega

/-- When the pool is freed no thread is left that could still use it, and all tasks that
were begun have been run. After a graceful destroy these are all accepted tasks. -/
theorem freed_after_tasks (hcreate : threadpoolCreate threadCount queueSize heap = some pool)
    (hrun : PoolRuns (startUp pool) tr p) (hfreed : p.shared.freed = true) :
    p.threads = [] ∧ (tookTasks tr).Perm (ranTasks tr) ∧ tookTasks tr <+: acceptedTasks tr ∧
      (p.shared.pool.shutdown = .gracefulShutdown → tookTasks tr = acceptedTasks tr) := by
  have hinv := worker_inv hcreate hrun
  have hstarted := hinv.freed hfreed
  have hnone : p.threads = [] := by
    have halive := hinv.alive
    have hwaiting := hinv.waiting
    have honce := hinv.once
    rw [hfreed, Bool.toNat_true] at honce
    apply List.length_eq_zero_iff.mp
    rw [length_eq]
    omega
  rcases (queue_inv hcreate hrun) with ⟨-, ⟨pending, hholds, hfifo⟩, hrunning⟩
  refine ⟨hnone, ?_, ?_, ?_⟩
  · rw [hnone, Pool.total_nil, add_zero] at hrunning
    exact Multiset.coe_eq_coe.mp hrunning
  · rw [hfifo]
    exact List.prefix_append _ _
  · intro hgraceful
    have hreturned : 0 < p.shared.returned := by
      have hcount := hinv.returned
      have hpos := hinv.positive
      omega
    have hzero := hinv.drained hgraceful hreturned
    rw [hholds.count, List.length_eq_zero_iff] at hzero
    rw [hfifo, hzero, List.append_nil]

/-- The second task is run, the worker ends and the pool is freed. -/
def tasksFinished : List (Pool.Label (Call ℕ) Bool) := shutDown ++ List.replicate 5 (.run 0 false)

theorem tasksFinished_executes :
    (Exec.run poolStep (Pool.Allowed (fun _ => True) fun _ _ _ _ => True)
      (startUp onePool) tasksFinished).isSome := by decide

theorem freed_after_tasks_tasksFinished :
    ∃ tr p, PoolRuns (startUp onePool) tr p ∧ ranTasks tr = [7, 8] ∧
      p.threads = [] ∧ (tookTasks tr).Perm (ranTasks tr) ∧ tookTasks tr <+: acceptedTasks tr ∧
      (p.shared.pool.shutdown = .gracefulShutdown → tookTasks tr = acceptedTasks tr) := by
  have hrun := Exec.runs_of_isSome tasksFinished_executes
  exact ⟨_, _, hrun, rfl, freed_after_tasks onePool_created hrun rfl⟩

/-! ## A second destroy -/

/-- A mutex that has been left locked stays so, and the pool is not touched any more, except
that its arrays may be freed when all workers had returned before. -/
structure Blocked (s₀ s : Shared τ) : Prop where
  lockLeft : s.lockLeft = true
  freed : s.freed = false
  pool : s.pool = s₀.pool
  returned : s.returned = s₀.returned
  arrays : s.arraysFreed = true → s₀.arraysFreed = true ∨ s₀.returned = s₀.pool.threadCount

theorem blocked_section {s₀ : Shared τ} (hunfreed : s₀.returned = s₀.pool.threadCount →
    s₀.pool.started = 0) (h : Blocked s₀ s) (hr : Section s t r) :
    Blocked s₀ r.shared ∧ ∀ e ∈ r.events, ∃ task, e = .ran task := by
  have hlocked := h.lockLeft
  cases hr with
  | wait hlock => rw [hlock] at hlocked; cases hlocked
  | exit hlock => rw [hlock] at hlocked; cases hlocked
  | take hlock => rw [hlock] at hlocked; cases hlocked
  | freed hlock => rw [hlock] at hlocked; cases hlocked
  | notFreed hstarted hreturned =>
    rw [h.pool] at hstarted hreturned
    rw [h.returned] at hreturned
    rw [hunfreed hreturned] at hstarted
    cases hstarted
  | arraysFreed _ hreturned =>
    rw [h.pool, h.returned] at hreturned
    exact ⟨{ h with arrays := fun _ => .inr hreturned }, fun _ he => absurd he List.not_mem_nil⟩
  | spurious => exact ⟨{ h with }, fun _ he => absurd he List.not_mem_nil⟩
  | signalled _ => exact ⟨{ h with }, fun _ he => absurd he List.not_mem_nil⟩
  | @work task => exact ⟨h, fun e he => ⟨task, List.mem_singleton.mp he⟩⟩

/-- The mutex of a pool that has been freed was not left locked. -/
theorem unfreed_of_lockLeft (hrun : PoolRuns (startUp pool) tr p)
    (hlock : p.shared.lockLeft = true) : p.shared.freed = false := by
  suffices hboth : ¬ (p.shared.lockLeft = true ∧ p.shared.freed = true) by
    rw [← Bool.not_eq_true]
    exact fun hfreed => hboth ⟨hlock, hfreed⟩
  refine Pool.invariant (P := fun _ (s : Shared τ) _ => ¬ (s.lockLeft = true ∧ s.freed = true))
    (fun _ _ _ _ _ h => h) ?_ ?_ ?_ hrun
  · rintro ⟨hlock, -⟩
    cases hlock
  · intro tr s ts i r hinv _ hr
    rcases called_of_call hr with ⟨hfree, -, hcalled⟩
    cases hcalled with
    | _ => rintro ⟨-, hfreed⟩; exact absurd (hfree.symm.trans hfreed) Bool.false_ne_true
  · intro tr s t ts c r hinv _ hr
    cases section_of_sect hr with
    | freed hlock =>
      rintro ⟨hlocked, -⟩
      exact absurd (hlock.symm.trans hlocked) Bool.false_ne_true
    | _ => exact hinv

/-- A destroy that finds the pool shutting down returns with the mutex locked. From then on
no call returns, no task is taken and the first destroy does not return either: only the
tasks that were being run come to their end. The fields of the pool stay as they are and it
is never freed; its two arrays still are if the first destroy has freed them or had only to
join workers that had all returned. -/
theorem second_destroy_blocks (hcreate : threadpoolCreate threadCount queueSize heap = some pool)
    (hrun : PoolRuns (startUp pool) tr p) (hlock : p.shared.lockLeft = true)
    (hrest : PoolRuns p ev q) :
    q.shared.pool = p.shared.pool ∧ q.shared.lockLeft = true ∧ q.shared.freed = false ∧
      (q.shared.arraysFreed = true →
        p.shared.arraysFreed = true ∨ p.shared.returned = p.shared.pool.threadCount) ∧
      ∀ e ∈ ev, ∃ task, e = .ran task := by
  have hunfreed : p.shared.returned = p.shared.pool.threadCount → p.shared.pool.started = 0 := by
    intro hreturned
    have hinv := worker_inv hcreate hrun
    have hcount := hinv.returned
    rw [hreturned, hinv.threadCount] at hcount
    omega
  have hblocked : Blocked p.shared q.shared ∧ ∀ e ∈ ev, ∃ task, e = .ran task := by
    refine Pool.invariant
      (P := fun ev s _ => Blocked p.shared s ∧ ∀ e ∈ ev, ∃ task, e = Event.ran task)
      (fun _ _ _ _ _ h => h) ?_ ?_ ?_ hrest
    · exact ⟨⟨hlock, unfreed_of_lockLeft hrun hlock, rfl, rfl, .inl⟩,
        fun _ he => absurd he List.not_mem_nil⟩
    · intro ev s ts i r hinv _ hr
      have hopen := (called_of_call hr).2.1
      rw [hinv.1.lockLeft] at hopen
      cases hopen
    · intro ev s t ts c r hinv _ hr
      have hsection := blocked_section hunfreed hinv.1 (section_of_sect hr)
      refine ⟨hsection.1, fun e he => ?_⟩
      rcases List.mem_append.mp he with he | he
      · exact hinv.2 e he
      · exact hsection.2 e he
  exact ⟨hblocked.1.pool, hblocked.1.lockLeft, hblocked.1.freed, hblocked.1.arrays, hblocked.2⟩

/-- The worker has taken the second task when the pool is destroyed again. -/
def destroyedTwice : List (Pool.Label (Call ℕ) Bool) :=
  shutDown ++ [.run 0 false, .call (.threadpoolDestroy true)]

theorem destroyedTwice_executes :
    (Exec.run poolStep (Pool.Allowed (fun _ => True) fun _ _ _ _ => True)
      (startUp onePool) destroyedTwice).isSome := by decide

/-- The pool after that. -/
def leftLocked : Config ℕ := ((Exec.run poolStep (Pool.Allowed (fun _ => True) fun _ _ _ _ => True)
  (startUp onePool) destroyedTwice).get destroyedTwice_executes).1

theorem lastTask_executes : (Exec.run poolStep (Pool.Allowed (fun _ => True) fun _ _ _ _ => True)
    leftLocked [.run 0 false]).isSome := by decide

/-- The worker has returned when the pool is destroyed again. -/
def destroyedLate : List (Pool.Label (Call ℕ) Bool) :=
  shutDown ++ List.replicate 3 (.run 0 false) ++ [.call (.threadpoolDestroy true)]

theorem destroyedLate_executes :
    (Exec.run poolStep (Pool.Allowed (fun _ => True) fun _ _ _ _ => True)
      (startUp onePool) destroyedLate).isSome := by decide

/-- The pool after that, with the first destroy at `pthread_join`. -/
def joinLeft : Config ℕ := ((Exec.run poolStep (Pool.Allowed (fun _ => True) fun _ _ _ _ => True)
  (startUp onePool) destroyedLate).get destroyedLate_executes).1

theorem joined_executes : (Exec.run poolStep (Pool.Allowed (fun _ => True) fun _ _ _ _ => True)
    joinLeft [.run 0 false]).isSome := by decide

theorem second_destroy_blocks_destroyedTwice :
    (∃ tr p ev q, PoolRuns (startUp onePool) tr p ∧ PoolRuns p ev q ∧ ev = [.ran 8] ∧
        q.shared.pool = p.shared.pool ∧ q.shared.lockLeft = true ∧ q.shared.freed = false ∧
        (q.shared.arraysFreed = true →
          p.shared.arraysFreed = true ∨ p.shared.returned = p.shared.pool.threadCount) ∧
        ∀ e ∈ ev, ∃ task, e = .ran task) ∧
      ∃ tr p ev q, PoolRuns (startUp onePool) tr p ∧ PoolRuns p ev q ∧
        p.shared.arraysFreed = false ∧ q.shared.arraysFreed = true ∧
        q.shared.pool = p.shared.pool ∧ q.shared.lockLeft = true ∧ q.shared.freed = false ∧
        (q.shared.arraysFreed = true →
          p.shared.arraysFreed = true ∨ p.shared.returned = p.shared.pool.threadCount) ∧
        ∀ e ∈ ev, ∃ task, e = .ran task := by
  have htwice := Exec.runs_of_isSome destroyedTwice_executes
  have hlast := Exec.runs_of_isSome lastTask_executes
  have hlate := Exec.runs_of_isSome destroyedLate_executes
  have hjoined := Exec.runs_of_isSome joined_executes
  exact ⟨⟨_, _, _, _, htwice, hlast, rfl, second_destroy_blocks onePool_created htwice rfl hlast⟩,
    ⟨_, _, _, _, hlate, hjoined, rfl, rfl, second_destroy_blocks onePool_created hlate rfl hjoined⟩⟩

end MqttMsgHub.Threadpool
