import MqttMsgHub.Hub

/-! # Wake-ups

The offline sender is started by the connected callback only. A message that is
pushed when the callback has already looked at the queue, or when the sender
has made its last test, waits for the next reconnection. The steps at which
this can happen are a push, an early return of `asyn_send_offline_messages`
(a sender is still marked running, or no thread could be created) and the
exit of a created sender that finds the flag set. If at each of them the
client is disconnected or another thread is going to look at the queue, no
message is stranded.

* `wakeUp_inv` — a connected hub with messages has a thread that drains;
* `no_stranded_message` — so a quiet connected hub has none;
* `push_after_callback_strands` — a request that outlives the callback.
-/

namespace MqttMsgHub

open Pool (total Outcome)

variable {tr : List Event} {s s₀ : Hub} {ts : List Thread} {J : Text → Option Json}
  {env : Env} {t : Thread} {i : Call} {r : Outcome Hub Thread Event} {p : Pool.Config Hub Thread}

/-! ## Threads that look at the queue -/

/-- Threads that will test the queue, or start a thread that does: the connected
callback before its report, a sender before it clears the flag. -/
def Thread.drains : Thread → ℕ
  | .callback .report => 0
  | .callback _ => 1
  | .sender .finish => 0
  | .sender _ => 1
  | _ => 0

/-- The sections that may leave a message behind: a push, the return of the
callback from `asyn_send_offline_messages` without a new sender, the exit of
a sender that finds the flag set. The returns and the exit are harmless
while the queue is empty. -/
def Thread.mayStrand (s : Hub) (env : Env) : Thread → Bool
  | .enqueue _ .push => true
  | .callback (.asyn .flag) => s.isAsyncSending && !s.queue.isEmpty
  | .callback (.asyn .create) => !env.threadCreated && !s.queue.isEmpty
  | .sender .created => s.isAsyncSending && !s.queue.isEmpty
  | _ => false

/-- Each of these sections runs while the client is disconnected or another
thread drains. -/
def wakesUp : Hub → List Thread → Thread → Env → Prop := fun s ts t env =>
  t.mayStrand s env = true → s.connected = false ∨ 0 < total Thread.drains ts

/-- A connected hub with messages has a thread that drains. -/
def Attended (s : Hub) (ts : List Thread) : Prop :=
  s.connected = true → s.queue ≠ [] → 0 < total Thread.drains ts

theorem attended_of_wakesUp (hok : wakesUp s ts t env)
    (hstrand : s.queue ≠ [] → t.mayStrand s env = true) : Attended s ts := by
  intro hconn hqueue
  rcases hok (hstrand hqueue) with hdown | hother
  · rw [hdown] at hconn
    cases hconn
  · exact hother

/-- A thread that goes on draining attends whatever the section did. -/
theorem attended_of_new {new : List Thread} (hnew : 0 < total Thread.drains new) :
    Attended s (new ++ ts) := by
  intro _ _
  rw [Pool.total_append]
  omega

/-- A section that neither touches the queue nor ends a draining thread. -/
theorem Attended.keep {s' : Hub} {new : List Thread} (old : List Thread)
    (h : Attended s (old ++ ts))
    (hconn : s'.connected = s.connected) (hlist : s'.list = s.list)
    (hdrains : total Thread.drains old ≤ total Thread.drains new) : Attended s' (new ++ ts) := by
  intro hup hqueue
  have hpos := h (hconn ▸ hup) (by simpa [Hub.queue, hlist] using hqueue)
  rw [Pool.total_append] at hpos ⊢
  omega

theorem attended_section (h : Attended s ([t] ++ ts)) (hok : wakesUp s ts t env)
    (hr : Section J s env t r) : Attended r.shared (r.threads ++ ts) := by
  cases hr with
  | initList =>
    intro _ hqueue
    exact absurd rfl hqueue
  | push hl hroom =>
    -- the pushing thread itself wakes nobody
    intro hconn _
    rcases hok rfl with hdown | hother
    · rw [hdown] at hconn
      cases hconn
    · exact hother
  | callbackNone hq =>
    intro _ hqueue
    exact absurd hq hqueue
  | callbackAsyn ha =>
    cases ha with
    | noMessages hq =>
      intro _ hqueue
      exact absurd hq hqueue
    | sending hf =>
      have hothers := attended_of_wakesUp hok (by simp [Thread.mayStrand, hf])
      simpa [Attended, Thread.drains] using hothers
    | notCreated hc =>
      have hothers := attended_of_wakesUp hok (by simp [Thread.mayStrand, hc])
      simpa [Attended, Thread.drains] using hothers
    | _ => exact attended_of_new (by simp [Thread.drains])
  | senderRefused hf => exact attended_of_wakesUp hok (by simp [Thread.mayStrand, hf])
  | senderNone hq =>
    -- a sender leaves the loop with an empty queue, or without a connection
    intro _ hqueue
    exact absurd hq hqueue
  | senderOffline hc =>
    intro hconn _
    rw [Hub.goto_shared, hc] at hconn
    cases hconn
  -- the sender comes back to its test
  | popSome hl => exact attended_of_new (by simp [Thread.drains])
  | putBack hl hroom => exact attended_of_new (by simp [Thread.drains])
  | asyn ha => cases ha <;> exact h.keep [_] rfl rfl (by simp [Thread.drains])
  | _ => exact h.keep [_] rfl rfl (by simp [Thread.drains])

theorem attended_called (h : Attended s ts) (hr : Called J s i r) :
    Attended r.shared (r.threads ++ ts) := by
  cases hr with
  | connected hc => exact attended_of_new (by simp [Thread.drains])
  | connectionLost =>
    intro hconn _
    cases hconn
  | _ => exact Attended.keep [] h rfl rfl (by simp)

theorem wakeUp_inv {callOk : Call → Prop} (hstart : s₀.connected = false)
    (hrun : HubRuns J callOk wakesUp s₀ tr p) : Attended p.shared p.threads := by
  refine Pool.invariant (P := fun _ s ts => Attended s ts) ?_ ?_ ?_ ?_ hrun
  · intro tr s ts us hperm h hconn hqueue
    rw [← Pool.total_of_perm _ hperm]
    exact h hconn hqueue
  · intro hconn
    rw [hstart] at hconn
    cases hconn
  · intro tr s ts i r hinv _ hr
    exact attended_called hinv (called_of_call hr)
  · intro tr s t ts env r hinv hok hr
    exact attended_section hinv hok (section_of_sect hr)

/-- In a run that wakes up a sender in time, a connected hub without a running
callback and without a sender has an empty queue. -/
theorem no_stranded_message (hstart : s₀.connected = false)
    (hrun : HubRuns J anyCall wakesUp s₀ tr p) (hconn : p.shared.connected = true)
    (hcallback : ∀ pc, .callback pc ∉ p.threads) (hsender : ∀ pc, .sender pc ∉ p.threads) :
    p.shared.queue = [] := by
  by_contra hqueue
  have hpos := wakeUp_inv hstart hrun hconn hqueue
  have hzero : total Thread.drains p.threads = 0 := by
    apply Pool.total_eq_zero
    intro t ht
    cases t with
    | callback pc => exact absurd ht (hcallback pc)
    | sender pc => exact absurd ht (hsender pc)
    | _ => rfl
  omega

instance (s : Hub) (ts : List Thread) (t : Thread) (env : Env) : Decidable (wakesUp s ts t env) :=
  inferInstanceAs (Decidable (_ → _))

/-- A request caches its message while the client is disconnected; the callback of the
next connection starts a sender, which empties the queue and ends. -/
def drainedRun : List (Pool.Label Call Env) :=
  .call (.httpRequest pingText none true 7) :: List.replicate 6 (.run 0 quietEnv) ++
  .call .onConnect :: List.replicate 17 (.run 0 quietEnv)

theorem drainedRun_executes : (Exec.run (hubStep pingTokener) (Pool.Allowed anyCall wakesUp)
    ⟨roomForOne, []⟩ drainedRun).isSome := by decide

theorem no_stranded_message_drainedRun :
    ∃ tr p, HubRuns pingTokener anyCall wakesUp roomForOne tr p ∧
      (.pushed ⟨8, 7⟩ ∈ tr ∧ .offlineSent ∈ tr) ∧ p.threads = [] ∧ p.shared.queue = [] := by
  have hrun := Exec.runs_of_isSome drainedRun_executes
  have hthreads : ((Exec.run (hubStep pingTokener) (Pool.Allowed anyCall wakesUp)
      ⟨roomForOne, []⟩ drainedRun).get drainedRun_executes).1.threads = [] := by decide
  refine ⟨_, _, hrun, by decide, hthreads, ?_⟩
  exact no_stranded_message rfl hrun (by decide) (by simp [hthreads]) (by simp [hthreads])

/-! ## A request that outlives the callback -/

/-- A request finds the client disconnected; before it enqueues its message the
connection comes up, and the callback finds an empty queue. -/
def strandingRun : List (Pool.Label Call Env) :=
  [.call (.httpRequest pingText none true 7), .run 0 quietEnv, .call .onConnect] ++
    List.replicate 3 (.run 1 quietEnv) ++ List.replicate 5 (.run 0 quietEnv)

theorem strandingRun_executes : (Exec.run (hubStep pingTokener) (Pool.Allowed anyCall anySect)
    ⟨roomForOne, []⟩ strandingRun).isSome := by decide

/-- After the push the client is connected, no thread is left, and the message
is still queued. -/
theorem push_after_callback_strands :
    ¬ ∀ (s₀ : Hub) (tr : List Event) (p : Pool.Config Hub Thread), s₀.connected = false →
      s₀.isAsyncSending = false → HubRuns pingTokener anyCall anySect s₀ tr p →
      p.shared.connected = true → p.threads = [] → p.shared.queue = [] := by
  intro hclaim
  have hempty := hclaim _ _ _ rfl rfl (Exec.runs_of_isSome strandingRun_executes) (by decide)
    (by decide)
  revert hempty
  decide

end MqttMsgHub
