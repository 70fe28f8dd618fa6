import MqttMsgHub.Drain

/-! # Who owns a timestamp

The timestamp of an `enqueue_offline_message` call names its message from then
on: in the queue, in a cache file, in the sender's hand. While the calls (and
the entries loaded at start-up) have distinct timestamps, no two places of the
hub ever hold the same one. This is a counting argument for each timestamp
`a` on its own: no section makes more copies of `a` than the calls have
brought in.

* `owned_inv` — queue and threads, each thread until its file is unlinked;
* `settled_inv` — queue and undecided threads, together with the entries whose
  fate is in the trace.
-/

namespace MqttMsgHub

open Pool (total Outcome)

/-! ## Observations -/

/-- The call in an event. -/
def Event.enqueued : Event → List EnqueueCall
  | .enqueueCall k => [k]
  | _ => []

/-- The calls of `enqueue_offline_message` in a trace. -/
def enqueueCalls (tr : List Event) : List EnqueueCall := tr.flatMap Event.enqueued

/-- The timestamps that have come into the hub: loaded at start-up or brought
by a call. -/
def stamps (q₀ : List CacheFileHeader) (tr : List Event) : List CInt64 :=
  q₀.map CacheFileHeader.timestamp ++ (enqueueCalls tr).map EnqueueCall.timestamp

/-- The entry that a thread works on, up to its `unlink`. -/
def Thread.entries : Thread → List CacheFileHeader
  | .enqueue k _ => [k.header]
  | .sender (.fileExists e) => [e]
  | .sender (.readFile e) => [e]
  | .sender (.send e _) => [e]
  | .sender (.countSent e) => [e]
  | .sender (.unlink e) => [e]
  | .sender (.putBack e) => [e]
  | _ => []

/-- The call that a thread executes. -/
def Thread.calls : Thread → List EnqueueCall
  | .enqueue k _ => [k]
  | _ => []

/-- The entry of a thread while it is neither queued nor settled. -/
def Thread.undecided : Thread → List CacheFileHeader
  | .enqueue k pc => if pc = .countRejected then [] else [k.header]
  | .sender pc => (Thread.sender pc).held
  | _ => []

/-- The entry that is published or dropped in an event. -/
def Event.settled : Event → List CacheFileHeader
  | .published (.cached e) _ => [e]
  | .rejected e => [e]
  | .evicted e => [e]
  | .thrownAway e => [e]
  | .fileMissing e => [e]
  | .readFailed e => [e]
  | .parseFailed e => [e]
  | _ => []

/-- The entries that were published or dropped. -/
def settledEntries (tr : List Event) : List CacheFileHeader := tr.flatMap Event.settled

/-- How often a timestamp occurs in a list of entries. -/
def copies (a : CInt64) (q : List CacheFileHeader) : ℕ := (q.map CacheFileHeader.timestamp).count a

/-- One copy for an entry with this timestamp. -/
def CacheFileHeader.copy (a : CInt64) (e : CacheFileHeader) : ℕ := if e.timestamp = a then 1 else 0

@[simp] theorem copies_nil (a : CInt64) : copies a [] = 0 := rfl

@[simp] theorem copies_cons (a : CInt64) (e : CacheFileHeader) (q : List CacheFileHeader) :
    copies a (e :: q) = e.copy a + copies a q := by
  simp only [copies, CacheFileHeader.copy, List.map_cons, List.count_cons, beq_iff_eq]
  omega

@[simp] theorem copies_append (a : CInt64) (q q' : List CacheFileHeader) :
    copies a (q ++ q') = copies a q + copies a q' := by
  simp [copies]

theorem copies_of_perm {q q' : List CacheFileHeader} (h : q.Perm q') (a : CInt64) :
    copies a q = copies a q' :=
  (h.map _).count_eq a

theorem copies_pos_of_mem {e : CacheFileHeader} {q : List CacheFileHeader} (h : e ∈ q) :
    0 < copies e.timestamp q :=
  List.count_pos_iff.mpr (List.mem_map_of_mem h)

@[simp] theorem copy_self (e : CacheFileHeader) : e.copy e.timestamp = 1 := if_pos rfl

@[simp] theorem enqueueCalls_nil : enqueueCalls [] = [] := rfl

@[simp] theorem enqueueCalls_cons (x : Event) (tr : List Event) :
    enqueueCalls (x :: tr) = x.enqueued ++ enqueueCalls tr := rfl

@[simp] theorem enqueueCalls_append (tr ev : List Event) :
    enqueueCalls (tr ++ ev) = enqueueCalls tr ++ enqueueCalls ev :=
  List.flatMap_append

@[simp] theorem settledEntries_nil : settledEntries [] = [] := rfl

@[simp] theorem settledEntries_cons (x : Event) (tr : List Event) :
    settledEntries (x :: tr) = x.settled ++ settledEntries tr := rfl

@[simp] theorem settledEntries_append (tr ev : List Event) :
    settledEntries (tr ++ ev) = settledEntries tr ++ settledEntries ev :=
  List.flatMap_append

theorem mem_enqueueCalls {k : EnqueueCall} {tr : List Event} :
    k ∈ enqueueCalls tr ↔ .enqueueCall k ∈ tr := by
  simp only [enqueueCalls, List.mem_flatMap]
  constructor
  · rintro ⟨x, hx, hk⟩
    cases x with
    | enqueueCall k' =>
      rw [List.mem_singleton.mp hk]
      exact hx
    | _ => cases hk
  · intro h
    exact ⟨_, h, List.mem_singleton_self k⟩

/-- The copies that the calls and the start-up have brought. -/
def supply (a : CInt64) (q₀ : List CacheFileHeader) (tr : List Event) : ℕ :=
  copies a (q₀ ++ (enqueueCalls tr).map EnqueueCall.header)

theorem supply_append (a : CInt64) (q₀ : List CacheFileHeader) (tr ev : List Event) :
    supply a q₀ (tr ++ ev) =
      supply a q₀ tr + copies a ((enqueueCalls ev).map EnqueueCall.header) := by
  simp [supply, Nat.add_assoc]

theorem supply_le_one {q₀ : List CacheFileHeader} {tr : List Event} (h : (stamps q₀ tr).Nodup)
    (a : CInt64) : supply a q₀ tr ≤ 1 := by
  have hstamps : (q₀ ++ (enqueueCalls tr).map EnqueueCall.header).map CacheFileHeader.timestamp =
      stamps q₀ tr := by
    rw [List.map_append, List.map_map]
    rfl
  rw [supply, copies, hstamps]
  exact List.nodup_iff_count_le_one.mp h a

/-- Distinct timestamps are distinct in every prefix. -/
theorem stamps_nodup_of_append {q₀ : List CacheFileHeader} (tr ev : List Event)
    (h : (stamps q₀ (tr ++ ev)).Nodup) : (stamps q₀ tr).Nodup := by
  rw [stamps, enqueueCalls_append, List.map_append, ← List.append_assoc] at h
  exact (List.sublist_append_left _ _).nodup h

/-! ## The two ledgers -/

variable {q₀ : List CacheFileHeader} {tr : List Event} {s s₀ : Hub} {ts : List Thread}
  {J : Text → Option Json} {env : Env} {t : Thread} {i : Call} {r : Outcome Hub Thread Event}
  {p : Pool.Config Hub Thread}

/-- Queue and threads have no more copies than were brought in. -/
def Owned (q₀ : List CacheFileHeader) (tr : List Event) (s : Hub) (ts : List Thread) : Prop :=
  ∀ a, copies a s.queue + total (fun t => copies a t.entries) ts ≤ supply a q₀ tr

/-- The settled entries, the queue and the undecided threads have no more copies
than were brought in. -/
def Settled (q₀ : List CacheFileHeader) (tr : List Event) (s : Hub) (ts : List Thread) : Prop :=
  ∀ a, copies a (settledEntries tr) + copies a s.queue +
    total (fun t => copies a t.undecided) ts ≤ supply a q₀ tr

theorem copies_makeRoom {capacity : CInt} {q q' removed : List CacheFileHeader} {d d' : Directory}
    {fuel : ℕ} (h : makeRoom capacity fuel q d = some (q', d', removed)) (a : CInt64) :
    copies a q = copies a removed + copies a q' := by
  rw [copies_of_perm (makeRoom_spec h).perm a, copies_append]

@[simp] theorem enqueueCalls_evictions (removed : List CacheFileHeader) :
    enqueueCalls (evictions removed) = [] := by
  induction removed with
  | nil => rfl
  | cons e removed ih => exact ih

@[simp] theorem settledEntries_evictions (removed : List CacheFileHeader) :
    settledEntries (evictions removed) = removed := by
  induction removed with
  | nil => rfl
  | cons e removed ih => exact congrArg (e :: ·) ih

theorem owned_section (h : Owned q₀ tr s (t :: ts)) (hr : Section J s env t r) :
    Owned q₀ (tr ++ r.events) r.shared (r.threads ++ ts) := by
  intro a
  have ha := h a
  rw [supply_append]
  cases hr with
  | push hl hroom =>
    -- the evicted entries are given up, the new one changes its owner
    have hcount := copies_makeRoom hroom a
    simp [Thread.entries, Hub.queue, hl, Event.enqueued] at ha ⊢
    omega
  | popSome hl =>
    -- from the queue to the sender, and back when the send fails
    simp [Thread.entries, Hub.queue, hl] at ha ⊢
    omega
  | putBack hl hroom =>
    simp [Thread.entries, Hub.queue, hl, Event.enqueued] at ha ⊢
    omega
  | asyn hs => cases hs <;> simpa [Thread.entries] using ha
  | callbackAsyn hs => cases hs <;> simpa [Thread.entries] using ha
  | _ =>
    simp [Thread.entries, Hub.queue, Event.enqueued] at ha ⊢
    omega

theorem owned_called (h : Owned q₀ tr s ts) (hr : Called J s i r) :
    Owned q₀ (tr ++ r.events) r.shared (r.threads ++ ts) := by
  intro a
  have ha := h a
  rw [supply_append]
  cases hr with
  | _ =>
    simp [Thread.entries, Hub.queue, Event.enqueued] at ha ⊢
    omega

theorem Owned.of_perm {us : List Thread} (hperm : ts.Perm us) (h : Owned q₀ tr s ts) :
    Owned q₀ tr s us := by
  intro a
  rw [← Pool.total_of_perm _ hperm]
  exact h a

theorem owned_inv {callOk : Call → Prop} {sectOk : Hub → List Thread → Thread → Env → Prop}
    (hrun : HubRuns J callOk sectOk s₀ tr p) : Owned s₀.queue tr p.shared p.threads := by
  refine Pool.invariant (P := Owned s₀.queue) (fun _ _ _ _ => Owned.of_perm) ?_ ?_ ?_ hrun
  · intro a
    simp [supply]
  · intro tr s ts i r hinv _ hr
    exact owned_called hinv (called_of_call hr)
  · intro tr s t ts env r hinv _ hr
    exact owned_section hinv (section_of_sect hr)

/-! ### No two owners -/

theorem copies_entries_pos {e : CacheFileHeader} (h : e ∈ t.entries) (hmem : t ∈ ts) :
    0 < total (fun t => copies e.timestamp t.entries) ts :=
  lt_of_lt_of_le (copies_pos_of_mem h)
    (Pool.le_total_of_mem (f := fun t => copies e.timestamp t.entries) hmem)

/-- A queued entry and the entry of a thread have different timestamps. -/
theorem Owned.queue_ne_thread (h : Owned q₀ tr s ts) (hone : ∀ a, supply a q₀ tr ≤ 1)
    {x e : CacheFileHeader} (hx : x ∈ s.queue) (ht : t ∈ ts) (he : e ∈ t.entries) :
    x.timestamp ≠ e.timestamp := by
  intro heq
  have hq := copies_pos_of_mem hx
  have hthread := copies_entries_pos he ht
  have hle := h x.timestamp
  have h1 := hone x.timestamp
  rw [← heq] at hthread
  omega

/-- The entries of two threads have different timestamps. -/
theorem Owned.thread_ne_thread (h : Owned q₀ tr s (t :: ts)) (hone : ∀ a, supply a q₀ tr ≤ 1)
    {u : Thread} {x e : CacheFileHeader} (he : e ∈ t.entries) (hu : u ∈ ts) (hx : x ∈ u.entries) :
    x.timestamp ≠ e.timestamp := by
  intro heq
  have hfirst := copies_pos_of_mem he
  have hthread := copies_entries_pos hx hu
  have hle := h x.timestamp
  have h1 := hone x.timestamp
  rw [Pool.total_cons] at hle
  rw [← heq] at hfirst
  omega

theorem Owned.queue_nodup (h : Owned q₀ tr s ts) (hone : ∀ a, supply a q₀ tr ≤ 1) :
    (s.queue.map CacheFileHeader.timestamp).Nodup := by
  apply List.nodup_iff_count_le_one.mpr
  intro a
  have hle := h a
  have h1 := hone a
  unfold copies at hle
  omega

/-! ### Fates -/

theorem settled_section (h : Settled q₀ tr s (t :: ts)) (hr : Section J s env t r) :
    Settled q₀ (tr ++ r.events) r.shared (r.threads ++ ts) := by
  intro a
  have ha := h a
  rw [supply_append]
  cases hr with
  | push hl hroom =>
    -- an eviction settles the entry, a push leaves the new one undecided
    have hcount := copies_makeRoom hroom a
    simp [Thread.undecided, Hub.queue, hl, Event.enqueued, Event.settled] at ha ⊢
    omega
  | popSome hl =>
    simp [Thread.undecided, Thread.held, Hub.queue, hl] at ha ⊢
    omega
  | putBack hl hroom =>
    simp [Thread.undecided, Thread.held, Hub.queue, hl, Event.enqueued, Event.settled] at ha ⊢
    omega
  | asyn hs => cases hs <;> simpa [Thread.undecided, Thread.held] using ha
  | callbackAsyn hs => cases hs <;> simpa [Thread.undecided, Thread.held] using ha
  | _ =>
    simp [Thread.undecided, Thread.held, Hub.queue, Event.enqueued, Event.settled] at ha ⊢
    omega

theorem settled_called (h : Settled q₀ tr s ts) (hr : Called J s i r) :
    Settled q₀ (tr ++ r.events) r.shared (r.threads ++ ts) := by
  intro a
  have ha := h a
  rw [supply_append]
  cases hr with
  | _ =>
    simp [Thread.undecided, Hub.queue, Event.enqueued, Event.settled] at ha ⊢
    omega

theorem settled_inv {callOk : Call → Prop} {sectOk : Hub → List Thread → Thread → Env → Prop}
    (hrun : HubRuns J callOk sectOk s₀ tr p) : Settled s₀.queue tr p.shared p.threads := by
  refine Pool.invariant (P := Settled s₀.queue) ?_ ?_ ?_ ?_ hrun
  · intro tr s ts us hperm h a
    rw [← Pool.total_of_perm _ hperm]
    exact h a
  · intro a
    simp [supply]
  · intro tr s ts i r hinv _ hr
    exact settled_called hinv (called_of_call hr)
  · intro tr s t ts env r hinv _ hr
    exact settled_section hinv (section_of_sect hr)

end MqttMsgHub
