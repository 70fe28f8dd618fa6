import MqttMsgHub.Hub

/-! # The drain loop

At most one thread is inside the loop of `send_messages_thread_fun`, although
several sender threads may have been created, and it takes the messages in
the order in which they entered the queue. The order survives failed sends
because the entry goes back to the head it was taken from: what was published,
what the sender holds and what is queued, read in this order, is always a
part of everything that entered, in order of entry.

* `DrainInv` — the invariant, kept by every call and every section;
* `single_sender_fifo` — one sender, in order, nothing twice.
-/

namespace MqttMsgHub

open Pool (total Outcome)

/-! ## Observations -/

/-- Threads past the test-and-set of `g_isAsyncSending`. -/
def Thread.draining : Thread → ℕ
  | .sender .created => 0
  | .sender _ => 1
  | _ => 0

/-- The entry that a sender has taken from the queue and not yet decided. -/
def Thread.held : Thread → List CacheFileHeader
  | .sender (.fileExists e) => [e]
  | .sender (.readFile e) => [e]
  | .sender (.send e _) => [e]
  | .sender (.putBack e) => [e]
  | _ => []

/-- The entries held by the threads. -/
def heldEntries (ts : List Thread) : List CacheFileHeader := ts.flatMap Thread.held

/-- The entry that the offline sender publishes in an event. -/
def Event.publishedEntry : Event → List CacheFileHeader
  | .published (.cached e) _ => [e]
  | _ => []

/-- The entry that `cache_offline_message` pushes in an event. -/
def Event.pushedEntry : Event → List CacheFileHeader
  | .pushed e => [e]
  | _ => []

/-- The entries that the offline sender has published, in order. -/
def publishedEntries (tr : List Event) : List CacheFileHeader := tr.flatMap Event.publishedEntry

/-- The entries that `cache_offline_message` has pushed, in order. -/
def pushedEntries (tr : List Event) : List CacheFileHeader := tr.flatMap Event.pushedEntry

@[simp] theorem heldEntries_nil : heldEntries [] = [] := rfl

@[simp] theorem heldEntries_cons (t : Thread) (ts : List Thread) :
    heldEntries (t :: ts) = t.held ++ heldEntries ts := rfl

@[simp] theorem publishedEntries_nil : publishedEntries [] = [] := rfl

@[simp] theorem publishedEntries_cons (x : Event) (tr : List Event) :
    publishedEntries (x :: tr) = x.publishedEntry ++ publishedEntries tr := rfl

@[simp] theorem publishedEntries_append (tr ev : List Event) :
    publishedEntries (tr ++ ev) = publishedEntries tr ++ publishedEntries ev :=
  List.flatMap_append

@[simp] theorem pushedEntries_nil : pushedEntries [] = [] := rfl

@[simp] theorem pushedEntries_cons (x : Event) (tr : List Event) :
    pushedEntries (x :: tr) = x.pushedEntry ++ pushedEntries tr := rfl

@[simp] theorem pushedEntries_append (tr ev : List Event) :
    pushedEntries (tr ++ ev) = pushedEntries tr ++ pushedEntries ev :=
  List.flatMap_append

/-- Evictions publish and push nothing. -/
@[simp] theorem observed_evictions (removed : List CacheFileHeader) :
    publishedEntries (evictions removed) = [] ∧ pushedEntries (evictions removed) = [] := by
  induction removed with
  | nil => exact ⟨rfl, rfl⟩
  | cons e removed ih => exact ih

theorem heldEntries_length_le (ts : List Thread) :
    (heldEntries ts).length ≤ total Thread.draining ts := by
  induction ts with
  | nil => rfl
  | cons t ts ih =>
    have ht : t.held.length ≤ t.draining := by
      cases t with
      | sender pc => cases pc <;> simp [Thread.held, Thread.draining]
      | _ => simp [Thread.held]
    rw [heldEntries_cons, List.length_append, Pool.total_cons]
    omega

/-- With at most one thread in the loop, the order of the threads does not
matter for what is held. -/
theorem heldEntries_of_perm {ts us : List Thread} (h : ts.Perm us)
    (hone : total Thread.draining ts ≤ 1) : heldEntries ts = heldEntries us := by
  have hperm : (heldEntries ts).Perm (heldEntries us) := h.flatMap_right Thread.held
  have hlen : (heldEntries ts).length ≤ 1 := le_trans (heldEntries_length_le ts) hone
  cases hts : heldEntries ts with
  | nil =>
    rw [hts] at hperm
    exact hperm.nil_eq
  | cons e rest =>
    rw [hts] at hperm hlen
    have hrest : rest = [] := by
      rw [List.length_cons] at hlen
      exact List.length_eq_zero_iff.mp (by omega)
    rw [hrest] at hperm ⊢
    exact (List.perm_singleton.mp hperm.symm).symm

/-! ## The invariant -/

/-- One sender when the flag is set and none otherwise; the published, held and
queued entries in order of entry. -/
structure DrainInv (q₀ : List CacheFileHeader) (tr : List Event) (s : Hub) (ts : List Thread) :
    Prop where
  single : total Thread.draining ts = s.isAsyncSending.toNat
  order : (publishedEntries tr ++ (heldEntries ts ++ s.queue)).Sublist (q₀ ++ pushedEntries tr)

variable {q₀ : List CacheFileHeader} {tr : List Event} {s : Hub} {ts : List Thread}
  {J : Text → Option Json} {env : Env} {t : Thread} {i : Call} {r : Outcome Hub Thread Event}

theorem DrainInv.single_le (h : DrainInv q₀ tr s ts) : total Thread.draining ts ≤ 1 := by
  rw [h.single]
  exact Bool.toNat_le _

theorem DrainInv.of_perm {us : List Thread} (hperm : ts.Perm us) (h : DrainInv q₀ tr s ts) :
    DrainInv q₀ tr s us where
  single := by
    rw [← Pool.total_of_perm _ hperm, h.single]
  order := by
    rw [← heldEntries_of_perm hperm h.single_le]
    exact h.order

/-- A thread in the loop is the only one with an entry in its hand. -/
theorem DrainInv.others_hold_nothing (h : DrainInv q₀ tr s (t :: ts)) (ht : t.draining = 1) :
    heldEntries ts = [] := by
  have hle := h.single_le
  have hlen := heldEntries_length_le ts
  rw [Pool.total_cons, ht] at hle
  exact List.length_eq_zero_iff.mp (by omega)

/-- The flag is set by the thread that enters the loop and cleared by the one
that leaves it; a sender that finds it set goes away. -/
theorem single_section (h : total Thread.draining (t :: ts) = s.isAsyncSending.toNat)
    (hr : Section J s env t r) :
    total Thread.draining (r.threads ++ ts) = r.shared.isAsyncSending.toNat := by
  cases hr with
  | asyn ha => cases ha <;> simpa [Thread.draining] using h
  | callbackAsyn ha => cases ha <;> simpa [Thread.draining] using h
  | senderStarted hf =>
    -- test and set under one lock: the flag was clear, so nobody else is inside
    simp only [hf, Pool.total_cons, Thread.draining, Bool.toNat_false] at h
    have hts : total Thread.draining ts = 0 := by omega
    simp [Thread.draining, hts]
  | finish =>
    have hle := Bool.toNat_le s.isAsyncSending
    simp only [Pool.total_cons, Thread.draining] at h
    have hts : total Thread.draining ts = 0 := by omega
    simp [hts]
  | _ => simpa [Thread.draining] using h

/-- Whatever a thread drops leaves the other entries in order. -/
theorem DrainInv.dropped (h : DrainInv q₀ tr s (t :: ts)) :
    (publishedEntries tr ++ (heldEntries ts ++ s.queue)).Sublist (q₀ ++ pushedEntries tr) := by
  refine List.Sublist.trans (List.Sublist.append_left ?_ _) h.order
  exact (List.sublist_append_right t.held _).append_right _

/-- The order is kept by each section: the head moves to the sender's hand and
back, a publication closes up, a push appends, an eviction only leaves out. -/
theorem order_section (h : DrainInv q₀ tr s (t :: ts)) (hr : Section J s env t r) :
    (publishedEntries (tr ++ r.events) ++ (heldEntries (r.threads ++ ts) ++ r.shared.queue)).Sublist
      (q₀ ++ pushedEntries (tr ++ r.events)) := by
  have hhand : t.draining = 1 → heldEntries ts = [] := h.others_hold_nothing
  have horder := h.order
  cases hr with
  | initList =>
    -- a replaced list loses its entries; a part of a part is a part
    have hless : (heldEntries ts).Sublist (heldEntries ts ++ s.queue) :=
      List.sublist_append_left _ _
    simpa [Thread.held, Hub.queue] using (hless.append_left (publishedEntries tr)).trans horder
  | @push k q q' d' removed hl hroom =>
    have hq : s.queue = q := Hub.queue_of_list hl
    have hsub : (publishedEntries tr ++ (heldEntries ts ++ q')).Sublist
        (q₀ ++ pushedEntries tr) := by
      rw [hq] at horder
      exact (((makeRoom_spec hroom).sublist.append_left _).append_left _).trans horder
    simpa [Thread.held, Hub.queue, Event.publishedEntry, Event.pushedEntry] using
      hsub.append_right [k.header]
  -- the head of the queue stands right behind what is published
  | popSome hl => simpa [Thread.held, Hub.queue, hl, hhand rfl] using horder
  | putBack hl hroom =>
    simpa [Thread.held, Hub.queue, hl, hhand rfl, Event.publishedEntry, Event.pushedEntry] using horder
  | senderSent hs =>
    simpa [Thread.held, hhand rfl, Event.publishedEntry, Event.pushedEntry] using horder
  | fileMissing hf =>
    simpa [Thread.held, Event.publishedEntry, Event.pushedEntry] using h.dropped
  | readFailed hf =>
    simpa [Thread.held, Event.publishedEntry, Event.pushedEntry] using h.dropped
  | parseFailed hf hne hp =>
    simpa [Thread.held, Event.publishedEntry, Event.pushedEntry] using h.dropped
  | thrownAway hl hfull =>
    simpa [Thread.held, Event.publishedEntry, Event.pushedEntry] using h.dropped
  | asyn ha => cases ha <;> simpa [Thread.held] using horder
  | callbackAsyn ha => cases ha <;> simpa [Thread.held] using horder
  | _ => simpa [Thread.held, Hub.queue, Event.publishedEntry, Event.pushedEntry] using horder

theorem drain_section (h : DrainInv q₀ tr s (t :: ts)) (hr : Section J s env t r) :
    DrainInv q₀ (tr ++ r.events) r.shared (r.threads ++ ts) :=
  ⟨single_section h.single hr, order_section h hr⟩

/-- Calls add threads at their first section and touch only the connected flag. -/
theorem drain_called (h : DrainInv q₀ tr s ts) (hr : Called J s i r) :
    DrainInv q₀ (tr ++ r.events) r.shared (r.threads ++ ts) := by
  rcases h with ⟨hsingle, horder⟩
  cases hr with
  | _ =>
    constructor
    · simpa [Thread.draining] using hsingle
    · simpa [Thread.held, Hub.queue, Event.publishedEntry, Event.pushedEntry] using horder

theorem drain_inv {callOk : Call → Prop} {sectOk : Hub → List Thread → Thread → Env → Prop}
    {s₀ : Hub} {p : Pool.Config Hub Thread} (hidle : s₀.isAsyncSending = false)
    (hrun : HubRuns J callOk sectOk s₀ tr p) : DrainInv s₀.queue tr p.shared p.threads := by
  refine Pool.invariant (P := DrainInv s₀.queue) (fun _ _ _ _ => DrainInv.of_perm) ?_ ?_ ?_ hrun
  · exact ⟨by simp [hidle], by simp⟩
  · intro tr s ts i r hinv _ hr
    exact drain_called hinv (called_of_call hr)
  · intro tr s t ts env r hinv _ hr
    exact drain_section hinv (section_of_sect hr)

/-- In every run from an idle sender whose loaded and pushed entries have
distinct timestamps: one thread at most in the drain loop, and what it has
published is, without repetitions, a part of what entered the queue, in order
of entry. -/
theorem single_sender_fifo {s₀ : Hub} {p : Pool.Config Hub Thread}
    (hidle : s₀.isAsyncSending = false) (hrun : HubRuns J anyCall anySect s₀ tr p)
    (hdistinct : ((s₀.queue ++ pushedEntries tr).map CacheFileHeader.timestamp).Nodup) :
    total Thread.draining p.threads ≤ 1 ∧
    ((publishedEntries tr).map CacheFileHeader.timestamp).Nodup ∧
    (publishedEntries tr).Sublist (s₀.queue ++ pushedEntries tr) := by
  have hinv := drain_inv hidle hrun
  have hsub : (publishedEntries tr).Sublist (s₀.queue ++ pushedEntries tr) :=
    (List.sublist_append_left _ _).trans hinv.order
  exact ⟨hinv.single_le, (hsub.map _).nodup hdistinct, hsub⟩

/-- Two cached messages. -/
def twoCached : Hub where
  capacity := 2
  list := some [⟨8, 1⟩, ⟨8, 2⟩]
  dir := ((∅ : Directory).insert "1-8.cache".toList pingText).insert "2-8.cache".toList pingText
  connected := false
  isAsyncSending := false

/-- The connection comes up, and the first message fails once before both go out. -/
def retryRun : List (Pool.Label Call Env) :=
  .call .onConnect :: List.replicate 5 (.run 0 quietEnv) ++ List.replicate 6 (.run 1 quietEnv) ++
    [.run 1 { quietEnv with sendOk := false }] ++ List.replicate 17 (.run 1 quietEnv)

theorem retryRun_executes : (Exec.run (hubStep pingTokener) (Pool.Allowed anyCall anySect)
    ⟨twoCached, []⟩ retryRun).isSome := by decide

theorem single_sender_fifo_retry :
    ∃ tr p, HubRuns pingTokener anyCall anySect twoCached tr p ∧
      (publishedEntries tr).length = 2 ∧
      total Thread.draining p.threads ≤ 1 ∧
      ((publishedEntries tr).map CacheFileHeader.timestamp).Nodup ∧
      (publishedEntries tr).Sublist (twoCached.queue ++ pushedEntries tr) := by
  have hrun := Exec.runs_of_isSome retryRun_executes
  exact ⟨_, _, hrun, by decide, single_sender_fifo rfl hrun (by decide)⟩

end MqttMsgHub
