import MqttMsgHub.IniFile
import MqttMsgHub.Priority

/-! # A call of `enqueue_offline_message`

One call from its beginning to its end. Alone, it appends the new entry, at the
price of the first entry of lowest priority when the queue is full, or refuses
the message and changes nothing. That the file of the entry holds the message
depends on the file system: `write_file_string` reports a failed `fopen` as the
largest `size_t`, which `cache_offline_message` compares with `< 0`, a short
write is taken for a complete one, and what `fclose` says is not read at all.

* `enqueue_effect` — the effect of a call on queue, directory and counter;
* `enqueue_persists_iff` — the file operations after which a returned call has
  cached its message or left everything as it was;
* `calls_terminate_iff` — the capacities with which every call returns.
-/

namespace MqttMsgHub

open Pool (Alone Outcome)

variable {J : Text → Option Json} {s s' : Hub} {k : EnqueueCall} {env : Env} {ev : List Event}

/-! ## The call alone -/

/-- A call that runs alone, from `s` to `s'`. -/
def EnqueueAlone (J : Text → Option Json) (env : Env) (s : Hub) (k : EnqueueCall)
    (ev : List Event) (s' : Hub) : Prop :=
  Alone (sect J) (fun _ _ _ => env) 0 s (.enqueue k .testList) ev s'

theorem runs_call : HubRuns J anyCall anySect s [.enqueueCall k] ⟨s, [.enqueue k .testList]⟩ := by
  have hcall : hubStep J ⟨s, []⟩ (.call (.enqueueOfflineMessage k)) =
      some (⟨s, [.enqueue k .testList]⟩, [.enqueueCall k]) := rfl
  have hgood : Pool.Allowed anyCall anySect ⟨s, []⟩
      (.call (.enqueueOfflineMessage k) : Pool.Label Call Env) := trivial
  exact Exec.Runs.start.next hgood hcall

/-- It is a run of the hub. -/
theorem EnqueueAlone.runs (h : EnqueueAlone J env s k ev s') :
    HubRuns J anyCall anySect s (.enqueueCall k :: ev) ⟨s', []⟩ :=
  runs_call.trans (Pool.Alone.runs h fun _ _ _ => trivial)

/-- The hub with its list initialised. -/
def Hub.listed (s : Hub) : Hub := { s with list := some s.queue }

@[simp] theorem Hub.listed_queue (s : Hub) : s.listed.queue = s.queue := rfl
@[simp] theorem Hub.listed_capacity (s : Hub) : s.listed.capacity = s.capacity := rfl
@[simp] theorem Hub.listed_dir (s : Hub) : s.listed.dir = s.dir := rfl

/-- With `init_list` or without it, the call comes to its admission test. -/
theorem enqueueAlone_iff :
    EnqueueAlone J env s k ev s' ↔
      Alone (sect J) (fun _ _ _ => env) 0 s.listed (.enqueue k .admission) ev s' := by
  cases hl : s.list with
  | none =>
    have htest : sect J s (.enqueue k .testList) env = some (s.goto (.enqueue k .initTest) []) := by
      simp [sect, enqueueOfflineMessage, hl]
    have hinit : sect J s (.enqueue k .initTest) env = some (s.goto (.enqueue k .initAssign) []) := by
      simp [sect, enqueueOfflineMessage, hl]
    have hassign : sect J s (.enqueue k .initAssign) env =
        some (s.listed.goto (.enqueue k .admission) []) := by
      simp [sect, enqueueOfflineMessage, Hub.listed, Hub.queue, hl]
    rw [EnqueueAlone, Pool.alone_of_silent htest, Pool.alone_of_silent hinit,
      Pool.alone_of_silent hassign, Pool.alone_reindex 0]
  | some q =>
    have hlisted : s.listed = s := by
      have hq : s.queue = q := Hub.queue_of_list hl
      rw [Hub.listed, hq, ← hl]
    have htest : sect J s (.enqueue k .testList) env = some (s.goto (.enqueue k .admission) []) := by
      simp [sect, enqueueOfflineMessage, hl]
    rw [EnqueueAlone, Pool.alone_of_silent htest, Pool.alone_reindex 0, hlisted]

/-- A refused message. -/
theorem enqueueAlone_of_refused
    (hcan : canMessageEnterOffineQueue s.capacity s.queue k.cachePriority = false) :
    ∃ msg, ∀ ev s', EnqueueAlone J env s k ev s' ↔
      ev = [.rejected k.header, .offlineDiscarded, .returned k (some msg)] ∧ s' = s.listed := by
  have hrefuse : sect J s.listed (.enqueue k .admission) env =
      some (s.listed.goto (.enqueue k .countRejected) [.rejected k.header]) := by
    simp only [sect, enqueueOfflineMessage, Hub.listed_capacity, Hub.listed_queue, hcan,
      Bool.false_eq_true, if_false]
  have hcount : ∃ msg, sect J s.listed (.enqueue k .countRejected) env =
      some (s.listed.exit [.offlineDiscarded, .returned k (some msg)]) := ⟨_, rfl⟩
  rcases hcount with ⟨msg, hcount⟩
  refine ⟨msg, fun ev s' => ?_⟩
  rw [enqueueAlone_iff, Pool.alone_of_next hrefuse]
  constructor
  · rintro ⟨tr, rfl, hrest⟩
    obtain ⟨rfl, rfl⟩ := (Pool.alone_of_exit hcount).mp hrest
    exact ⟨rfl, rfl⟩
  · rintro ⟨rfl, rfl⟩
    exact ⟨_, rfl, (Pool.alone_of_exit hcount).mpr ⟨rfl, rfl⟩⟩

section Admitted

variable (hcan : canMessageEnterOffineQueue s.capacity s.queue k.cachePriority = true)
  (ht : 0 < k.timestamp.1) (hmsg : k.message ≠ [])
include hcan ht hmsg

/-- A message that is let in comes to the write of its file. -/
theorem enqueueAlone_of_admitted :
    EnqueueAlone J env s k ev s' ↔
      Alone (sect J) (fun _ _ _ => env) 0 s.listed (.enqueue k .writeFile) ev s' := by
  have hadmit : sect J s.listed (.enqueue k .admission) env =
      some (s.listed.goto (.enqueue k .writeFile) []) := by
    simp [sect, enqueueOfflineMessage, hcan, not_le.mpr ht, stringIsEmpty, hmsg]
  rw [enqueueAlone_iff, Pool.alone_of_silent hadmit, Pool.alone_reindex 0]

/-- Nothing was written. -/
theorem enqueueAlone_of_notWritten {d : Directory}
    (hw : writeFileString s.dir (getCacheFilePath k.header) k.message env.write = (d, 0)) :
    EnqueueAlone J env s k ev s' ↔
      ev = [.returned k (some "nothing was written to cache file".toList)] ∧
      s' = { s.listed with dir := d.erase (getCacheFilePath k.header) } := by
  have hfail : sect J s.listed (.enqueue k .writeFile) env =
      some (({ s.listed with dir := d.erase (getCacheFilePath k.header) } : Hub).exit
        [.returned k (some "nothing was written to cache file".toList)]) := by
    simp [sect, enqueueOfflineMessage, hw]
  rw [enqueueAlone_of_admitted hcan ht hmsg, Pool.alone_of_exit hfail]

/-- Something was written, or the write was taken for one: the call goes on to
the push. -/
theorem enqueueAlone_of_written {d : Directory} {n : ℕ}
    (hw : writeFileString s.dir (getCacheFilePath k.header) k.message env.write = (d, n))
    (hn : n ≠ 0) :
    EnqueueAlone J env s k ev s' ↔ ∃ q' d' removed,
      makeRoom s.capacity s.queue.length s.queue d = some (q', d', removed) ∧
      ev = evictions removed ++ [.pushed k.header, .returned k none] ∧
      s' = { s with list := some (q' ++ [k.header]), dir := d' } := by
  have hwrite : sect J s.listed (.enqueue k .writeFile) env =
      some (({ s.listed with dir := d } : Hub).goto (.enqueue k .push) []) := by
    simp [sect, enqueueOfflineMessage, hw, hn]
  have hpush : sect J ({ s.listed with dir := d } : Hub) (.enqueue k .push) env =
      (makeRoom s.capacity s.queue.length s.queue d).map fun r =>
        ({ s with list := some (r.1 ++ [k.header]), dir := r.2.1 } : Hub).exit
          (evictions r.2.2 ++ [.pushed k.header, .returned k none]) := by
    simp only [sect, enqueueOfflineMessage, Hub.listed, Option.bind_eq_bind, Option.bind_some]
    cases makeRoom s.capacity s.queue.length s.queue d <;> rfl
  rw [enqueueAlone_of_admitted hcan ht hmsg, Pool.alone_of_silent hwrite]
  cases hroom : makeRoom s.capacity s.queue.length s.queue d with
  | none =>
    rw [hroom, Option.map_none] at hpush
    constructor
    · intro hend
      exact absurd hend (Pool.not_alone hpush)
    · rintro ⟨_, _, _, hsome, -⟩
      cases hsome
  | some r =>
    rw [hroom, Option.map_some] at hpush
    rw [Pool.alone_of_exit hpush]
    constructor
    · rintro ⟨rfl, rfl⟩
      exact ⟨_, _, _, rfl, rfl, rfl⟩
    · rintro ⟨_, _, _, hsome, rfl, rfl⟩
      cases hsome
      exact ⟨rfl, rfl⟩

end Admitted

/-! ## The effect of a call -/

/-- A call after which the entries `kept` and the new one are queued, the files
of the entries `removed` are gone and these entries are counted as discarded. -/
structure Cached (s : Hub) (k : EnqueueCall) (kept removed : List CacheFileHeader)
    (ev : List Event) (s' : Hub) : Prop where
  queue : s'.queue = kept ++ [k.header]
  file : s'.dir.lookup (getCacheFilePath k.header) = some k.message
  unlinked : ∀ e ∈ removed, s'.dir.lookup (getCacheFilePath e) = none
  others : ∀ name, name ≠ getCacheFilePath k.header → name ∉ removed.map getCacheFilePath →
    s'.dir.lookup name = s.dir.lookup name
  discarded : ev.count .offlineDiscarded = removed.length
  returned : .returned k none ∈ ev

/-- A call that refuses its message and counts it as discarded. -/
structure Refused (s : Hub) (k : EnqueueCall) (ev : List Event) (s' : Hub) : Prop where
  queue : s'.queue = s.queue
  dir : s'.dir = s.dir
  discarded : ev.count .offlineDiscarded = 1
  returned : ∃ msg, .returned k (some msg) ∈ ev

theorem count_evictions (removed : List CacheFileHeader) :
    (evictions removed).count .offlineDiscarded = removed.length := by
  induction removed with
  | nil => rfl
  | cons e removed ih =>
    have hcons : evictions (e :: removed) = .evicted e :: .offlineDiscarded :: evictions removed := rfl
    rw [hcons, List.count_cons_of_ne (by simp), List.count_cons_self, ih, List.length_cons]

/-- The file of a fresh entry is not among those that an eviction removes. -/
theorem path_notMem_removed {q q' removed : List CacheFileHeader} {d d' : Directory} {capacity : CInt}
    (hroom : MadeRoom capacity q d q' d' removed) (ht : 0 < k.timestamp.1)
    (hfresh : ∀ e ∈ q, e.timestamp ≠ k.timestamp) :
    getCacheFilePath k.header ∉ removed.map getCacheFilePath := by
  intro hmem
  obtain ⟨e, he, heq⟩ := List.mem_map.mp hmem
  have hq : e ∈ q := hroom.perm.mem_iff.mpr (List.mem_append_left q' he)
  have hne : getCacheFilePath k.header ≠ getCacheFilePath e := path_ne ht (hfresh e hq).symm
  exact hne heq.symm

/-- A whole message is written and room is made: the message is cached. -/
theorem cached_of_makeRoom {q' removed : List CacheFileHeader} {d' : Directory}
    (ht : 0 < k.timestamp.1) (hfresh : ∀ e ∈ s.queue, e.timestamp ≠ k.timestamp)
    (hroom : makeRoom s.capacity s.queue.length s.queue
      (s.dir.insert (getCacheFilePath k.header) k.message) = some (q', d', removed)) :
    Cached s k q' removed (evictions removed ++ [.pushed k.header, .returned k none])
      { s with list := some (q' ++ [k.header]), dir := d' } := by
  have hmade := makeRoom_spec hroom
  have hnew := path_notMem_removed hmade ht hfresh
  constructor
  · rfl
  · show d'.lookup (getCacheFilePath k.header) = some k.message
    rw [hmade.lookup, if_neg hnew, AList.lookup_insert]
  · intro e he
    show d'.lookup (getCacheFilePath e) = none
    rw [hmade.lookup, if_pos (List.mem_map_of_mem he)]
  · intro name hname hnot
    show d'.lookup name = s.dir.lookup name
    rw [hmade.lookup, if_neg hnot, AList.lookup_insert_ne hname]
  · rw [List.count_append, count_evictions]
    simp
  · simp

/-- The exact effect of a call that runs alone, from a queue within its
capacity, with successful file operations. -/
theorem enqueue_effect (hc : 1 ≤ s.capacity.1) (hlen : (s.queue.length : ℤ) ≤ s.capacity.1)
    (ht : 0 < k.timestamp.1) (hfresh : ∀ e ∈ s.queue, e.timestamp ≠ k.timestamp)
    (hmsg : k.message ≠ []) (hok : env.write = .ok) :
    ∃ ev s', EnqueueAlone J env s k ev s' ∧
      ((s.queue.length : ℤ) < s.capacity.1 → Cached s k s.queue [] ev s') ∧
      ((s.queue.length : ℤ) = s.capacity.1 →
        (∃ x ∈ s.queue, x.cachePriority.1 ≤ k.cachePriority.1) →
        ∃ pre h post, s.queue = pre ++ h :: post ∧
          (∀ x ∈ s.queue, h.cachePriority.1 ≤ x.cachePriority.1) ∧
          (∀ x ∈ pre, h.cachePriority.1 < x.cachePriority.1) ∧
          Cached s k (pre ++ post) [h] ev s') ∧
      ((s.queue.length : ℤ) = s.capacity.1 →
        (∀ x ∈ s.queue, k.cachePriority.1 < x.cachePriority.1) → Refused s k ev s') := by
  have hw : writeFileString s.dir (getCacheFilePath k.header) k.message env.write =
      (s.dir.insert (getCacheFilePath k.header) k.message, k.message.length) := by
    rw [hok]
    rfl
  have hn : k.message.length ≠ 0 := by simpa using hmsg
  rcases lt_or_eq_of_le hlen with hfree | hfull
  · -- there is room: the push evicts nothing
    have hcan : canMessageEnterOffineQueue s.capacity s.queue k.cachePriority = true := by
      rw [canMessageEnterOffineQueue, if_pos hfree]
    have hroom := makeRoom_of_room s.queue.length
      (s.dir.insert (getCacheFilePath k.header) k.message) (not_le.mpr hfree)
    refine ⟨_, _, (enqueueAlone_of_written hcan ht hmsg hw hn).mpr ⟨_, _, _, hroom, rfl, rfl⟩,
      fun _ => cached_of_makeRoom ht hfresh hroom, fun h => ?_, fun h => ?_⟩
    · exact absurd h hfree.ne
    · exact absurd h hfree.ne
  · by_cases hlower : ∃ x ∈ s.queue, x.cachePriority.1 ≤ k.cachePriority.1
    · -- full, and the admission test finds an entry to go
      have hcan : canMessageEnterOffineQueue s.capacity s.queue k.cachePriority = true := by
        rw [canMessageEnterOffineQueue, if_neg (not_lt.mpr hfull.ge), List.any_eq_true]
        rcases hlower with ⟨x, hx, hle⟩
        exact ⟨x, hx, decide_eq_true hle⟩
      obtain ⟨pre, h, post, heq, hroom, hmin, hfirst⟩ :=
        makeRoom_full hc hfull (s.dir.insert (getCacheFilePath k.header) k.message)
      refine ⟨_, _, (enqueueAlone_of_written hcan ht hmsg hw hn).mpr ⟨_, _, _, hroom, rfl, rfl⟩,
        fun h => ?_, fun _ _ => ?_, fun _ hall => ?_⟩
      · exact absurd hfull h.ne
      · exact ⟨pre, h, post, heq, hmin, hfirst, cached_of_makeRoom ht hfresh hroom⟩
      · rcases hlower with ⟨x, hx, hle⟩
        exact absurd (hall x hx) (not_lt.mpr hle)
    · have hcan : canMessageEnterOffineQueue s.capacity s.queue k.cachePriority = false := by
        rw [canMessageEnterOffineQueue, if_neg (not_lt.mpr hfull.ge), List.any_eq_false]
        intro x hx hle
        exact hlower ⟨x, hx, of_decide_eq_true hle⟩
      obtain ⟨msg, hend⟩ := enqueueAlone_of_refused hcan
      refine ⟨_, _, (hend _ _).mpr ⟨rfl, rfl⟩, fun h => ?_, fun _ h => ?_, fun _ _ => ?_⟩
      · exact absurd hfull h.ne
      · exact absurd h hlower
      · exact ⟨rfl, rfl, by simp, msg, by simp⟩

/-- A full hub with two entries of the same priority. -/
def fullHub : Hub := { roomForOne with capacity := 2, list := some [⟨5, 1⟩, ⟨5, 2⟩] }

theorem enqueue_effect_full :
    ∃ ev s', EnqueueAlone pingTokener quietEnv fullHub ⟨pingText, 5, 3⟩ ev s' ∧
      ∃ pre h post, fullHub.queue = pre ++ h :: post ∧
        (∀ x ∈ fullHub.queue, h.cachePriority.1 ≤ x.cachePriority.1) ∧
        (∀ x ∈ pre, h.cachePriority.1 < x.cachePriority.1) ∧
        Cached fullHub ⟨pingText, 5, 3⟩ (pre ++ post) [h] ev s' := by
  obtain ⟨ev, s', halone, -, hevict, -⟩ := enqueue_effect (J := pingTokener) (s := fullHub)
    (k := ⟨pingText, 5, 3⟩) (by decide) (by decide) (by decide) (by decide) (by decide)
    (show quietEnv.write = .ok from rfl)
  exact ⟨ev, s', halone, hevict (by decide) (by decide)⟩

/-! ## What the file system makes of it -/

/-- `fopen` has succeeded, and `fwrite` has written nothing or everything, which then
has come into the file in full. -/
def FileOutcome.WholeOrNothing (message : Text) : FileOutcome → Prop
  | .ok => True
  | .openFailed => False
  | .wrote n => n = 0 ∨ message.length ≤ n
  | .closeFailed n kept => n = 0 ∨ message.length ≤ n ∧ message.length ≤ kept

/-- A call that succeeds has cached its message under a new last entry, a call
that fails has left queue and files as they were. -/
structure PersistsOrFails (s : Hub) (k : EnqueueCall) (ev : List Event) (s' : Hub) : Prop where
  success : .returned k none ∈ ev → s'.dir.lookup (getCacheFilePath k.header) = some k.message ∧
    ∃ q', s'.queue = q' ++ [k.header]
  failure : ∀ msg, .returned k (some msg) ∈ ev → s'.queue = s.queue ∧ s'.dir = s.dir

theorem returned_notMem_evictions {msg : Option Text} (removed : List CacheFileHeader) :
    .returned k msg ∉ evictions removed := by
  intro hmem
  rcases mem_evictions hmem with ⟨e, -, heq⟩ | heq
  · cases heq
  · cases heq

/-- The call comes to its push: what counts is what the file holds then. -/
theorem persists_iff_of_written {d : Directory} {n : ℕ}
    (hcan : canMessageEnterOffineQueue s.capacity s.queue k.cachePriority = true)
    (ht : 0 < k.timestamp.1) (hmsg : k.message ≠ [])
    (hfresh : ∀ e ∈ s.queue, e.timestamp ≠ k.timestamp)
    (hw : writeFileString s.dir (getCacheFilePath k.header) k.message env.write = (d, n))
    (hn : n ≠ 0) :
    (∀ ev s', EnqueueAlone J env s k ev s' → PersistsOrFails s k ev s') ↔
      s.capacity.1 < 1 ∨ d.lookup (getCacheFilePath k.header) = some k.message := by
  have hend : ∀ ev s', EnqueueAlone J env s k ev s' ↔ ∃ q' d' removed,
      makeRoom s.capacity s.queue.length s.queue d = some (q', d', removed) ∧
      ev = evictions removed ++ [.pushed k.header, .returned k none] ∧
      s' = { s with list := some (q' ++ [k.header]), dir := d' } :=
    fun ev s' => enqueueAlone_of_written hcan ht hmsg hw hn
  have hfile : ∀ {q' d' removed}, makeRoom s.capacity s.queue.length s.queue d =
      some (q', d', removed) →
      d'.lookup (getCacheFilePath k.header) = d.lookup (getCacheFilePath k.header) := by
    intro q' d' removed hroom
    have hmade := makeRoom_spec hroom
    rw [hmade.lookup, if_neg (path_notMem_removed hmade ht hfresh)]
  constructor
  · intro hclaim
    rcases lt_or_ge s.capacity.1 1 with hc | hc
    · exact .inl hc
    · obtain ⟨⟨q', d', removed⟩, hroom⟩ := Option.isSome_iff_exists.mp
        (makeRoom_isSome hc (le_refl s.queue.length) d)
      have hreturn := hclaim _ _ ((hend _ _).mpr ⟨q', d', removed, hroom, rfl, rfl⟩)
      right
      rw [← hfile hroom]
      exact (hreturn.success (by simp)).1
  · rintro (hc | hheld) ev s' halone
    · -- the eviction loop does not exit
      obtain ⟨q', d', removed, hroom, -⟩ := (hend ev s').mp halone
      rw [makeRoom_eq_none hc] at hroom
      cases hroom
    · obtain ⟨q', d', removed, hroom, rfl, rfl⟩ := (hend ev s').mp halone
      refine ⟨fun _ => ⟨?_, q', rfl⟩, fun msg hmem => ?_⟩
      · show d'.lookup (getCacheFilePath k.header) = some k.message
        rw [hfile hroom, hheld]
      · rcases List.mem_append.mp hmem with hmem | hmem
        · exact absurd hmem (returned_notMem_evictions removed)
        · simp at hmem

/-- With a positive capacity a call that is let in returns. -/
theorem enqueue_returns
    (hcan : canMessageEnterOffineQueue s.capacity s.queue k.cachePriority = true)
    (ht : 0 < k.timestamp.1) (hmsg : k.message ≠ []) (hc : 1 ≤ s.capacity.1) :
    ∃ ev s', EnqueueAlone J env s k ev s' := by
  rcases hw : writeFileString s.dir (getCacheFilePath k.header) k.message env.write with ⟨d, n⟩
  by_cases hn : n = 0
  · subst hn
    exact ⟨_, _, (enqueueAlone_of_notWritten hcan ht hmsg hw).mpr ⟨rfl, rfl⟩⟩
  · obtain ⟨⟨q', d', removed⟩, hroom⟩ := Option.isSome_iff_exists.mp
      (makeRoom_isSome hc (le_refl s.queue.length) d)
    exact ⟨_, _, (enqueueAlone_of_written hcan ht hmsg hw hn).mpr
      ⟨q', d', removed, hroom, rfl, rfl⟩⟩

/-- Nothing was written: the empty file is removed again. -/
theorem persists_of_notWritten
    (hcan : canMessageEnterOffineQueue s.capacity s.queue k.cachePriority = true)
    (ht : 0 < k.timestamp.1) (hmsg : k.message ≠ [])
    (hnew : s.dir.lookup (getCacheFilePath k.header) = none)
    (hw : writeFileString s.dir (getCacheFilePath k.header) k.message env.write =
      (s.dir.insert (getCacheFilePath k.header) [], 0))
    (halone : EnqueueAlone J env s k ev s') : PersistsOrFails s k ev s' := by
  obtain ⟨rfl, rfl⟩ := (enqueueAlone_of_notWritten hcan ht hmsg hw).mp halone
  refine ⟨fun hmem => ?_, fun msg _ => ⟨rfl, ?_⟩⟩
  · simp at hmem
  · show (s.dir.insert (getCacheFilePath k.header) []).erase (getCacheFilePath k.header) = s.dir
    apply AList.ext
    show (s.dir.insert (getCacheFilePath k.header) []).entries.kerase _ = s.dir.entries
    rw [AList.entries_insert_of_notMem (AList.lookup_eq_none.mp hnew)]
    exact List.kerase_cons_eq rfl

/-- Whatever the file operations do, a call with a fresh timestamp that finds room
or an entry to evict returns if the capacity is positive. What it returns is
true exactly when the file could be opened and everything or nothing was
written, with nothing lost at `fclose` (or the call does not come back, for lack of a
positive capacity). -/
theorem enqueue_persists_iff
    (hcan : canMessageEnterOffineQueue s.capacity s.queue k.cachePriority = true)
    (ht : 0 < k.timestamp.1) (hmsg : k.message ≠ [])
    (hfresh : ∀ e ∈ s.queue, e.timestamp ≠ k.timestamp)
    (hnew : s.dir.lookup (getCacheFilePath k.header) = none) :
    (1 ≤ s.capacity.1 → ∃ ev s', EnqueueAlone J env s k ev s') ∧
    ((∀ ev s', EnqueueAlone J env s k ev s' → PersistsOrFails s k ev s') ↔
      s.capacity.1 < 1 ∨ env.write.WholeOrNothing k.message) := by
  refine ⟨enqueue_returns hcan ht hmsg, ?_⟩
  have hlen : 0 < k.message.length := List.length_pos_iff.mpr hmsg
  have htaken : ∀ {n}, 0 < n → (k.message.take n).length ≠ 0 := by
    intro n hpos
    rw [List.length_take]
    omega
  cases hwrite : env.write with
  | ok =>
    rw [persists_iff_of_written hcan ht hmsg hfresh (by rw [hwrite]; rfl) hlen.ne',
      AList.lookup_insert]
    simp [FileOutcome.WholeOrNothing]
  | openFailed =>
    -- the size is not 0, so the call goes on as if the message had been written
    have hw : writeFileString s.dir (getCacheFilePath k.header) k.message env.write =
        (s.dir, 18446744073709551615) := by
      rw [hwrite]
      rfl
    rw [persists_iff_of_written hcan ht hmsg hfresh hw (by decide), hnew]
    simp [FileOutcome.WholeOrNothing]
  | wrote n =>
    rcases Nat.eq_zero_or_pos n with rfl | hpos
    · have hall : ∀ ev s', EnqueueAlone J env s k ev s' → PersistsOrFails s k ev s' :=
        fun ev s' => persists_of_notWritten hcan ht hmsg hnew (by rw [hwrite]; rfl)
      exact iff_of_true hall (.inr (.inl rfl))
    · rw [persists_iff_of_written hcan ht hmsg hfresh (by rw [hwrite]; rfl) (htaken hpos),
        AList.lookup_insert, Option.some.injEq, List.take_eq_self_iff]
      simp [FileOutcome.WholeOrNothing, hpos.ne']
  | closeFailed n kept =>
    rcases Nat.eq_zero_or_pos n with rfl | hpos
    · have hw : writeFileString s.dir (getCacheFilePath k.header) k.message env.write =
          (s.dir.insert (getCacheFilePath k.header) [], 0) := by
        rw [hwrite]
        simp [writeFileString]
      have hall : ∀ ev s', EnqueueAlone J env s k ev s' → PersistsOrFails s k ev s' :=
        fun ev s' => persists_of_notWritten hcan ht hmsg hnew hw
      exact iff_of_true hall (.inr (.inl rfl))
    · -- the size is what `fwrite` took, whatever came into the file
      rw [persists_iff_of_written hcan ht hmsg hfresh (by rw [hwrite]; rfl) (htaken hpos),
        AList.lookup_insert, Option.some.injEq, List.take_take, List.take_eq_self_iff]
      simp [FileOutcome.WholeOrNothing, hpos.ne', and_comm]

/-- `fwrite` takes the whole message, and the disk is full at `fclose`. -/
theorem enqueue_persists_iff_fullDisk :
    ¬ ∀ ev s', EnqueueAlone pingTokener { quietEnv with write := .closeFailed 27 0 } roomForOne
      ⟨pingText, 9, 1⟩ ev s' → PersistsOrFails roomForOne ⟨pingText, 9, 1⟩ ev s' := by
  intro hclaim
  rcases (enqueue_persists_iff (by decide) (by decide) (by decide) (by decide) (by decide)).2.mp
    hclaim with hc | h0 | ⟨-, hkept⟩
  · exact absurd hc (by decide)
  · exact absurd h0 (by decide)
  · exact absurd hkept (by decide)

/-- A message is reported as cached although its file could not be opened. -/
theorem failed_open_reported_as_cached :
    ¬ ∀ (s : Hub) (k : EnqueueCall) (env : Env) (ev : List Event) (s' : Hub),
      canMessageEnterOffineQueue s.capacity s.queue k.cachePriority = true →
      0 < k.timestamp.1 → k.message ≠ [] → (∀ e ∈ s.queue, e.timestamp ≠ k.timestamp) →
      s.dir.lookup (getCacheFilePath k.header) = none →
      EnqueueAlone pingTokener env s k ev s' → PersistsOrFails s k ev s' := by
  intro hclaim
  have hend : EnqueueAlone pingTokener { quietEnv with write := .openFailed } roomForOne
      ⟨pingText, 9, 1⟩ [.pushed ⟨9, 1⟩, .returned ⟨pingText, 9, 1⟩ none]
      { roomForOne with list := some [⟨9, 1⟩] } :=
    (enqueueAlone_of_written (by decide) (by decide) (by decide) rfl (by decide)).mpr
      ⟨_, _, _, rfl, rfl, rfl⟩
  have hfile := (hclaim _ _ _ _ _ (by decide) (by decide) (by decide) (by decide) (by decide)
    hend).success (by decide)
  exact absurd hfile.1 (by decide)

/-! ## Termination -/

/-- `get_config_offline_cache_capacity`, with `CACHE_CAPACITY_CONFIG_KEY` and
`DEFAULT_OFFLINE_CACHE_CAPACITY`, on the content of `mqttmsghub.ini`. -/
def getConfigOfflineCacheCapacity (file : Option (List Char)) : Option CInt :=
  getIntFromIniFile file "cachecapacity".toList 1000

/-- How many sections a call has still in front of it, at most. -/
def EnqueuePc.rank : EnqueuePc → ℕ
  | .testList => 5
  | .initTest => 4
  | .initAssign => 3
  | .admission => 2
  | .writeFile => 1
  | .countRejected => 0
  | .push => 0

/-- In every run, whatever the interleaving, each section of each call of
`enqueue_offline_message` comes to an end and brings the call nearer to its
return. -/
def CallsTerminate (J : Text → Option Json) (s₀ : Hub) : Prop :=
  ∀ tr p, HubRuns J anyCall anySect s₀ tr p → ∀ k pc, .enqueue k pc ∈ p.threads → ∀ env,
    ∃ r, enqueueOfflineMessage p.shared k env pc = some r ∧
      (r.threads = [] ∨ ∃ pc', r.threads = [.enqueue k pc'] ∧ pc'.rank < pc.rank)

/-- A section that ends brings the call nearer to its return. -/
theorem rank_lt_of_section {r : Outcome Hub Thread Event} {pc : EnqueuePc}
    (h : Section J s env (.enqueue k pc) r) :
    r.threads = [] ∨ ∃ pc', r.threads = [.enqueue k pc'] ∧ pc'.rank < pc.rank := by
  cases h with
  | invalid _ => exact .inl rfl
  | countRejected => exact .inl rfl
  | notWritten _ => exact .inl rfl
  | push _ _ => exact .inl rfl
  | _ => exact .inr ⟨_, rfl, by decide⟩

/-- The call has not come to the end of `init_list` yet. -/
def EnqueuePc.initialises : EnqueuePc → Bool
  | .testList => true
  | .initTest => true
  | .initAssign => true
  | .admission => false
  | .countRejected => false
  | .writeFile => false
  | .push => false

/-- There is a list, or no call relies on one. -/
def ListKnown (s : Hub) (ts : List Thread) : Prop :=
  s.list.isSome = true ∨ ∀ k pc, .enqueue k pc ∈ ts → pc.initialises = true

/-- The list is never set back to NULL, and a call goes on to its admission test with a
list. -/
theorem listKnown_section {t : Thread} {ts : List Thread} {r : Outcome Hub Thread Event}
    (h : ListKnown s (t :: ts)) (hr : Section J s env t r) :
    ListKnown r.shared (r.threads ++ ts) := by
  rcases h with hset | hearly
  · left
    cases hr <;> first | exact hset | rfl
  · have hothers : ∀ k pc, .enqueue k pc ∈ ts → pc.initialises = true :=
      fun k pc hk => hearly k pc (List.mem_cons_of_mem t hk)
    have hnext : ∀ {k' pc'}, pc'.initialises = true →
        ∀ k pc, .enqueue k pc ∈ [.enqueue k' pc'] ++ ts → pc.initialises = true := by
      intro k' pc' hpc k pc hk
      rcases List.mem_cons.mp hk with heq | hk
      · cases heq
        exact hpc
      · exact hothers k pc hk
    cases hr with
    | requestCached => exact .inr (hnext rfl)
    | listNull _ => exact .inr (hnext rfl)
    | initNull _ => exact .inr (hnext rfl)
    | listSet hl =>
      left
      simp [hl]
    | initSet hl =>
      left
      simp [hl]
    | initList => exact .inl rfl
    | admitted _ _ _ => cases hearly _ _ List.mem_cons_self
    | invalid _ => cases hearly _ _ List.mem_cons_self
    | rejected _ => cases hearly _ _ List.mem_cons_self
    | countRejected => cases hearly _ _ List.mem_cons_self
    | written _ _ => cases hearly _ _ List.mem_cons_self
    | notWritten _ => cases hearly _ _ List.mem_cons_self
    | push _ _ => exact .inl rfl
    | asyn ha =>
      right
      cases ha <;> simpa using hothers
    | callbackAsyn ha =>
      right
      cases ha <;> simpa using hothers
    | _ =>
      right
      simpa using hothers

theorem listKnown_called {ts : List Thread} {i : Call} {r : Outcome Hub Thread Event}
    (h : ListKnown s ts) (hr : Called J s i r) : ListKnown r.shared (r.threads ++ ts) := by
  rcases h with hset | hearly
  · left
    cases hr <;> exact hset
  · right
    intro k pc hk
    rcases List.mem_append.mp hk with hk | hk
    · cases hr with
      | enqueue =>
        cases List.mem_singleton.mp hk
        rfl
      | _ => simp at hk
    · exact hearly k pc hk

theorem listKnown_inv {s₀ : Hub} {tr : List Event} {p : Pool.Config Hub Thread}
    (hrun : HubRuns J anyCall anySect s₀ tr p) : ListKnown p.shared p.threads := by
  refine Pool.invariant (P := fun _ s ts => ListKnown s ts) ?_ (.inr (by simp)) ?_ ?_ hrun
  · intro tr s ts us hperm h
    exact h.imp id fun hearly k pc hk => hearly k pc (hperm.symm.subset hk)
  · intro tr s ts i r hinv _ hr
    exact listKnown_called hinv (called_of_call hr)
  · intro tr s t ts env r hinv _ hr
    exact listKnown_section hinv (section_of_sect hr)

/-- With a positive capacity every section of a call ends. -/
theorem enqueue_section_ends {ts : List Thread} {pc : EnqueuePc} (hc : 1 ≤ s.capacity.1)
    (hknown : ListKnown s ts) (hmem : .enqueue k pc ∈ ts) (env : Env) :
    (enqueueOfflineMessage s k env pc).isSome := by
  cases pc with
  | push =>
    have hset : s.list.isSome := by
      rcases hknown with hset | hearly
      · exact hset
      · cases hearly _ _ hmem
    obtain ⟨q, hq⟩ := Option.isSome_iff_exists.mp hset
    obtain ⟨r, hroom⟩ := Option.isSome_iff_exists.mp
      (makeRoom_isSome hc (le_refl q.length) s.dir)
    simp [enqueueOfflineMessage, hq, hroom]
  | countRejected => rfl
  | _ =>
    simp only [enqueueOfflineMessage]
    repeat' split
    all_goals rfl

/-- From any start with a positive capacity every call returns. -/
theorem callsTerminate_of_pos {s₀ : Hub} (hc : 1 ≤ s₀.capacity.1) : CallsTerminate J s₀ := by
  intro tr p hrun k pc hmem env
  have hcap : 1 ≤ p.shared.capacity.1 := by
    rw [capacity_const hrun]
    exact hc
  obtain ⟨r, hr⟩ := Option.isSome_iff_exists.mp
    (enqueue_section_ends hcap (listKnown_inv hrun) hmem env)
  exact ⟨r, hr, rank_lt_of_section (J := J) (section_of_enqueue hr)⟩

/-- A call that is let in comes to its push. -/
theorem runs_to_push {q : List CacheFileHeader} (hl : s.list = some q)
    (hcan : canMessageEnterOffineQueue s.capacity s.queue k.cachePriority = true)
    (ht : 0 < k.timestamp.1) (hmsg : k.message ≠ []) (hok : env.write = .ok) :
    HubRuns J anyCall anySect s [.enqueueCall k]
      ⟨{ s with dir := s.dir.insert (getCacheFilePath k.header) k.message },
        [.enqueue k .push]⟩ := by
  have htest : sect J s (.enqueue k .testList) env = some (s.goto (.enqueue k .admission) []) := by
    simp [sect, enqueueOfflineMessage, hl]
  have hadmit : sect J s (.enqueue k .admission) env = some (s.goto (.enqueue k .writeFile) []) := by
    simp [sect, enqueueOfflineMessage, hcan, not_le.mpr ht, stringIsEmpty, hmsg]
  have hwrite : sect J s (.enqueue k .writeFile) env =
      some (({ s with dir := s.dir.insert (getCacheFilePath k.header) k.message } : Hub).goto
        (.enqueue k .push) []) := by
    simp [sect, enqueueOfflineMessage, hok, writeFileString, hmsg]
  have hrun := ((runs_call.trans (Pool.runs_alone trivial htest)).trans
    (Pool.runs_alone trivial hadmit)).trans (Pool.runs_alone trivial hwrite)
  simpa using hrun

/-- The cache directory with one message of priority 8. -/
def oneCached : Directory := AList.singleton "1-8.cache".toList pingText

/-- Without a positive capacity, the push of a message that takes the place of the
cached one does not end. -/
theorem endless_push {capacity : CInt} (hc : capacity.1 < 1) :
    ∃ tr p, HubRuns J anyCall anySect (startUp capacity oneCached) tr p ∧
      .enqueue ⟨pingText, 8, 2⟩ .push ∈ p.threads ∧
      enqueueOfflineMessage p.shared ⟨pingText, 8, 2⟩ quietEnv .push = none := by
  have hcan : canMessageEnterOffineQueue capacity [⟨8, 1⟩] 8 = true := by
    have hfull : ¬ (1 : ℤ) < capacity.1 := by omega
    simp [canMessageEnterOffineQueue, hfull]
  have hrun := runs_to_push (J := J) (s := startUp capacity oneCached) (k := ⟨pingText, 8, 2⟩)
    (q := [⟨8, 1⟩]) rfl hcan (by decide) (by decide) (show quietEnv.write = .ok from rfl)
  refine ⟨_, _, hrun, List.mem_singleton_self _, ?_⟩
  simp [enqueueOfflineMessage, startUp, makeRoom_eq_none hc]

/-- Every call returns, whatever the hub has cached before, whether or not it could read
the cache directory at its start, and whatever else it does, exactly when the configured
capacity is positive. -/
theorem calls_terminate_iff (capacity : CInt) :
    (∀ d, CallsTerminate J (startUp capacity d) ∧ CallsTerminate J (startUpUnlisted capacity d)) ↔
      1 ≤ capacity.1 := by
  constructor
  · intro hends
    by_contra hneg
    obtain ⟨tr, p, hrun, hmem, hnone⟩ := endless_push (J := J) (not_le.mp hneg)
    obtain ⟨r, hr, -⟩ := (hends oneCached).1 tr p hrun _ _ hmem quietEnv
    rw [hnone] at hr
    cases hr
  · intro hc d
    exact ⟨callsTerminate_of_pos hc, callsTerminate_of_pos hc⟩

/-- With `cachecapacity=0` and a cached message the next message that may take its
place stops the hub. -/
theorem zero_capacity_endless :
    ¬ ∀ (ini : Option (List Char)) (capacity : CInt) (d : Directory),
      getConfigOfflineCacheCapacity ini = some capacity →
      CallsTerminate pingTokener (startUp capacity d) := by
  intro hclaim
  have hends := hclaim (some "cachecapacity=0\n".toList) 0 oneCached (by decide)
  obtain ⟨tr, p, hrun, hmem, hnone⟩ := endless_push (J := pingTokener)
    (show (0 : CInt).1 < 1 by decide)
  obtain ⟨r, hr, -⟩ := hends tr p hrun _ _ hmem quietEnv
  rw [hnone] at hr
  cases hr

end MqttMsgHub
