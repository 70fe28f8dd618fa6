import MqttMsgHub.Enqueue

/-! # Messages with the same file

The name of a cache file is computed from priority and timestamp alone, and two
entries may have the same: requests in the same nanosecond, a clock that was set
back, two negative priorities. A call then writes over the file of an entry that
is still queued, and an eviction unlinks the file of an entry that stays, or the
one that was just written.

* `undamaged_iff_of_admitted` — a call that comes to its push;
* `enqueue_undamaged_iff` — the calls that leave the other messages alone.
-/

namespace MqttMsgHub

variable {J : Text → Option Json} {s s' : Hub} {k : EnqueueCall} {env : Env} {ev : List Event}

/-! ## What a call may do -/

/-- A call that succeeds has appended its entry, with its message in the file, to
those entries it has not evicted, and their files are as before. A call that fails
has changed nothing. -/
structure Undamaged (s : Hub) (k : EnqueueCall) (ev : List Event) (s' : Hub) : Prop where
  success : .returned k none ∈ ev → ∃ kept, s'.queue = kept ++ [k.header] ∧ kept.Sublist s.queue ∧
    (∀ e ∈ kept, s'.dir.lookup (getCacheFilePath e) = s.dir.lookup (getCacheFilePath e)) ∧
    s'.dir.lookup (getCacheFilePath k.header) = some k.message
  failure : ∀ msg, .returned k (some msg) ∈ ev → s'.queue = s.queue ∧
    ∀ e ∈ s.queue, s'.dir.lookup (getCacheFilePath e) = s.dir.lookup (getCacheFilePath e)

/-- The entries that have to go when a message is pushed. -/
def Hub.leaving (s : Hub) : List CacheFileHeader :=
  (evictionOrder s.queue).take (surplus s.capacity s.queue)

/-- The entries that are not evicted. -/
def Hub.staying (s : Hub) : List CacheFileHeader :=
  (evictionOrder s.queue).drop (surplus s.capacity s.queue)

/-- No entry that has to go has the same file as the new entry or one that stays,
and an entry that stays and has the file of the new one holds the same message. -/
structure NoCollision (s : Hub) (k : EnqueueCall) : Prop where
  new : ∀ e ∈ s.leaving, getCacheFilePath e ≠ getCacheFilePath k.header
  staying : ∀ e ∈ s.leaving, ∀ f ∈ s.staying, getCacheFilePath e ≠ getCacheFilePath f
  message : ∀ f ∈ s.staying, getCacheFilePath f = getCacheFilePath k.header →
    s.dir.lookup (getCacheFilePath f) = some k.message

/-! ## The push -/

/-- The directory after the message is written and room is made. -/
theorem lookup_of_makeRoom {q' removed : List CacheFileHeader} {d' : Directory}
    (hroom : makeRoom s.capacity s.queue.length s.queue
      (s.dir.insert (getCacheFilePath k.header) k.message) = some (q', d', removed)) (name : Text) :
    d'.lookup name = if name ∈ s.leaving.map getCacheFilePath then none
      else if name = getCacheFilePath k.header then some k.message else s.dir.lookup name := by
  rw [(makeRoom_spec hroom).lookup, (makeRoom_order hroom).1]
  by_cases hname : name = getCacheFilePath k.header
  · rw [hname, AList.lookup_insert, if_pos rfl]
    rfl
  · rw [AList.lookup_insert_ne hname, if_neg hname]
    rfl

theorem mem_kept_iff {q' removed : List CacheFileHeader} {d d' : Directory} {e : CacheFileHeader}
    (hroom : makeRoom s.capacity s.queue.length s.queue d = some (q', d', removed)) :
    e ∈ q' ↔ e ∈ s.staying := by
  rw [Hub.staying, ← (makeRoom_order hroom).2, evictionOrder, List.mem_insertionSort]

theorem staying_subset {e : CacheFileHeader} (he : e ∈ s.staying) : e ∈ s.queue := by
  have hmem : e ∈ evictionOrder s.queue := List.mem_of_mem_drop he
  rwa [evictionOrder, List.mem_insertionSort] at hmem

/-- After the push the other entries have their files if and only if nothing
collides. -/
theorem noCollision_iff {q' removed : List CacheFileHeader} {d' : Directory}
    (hfiles : ∀ e ∈ s.queue, (s.dir.lookup (getCacheFilePath e)).isSome)
    (hroom : makeRoom s.capacity s.queue.length s.queue
      (s.dir.insert (getCacheFilePath k.header) k.message) = some (q', d', removed)) :
    ((∀ e ∈ q', d'.lookup (getCacheFilePath e) = s.dir.lookup (getCacheFilePath e)) ∧
        d'.lookup (getCacheFilePath k.header) = some k.message) ↔ NoCollision s k := by
  have hlookup := lookup_of_makeRoom hroom
  constructor
  · rintro ⟨hkept, hnew⟩
    constructor
    · intro e he heq
      have hgone := hlookup (getCacheFilePath k.header)
      rw [if_pos (List.mem_map.mpr ⟨e, he, heq⟩), hnew] at hgone
      cases hgone
    · intro e he f hf heq
      -- the file of `f` was there before, and is not any more
      have hgone := hlookup (getCacheFilePath f)
      rw [if_pos (List.mem_map.mpr ⟨e, he, heq⟩), hkept f ((mem_kept_iff hroom).mpr hf)] at hgone
      have hthere := hfiles f (staying_subset hf)
      rw [hgone] at hthere
      cases hthere
    · intro f hf heq
      rw [← hkept f ((mem_kept_iff hroom).mpr hf), heq]
      exact hnew
  · intro hnone
    have hstays : ∀ {name : Text}, (∀ e ∈ s.leaving, getCacheFilePath e ≠ name) →
        name ∉ s.leaving.map getCacheFilePath := by
      intro name hne hmem
      rcases List.mem_map.mp hmem with ⟨e, he, heq⟩
      exact hne e he heq
    constructor
    · intro f hf
      have hstay := (mem_kept_iff hroom).mp hf
      rw [hlookup, if_neg (hstays fun e he => hnone.staying e he f hstay)]
      split
      · rename_i heq
        exact (hnone.message f hstay heq).symm
      · rfl
    · rw [hlookup, if_neg (hstays hnone.new), if_pos rfl]

/-! ## Whole calls -/

section Calls

variable (ht : 0 < k.timestamp.1) (hok : env.write = .ok)

include ht hok

/-- A message that is let in and not empty is written and pushed. -/
theorem enqueueAlone_of_ok
    (hcan : canMessageEnterOffineQueue s.capacity s.queue k.cachePriority = true)
    (hmsg : k.message ≠ []) :
    EnqueueAlone J env s k ev s' ↔ ∃ q' d' removed,
      makeRoom s.capacity s.queue.length s.queue
        (s.dir.insert (getCacheFilePath k.header) k.message) = some (q', d', removed) ∧
      ev = evictions removed ++ [.pushed k.header, .returned k none] ∧
      s' = { s with list := some (q' ++ [k.header]), dir := d' } := by
  have hw : writeFileString s.dir (getCacheFilePath k.header) k.message env.write =
      (s.dir.insert (getCacheFilePath k.header) k.message, k.message.length) := by
    rw [hok]
    rfl
  exact enqueueAlone_of_written hcan ht hmsg hw (by simpa using hmsg)

theorem undamaged_iff_of_admitted
    (hfiles : ∀ e ∈ s.queue, (s.dir.lookup (getCacheFilePath e)).isSome)
    (hcan : canMessageEnterOffineQueue s.capacity s.queue k.cachePriority = true)
    (hmsg : k.message ≠ []) (hc : 1 ≤ s.capacity.1) :
    (∀ ev s', EnqueueAlone J env s k ev s' → Undamaged s k ev s') ↔ NoCollision s k := by
  constructor
  · intro hclaim
    rcases Option.isSome_iff_exists.mp (makeRoom_isSome hc (le_refl s.queue.length)
      (s.dir.insert (getCacheFilePath k.header) k.message)) with ⟨⟨q', d', removed⟩, hroom⟩
    have hend := hclaim _ _ ((enqueueAlone_of_ok ht hok hcan hmsg).mpr ⟨q', d', removed, hroom, rfl, rfl⟩)
    rcases hend.success (by simp) with ⟨kept, hqueue, -, hkept, hnew⟩
    have heq : q' = kept := List.append_cancel_right hqueue
    subst heq
    exact (noCollision_iff hfiles hroom).mp ⟨hkept, hnew⟩
  · intro hnone ev s' halone
    rcases (enqueueAlone_of_ok ht hok hcan hmsg).mp halone with ⟨q', d', removed, hroom, rfl, rfl⟩
    have hheld := (noCollision_iff hfiles hroom).mpr hnone
    constructor
    · intro _
      exact ⟨q', rfl, (makeRoom_spec hroom).sublist, hheld.1, hheld.2⟩
    · intro msg hmem
      rcases List.mem_append.mp hmem with hmem | hmem
      · exact absurd hmem (returned_notMem_evictions removed)
      · simp at hmem

omit hok in
/-- An empty message is refused before anything is written. -/
theorem enqueueAlone_of_empty
    (hcan : canMessageEnterOffineQueue s.capacity s.queue k.cachePriority = true)
    (hmsg : k.message = []) :
    ∃ msg, ∀ ev s', EnqueueAlone J env s k ev s' ↔
      ev = [.returned k (some msg)] ∧ s' = s.listed := by
  have hrefuse : ∃ msg, sect J s.listed (.enqueue k .admission) env =
      some (s.listed.exit [.returned k (some msg)]) := by
    have hempty : stringIsEmpty (some k.message) = true := by simp [stringIsEmpty, hmsg]
    refine ⟨"message is empty, discard it".toList, ?_⟩
    simp only [sect, enqueueOfflineMessage, Hub.listed_capacity, Hub.listed_queue, hcan, if_true,
      if_neg (not_le.mpr ht), hempty]
  rcases hrefuse with ⟨msg, hrefuse⟩
  refine ⟨msg, fun ev s' => ?_⟩
  rw [enqueueAlone_iff, Pool.alone_of_exit hrefuse]

omit ht hok in
theorem undamaged_of_refused (hev : .returned k none ∉ ev) : Undamaged s k ev s.listed :=
  ⟨fun hmem => absurd hmem hev, fun _ _ => ⟨rfl, fun _ _ => rfl⟩⟩

/-- With file operations that succeed, a call in a hub with all its files returns
if the capacity is positive. It leaves the other messages alone, and caches its
own if it returns SUCCESS, exactly when it fails, does not come back, or there is
no collision. -/
theorem enqueue_undamaged_iff
    (hfiles : ∀ e ∈ s.queue, (s.dir.lookup (getCacheFilePath e)).isSome) :
    (1 ≤ s.capacity.1 → ∃ ev s', EnqueueAlone J env s k ev s') ∧
    ((∀ ev s', EnqueueAlone J env s k ev s' → Undamaged s k ev s') ↔
      canMessageEnterOffineQueue s.capacity s.queue k.cachePriority = false ∨ k.message = [] ∨
        s.capacity.1 < 1 ∨ NoCollision s k) := by
  cases hcan : canMessageEnterOffineQueue s.capacity s.queue k.cachePriority with
  | false =>
    rcases enqueueAlone_of_refused hcan with ⟨msg, hend⟩
    refine ⟨fun _ => ⟨_, _, (hend _ _).mpr ⟨rfl, rfl⟩⟩, iff_of_true ?_ (.inl rfl)⟩
    intro ev s' halone
    rcases (hend ev s').mp halone with ⟨rfl, rfl⟩
    exact undamaged_of_refused (by simp)
  | true =>
    by_cases hmsg : k.message = []
    · rcases enqueueAlone_of_empty ht hcan hmsg with ⟨msg, hend⟩
      refine ⟨fun _ => ⟨_, _, (hend _ _).mpr ⟨rfl, rfl⟩⟩, iff_of_true ?_ (.inr (.inl hmsg))⟩
      intro ev s' halone
      rcases (hend ev s').mp halone with ⟨rfl, rfl⟩
      exact undamaged_of_refused (by simp)
    · refine ⟨enqueue_returns hcan ht hmsg, ?_⟩
      rcases lt_or_ge s.capacity.1 1 with hc | hc
      · -- the eviction loop does not exit
        refine iff_of_true ?_ (.inr (.inr (.inl hc)))
        intro ev s' halone
        rcases (enqueueAlone_of_ok ht hok hcan hmsg).mp halone with ⟨q', d', removed, hroom, -⟩
        rw [makeRoom_eq_none hc] at hroom
        cases hroom
      · rw [undamaged_iff_of_admitted ht hok hfiles hcan hmsg hc]
        simp [hmsg, not_lt.mpr hc]

end Calls

/-- A hub with room for one message and one of priority 8 in the queue. -/
def oneQueued : Hub where
  capacity := 1
  list := some [⟨8, 1⟩]
  dir := oneCached
  connected := false
  isAsyncSending := false

/-- The eviction unlinks the file that was just written. -/
theorem enqueue_undamaged_iff_evicted :
    ¬ ∀ ev s', EnqueueAlone pingTokener quietEnv oneQueued ⟨pingText, 8, 1⟩ ev s' →
      Undamaged oneQueued ⟨pingText, 8, 1⟩ ev s' := by
  intro hclaim
  rcases (enqueue_undamaged_iff (show (0 : ℤ) < (1 : CInt64).1 by decide) rfl (by decide)).2.mp hclaim
    with hcan | hmsg | hc | hnone
  · exact absurd hcan (by decide)
  · exact absurd hmsg (by decide)
  · exact absurd hc (by decide)
  · exact absurd rfl (hnone.new ⟨8, 1⟩ (by decide))

/-- There is room, and a second message with the same priority and timestamp is
written over the first. -/
theorem queued_message_overwritten :
    ¬ ∀ (s : Hub) (k : EnqueueCall) (env : Env) (ev : List Event) (s' : Hub),
      (∀ e ∈ s.queue, (s.dir.lookup (getCacheFilePath e)).isSome) → 0 < k.timestamp.1 →
      env.write = .ok → EnqueueAlone pingTokener env s k ev s' → Undamaged s k ev s' := by
  intro hclaim
  have hend : EnqueueAlone pingTokener quietEnv { oneQueued with capacity := 2 } ⟨['x'], 8, 1⟩
      [.pushed ⟨8, 1⟩, .returned ⟨['x'], 8, 1⟩ none]
      { oneQueued with
        capacity := 2
        list := some [⟨8, 1⟩, ⟨8, 1⟩]
        dir := oneCached.insert (getCacheFilePath ⟨8, 1⟩) ['x'] } :=
    (enqueueAlone_of_ok (by decide) rfl (by decide) (by decide)).mpr ⟨_, _, _, rfl, rfl, rfl⟩
  rcases (hclaim _ _ _ _ _ (by decide) (by decide) rfl hend).success (by decide) with
    ⟨kept, hqueue, -, hkept, -⟩
  have hcons : [(⟨8, 1⟩ : CacheFileHeader)] ++ [⟨8, 1⟩] = kept ++ [⟨8, 1⟩] := hqueue
  have heq : [(⟨8, 1⟩ : CacheFileHeader)] = kept := List.append_cancel_right hcons
  subst heq
  exact absurd (hkept _ (List.mem_singleton_self _)) (by decide)

end MqttMsgHub
