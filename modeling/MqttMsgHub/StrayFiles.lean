import MqttMsgHub.CacheFiles

/-! # Cache files without an entry

A file that no entry refers to is loaded again at the next start, and its
message is published although it was published or discarded before. Every way
an entry leaves the hub removes its file, with two exceptions: a put-back
that finds the queue full forgets the entry and keeps the file, and
`init_list` may replace a list that another thread has created in the
meantime. In runs that avoid the two there are no stray files.

* `stray_inv` — every file has an owner;
* `no_stray_file` — between two steps of a quiet hub the owners are queued, and
  a restart loads nothing that was settled;
* `full_putBack_leaves_file` — the first exception.
-/

namespace MqttMsgHub

open Pool (Outcome)

variable {tr : List Event} {s s₀ : Hub} {ts : List Thread} {J : Text → Option Json}
  {env : Env} {t : Thread} {i : Call} {r : Outcome Hub Thread Event} {d d' : Directory}
  {e : CacheFileHeader} {p : Pool.Config Hub Thread}

/-! ## Owners -/

/-- The entries that own a file: the queued ones and those that threads rely on. -/
def owners (s : Hub) (ts : List Thread) : List CacheFileHeader := s.queue ++ ts.flatMap Thread.filed

/-- Every file of the directory has an owner. -/
def NoStray (s : Hub) (ts : List Thread) : Prop :=
  ∀ n, (s.dir.lookup n).isSome → ∃ e ∈ owners s ts, getCacheFilePath e = n

/-- The sender is about to put its entry back. -/
def Thread.putsBack : Thread → Bool
  | .sender (.putBack _) => true
  | _ => false

/-- The thread is about to assign a new list in `init_list`. -/
def Thread.assignsList : Thread → Bool
  | .enqueue _ .initAssign => true
  | _ => false

/-- A put-back finds room, and `init_list` finds no list. -/
def Tracked (s : Hub) (t : Thread) : Prop :=
  (t.putsBack = true → (s.queue.length : ℤ) < s.capacity.1) ∧
    (t.assignsList = true → s.list.isNone = true)

instance (s : Hub) (t : Thread) : Decidable (Tracked s t) :=
  inferInstanceAs (Decidable (_ ∧ _))

/-- The file operations succeed and every section is `Tracked`. -/
def filesTracked : Hub → List Thread → Thread → Env → Prop := fun s _ t env =>
  env.write = .ok ∧ Tracked s t

theorem mem_owners {u : Thread} {us : List Thread} :
    e ∈ owners s (u :: us) ↔ e ∈ s.queue ∨ e ∈ u.filed ∨ ∃ v ∈ us, e ∈ v.filed := by
  simp [owners]

/-- Owners only change hands. -/
theorem NoStray.keep {s' : Hub} {new : List Thread} (h : NoStray s (t :: ts))
    (hfile : ∀ n, (s'.dir.lookup n).isSome → (s.dir.lookup n).isSome)
    (hqueue : ∀ e ∈ s.queue, (s'.dir.lookup (getCacheFilePath e)).isSome →
      e ∈ s'.queue ∨ ∃ u ∈ new, e ∈ u.filed)
    (hfiled : ∀ e ∈ t.filed, (s'.dir.lookup (getCacheFilePath e)).isSome →
      e ∈ s'.queue ∨ ∃ u ∈ new, e ∈ u.filed) : NoStray s' (new ++ ts) := by
  intro n hn
  rcases h n (hfile n hn) with ⟨e, he, rfl⟩
  refine ⟨e, ?_, rfl⟩
  have hgoal : (e ∈ s'.queue ∨ ∃ u ∈ new, e ∈ u.filed) ∨ ∃ u ∈ ts, e ∈ u.filed := by
    rcases mem_owners.mp he with he | he | he
    · exact .inl (hqueue e he hn)
    · exact .inl (hfiled e he hn)
    · exact .inr he
  simpa [owners, or_assoc] using hgoal

/-- A file that is left after an `unlink` is another one. -/
theorem lookup_of_erase {m n : Text} (h : ((d.erase m).lookup n).isSome) :
    n ≠ m ∧ (d.lookup n).isSome := by
  have hne : n ≠ m := by
    rintro rfl
    simp at h
  rw [AList.lookup_erase_ne hne] at h
  exact ⟨hne, h⟩

theorem stray_written {k : EnqueueCall} (h : NoStray s (.enqueue k .writeFile :: ts)) :
    NoStray { s with dir := s.dir.insert (getCacheFilePath k.header) k.message }
      ([.enqueue k .push] ++ ts) := by
  intro n hn
  by_cases heq : n = getCacheFilePath k.header
  · exact ⟨k.header, by simp [owners, Thread.filed], heq.symm⟩
  · rw [AList.lookup_insert_ne heq] at hn
    rcases h n hn with ⟨e, he, hpath⟩
    refine ⟨e, mem_owners.mpr ?_, hpath⟩
    rcases mem_owners.mp he with he | he | he
    · exact .inl he
    · cases he
    · exact .inr (.inr he)

theorem stray_push {k : EnqueueCall} {q q' removed : List CacheFileHeader}
    (h : NoStray s (.enqueue k .push :: ts)) (hl : s.list = some q)
    (hroom : makeRoom s.capacity q.length q s.dir = some (q', d', removed)) :
    NoStray { s with list := some (q' ++ [k.header]), dir := d' } ([] ++ ts) := by
  have hmade := makeRoom_spec hroom
  refine h.keep (fun n hn => ?_) (fun e he hfile => .inl ?_) (fun e he _ => .inl ?_)
  · -- what is left was there before
    rw [hmade.lookup] at hn
    split at hn
    · cases hn
    · exact hn
  · -- an entry that was removed has no file any more
    rw [hmade.lookup] at hfile
    have hq : e ∈ q := by simpa [Hub.queue, hl] using he
    rcases List.mem_append.mp (hmade.perm.subset hq) with hrem | hstay
    · rw [if_pos (List.mem_map_of_mem hrem)] at hfile
      cases hfile
    · simp [Hub.queue, hstay]
  · simpa [Hub.queue, Thread.filed] using Or.inr he

theorem stray_section (h : NoStray s (t :: ts)) (hok : filesTracked s ts t env)
    (hr : Section J s env t r) : NoStray r.shared (r.threads ++ ts) := by
  rcases hok with ⟨hwrite, hback, hinit⟩
  cases hr with
  | initList =>
    -- the list that is replaced was NULL
    have hnull : s.list = none := by simpa using hinit rfl
    exact h.keep (fun n hn => hn) (by simp [Hub.queue, hnull]) (by simp [Thread.filed])
  | written hw hn =>
    -- the writer owns the new file until it pushes the entry
    simp only [hwrite, writeFileString, Prod.mk.injEq] at hw
    rw [← hw.1]
    exact stray_written h
  | notWritten hw =>
    simp only [hwrite, writeFileString, Prod.mk.injEq] at hw
    rw [← hw.1]
    refine h.keep (fun n hn => ?_) (fun e he _ => .inl he) (by simp [Thread.filed])
    rcases lookup_of_erase hn with ⟨hne, hfile⟩
    rwa [AList.lookup_insert_ne hne] at hfile
  | push hl hroom => exact stray_push h hl hroom
  | popSome hl =>
    refine h.keep (fun n hn => hn) (fun x hx _ => ?_) (by simp [Thread.filed, Thread.entries])
    simpa [Hub.queue, hl, Thread.filed, Thread.entries, or_comm] using hx
  | @fileMissing e hf =>
    -- the sender gives up an entry that has no file
    refine h.keep (fun n hn => hn) (fun x hx _ => .inl hx) (fun x hx hfile => ?_)
    have hx' : x = e := by simpa [Thread.filed, Thread.entries] using hx
    rw [hx'] at hfile
    simp [hf] at hfile
  | @unlink e =>
    refine h.keep (fun n hn => (lookup_of_erase hn).2) (fun x hx _ => .inl hx) (fun x hx hfile => ?_)
    have hx' : x = e := by simpa [Thread.filed, Thread.entries] using hx
    exact absurd (congrArg getCacheFilePath hx') (lookup_of_erase hfile).1
  | putBack hl hroom =>
    exact h.keep (fun n hn => hn) (by simp +contextual [Hub.queue, hl])
      (by simp [Hub.queue, Thread.filed, Thread.entries])
  | thrownAway hl hfull =>
    -- excluded: every put-back finds room
    have hroom := hback rfl
    simp only [Hub.queue, hl, Option.getD_some] at hroom
    omega
  | asyn ha =>
    cases ha <;> exact h.keep (fun n hn => hn) (fun e he _ => .inl he) (by simp [Thread.filed])
  | callbackAsyn ha =>
    cases ha <;> exact h.keep (fun n hn => hn) (fun e he _ => .inl he) (by simp [Thread.filed])
  | _ =>
    exact h.keep (fun n hn => hn) (fun e he _ => .inl he) (by simp [Thread.filed, Thread.entries])

theorem stray_called (h : NoStray s ts) (hr : Called J s i r) :
    NoStray r.shared (r.threads ++ ts) := by
  intro n hn
  have hfile : (s.dir.lookup n).isSome := by
    cases hr <;> exact hn
  rcases h n hfile with ⟨e, he, hpath⟩
  refine ⟨e, ?_, hpath⟩
  rcases List.mem_append.mp he with he | he
  · refine List.mem_append_left _ ?_
    cases hr <;> exact he
  · refine List.mem_append_right _ ?_
    rw [List.flatMap_append]
    exact List.mem_append_right _ he

theorem stray_inv {callOk : Call → Prop} (hdir : s₀.dir = ∅)
    (hrun : HubRuns J callOk filesTracked s₀ tr p) : NoStray p.shared p.threads := by
  refine Pool.invariant (P := fun _ s ts => NoStray s ts) ?_ ?_ ?_ ?_ hrun
  · intro tr s ts us hperm h n hn
    rcases h n hn with ⟨e, he, hpath⟩
    exact ⟨e, ((hperm.flatMap_right _).append_left _).subset he, hpath⟩
  · intro n hn
    simp [hdir] at hn
  · intro tr s ts i r hinv _ hr
    exact stray_called hinv (called_of_call hr)
  · intro tr s t ts env r hinv hok hr
    exact stray_section hinv hok (section_of_sect hr)

/-! ## Quiet states -/

/-- A queued entry has no second copy among the settled ones. -/
theorem Settled.queue_not_settled {q₀ : List CacheFileHeader} (h : Settled q₀ tr s ts)
    (hone : ∀ a, supply a q₀ tr ≤ 1) (he : e ∈ s.queue) :
    e.timestamp ∉ (settledEntries tr).map CacheFileHeader.timestamp := by
  intro hmem
  have hq := copies_pos_of_mem he
  have hsettled : 0 < copies e.timestamp (settledEntries tr) := List.count_pos_iff.mpr hmem
  have hle := h e.timestamp
  have h1 := hone e.timestamp
  omega

/-- From an empty cache, with distinct timestamps, successful file operations,
room at every put-back and no list replaced: in a state where no enqueue is
between its write and its push and no sender works on an entry, every file
belongs to a queued entry, and what a restart would load are queued entries,
none of which has been published or dropped. -/
theorem no_stray_file (hempty : s₀.queue = []) (hdir : s₀.dir = ∅)
    (hrun : HubRuns J anyCall filesTracked s₀ tr p)
    (hdistinct : ((enqueueCalls tr).map EnqueueCall.timestamp).Nodup)
    (hquiet : ∀ t ∈ p.threads, t.filed = []) :
    (∀ n ∈ p.shared.dir.keys, ∃ e ∈ p.shared.queue, getCacheFilePath e = n) ∧
    ∀ e' ∈ (loadNames p.shared.dir).queue, ∃ e ∈ p.shared.queue,
      e.timestamp = e'.timestamp ∧
        e'.timestamp ∉ (settledEntries tr).map CacheFileHeader.timestamp := by
  have hnodup : (stamps s₀.queue tr).Nodup := by simpa [stamps, hempty] using hdistinct
  have howner : ∀ n ∈ p.shared.dir.keys, ∃ e ∈ p.shared.queue, getCacheFilePath e = n := by
    intro n hn
    rcases stray_inv hdir hrun n (AList.lookup_isSome.mpr (AList.mem_keys.mpr hn)) with ⟨e, he, hpath⟩
    rcases List.mem_append.mp he with he | he
    · exact ⟨e, he, hpath⟩
    · rcases List.mem_flatMap.mp he with ⟨t, ht, he⟩
      rw [hquiet t ht] at he
      cases he
  refine ⟨howner, fun e' he' => ?_⟩
  rw [load_queue] at he'
  rcases List.mem_filterMap.mp he' with ⟨n, hn, hload⟩
  rcases howner n (mem_cacheNames.mp hn).1 with ⟨e, he, rfl⟩
  have hfiles := files_inv (fun _ _ _ _ h => h.1) (by simp [hempty]) hrun hnodup
  rw [loadable_path (hfiles.queued e he).positive, Option.some.injEq] at hload
  rw [← hload]
  have hfresh := (settled_inv hrun).queue_not_settled (supply_le_one hnodup) he
  exact ⟨e, he, rfl, hfresh⟩

instance (s : Hub) (ts : List Thread) (t : Thread) (env : Env) :
    Decidable (filesTracked s ts t env) :=
  inferInstanceAs (Decidable (_ ∧ _))

/-- Without a list at first: a message is put back after a failed send and published by the
next one, and the second message is evicted by the third. -/
def retriedRun : List (Pool.Label Call Env) :=
  .call (.enqueueOfflineMessage ⟨pingText, 9, 1⟩) :: List.replicate 6 (.run 0 quietEnv) ++
  .call .onConnect :: List.replicate 5 (.run 0 quietEnv) ++ List.replicate 6 (.run 1 quietEnv) ++
  .run 1 { quietEnv with sendOk := false } :: List.replicate 9 (.run 1 quietEnv) ++
  .call (.enqueueOfflineMessage ⟨pingText, 1, 2⟩) :: List.replicate 4 (.run 2 quietEnv) ++
  .call (.enqueueOfflineMessage ⟨pingText, 5, 3⟩) :: List.replicate 4 (.run 2 quietEnv)

theorem retriedRun_executes : (Exec.run (hubStep pingTokener) (Pool.Allowed anyCall filesTracked)
    ⟨startUpUnlisted 1 ∅, []⟩ retriedRun).isSome := by decide

theorem no_stray_file_retriedRun :
    ∃ tr p, HubRuns pingTokener anyCall filesTracked (startUpUnlisted 1 ∅) tr p ∧
      (.putBack ⟨9, 1⟩ ∈ tr ∧ .offlineSent ∈ tr ∧ .evicted ⟨1, 2⟩ ∈ tr) ∧
      p.shared.dir.keys = ["3-5.cache".toList] ∧
      (∀ n ∈ p.shared.dir.keys, ∃ e ∈ p.shared.queue, getCacheFilePath e = n) ∧
      ∀ e' ∈ (loadNames p.shared.dir).queue, ∃ e ∈ p.shared.queue,
        e.timestamp = e'.timestamp ∧
          e'.timestamp ∉ (settledEntries tr).map CacheFileHeader.timestamp := by
  have hrun := Exec.runs_of_isSome retriedRun_executes
  exact ⟨_, _, hrun, by decide, by decide, no_stray_file rfl rfl hrun (by decide) (by decide)⟩

/-! ## A full put-back -/

/-- The run in which the sender's entry is overtaken, up to the put-back. -/
theorem forgetting_executes : (Exec.run (hubStep pingTokener) (Pool.Allowed anyCall filesSucceed)
    ⟨roomForOne, []⟩ (overtakingRun ++ [.run 1 quietEnv])).isSome := by decide

/-- A full put-back leaves the file of the entry it throws away. -/
theorem full_putBack_leaves_file :
    ¬ ∀ (s₀ : Hub) (tr : List Event) (p : Pool.Config Hub Thread), s₀.queue = [] → s₀.dir = ∅ →
      1 ≤ s₀.capacity.1 → HubRuns pingTokener anyCall filesSucceed s₀ tr p →
      ((enqueueCalls tr).map EnqueueCall.timestamp).Nodup →
      (∀ k ∈ enqueueCalls tr, 0 < k.timestamp.1) → (∀ t ∈ p.threads, t.filed = []) →
      ∀ n ∈ p.shared.dir.keys, ∃ e ∈ p.shared.queue, getCacheFilePath e = n := by
  intro hclaim
  have howner := hclaim _ _ _ rfl rfl (by decide) (Exec.runs_of_isSome forgetting_executes)
    (by decide) (by decide) (by decide) "1-9.cache".toList (by decide)
  revert howner
  decide

end MqttMsgHub
