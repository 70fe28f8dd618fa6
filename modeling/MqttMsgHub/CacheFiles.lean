import MqttMsgHub.Ledger

/-! # The cache file of every entry

While the timestamps are distinct and the file operations succeed, every entry
of the queue, and the entry that the sender works on until it unlinks it, has
its file, and the file holds the message of the `enqueue_offline_message`
call that created the entry (or what it held at start-up, for an entry
loaded then). Files are written outside the lock and removed by evicting
threads and by the sender; none of them touches the file of another entry,
because the names of different timestamps are different.

* `FilesInv` — the invariant, kept by every call and section;
* `cache_files_match` — from an empty cache, and the sender never misses a file.
-/

namespace MqttMsgHub

open Pool (Outcome)

variable {tr ev : List Event} {s s₀ : Hub} {ts : List Thread} {J : Text → Option Json}
  {env : Env} {t : Thread} {i : Call} {r : Outcome Hub Thread Event} {d d' : Directory}
  {e : CacheFileHeader} {p : Pool.Config Hub Thread}

/-! ## Files and their origin -/

/-- Where the content of an entry's file comes from: the call that created the
entry, or the directory at start-up. -/
def Origin (s₀ : Hub) (tr : List Event) (e : CacheFileHeader) (content : Text) : Prop :=
  (∃ k, .enqueueCall k ∈ tr ∧ k.header = e ∧ k.message = content) ∨
    (e ∈ s₀.queue ∧ s₀.dir.lookup (getCacheFilePath e) = some content)

/-- The entry has a file, with the content it should have. -/
structure Backed (s₀ : Hub) (tr : List Event) (d : Directory) (e : CacheFileHeader) : Prop where
  positive : 0 < e.timestamp.1
  file : ∃ content, d.lookup (getCacheFilePath e) = some content ∧ content ≠ [] ∧
    Origin s₀ tr e content

theorem Origin.mono {content : Text} (h : Origin s₀ tr e content) (ev : List Event) :
    Origin s₀ (tr ++ ev) e content := by
  rcases h with ⟨k, hk, heq, hmsg⟩ | hstart
  · exact .inl ⟨k, List.mem_append_left ev hk, heq, hmsg⟩
  · exact .inr hstart

/-- An entry stays backed while nobody touches its file. -/
theorem Backed.frame (h : Backed s₀ tr d e) (ev : List Event)
    (hsame : d'.lookup (getCacheFilePath e) = d.lookup (getCacheFilePath e)) :
    Backed s₀ (tr ++ ev) d' e := by
  rcases h with ⟨hpos, content, hfile, hne, horigin⟩
  exact ⟨hpos, content, hsame.trans hfile, hne, horigin.mono ev⟩

theorem Backed.not_missing (h : Backed s₀ tr d e) :
    d.lookup (getCacheFilePath e) ≠ none := by
  rcases h.file with ⟨content, hfile, -, -⟩
  rw [hfile]
  exact Option.some_ne_none content

theorem Backed.not_empty (h : Backed s₀ tr d e) :
    d.lookup (getCacheFilePath e) ≠ some [] := by
  rcases h.file with ⟨content, hfile, hne, -⟩
  rw [hfile]
  exact fun hempty => hne (Option.some.inj hempty)

/-- The entries whose file a thread relies on: an enqueue between its write and
its push, a sender up to its unlink. -/
def Thread.filed : Thread → List CacheFileHeader
  | .enqueue k pc => if pc = .push then [k.header] else []
  | .sender pc => (Thread.sender pc).entries
  | _ => []

/-- The call whose file a thread is about to write. -/
def Thread.toWrite : Thread → List EnqueueCall
  | .enqueue k pc => if pc = .writeFile then [k] else []
  | _ => []

/-- What a thread carries along: the call it executes has been made, before the
write the call has been checked, after it the file is there. -/
structure ThreadOk (s₀ : Hub) (tr : List Event) (d : Directory) (t : Thread) : Prop where
  called : ∀ k ∈ t.calls, .enqueueCall k ∈ tr
  checked : ∀ k ∈ t.toWrite, 0 < k.timestamp.1 ∧ k.message ≠ []
  filed : ∀ e ∈ t.filed, Backed s₀ tr d e

theorem ThreadOk.frame (h : ThreadOk s₀ tr d t) (ev : List Event)
    (hsame : ∀ e ∈ t.filed, d'.lookup (getCacheFilePath e) = d.lookup (getCacheFilePath e)) :
    ThreadOk s₀ (tr ++ ev) d' t where
  called := fun k hk => List.mem_append_left ev (h.called k hk)
  checked := h.checked
  filed := fun e he => (h.filed e he).frame ev (hsame e he)

theorem entries_of_filed (h : e ∈ t.filed) : e ∈ t.entries := by
  cases t with
  | enqueue k pc =>
    simp only [Thread.filed] at h
    split at h
    · exact h
    · cases h
  | sender pc => exact h
  | _ => cases h

/-! ## The invariant -/

/-- Every queued entry and every entry that a thread relies on has its file, and
no file was missed so far. -/
structure FilesInv (s₀ : Hub) (tr : List Event) (s : Hub) (ts : List Thread) : Prop where
  queued : ∀ e ∈ s.queue, Backed s₀ tr s.dir e
  threads : ∀ t ∈ ts, ThreadOk s₀ tr s.dir t
  clean : ∀ e, .fileMissing e ∉ tr ∧ .readFailed e ∉ tr

/-- A step that leaves the files of the other threads alone. -/
theorem FilesInv.step {s' : Hub} {new : List Thread} (old : List Thread)
    (h : FilesInv s₀ tr s (old ++ ts))
    (hqueue : ∀ e ∈ s'.queue, Backed s₀ (tr ++ ev) s'.dir e)
    (hnew : ∀ u ∈ new, ThreadOk s₀ (tr ++ ev) s'.dir u)
    (hothers : ∀ u ∈ ts, ∀ e ∈ u.filed,
      s'.dir.lookup (getCacheFilePath e) = s.dir.lookup (getCacheFilePath e))
    (hclean : ∀ e, .fileMissing e ∉ ev ∧ .readFailed e ∉ ev) :
    FilesInv s₀ (tr ++ ev) s' (new ++ ts) where
  queued := hqueue
  threads := by
    intro u hu
    rcases List.mem_append.mp hu with hu | hu
    · exact hnew u hu
    · exact (h.threads u (List.mem_append_right old hu)).frame ev (hothers u hu)
  clean := by
    intro e
    rw [List.mem_append, List.mem_append, not_or, not_or]
    exact ⟨⟨(h.clean e).1, (hclean e).1⟩, (h.clean e).2, (hclean e).2⟩

/-- A step that leaves all files alone: entries and calls only change hands. -/
theorem FilesInv.keep {s' : Hub} {new : List Thread} (old : List Thread)
    (h : FilesInv s₀ tr s (old ++ ts))
    (hdir : s'.dir = s.dir)
    (hqueue : ∀ e ∈ s'.queue, e ∈ s.queue ∨ ∃ t ∈ old, e ∈ t.filed)
    (hfiled : ∀ u ∈ new, ∀ e ∈ u.filed, e ∈ s.queue ∨ ∃ t ∈ old, e ∈ t.filed)
    (hcalls : ∀ u ∈ new, ∀ k ∈ u.calls, .enqueueCall k ∈ ev ∨ ∃ t ∈ old, k ∈ t.calls)
    (hchecked : ∀ u ∈ new, ∀ k ∈ u.toWrite, 0 < k.timestamp.1 ∧ k.message ≠ [])
    (hclean : ∀ e, .fileMissing e ∉ ev ∧ .readFailed e ∉ ev) :
    FilesInv s₀ (tr ++ ev) s' (new ++ ts) := by
  have hbacked : ∀ e, (e ∈ s.queue ∨ ∃ t ∈ old, e ∈ t.filed) → Backed s₀ (tr ++ ev) s'.dir e := by
    rintro e (he | ⟨t, ht, he⟩)
    · exact (h.queued e he).frame ev (by rw [hdir])
    · exact ((h.threads t (List.mem_append_left ts ht)).filed e he).frame ev (by rw [hdir])
  refine h.step old (fun e he => hbacked e (hqueue e he)) (fun u hu => ⟨fun k hk => ?_, hchecked u hu,
    fun e he => hbacked e (hfiled u hu e he)⟩) (fun _ _ _ _ => by rw [hdir]) hclean
  rcases hcalls u hu k hk with hev | ⟨t, ht, hk⟩
  · exact List.mem_append_right tr hev
  · exact List.mem_append_left ev ((h.threads t (List.mem_append_left ts ht)).called k hk)

/-- A step of one thread that leaves the queue and the files alone: the threads behind it
have what it had. -/
theorem FilesInv.handOn {s' : Hub} {new : List Thread} (h : FilesInv s₀ tr s (t :: ts))
    (hdir : s'.dir = s.dir) (hqueue : s'.queue = s.queue)
    (hnew : ∀ u ∈ new, u.filed ⊆ t.filed ∧ u.calls ⊆ t.calls ∧ u.toWrite = [])
    (hclean : ∀ e, .fileMissing e ∉ ev ∧ .readFailed e ∉ ev) :
    FilesInv s₀ (tr ++ ev) s' (new ++ ts) := by
  refine h.keep [t] hdir ?_ ?_ ?_ ?_ hclean
  · intro e he
    rw [hqueue] at he
    exact .inl he
  · intro u hu e he
    exact .inr ⟨t, List.mem_singleton_self t, (hnew u hu).1 he⟩
  · intro u hu k hk
    exact .inr ⟨t, List.mem_singleton_self t, (hnew u hu).2.1 hk⟩
  · intro u hu k hk
    rw [(hnew u hu).2.2] at hk
    exact absurd hk List.not_mem_nil

/-- The file operations succeed. -/
def filesSucceed : Hub → List Thread → Thread → Env → Prop := fun _ _ _ env => env.write = .ok

theorem files_called (h : FilesInv s₀ tr s ts) (hr : Called J s i r) :
    FilesInv s₀ (tr ++ r.events) r.shared (r.threads ++ ts) := by
  cases hr with
  | _ =>
    exact FilesInv.keep [] h rfl (by simp [Hub.queue]) (by simp [Thread.filed])
      (by simp [Thread.calls]) (by simp [Thread.toWrite]) (by simp)

/-- The file of a call is written: the names of all other entries differ. -/
theorem files_written {k : EnqueueCall} (h : FilesInv s₀ tr s (.enqueue k .writeFile :: ts))
    (howned : Owned s₀.queue tr s (.enqueue k .writeFile :: ts))
    (hone : ∀ a, supply a s₀.queue tr ≤ 1) :
    FilesInv s₀ (tr ++ []) { s with dir := s.dir.insert (getCacheFilePath k.header) k.message }
      ([.enqueue k .push] ++ ts) := by
  have hthread := h.threads _ List.mem_cons_self
  rcases hthread.checked k (by simp [Thread.toWrite]) with ⟨hpos, hne⟩
  have hcalled : .enqueueCall k ∈ tr := hthread.called k (by simp [Thread.calls])
  have hmine : k.header ∈ (Thread.enqueue k .writeFile).entries := by simp [Thread.entries]
  have hkeep : ∀ e, 0 < e.timestamp.1 → e.timestamp ≠ k.header.timestamp →
      (s.dir.insert (getCacheFilePath k.header) k.message).lookup (getCacheFilePath e) =
        s.dir.lookup (getCacheFilePath e) := by
    intro e he hdiff
    exact AList.lookup_insert_ne (path_ne he hdiff)
  refine FilesInv.step [.enqueue k .writeFile] h (fun e he => ?_) ?_ (fun u hu e he => ?_) (by simp)
  · have hback := h.queued e he
    exact hback.frame [] (hkeep e hback.positive
      (howned.queue_ne_thread hone he List.mem_cons_self hmine))
  · intro u hu
    rw [List.mem_singleton.mp hu]
    refine ⟨by simpa [Thread.calls] using hcalled, by simp [Thread.toWrite], ?_⟩
    intro e he
    have heq : e = k.header := by simpa [Thread.filed] using he
    subst heq
    exact ⟨hpos, k.message, AList.lookup_insert _, hne,
      .inl ⟨k, by simpa using hcalled, rfl, rfl⟩⟩
  · have hback := (h.threads u (List.mem_cons_of_mem _ hu)).filed e he
    exact hkeep e hback.positive (howned.thread_ne_thread hone hmine hu (entries_of_filed he))

/-- An eviction takes the files of the removed entries and no others. -/
theorem files_push {k : EnqueueCall} {q q' removed : List CacheFileHeader}
    (h : FilesInv s₀ tr s (.enqueue k .push :: ts))
    (howned : Owned s₀.queue tr s (.enqueue k .push :: ts))
    (hone : ∀ a, supply a s₀.queue tr ≤ 1) (hl : s.list = some q)
    (hroom : makeRoom s.capacity q.length q s.dir = some (q', d', removed)) :
    FilesInv s₀ (tr ++ (evictions removed ++ [.pushed k.header, .returned k none]))
      { s with list := some (q' ++ [k.header]), dir := d' } ([] ++ ts) := by
  have hmade := makeRoom_spec hroom
  have hqueue : s.queue = q := Hub.queue_of_list hl
  have hremoved : ∀ x ∈ removed, x ∈ s.queue := by
    intro x hx
    rw [hqueue]
    exact hmade.perm.mem_iff.mpr (List.mem_append_left q' hx)
  have hkeep : ∀ e, 0 < e.timestamp.1 → (∀ x ∈ removed, x.timestamp ≠ e.timestamp) →
      d'.lookup (getCacheFilePath e) = s.dir.lookup (getCacheFilePath e) := by
    intro e he hdiff
    rw [hmade.lookup, if_neg]
    rintro hmem
    rcases List.mem_map.mp hmem with ⟨x, hx, heq⟩
    exact path_ne he (hdiff x hx).symm heq.symm
  have hmine : k.header ∈ (Thread.enqueue k .push).entries := by simp [Thread.entries]
  refine FilesInv.step [.enqueue k .push] h (fun e he => ?_) (by simp) (fun u hu e he => ?_) ?_
  · rcases List.mem_append.mp he with he | he
    · -- an entry that stays, with a timestamp of its own
      have hin : e ∈ s.queue := by
        rw [hqueue]
        exact hmade.sublist.subset he
      have hback := h.queued e hin
      have hnodup : ((removed ++ q').map CacheFileHeader.timestamp).Nodup := by
        rw [← (hmade.perm.map _).nodup_iff, ← hqueue]
        exact howned.queue_nodup hone
      rw [List.map_append] at hnodup
      refine hback.frame _ (hkeep e hback.positive fun x hx heq => ?_)
      exact (List.disjoint_of_nodup_append hnodup) (List.mem_map_of_mem hx)
        (heq ▸ List.mem_map_of_mem he)
    · rw [List.mem_singleton.mp he]
      have hback := (h.threads _ List.mem_cons_self).filed k.header (by simp [Thread.filed])
      exact hback.frame _ (hkeep _ hback.positive fun x hx =>
        howned.queue_ne_thread hone (hremoved x hx) List.mem_cons_self hmine)
  · have hback := (h.threads u (List.mem_cons_of_mem _ hu)).filed e he
    exact hkeep e hback.positive fun x hx =>
      howned.queue_ne_thread hone (hremoved x hx) (List.mem_cons_of_mem _ hu) (entries_of_filed he)
  · intro e
    constructor <;>
    · intro hmem
      rcases List.mem_append.mp hmem with hmem | hmem
      · simpa using mem_evictions hmem
      · simp at hmem

/-- The sender removes the file of its own entry. -/
theorem files_unlink (h : FilesInv s₀ tr s (.sender (.unlink e) :: ts))
    (howned : Owned s₀.queue tr s (.sender (.unlink e) :: ts))
    (hone : ∀ a, supply a s₀.queue tr ≤ 1) :
    FilesInv s₀ (tr ++ []) { s with dir := s.dir.erase (getCacheFilePath e) }
      ([.sender .count] ++ ts) := by
  have hmine : e ∈ (Thread.sender (.unlink e)).entries := by simp [Thread.entries]
  have hkeep : ∀ x, 0 < x.timestamp.1 → x.timestamp ≠ e.timestamp →
      (s.dir.erase (getCacheFilePath e)).lookup (getCacheFilePath x) =
        s.dir.lookup (getCacheFilePath x) := by
    intro x hx hdiff
    exact AList.lookup_erase_ne (path_ne hx hdiff)
  refine FilesInv.step [.sender (.unlink e)] h (fun x hx => ?_) ?_ (fun u hu x hx => ?_) (by simp)
  · have hback := h.queued x hx
    exact hback.frame [] (hkeep x hback.positive
      (howned.queue_ne_thread hone hx List.mem_cons_self hmine))
  · intro u hu
    rw [List.mem_singleton.mp hu]
    exact ⟨by simp [Thread.calls], by simp [Thread.toWrite], by simp [Thread.filed, Thread.entries]⟩
  · have hback := (h.threads u (List.mem_cons_of_mem _ hu)).filed x hx
    exact hkeep x hback.positive (howned.thread_ne_thread hone hmine hu (entries_of_filed hx))

theorem files_section (h : FilesInv s₀ tr s (t :: ts)) (howned : Owned s₀.queue tr s (t :: ts))
    (hone : ∀ a, supply a s₀.queue tr ≤ 1) (hok : env.write = .ok) (hr : Section J s env t r) :
    FilesInv s₀ (tr ++ r.events) r.shared (r.threads ++ ts) := by
  have hmine := h.threads _ List.mem_cons_self
  cases hr with
  | initList =>
    exact h.keep [_] rfl (by simp [Hub.queue]) (by simp [Thread.filed]) (by simp [Thread.calls])
      (by simp [Thread.toWrite]) (by simp)
  | admitted hcan hts hmsg =>
    exact h.keep [_] rfl (fun _ he => .inl he) (by simp [Thread.filed]) (by simp [Thread.calls])
      (by simpa [Thread.toWrite] using ⟨hts, hmsg⟩) (by simp)
  | written hw hn =>
    simp only [hok, writeFileString, Prod.mk.injEq] at hw
    rw [← hw.1]
    exact files_written h howned hone
  | @notWritten k d msg hw =>
    -- a checked message is not empty
    simp only [hok, writeFileString, Prod.mk.injEq, List.length_eq_zero_iff] at hw
    exact absurd hw.2 (hmine.checked k (by simp [Thread.toWrite])).2
  | push hl hroom => exact files_push h howned hone hl hroom
  | popSome hl =>
    -- the file passes from the queue to the sender's hand
    exact h.keep [_] rfl (by simp +contextual [Hub.queue, hl])
      (by simp [Thread.filed, Thread.entries, Hub.queue, hl]) (by simp [Thread.calls])
      (by simp [Thread.toWrite]) (by simp)
  | @fileMissing e hf =>
    -- the sender has the file of its entry, and a message in it
    exact absurd hf (hmine.filed e (by simp [Thread.filed, Thread.entries])).not_missing
  | @readFailed e hf =>
    exact absurd hf (hmine.filed e (by simp [Thread.filed, Thread.entries])).not_empty
  | unlink => exact files_unlink h howned hone
  | putBack hl hroom =>
    exact h.keep [_] rfl (by simp [Hub.queue, hl, Thread.filed, Thread.entries, or_comm])
      (by simp [Thread.filed, Thread.entries]) (by simp [Thread.calls]) (by simp [Thread.toWrite])
      (by simp)
  | asyn ha =>
    cases ha <;> exact h.handOn rfl rfl
      (by simp [Thread.filed, Thread.entries, Thread.calls, Thread.toWrite]) (by simp)
  | callbackAsyn ha =>
    cases ha <;> exact h.handOn rfl rfl
      (by simp [Thread.filed, Thread.entries, Thread.calls, Thread.toWrite]) (by simp)
  | requestCached =>
    -- a new call, which has just been made
    exact h.keep [_] rfl (fun _ he => .inl he) (by simp [Thread.filed]) (by simp [Thread.calls])
      (by simp [Thread.toWrite]) (by simp)
  | _ =>
    exact h.handOn rfl rfl (by simp [Thread.filed, Thread.entries, Thread.calls, Thread.toWrite])
      (by simp)

theorem FilesInv.of_perm {us : List Thread} (hperm : ts.Perm us) (h : FilesInv s₀ tr s ts) :
    FilesInv s₀ tr s us :=
  ⟨h.queued, fun t ht => h.threads t (hperm.mem_iff.mpr ht), h.clean⟩

/-- The invariant along every run whose file operations succeed, from a state in
which every entry has its file. -/
theorem files_inv {callOk : Call → Prop} {sectOk : Hub → List Thread → Thread → Env → Prop}
    (hok : ∀ s ts t env, sectOk s ts t env → env.write = .ok)
    (hstart : ∀ e ∈ s₀.queue, Backed s₀ [] s₀.dir e) (hrun : HubRuns J callOk sectOk s₀ tr p)
    (hdistinct : (stamps s₀.queue tr).Nodup) : FilesInv s₀ tr p.shared p.threads := by
  refine Pool.invariant_relative (H := fun tr => (stamps s₀.queue tr).Nodup) (Q := Owned s₀.queue)
    (P := FilesInv s₀) stamps_nodup_of_append (fun _ _ hrun _ => owned_inv hrun)
    (fun _ _ _ _ => Owned.of_perm) (fun _ _ _ _ => FilesInv.of_perm) ?_ ?_ ?_ hrun hdistinct
  · exact ⟨hstart, by simp, by simp⟩
  · intro tr s ts i r _ _ hfiles _ hr
    exact files_called hfiles (called_of_call hr)
  · intro tr s t ts env r hnodup howned hfiles hallowed hr
    have hone := supply_le_one (stamps_nodup_of_append tr r.events hnodup)
    exact files_section hfiles howned hone (hok _ _ _ _ hallowed) (section_of_sect hr)

/-- From an empty queue, with distinct timestamps and successful file operations:
every queued entry, and the entry of a sender until its unlink, has a file
with the message of the call that created it. The sender never finds a file
missing or empty. -/
theorem cache_files_match (hempty : s₀.queue = []) (hrun : HubRuns J anyCall filesSucceed s₀ tr p)
    (hdistinct : ((enqueueCalls tr).map EnqueueCall.timestamp).Nodup) :
    (∀ e, (e ∈ p.shared.queue ∨ ∃ pc, .sender pc ∈ p.threads ∧ e ∈ (Thread.sender pc).entries) →
      ∃ k, .enqueueCall k ∈ tr ∧ k.header = e ∧
        p.shared.dir.lookup (getCacheFilePath e) = some k.message) ∧
    ∀ e, .fileMissing e ∉ tr ∧ .readFailed e ∉ tr := by
  have hnodup : (stamps s₀.queue tr).Nodup := by simpa [stamps, hempty] using hdistinct
  have hinv := files_inv (fun _ _ _ _ h => h) (by simp [hempty]) hrun hnodup
  refine ⟨fun e he => ?_, hinv.clean⟩
  have hback : Backed s₀ tr p.shared.dir e := by
    rcases he with he | ⟨pc, hpc, he⟩
    · exact hinv.queued e he
    · exact (hinv.threads _ hpc).filed e he
  rcases hback.file with ⟨content, hfile, -, ⟨k, hk, hheader, hmsg⟩ | ⟨hstart, -⟩⟩
  · exact ⟨k, hk, hheader, hmsg ▸ hfile⟩
  · rw [hempty] at hstart
    cases hstart

instance (s : Hub) (ts : List Thread) (t : Thread) (env : Env) :
    Decidable (filesSucceed s ts t env) :=
  inferInstanceAs (Decidable (env.write = .ok))

theorem overtaking_with_files : (Exec.run (hubStep pingTokener) (Pool.Allowed anyCall filesSucceed)
    ⟨roomForOne, []⟩ overtakingRun).isSome := by decide

/-- One entry in the queue and one in the sender's hand. -/
theorem cache_files_match_overtaking :
    ∃ tr p, HubRuns pingTokener anyCall filesSucceed roomForOne tr p ∧
      p.shared.queue ≠ [] ∧ heldEntries p.threads ≠ [] ∧
      (∀ e, (e ∈ p.shared.queue ∨ ∃ pc, .sender pc ∈ p.threads ∧ e ∈ (Thread.sender pc).entries) →
        ∃ k, .enqueueCall k ∈ tr ∧ k.header = e ∧
          p.shared.dir.lookup (getCacheFilePath e) = some k.message) ∧
      ∀ e, .fileMissing e ∉ tr ∧ .readFailed e ∉ tr := by
  have hrun := Exec.runs_of_isSome overtaking_with_files
  exact ⟨_, _, hrun, by decide, by decide, cache_files_match rfl hrun (by decide)⟩

end MqttMsgHub
