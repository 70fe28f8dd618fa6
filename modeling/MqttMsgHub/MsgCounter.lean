import MqttMsgHub.CounterFile
import MqttMsgHub.Lib.Pool

/-! # Counting messages

Four counters are kept in memory, each behind its own mutex. The timer thread
moves them into the counter file (`save_msg_count_to_file`), holding the mutex of
the file from the read to the write. When the client connects, a report reads
the file, publishes what it read and, if the publication succeeded, overwrites
the file with zeros: three sections, with the file's mutex released in between.

A save that lands between the read and the clearing of a report adds counts to
the file that the report does not carry, and the clearing wipes them out.

* `inv_sect` — one section of a save or a report keeps the books, a clearing
  section if the file still holds what its report has read;
* `counts_conserved` — so no count is lost over a run in which every clearing
  section does;
* `save_during_report_loses_counts` — and one is in a run in which a save
  comes in between.
-/

namespace MqttMsgHub.MsgCounter

open Pool (total Outcome)

/-! ## State -/

/-- The counters in memory, the counter file, and whether `g_ini_file_mutex` is
held across sections. -/
structure Shared where
  mem : Counts
  file : Option (List Char)
  iniLocked : Bool

/-- Threads, at the section they run next. -/
inductive Thread where
  /-- `save_msg_count_to_file`, comparing the counters with zero one by one. -/
  | saveTest (rest : List Counter)
  | saveLock
  /-- Adding the counters of `rest` to the values `v` read from the file. -/
  | saveTransfer (rest : List Counter) (v : Counts)
  /-- `on_mqtt_client_connected`, at `get_total_msg_count`. -/
  | reportRead
  | reportSend (v : Counts)
  | reportClear (v : Counts)

inductive Event where
  | incremented (c : Counter)
  /-- A report that was published successfully, with the values it carries. -/
  | reported (v : Counts)

inductive Call where
  | increase (c : Counter)
  | saveMsgCountToFile
  | onMqttClientConnected

/-- `increase_sent_msg_count`. -/
def increaseSentMsgCount : Call := .increase .sent

/-- `increase_online_discarded_msg_count`. -/
def increaseOnlineDiscardedMsgCount : Call := .increase .onlineDiscarded

/-- `increase_offline_discarded_msg_count`. -/
def increaseOfflineDiscardedMsgCount : Call := .increase .offlineDiscarded

/-- `increase_offline_sent_msg_count`. -/
def increaseOfflineSentMsgCount : Call := .increase .offlineSent

/-! ## Sections -/

def call (s : Shared) : Call → Option (Outcome Shared Thread Event)
  | .increase c =>
    some ⟨{ s with mem := Function.update s.mem c (CInt.wrap ((s.mem c).1 + 1)) }, [],
      [.incremented c]⟩
  | .saveMsgCountToFile => some ⟨s, [.saveTest Counter.all], []⟩
  | .onMqttClientConnected => some ⟨s, [.reportRead], []⟩

/-- The next section of a thread; `sendOk` is whether
`MQTTClientWrapper_sendMessage` returns `SUCCESS`. A section that needs the
mutex of the file waits while it is held, and none starts on a file on which
the parser has no defined result. -/
def sect (s : Shared) : Thread → Bool → Option (Outcome Shared Thread Event)
  -- the four comparisons are made without any mutex
  | .saveTest [], _ => some ⟨s, [], []⟩
  | .saveTest (c :: rest), _ =>
    some ⟨s, [if s.mem c = 0 then .saveTest rest else .saveLock], []⟩
  | .saveLock, _ =>
    if s.iniLocked then none
    else (readTotalMsgCount s.file).map fun r =>
      ⟨{ s with iniLocked := true }, [.saveTransfer Counter.all r.2], []⟩
  | .saveTransfer (c :: rest) v, _ =>
    -- under the mutex of this counter, with the file still locked
    some ⟨{ s with mem := Function.update s.mem c 0 },
      [.saveTransfer rest (Function.update v c (CInt.wrap ((v c).1 + (s.mem c).1)))], []⟩
  | .saveTransfer [] v, _ =>
    (saveTotalMsgCount s.file v).map fun file => ⟨{ s with file := file, iniLocked := false }, [], []⟩
  | .reportRead, _ =>
    if s.iniLocked then none
    else (readTotalMsgCount s.file).map fun r =>
      -- nothing is reported when no counter is positive
      ⟨s, if Counter.all.any fun c => 0 < (r.2 c).1 then [.reportSend r.2] else [], []⟩
  | .reportSend v, sendOk =>
    if sendOk then some ⟨s, [.reportClear v], [.reported v]⟩ else some ⟨s, [], []⟩
  | .reportClear _, _ =>
    -- zeros, whatever the file holds by now
    if s.iniLocked then none
    else (saveTotalMsgCount s.file fun _ => 0).map fun file => ⟨{ s with file := file }, [], []⟩

/-- The hub at its start, with the counter file that an earlier run has left. -/
def startUp (file : Option (List Char)) : Shared where
  mem := fun _ => 0
  file := file
  iniLocked := false

/-- Runs whose sections meet `sectOk`. -/
abbrev CounterRuns (sectOk : Shared → List Thread → Thread → Bool → Prop)
    (file : Option (List Char)) : List Event → Pool.Config Shared Thread → Prop :=
  Exec.Runs (Pool.step call sect) (Pool.Allowed (fun _ => True) sectOk) ⟨startUp file, []⟩

/-! ## Quantities -/

/-- The counts in the file. -/
def Shared.fileCounts (s : Shared) : Counts :=
  match readTotalMsgCount s.file with
  | some r => r.2
  | none => fun _ => 0

/-- How often a counter was incremented. -/
def incremented (c : Counter) (tr : List Event) : ℤ :=
  total (fun | Event.incremented d => if d = c then 1 else 0 | .reported _ => 0) tr

/-- The sum of the values of a counter over the published reports. -/
def reported (c : Counter) (tr : List Event) : ℤ :=
  total (fun | Event.reported v => (v c).1 | .incremented _ => 0) tr

/-- A clearing section finds in the file what its report has read. -/
def clearsWhatItReported : Shared → List Thread → Thread → Bool → Prop
  | s, _, .reportClear v, _ => ∀ c, s.fileCounts c = v c
  | _, _, _, _ => True

instance (s : Shared) (ts : List Thread) (t : Thread) (sendOk : Bool) :
    Decidable (clearsWhatItReported s ts t sendOk) :=
  match t with
  | .reportClear v => inferInstanceAs (Decidable (∀ c, s.fileCounts c = v c))
  | .saveTest _ | .saveLock | .saveTransfer _ _ | .reportRead | .reportSend _ => isTrue trivial

variable {s : Shared} {t : Thread} {ts : List Thread} {tr : List Event} {v v₀ : Counts}
  {c : Counter} {r : Outcome Shared Thread Event} {sendOk : Bool} {file : Option (List Char)}

/-! ## The books -/

/-- The mutex of the file is held by this thread. -/
def Thread.locks : Thread → ℕ
  | .saveTransfer _ _ => 1
  | _ => 0

/-- Counts that a save has taken from the file, and partly from memory, and has
not yet written. -/
def Thread.held (c : Counter) : Thread → ℤ
  | .saveTransfer _ v => (v c).1
  | _ => 0

/-- Counts that are published and still stand in the file. -/
def Thread.due (c : Counter) : Thread → ℤ
  | .reportClear v => (v c).1
  | _ => 0

/-- The counts a thread carries are not negative. -/
def Thread.Nonneg : Thread → Prop
  | .saveTransfer _ v | .reportSend v | .reportClear v => ∀ c, 0 ≤ (v c).1
  | _ => True

/-- Counts in the file, unless a save has taken them over. -/
def Shared.stored (s : Shared) (c : Counter) : ℤ := if s.iniLocked then 0 else (s.fileCounts c).1

/-- The file can be read and all counts are natural numbers; at most one save
holds the file; every increment has been reported, or is in the file, in the
hands of a save, or in memory. -/
structure Books (v₀ : Counts) (tr : List Event) (s : Shared) (ts : List Thread) : Prop where
  readable : (readTotalMsgCount s.file).isSome
  file_nonneg : ∀ c, 0 ≤ (s.fileCounts c).1
  mem_nonneg : ∀ c, 0 ≤ (s.mem c).1
  threads_nonneg : ∀ t ∈ ts, t.Nonneg
  locks : total Thread.locks ts = if s.iniLocked then 1 else 0
  due_le : ∀ c, total (Thread.due c) ts ≤ reported c tr
  balance : ∀ c, (v₀ c).1 + incremented c tr + total (Thread.due c) ts =
    reported c tr + s.stored c + total (Thread.held c) ts + (s.mem c).1

/-- No counter has seen more than `INT_MAX` increments. -/
def InRange (v₀ : Counts) (tr : List Event) : Prop :=
  ∀ c, (v₀ c).1 + incremented c tr ≤ INT_MAX.1

theorem held_nonneg (h : ∀ t ∈ ts, t.Nonneg) (c : Counter) : 0 ≤ total (Thread.held c) ts := by
  apply List.sum_nonneg
  intro n hn
  rcases List.mem_map.mp hn with ⟨t, ht, rfl⟩
  have hnn := h t ht
  cases t <;> first | exact le_rfl | exact hnn c

theorem Shared.fileCounts_of_read {rc : Bool} (h : readTotalMsgCount s.file = some (rc, v)) :
    s.fileCounts = v := by
  rw [Shared.fileCounts, h]

theorem Shared.stored_of_free (h : s.iniLocked = false) (c : Counter) :
    s.stored c = (s.fileCounts c).1 := by
  simp [Shared.stored, h]

theorem Shared.stored_of_locked (h : s.iniLocked = true) (c : Counter) : s.stored c = 0 := by
  simp [Shared.stored, h]

theorem wrap_of_range {n : ℤ} (h0 : 0 ≤ n) (h : n ≤ INT_MAX.1) : (CInt.wrap n).1 = n := by
  have hmax : INT_MAX.1 = 2147483647 := rfl
  simp only [CInt.wrap]
  omega

/-- What a counter holds in memory and in the hands of a save is bounded by its
increments. -/
theorem Books.held_add_mem_le (h : Books v₀ tr s ts) (c : Counter) :
    total (Thread.held c) ts + (s.mem c).1 ≤ (v₀ c).1 + incremented c tr := by
  have hstored : 0 ≤ s.stored c := by
    unfold Shared.stored
    split
    · exact le_rfl
    · exact h.file_nonneg c
  have hbalance := h.balance c
  have hdue := h.due_le c
  omega

/-! ## Sections keep the books -/

theorem incremented_append (c : Counter) (tr ev : List Event) :
    incremented c (tr ++ ev) = incremented c tr + incremented c ev :=
  Pool.total_append _ _ _

theorem reported_append (c : Counter) (tr ev : List Event) :
    reported c (tr ++ ev) = reported c tr + reported c ev :=
  Pool.total_append _ _ _

theorem Books.perm {us : List Thread} (hperm : ts.Perm us) (h : Books v₀ tr s ts) :
    Books v₀ tr s us where
  readable := h.readable
  file_nonneg := h.file_nonneg
  mem_nonneg := h.mem_nonneg
  threads_nonneg t ht := h.threads_nonneg t (hperm.mem_iff.mpr ht)
  locks := by rw [← Pool.total_of_perm _ hperm, h.locks]
  due_le c := by rw [← Pool.total_of_perm _ hperm]; exact h.due_le c
  balance c := by
    rw [← Pool.total_of_perm _ hperm, ← Pool.total_of_perm _ hperm]
    exact h.balance c

/-- A section that only moves a thread, which carries nothing before and after. -/
theorem Books.move (old : List Thread) {new : List Thread} (h : Books v₀ tr s (old ++ ts))
    (hnew : ∀ t ∈ new, t.Nonneg)
    (hlocks : total Thread.locks new = total Thread.locks old)
    (hheld : ∀ c, total (Thread.held c) new = total (Thread.held c) old)
    (hdue : ∀ c, total (Thread.due c) new = total (Thread.due c) old) :
    Books v₀ tr s (new ++ ts) where
  readable := h.readable
  file_nonneg := h.file_nonneg
  mem_nonneg := h.mem_nonneg
  threads_nonneg t ht := by
    rcases List.mem_append.mp ht with hmem | hmem
    · exact hnew t hmem
    · exact h.threads_nonneg t (List.mem_append_right _ hmem)
  locks := by
    have hl := h.locks
    rw [Pool.total_append] at hl ⊢
    rw [hlocks, hl]
  due_le c := by
    have hd := h.due_le c
    rw [Pool.total_append] at hd ⊢
    rw [hdue c]
    exact hd
  balance c := by
    have hb := h.balance c
    simp only [Pool.total_append] at hb ⊢
    rw [hdue c, hheld c]
    exact hb

/-- The save takes the counts of the file over. -/
theorem Books.lock {rc : Bool} (h : Books v₀ tr s (.saveLock :: ts)) (hfree : s.iniLocked = false)
    (hread : readTotalMsgCount s.file = some (rc, v)) :
    Books v₀ tr { s with iniLocked := true } (.saveTransfer Counter.all v :: ts) := by
  have hcounts := Shared.fileCounts_of_read hread
  constructor
  · exact h.readable
  · exact h.file_nonneg
  · exact h.mem_nonneg
  · intro t ht
    rcases List.mem_cons.mp ht with rfl | hmem
    · intro c
      rw [← hcounts]
      exact h.file_nonneg c
    · exact h.threads_nonneg t (List.mem_cons_of_mem _ hmem)
  · have hl := h.locks
    simpa [Thread.locks, hfree] using hl
  · intro c
    have hd := h.due_le c
    simpa [Thread.due] using hd
  · intro c
    have hb := h.balance c
    rw [Shared.stored_of_free hfree, hcounts] at hb
    rw [Shared.stored_of_locked rfl]
    simp only [Pool.total_cons, Thread.due, Thread.held] at hb ⊢
    omega

/-- The save moves one counter from memory. -/
theorem Books.transfer {rest : List Counter} (h : Books v₀ tr s (.saveTransfer (c :: rest) v :: ts))
    (hrange : InRange v₀ tr) :
    Books v₀ tr { s with mem := Function.update s.mem c 0 }
      (.saveTransfer rest (Function.update v c (CInt.wrap ((v c).1 + (s.mem c).1))) :: ts) := by
  have hv : ∀ d, 0 ≤ (v d).1 := h.threads_nonneg _ List.mem_cons_self
  have hts : ∀ t ∈ ts, t.Nonneg := fun t ht => h.threads_nonneg t (List.mem_cons_of_mem _ ht)
  have hsum : (CInt.wrap ((v c).1 + (s.mem c).1)).1 = (v c).1 + (s.mem c).1 := by
    have hmax := hrange c
    have hbound := h.held_add_mem_le c
    have hother := held_nonneg hts c
    have hmem := h.mem_nonneg c
    simp only [Pool.total_cons, Thread.held] at hbound
    exact wrap_of_range (by have := hv c; omega) (by omega)
  constructor
  · exact h.readable
  · exact h.file_nonneg
  · intro d
    by_cases hd : d = c
    · subst hd
      simp only [Function.update_self]
      decide
    · simp only [Function.update_of_ne hd]
      exact h.mem_nonneg d
  · intro t ht
    rcases List.mem_cons.mp ht with rfl | hmem
    · intro d
      by_cases hd : d = c
      · subst hd
        rw [Function.update_self, hsum]
        exact add_nonneg (hv d) (h.mem_nonneg d)
      · rw [Function.update_of_ne hd]
        exact hv d
    · exact hts t hmem
  · exact h.locks
  · intro d
    exact h.due_le d
  · intro d
    have hb := h.balance d
    simp only [Pool.total_cons, Thread.due, Thread.held] at hb ⊢
    have hstored : ({ s with mem := Function.update s.mem c 0 } : Shared).stored d = s.stored d := rfl
    rw [hstored]
    by_cases hd : d = c
    · subst hd
      rw [Function.update_self, Function.update_self, hsum]
      have hzero : ((0 : CInt)).1 = 0 := by decide
      omega
    · rw [Function.update_of_ne hd, Function.update_of_ne hd]
      exact hb

/-- The save writes the counts back and gives the file free. -/
theorem Books.write (h : Books v₀ tr s (.saveTransfer [] v :: ts))
    (hsave : saveTotalMsgCount s.file v = some file) :
    Books v₀ tr { s with file := file, iniLocked := false } ts := by
  have hv : ∀ d, 0 ≤ (v d).1 := h.threads_nonneg _ List.mem_cons_self
  have hread := read_of_save h.readable hv hsave
  have hcounts : ({ s with file := file, iniLocked := false } : Shared).fileCounts = v :=
    Shared.fileCounts_of_read hread
  -- this save is the one that holds the file
  have hlocked : s.iniLocked = true ∧ total Thread.locks ts = 0 := by
    have hl := h.locks
    simp only [Pool.total_cons, Thread.locks] at hl
    cases hs : s.iniLocked with
    | false =>
      rw [hs] at hl
      simp at hl
    | true =>
      rw [hs, if_pos rfl] at hl
      exact ⟨rfl, by omega⟩
  constructor
  · exact Option.isSome_iff_exists.mpr ⟨_, hread⟩
  · intro d
    rw [hcounts]
    exact hv d
  · exact h.mem_nonneg
  · exact fun t ht => h.threads_nonneg t (List.mem_cons_of_mem _ ht)
  · simpa using hlocked.2
  · intro d
    have hd := h.due_le d
    simpa [Thread.due] using hd
  · intro d
    have hb := h.balance d
    rw [Shared.stored_of_locked hlocked.1] at hb
    rw [Shared.stored_of_free rfl, hcounts]
    simp only [Pool.total_cons, Thread.due, Thread.held] at hb ⊢
    omega

/-- A report is published. -/
theorem Books.send (h : Books v₀ tr s (.reportSend v :: ts)) :
    Books v₀ (tr ++ [.reported v]) s (.reportClear v :: ts) := by
  have hv : ∀ d, 0 ≤ (v d).1 := h.threads_nonneg _ List.mem_cons_self
  have hinc : ∀ d, incremented d [.reported v] = 0 := fun _ => rfl
  have hrep : ∀ d, reported d [.reported v] = (v d).1 := fun d => by simp [reported]
  constructor
  · exact h.readable
  · exact h.file_nonneg
  · exact h.mem_nonneg
  · intro t ht
    rcases List.mem_cons.mp ht with rfl | hmem
    · exact hv
    · exact h.threads_nonneg t (List.mem_cons_of_mem _ hmem)
  · exact h.locks
  · intro d
    have hd := h.due_le d
    simp only [Pool.total_cons, Thread.due] at hd ⊢
    rw [reported_append, hrep]
    omega
  · intro d
    have hb := h.balance d
    simp only [Pool.total_cons, Thread.due, Thread.held] at hb ⊢
    rw [reported_append, incremented_append, hrep, hinc]
    omega

/-- A report clears the file, which still holds what it has published. -/
theorem Books.clear (h : Books v₀ tr s (.reportClear v :: ts)) (hfree : s.iniLocked = false)
    (hsame : ∀ d, s.fileCounts d = v d)
    (hsave : saveTotalMsgCount s.file (fun _ => 0) = some file) :
    Books v₀ tr { s with file := file } ts := by
  have hzero : ((0 : CInt)).1 = 0 := by decide
  have hread := read_of_save h.readable (fun _ => hzero.ge) hsave
  have hcounts : ({ s with file := file } : Shared).fileCounts = fun _ => 0 :=
    Shared.fileCounts_of_read hread
  have hv : ∀ d, 0 ≤ (v d).1 := h.threads_nonneg _ List.mem_cons_self
  constructor
  · exact Option.isSome_iff_exists.mpr ⟨_, hread⟩
  · intro d
    rw [hcounts]
    exact hzero.ge
  · exact h.mem_nonneg
  · exact fun t ht => h.threads_nonneg t (List.mem_cons_of_mem _ ht)
  · have hl := h.locks
    simpa [Thread.locks] using hl
  · intro d
    have hd := h.due_le d
    have hvd := hv d
    simp only [Pool.total_cons, Thread.due] at hd
    omega
  · intro d
    have hb := h.balance d
    have hstored : ({ s with file := file } : Shared).stored d = 0 := by
      rw [Shared.stored_of_free (by exact hfree), hcounts]
      exact hzero
    rw [Shared.stored_of_free hfree, hsame d] at hb
    rw [hstored]
    simp only [Pool.total_cons, Thread.due, Thread.held] at hb ⊢
    omega

/-- A counter is incremented. -/
theorem Books.increase (h : Books v₀ tr s ts) (hrange : InRange v₀ (tr ++ [.incremented c])) :
    Books v₀ (tr ++ [.incremented c])
      { s with mem := Function.update s.mem c (CInt.wrap ((s.mem c).1 + 1)) } ts := by
  have hrep : ∀ d, reported d [.incremented c] = 0 := fun _ => rfl
  have hinc : incremented c [.incremented c] = 1 := by simp [incremented]
  have hinc' : ∀ d, d ≠ c → incremented d [.incremented c] = 0 := by
    intro d hd
    simp [incremented, Ne.symm hd]
  have hstored : ∀ d, ({ s with
      mem := Function.update s.mem c (CInt.wrap ((s.mem c).1 + 1)) } : Shared).stored d =
        s.stored d := fun _ => rfl
  -- the balance bounds the counter by the number of increments
  have hsum : (CInt.wrap ((s.mem c).1 + 1)).1 = (s.mem c).1 + 1 := by
    have hmem := h.mem_nonneg c
    have hmax := hrange c
    rw [incremented_append, hinc] at hmax
    have hbound := h.held_add_mem_le c
    have hheld := held_nonneg h.threads_nonneg c
    exact wrap_of_range (by omega) (by omega)
  constructor
  · exact h.readable
  · exact h.file_nonneg
  · intro d
    by_cases hd : d = c
    · subst hd
      simp only [Function.update_self, hsum]
      exact add_nonneg (h.mem_nonneg d) Int.one_nonneg
    · simp only [Function.update_of_ne hd]
      exact h.mem_nonneg d
  · exact h.threads_nonneg
  · exact h.locks
  · intro d
    rw [reported_append, hrep, add_zero]
    exact h.due_le d
  · intro d
    have hb := h.balance d
    rw [reported_append, incremented_append, hrep, hstored]
    by_cases hd : d = c
    · subst hd
      simp only [Function.update_self, hsum, hinc]
      omega
    · simp only [Function.update_of_ne hd, hinc' d hd]
      omega

/-- Every section keeps the books; a clearing section if it clears what its
report has published. -/
theorem inv_sect (h : Books v₀ tr s (t :: ts)) (hrange : InRange v₀ tr)
    (hok : clearsWhatItReported s ts t sendOk) (hsect : sect s t sendOk = some r) :
    Books v₀ (tr ++ r.events) r.shared (r.threads ++ ts) := by
  cases t with
  | saveTest rest =>
    cases rest with
    | nil =>
      cases hsect
      rw [List.append_nil]
      exact Books.move [.saveTest []] h (by simp) rfl (fun _ => rfl) fun _ => rfl
    | cons c rest =>
      cases hsect
      rw [List.append_nil]
      by_cases hzero : s.mem c = 0
      · simp only [if_pos hzero]
        exact Books.move [_] h (by simp [Thread.Nonneg]) rfl (fun _ => rfl) fun _ => rfl
      · simp only [if_neg hzero]
        exact Books.move [_] h (by simp [Thread.Nonneg]) rfl (fun _ => rfl) fun _ => rfl
  | saveLock =>
    simp only [sect] at hsect
    split at hsect
    · cases hsect
    · rename_i hfree
      simp only [Option.map_eq_some_iff] at hsect
      rcases hsect with ⟨⟨rc, v⟩, hread, rfl⟩
      rw [List.append_nil]
      exact h.lock (by simpa using hfree) hread
  | saveTransfer rest v =>
    cases rest with
    | nil =>
      simp only [sect, Option.map_eq_some_iff] at hsect
      rcases hsect with ⟨file, hsave, rfl⟩
      rw [List.append_nil]
      exact h.write hsave
    | cons c rest =>
      cases hsect
      rw [List.append_nil]
      exact h.transfer hrange
  | reportRead =>
    simp only [sect] at hsect
    split at hsect
    · cases hsect
    · simp only [Option.map_eq_some_iff] at hsect
      rcases hsect with ⟨⟨rc, v⟩, hread, rfl⟩
      rw [List.append_nil]
      -- the report takes a copy; the file keeps the counts
      have hv : ∀ c, 0 ≤ (v c).1 := by
        intro c
        rw [← Shared.fileCounts_of_read hread]
        exact h.file_nonneg c
      split
      · exact Books.move [.reportRead] h (by simpa [Thread.Nonneg] using hv) rfl
          (fun _ => rfl) fun _ => rfl
      · exact Books.move [.reportRead] h (by simp) rfl (fun _ => rfl) fun _ => rfl
  | reportSend v =>
    cases sendOk with
    | true =>
      cases hsect
      exact h.send
    | false =>
      cases hsect
      rw [List.append_nil]
      exact Books.move [.reportSend v] h (by simp) rfl (fun _ => rfl) fun _ => rfl
  | reportClear v =>
    simp only [sect] at hsect
    split at hsect
    · cases hsect
    · rename_i hfree
      simp only [Option.map_eq_some_iff] at hsect
      rcases hsect with ⟨file, hsave, rfl⟩
      rw [List.append_nil]
      exact h.clear (by simpa using hfree) hok hsave

theorem inv_call {i : Call} (h : Books v₀ tr s ts) (hrange : InRange v₀ (tr ++ r.events))
    (hcall : call s i = some r) : Books v₀ (tr ++ r.events) r.shared (r.threads ++ ts) := by
  cases i with
  | increase c =>
    cases hcall
    exact h.increase hrange
  | saveMsgCountToFile =>
    cases hcall
    rw [List.append_nil]
    exact Books.move [] h (by simp [Thread.Nonneg]) rfl (fun _ => rfl) fun _ => rfl
  | onMqttClientConnected =>
    cases hcall
    rw [List.append_nil]
    exact Books.move [] h (by simp [Thread.Nonneg]) rfl (fun _ => rfl) fun _ => rfl

/-! ## Runs -/

theorem incremented_nonneg (c : Counter) (tr : List Event) : 0 ≤ incremented c tr := by
  apply List.sum_nonneg
  intro n hn
  rcases List.mem_map.mp hn with ⟨e, -, rfl⟩
  cases e with
  | incremented d =>
    show (0 : ℤ) ≤ if d = c then 1 else 0
    split <;> omega
  | reported v => exact le_rfl

theorem InRange.of_append {ev : List Event} (h : InRange v₀ (tr ++ ev)) : InRange v₀ tr := by
  intro c
  have hall := h c
  have hrest := incremented_nonneg c ev
  rw [incremented_append] at hall
  omega

theorem books_startUp {rc : Bool} (hfile : readTotalMsgCount file = some (rc, v₀))
    (hpos : ∀ c, 0 ≤ (v₀ c).1) : Books v₀ [] (startUp file) [] := by
  have hcounts : (startUp file).fileCounts = v₀ := Shared.fileCounts_of_read hfile
  have hzero : ((0 : CInt)).1 = 0 := by decide
  constructor
  · exact Option.isSome_iff_exists.mpr ⟨_, hfile⟩
  · intro c
    rw [hcounts]
    exact hpos c
  · exact fun _ => hzero.ge
  · simp
  · rfl
  · exact fun _ => le_rfl
  · intro c
    rw [Shared.stored_of_free rfl, hcounts]
    simp [incremented, reported, startUp, hzero]

/-- No count is lost: when no save and no report is going on, the increments,
with those of earlier runs that the file held at the start, are the published
counts together with those in the file and in memory. -/
theorem counts_conserved {rc : Bool} {p : Pool.Config Shared Thread}
    (hfile : readTotalMsgCount file = some (rc, v₀)) (hpos : ∀ c, 0 ≤ (v₀ c).1)
    (hruns : CounterRuns clearsWhatItReported file tr p)
    (hrange : ∀ c, (v₀ c).1 + incremented c tr ≤ INT_MAX.1) (hquiet : p.threads = []) :
    ∀ c, (v₀ c).1 + incremented c tr =
      reported c tr + (p.shared.fileCounts c).1 + (p.shared.mem c).1 := by
  have hbooks : Books v₀ tr p.shared p.threads := by
    refine Pool.invariant_of_trace (H := InRange v₀) (P := Books v₀) ?_ ?_ ?_ ?_ ?_ hruns hrange
    · intro tr ev h
      exact h.of_append
    · intro tr s ts us hperm h
      exact h.perm hperm
    · exact books_startUp hfile hpos
    · intro tr s ts i r hr h _ hcall
      exact inv_call h hr hcall
    · intro tr s t ts sendOk r hr h hok hsect
      exact inv_sect h hr.of_append hok hsect
  rw [hquiet] at hbooks
  intro c
  have hfree : p.shared.iniLocked = false := by
    have hl := hbooks.locks
    cases hs : p.shared.iniLocked with
    | false => rfl
    | true =>
      rw [hs] at hl
      cases hl
  have hb := hbooks.balance c
  rw [Shared.stored_of_free hfree] at hb
  simp only [Pool.total_nil, add_zero] at hb
  exact hb

/-- One message is counted, and the counters are saved by thread `n`. -/
def countAndSave (n : ℕ) : List (Pool.Label Call Bool) :=
  .call increaseSentMsgCount :: .call .saveMsgCountToFile :: List.replicate 7 (.run n true)

/-- A saved count is reported, and another message is counted afterwards. -/
def reportedRun : List (Pool.Label Call Bool) :=
  countAndSave 0 ++ .call .onMqttClientConnected :: List.replicate 3 (.run 0 true) ++
    [.call increaseSentMsgCount]

theorem reportedRun_executes : (Exec.run (Pool.step call sect)
    (Pool.Allowed (fun _ => True) clearsWhatItReported) ⟨startUp none, []⟩
    reportedRun).isSome := by decide

theorem counts_conserved_reportedRun :
    ∃ tr p, CounterRuns clearsWhatItReported none tr p ∧ p.threads = [] ∧
      incremented .sent tr = 2 ∧ reported .sent tr = 1 ∧
      ∀ c, (0 : CInt).1 + incremented c tr =
        reported c tr + (p.shared.fileCounts c).1 + (p.shared.mem c).1 := by
  have hrun := Exec.runs_of_isSome reportedRun_executes
  have hfile : readTotalMsgCount none = some (false, fun _ => 0) := rfl
  exact ⟨_, _, hrun, by decide, by decide, by decide,
    counts_conserved hfile (by decide) hrun (by decide) (by decide)⟩

/-- A save comes in between the read and the clearing of a report. -/
def savedDuringReport : List (Pool.Label Call Bool) :=
  countAndSave 0 ++ [.call .onMqttClientConnected, .run 0 true] ++ countAndSave 1 ++
    [.run 0 true, .run 0 true]

theorem savedDuringReport_executes : (Exec.run (Pool.step call sect)
    (Pool.Allowed (fun _ => True) fun _ _ _ _ => True) ⟨startUp none, []⟩
    savedDuringReport).isSome := by decide

/-- Two messages are counted and one is reported; the other one is neither in the
file nor in memory. -/
theorem save_during_report_loses_counts :
    ¬ ∀ (file : Option (List Char)) (rc : Bool) (v₀ : Counts) (tr : List Event)
      (p : Pool.Config Shared Thread), readTotalMsgCount file = some (rc, v₀) →
      (∀ c, 0 ≤ (v₀ c).1) → CounterRuns (fun _ _ _ _ => True) file tr p →
      (∀ c, (v₀ c).1 + incremented c tr < INT_MAX.1) → p.threads = [] →
      ∀ c, (v₀ c).1 + incremented c tr =
        reported c tr + (p.shared.fileCounts c).1 + (p.shared.mem c).1 := by
  intro hclaim
  have heq := hclaim none false (fun _ => 0) _ _ rfl (by decide)
    (Exec.runs_of_isSome savedDuringReport_executes) (by decide) (by decide) .sent
  revert heq
  decide

end MqttMsgHub.MsgCounter
