import MqttMsgHub.MsgCounter

/-! # Saves that fail

`save_msg_count_to_file` opens the counter file three times: to read the stored
counts, to read the pairs that it writes back, and to write. Each of these can
fail, and nobody looks: the results of `parse_file`, `save_to_file`,
`_read_total_msg_count` and `_save_total_msg_count` are all ignored, and the
counters in memory are set to zero in any case.

* `saveMsgCountToFile_alone` — without failures this is what the sections of a
  save do when no other thread comes in between;
* `save_keeps_counts_iff` — no count is lost if there is nothing to save, or if
  the file is written and the stored counts have been added, which is the case
  when they have been read, or when there are none.
-/

namespace MqttMsgHub.MsgCounter

/-! ## The call -/

/-- The `fopen`s that fail in a call of `save_msg_count_to_file`: to read in
`_read_total_msg_count`, to read and to write in `_save_total_msg_count`. -/
structure Failures where
  readTotal : Bool
  readPairs : Bool
  write : Bool

/-- No failure. -/
def Failures.no : Failures := ⟨false, false, false⟩

/-- A file as it is read; one that cannot be opened is read like a missing one. -/
def opened (fails : Bool) (file : Option (List Char)) : Option (List Char) :=
  if fails then none else file

/-- `_save_total_msg_count`: the file afterwards. -/
def saveTotalMsgCountOrFail (f : Failures) (file : Option (List Char)) (v : Counts) :
    Option (Option (List Char)) :=
  (parseFile (opened f.readPairs file)).map fun r =>
    if f.write then file
    else
      saveToFile (setCount v .offlineSent (setCount v .offlineDiscarded
        (setCount v .onlineDiscarded (setCount v .sent r.2)))) file

/-- `save_msg_count_to_file`: the counters in memory and the file afterwards. -/
def saveMsgCountToFile (f : Failures) (mem : Counts) (file : Option (List Char)) :
    Option (Counts × Option (List Char)) :=
  if ∀ c, mem c = 0 then some (mem, file)
  else
    (readTotalMsgCount (opened f.readTotal file)).bind fun r =>
      (saveTotalMsgCountOrFail f file fun c => CInt.wrap ((r.2 c).1 + (mem c).1)).map fun file' =>
        (fun _ => 0, file')

/-- For each counter, the stored value and the value in memory have the same sum
before and after the call. -/
def KeepsCounts (f : Failures) (mem : Counts) (file : Option (List Char)) : Prop :=
  ∃ r mem' file' r', readTotalMsgCount file = some r ∧
    saveMsgCountToFile f mem file = some (mem', file') ∧ readTotalMsgCount file' = some r' ∧
    ∀ c, (r'.2 c).1 + (mem' c).1 = (r.2 c).1 + (mem c).1

variable {f : Failures} {mem : Counts} {file : Option (List Char)} {s s' : Shared} {v : Counts}

/-! ## Without failures -/

/-- The comparisons with zero: the save ends, or goes on with the lock. -/
theorem alone_saveTest (rest : List Counter) (tr : List Event) :
    Pool.Alone sect (fun _ _ _ => true) 0 s (.saveTest rest) tr s' ↔
      if ∀ c ∈ rest, s.mem c = 0 then tr = [] ∧ s' = s
      else Pool.Alone sect (fun _ _ _ => true) 0 s .saveLock tr s' := by
  induction rest with
  | nil =>
    have hsect : sect s (.saveTest []) true = some ⟨s, [], []⟩ := rfl
    rw [Pool.alone_of_exit hsect]
    simp
  | cons c rest ih =>
    by_cases hc : s.mem c = 0
    · have hsect : sect s (.saveTest (c :: rest)) true = some ⟨s, [.saveTest rest], []⟩ := by
        simp [sect, hc]
      rw [Pool.alone_of_silent hsect, Pool.alone_reindex 0, ih]
      simp [hc]
    · have hsect : sect s (.saveTest (c :: rest)) true = some ⟨s, [.saveLock], []⟩ := by
        simp [sect, hc]
      rw [Pool.alone_of_silent hsect, Pool.alone_reindex 0]
      simp [hc]

/-- The counters of `rest` are moved one by one, and then the file is written. -/
theorem alone_saveTransfer {rest : List Counter} (hrest : rest.Nodup) (tr : List Event) :
    Pool.Alone sect (fun _ _ _ => true) 0 s (.saveTransfer rest v) tr s' ↔
      tr = [] ∧ ∃ file',
        saveTotalMsgCount s.file
          (fun c => if c ∈ rest then CInt.wrap ((v c).1 + (s.mem c).1) else v c) = some file' ∧
        s' = ⟨fun c => if c ∈ rest then 0 else s.mem c, file', false⟩ := by
  induction rest generalizing s v with
  | nil =>
    have hsect : sect s (.saveTransfer [] v) true = (saveTotalMsgCount s.file v).map fun file' =>
        ⟨{ s with file := file', iniLocked := false }, [], []⟩ := rfl
    simp only [List.not_mem_nil, if_false]
    cases hsave : saveTotalMsgCount s.file v with
    | none =>
      rw [hsave, Option.map_none] at hsect
      constructor
      · exact fun h => absurd h (Pool.not_alone hsect)
      · rintro ⟨-, file', hfile, -⟩
        cases hfile
    | some file' =>
      rw [hsave, Option.map_some] at hsect
      rw [Pool.alone_of_exit hsect]
      simp
  | cons c rest ih =>
    rw [List.nodup_cons] at hrest
    have hsect : sect s (.saveTransfer (c :: rest) v) true =
        some ⟨{ s with mem := Function.update s.mem c 0 },
          [.saveTransfer rest (Function.update v c (CInt.wrap ((v c).1 + (s.mem c).1)))], []⟩ := rfl
    rw [Pool.alone_of_silent hsect, Pool.alone_reindex 0, ih hrest.2]
    -- what is done for `c` here is not undone later
    have hmem : (fun d => if d ∈ rest then 0 else Function.update s.mem c 0 d) =
        fun d => if d ∈ c :: rest then 0 else s.mem d := by
      funext d
      by_cases hd : d = c
      · simp [hd]
      · simp [hd]
    have hv : (fun d => if d ∈ rest then
          CInt.wrap ((Function.update v c (CInt.wrap ((v c).1 + (s.mem c).1)) d).1 +
            (Function.update s.mem c 0 d).1)
        else Function.update v c (CInt.wrap ((v c).1 + (s.mem c).1)) d) =
        fun d => if d ∈ c :: rest then CInt.wrap ((v d).1 + (s.mem d).1) else v d := by
      funext d
      by_cases hd : d = c
      · simp [hd, hrest.1]
      · simp [hd]
    show tr = [] ∧ (∃ file', saveTotalMsgCount s.file (fun d => _) = some file' ∧ s' = ⟨_, _, _⟩) ↔ _
    rw [hmem, hv]

/-- A save that is not disturbed and does not fail does what `saveMsgCountToFile`
says. -/
theorem saveMsgCountToFile_alone (hfree : s.iniLocked = false) (tr : List Event) :
    Pool.Alone sect (fun _ _ _ => true) 0 s (.saveTest Counter.all) tr s' ↔
      tr = [] ∧ s'.iniLocked = false ∧
        saveMsgCountToFile .no s.mem s.file = some (s'.mem, s'.file) := by
  have hall : ∀ c, c ∈ Counter.all := fun c => by cases c <;> decide
  have hshared : ∀ mem file, s' = ⟨mem, file, false⟩ ↔
      s'.iniLocked = false ∧ mem = s'.mem ∧ file = s'.file := by
    intro mem file
    cases s'
    constructor
    · rintro ⟨⟩
      exact ⟨rfl, rfl, rfl⟩
    · rintro ⟨rfl, rfl, rfl⟩
      rfl
  rw [alone_saveTest]
  simp only [hall, true_imp_iff]
  by_cases hzero : ∀ c, s.mem c = 0
  · have hs : s = ⟨s.mem, s.file, false⟩ := by rw [← hfree]
    rw [if_pos hzero, saveMsgCountToFile, if_pos hzero, Option.some.injEq, Prod.mk.injEq,
      ← hshared, ← hs]
  · rw [if_neg hzero, saveMsgCountToFile, if_neg hzero]
    have hlock : sect s .saveLock true = (readTotalMsgCount s.file).map fun r =>
        ⟨{ s with iniLocked := true }, [.saveTransfer Counter.all r.2], []⟩ := by
      simp [sect, hfree]
    show _ ↔ tr = [] ∧ s'.iniLocked = false ∧
      ((readTotalMsgCount s.file).bind fun r =>
        (saveTotalMsgCount s.file fun c => CInt.wrap ((r.2 c).1 + (s.mem c).1)).map fun file' =>
          ((fun _ => 0 : Counts), file')) = some (s'.mem, s'.file)
    cases hread : readTotalMsgCount s.file with
    | none =>
      rw [hread, Option.map_none] at hlock
      constructor
      · exact fun h => absurd h (Pool.not_alone hlock)
      · rintro ⟨-, -, hsaved⟩
        cases hsaved
    | some r =>
      rw [hread, Option.map_some] at hlock
      rw [Pool.alone_of_silent hlock, Pool.alone_reindex 0, alone_saveTransfer (by decide)]
      simp only [hall, if_true, hshared, Option.bind_some, Option.map_eq_some_iff, Prod.mk.injEq]
      constructor
      · rintro ⟨htr, file', hsave, hunlock, hmem, hfile⟩
        exact ⟨htr, hunlock, file', hsave, hmem, hfile⟩
      · rintro ⟨htr, hunlock, file', hsave, hmem, hfile⟩
        exact ⟨htr, file', hsave, hunlock, hmem, hfile⟩

/-! ## With failures -/

theorem parseFile_opened {r : Bool × Counts} (h : readTotalMsgCount file = some r) (fails : Bool) :
    (parseFile (opened fails file)).isSome := by
  unfold opened
  split
  · rfl
  · have hsome : (readTotalMsgCount file).isSome := by rw [h]; rfl
    rwa [readTotalMsgCount, Option.isSome_map] at hsome

/-- There is always something to write, so the previous content does not show. -/
theorem saveToFile_setCount (v : Counts) (c : Counter) (pairs : List TagValue)
    (file file' : Option (List Char)) :
    saveToFile (setCount v c pairs) file = saveToFile (setCount v c pairs) file' := by
  have hne : setCount v c pairs ≠ [] := by
    intro hnil
    have hfind := find_setCount_self v c pairs
    rw [hnil] at hfind
    cases hfind
  have hpos : 0 < (setCount v c pairs).length := List.length_pos_iff.mpr hne
  rw [saveToFile, saveToFile, if_pos hpos, if_pos hpos]

/-- A file that can be written holds the counts that were saved. -/
theorem read_saveTotalMsgCountOrFail {r : Bool × Counts} (h : readTotalMsgCount file = some r)
    (hwrite : f.write = false) (v : Counts) :
    ∃ file', saveTotalMsgCountOrFail f file v = some file' ∧
      readTotalMsgCount file' = some (true, fun c => storedCount (v c)) := by
  have hparse := parseFile_opened h f.readPairs
  rcases read_saved hparse v with ⟨file', hsave, hread⟩
  refine ⟨file', ?_, hread⟩
  rw [saveTotalMsgCountOrFail, ← hsave, saveTotalMsgCount]
  rcases Option.isSome_iff_exists.mp hparse with ⟨⟨size, pairs⟩, hpairs⟩
  rw [hpairs, Option.map_some, Option.map_some, hwrite]
  exact congrArg some (saveToFile_setCount _ _ _ _ _)

theorem storedCount_wrap_iff (n : ℤ) :
    (storedCount (CInt.wrap n)).1 = n ↔ 0 ≤ n ∧ n ≤ INT_MAX.1 := by
  have hmax : INT_MAX.1 = 2147483647 := rfl
  have hzero : (0 : CInt).1 = 0 := rfl
  rw [hmax, storedCount]
  split
  · rename_i hpos
    simp only [CInt.wrap] at hpos ⊢
    omega
  · rename_i hneg
    rw [hzero]
    simp only [CInt.wrap] at hneg
    omega

theorem storedCount_wrap_zero_iff (n : CInt) (m : ℤ) :
    (storedCount (CInt.wrap (0 + n.1))).1 = m + n.1 ↔ m = max 0 (-n.1) := by
  have hzero : (0 : CInt).1 = 0 := rfl
  rw [Int.zero_add, CInt.wrap_val, storedCount]
  split
  · omega
  · rw [hzero]
    omega

theorem keepsCounts_iff_of_save {r r' : Bool × Counts} {mem' : Counts} {file' : Option (List Char)}
    (hread : readTotalMsgCount file = some r)
    (hsave : saveMsgCountToFile f mem file = some (mem', file'))
    (hread' : readTotalMsgCount file' = some r') :
    KeepsCounts f mem file ↔ ∀ c, (r'.2 c).1 + (mem' c).1 = (r.2 c).1 + (mem c).1 := by
  constructor
  · rintro ⟨r₁, mem₁, file₁, r₁', h, h', h'', hsum⟩
    rw [hread, Option.some.injEq] at h
    rw [hsave, Option.some.injEq, Prod.mk.injEq] at h'
    rcases h' with ⟨rfl, rfl⟩
    rw [hread', Option.some.injEq] at h''
    rw [h, h'']
    exact hsum
  · intro hsum
    exact ⟨r, mem', file', r', hread, hsave, hread', hsum⟩

/-- The four counts survive a save if and only if there is nothing to save, or
the file can be written, and the stored counts have been read and do not overflow
with the new ones, or have not been read and there are none (against a negative
count in memory, they are its opposite). -/
theorem save_keeps_counts_iff (f : Failures) (mem : Counts) (file : Option (List Char)) :
    KeepsCounts f mem file ↔
      ∃ r, readTotalMsgCount file = some r ∧
        ((∀ c, mem c = 0) ∨ f.write = false ∧ ∀ c,
          if f.readTotal then (r.2 c).1 = max 0 (-(mem c).1)
          else 0 ≤ (r.2 c).1 + (mem c).1 ∧ (r.2 c).1 + (mem c).1 ≤ INT_MAX.1) := by
  have hzero' : (0 : CInt).1 = 0 := rfl
  cases hread : readTotalMsgCount file with
  | none => simp [KeepsCounts, hread]
  | some r =>
    simp only [Option.some.injEq, exists_eq_left']
    by_cases hzero : ∀ c, mem c = 0
    · -- the call returns at once
      rw [keepsCounts_iff_of_save hread (if_pos hzero) hread]
      simp [hzero]
    simp only [hzero, false_or]
    have hopen : readTotalMsgCount (opened f.readTotal file) =
        some (if f.readTotal then (false, fun _ => 0) else r) := by
      unfold opened
      split
      · rfl
      · exact hread
    have hcall : ∀ {file' : Option (List Char)}, saveTotalMsgCountOrFail f file
        (fun c => CInt.wrap (((if f.readTotal then (false, fun _ => 0) else r).2 c).1 + (mem c).1)) =
          some file' → saveMsgCountToFile f mem file = some (fun _ => 0, file') := by
      intro file' h
      rw [saveMsgCountToFile, if_neg hzero, hopen, Option.bind_some, h, Option.map_some]
    cases hwrite : f.write with
    | true =>
      -- the counters in memory are gone, and the file is as before
      have hsave : saveMsgCountToFile f mem file = some (fun _ => 0, file) := by
        apply hcall
        rcases Option.isSome_iff_exists.mp (parseFile_opened hread f.readPairs) with ⟨q, hq⟩
        rw [saveTotalMsgCountOrFail, hq, Option.map_some, hwrite]
        rfl
      rw [keepsCounts_iff_of_save hread hsave hread]
      constructor
      · intro hsum
        apply absurd _ hzero
        intro c
        apply Subtype.ext
        have hc := hsum c
        rw [hzero'] at hc ⊢
        omega
      · exact fun h => absurd h.1 (by decide)
    | false =>
      rcases read_saveTotalMsgCountOrFail hread hwrite
        (fun c => CInt.wrap (((if f.readTotal then (false, fun _ => 0) else r).2 c).1 + (mem c).1))
        with ⟨file', hsave, hread'⟩
      rw [keepsCounts_iff_of_save hread (hcall hsave) hread']
      simp only [true_and, hzero', Int.add_zero]
      apply forall_congr'
      intro c
      cases hopened : f.readTotal with
      | true => exact storedCount_wrap_zero_iff (mem c) _
      | false => exact storedCount_wrap_iff _

/-- Five messages are stored and one more is counted. The file cannot be opened
for writing, and the new count is neither there nor in memory. -/
theorem failed_save_loses_counts :
    saveMsgCountToFile ⟨false, false, true⟩ (Function.update (fun _ => 0) .sent 1)
        (some (Counter.sent.key ++ ['=', '5', '\n'])) =
      some (fun _ => 0, some (Counter.sent.key ++ ['=', '5', '\n'])) ∧
    ¬ KeepsCounts ⟨false, false, true⟩ (Function.update (fun _ => 0) .sent 1)
        (some (Counter.sent.key ++ ['=', '5', '\n'])) := by
  have hsave : saveMsgCountToFile ⟨false, false, true⟩ (Function.update (fun _ => 0) .sent 1)
      (some (Counter.sent.key ++ ['=', '5', '\n'])) =
        some (fun _ => 0, some (Counter.sent.key ++ ['=', '5', '\n'])) := by rfl
  refine ⟨hsave, ?_⟩
  rintro ⟨r, mem', file', r', hread, hsave', hread', hsum⟩
  rw [hsave, Option.some.injEq, Prod.mk.injEq] at hsave'
  rcases hsave' with ⟨rfl, rfl⟩
  rw [hread, Option.some.injEq] at hread'
  have hsent : (r'.2 .sent).1 + (0 : CInt).1 = (r.2 .sent).1 + (1 : CInt).1 := hsum .sent
  have hzero : (0 : CInt).1 = 0 := rfl
  have hone : (1 : CInt).1 = 1 := rfl
  rw [hread', hzero, hone] at hsent
  omega

end MqttMsgHub.MsgCounter
