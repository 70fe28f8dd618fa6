import Mathlib.Data.List.AList
import Mathlib.Data.List.Sort
import MqttMsgHub.CTypes

/-! # Cache files

Every message of the offline queue has a file in the cache directory. The
queue keeps only the pair (priority, timestamp) of a message
(`cache_file_header`), and the file's name is computed from that pair:
`<timestamp>-<priority>.cache`, or `<timestamp>.cache` when the priority is
negative. `load_offline_messages` goes the other way at start-up.

All paths share the prefix `cache_root_path()`: a `Directory` maps the names
inside the cache root to file contents. The prefix counts where a name that the
hub has not made is put behind it, in the directory filter: the path goes to a
buffer of fixed size before anything is asked of the name, and no start-up is
defined when one of the names in the directory is too long for it.

* `header_of_path` — decoding the name of a non-negative priority gives the
  header back; a negative one decodes to the default priority;
* `path_injective` — the files of two timestamps are different files;
* `load_eq` — when every name fits, the loop of `load_offline_messages` runs over
  the cache files in order, and otherwise loading is undefined;
* `load_queue` — the queue that it builds.
-/

namespace MqttMsgHub

/-- The regular files of the cache directory. -/
abbrev Directory := AList fun _ : Text => Text

/-- `CACHE_FILE_SUFFIX`. -/
def CACHE_FILE_SUFFIX : Text := ['.', 'c', 'a', 'c', 'h', 'e']

/-- `VALUE_CACHE_PRIORITY_DEFAULT`. -/
def VALUE_CACHE_PRIORITY_DEFAULT : CInt := 8

/-- `cache_file_header`. -/
structure CacheFileHeader where
  cachePriority : CInt
  timestamp : CInt64
deriving DecidableEq, Repr

/-! ## Names -/

/-- `get_cache_file_path`. -/
def getCacheFilePath (h : CacheFileHeader) : Text :=
  if 0 ≤ h.cachePriority.1 then
    sprintfD h.timestamp.1 ++ '-' :: sprintfD h.cachePriority.1 ++ CACHE_FILE_SUFFIX
  else
    sprintfD h.timestamp.1 ++ CACHE_FILE_SUFFIX

/-- `get_file_suffix`: from the last dot on, empty without a dot. -/
def getFileSuffix (path : Text) : Text := (strrchr '.' path).getD []

/-- `get_file_base_name`: up to the last dot, empty without a dot. -/
def getFileBaseName (path : Text) : Text :=
  match strrchr '.' path with
  | some suffix => path.take (path.length - suffix.length)
  | none => []

/-- `get_cache_file_header_from_file_base`. -/
def getCacheFileHeaderFromFileBase (base : Text) : CacheFileHeader :=
  match base.dropWhile (· ≠ '-') with
  | _ :: p =>
    ⟨if p = [] then VALUE_CACHE_PRIORITY_DEFAULT else atoi p, atoll (base.takeWhile (· ≠ '-'))⟩
  | [] => ⟨VALUE_CACHE_PRIORITY_DEFAULT, atoll base⟩

/-- The suffix that `filter_offline_cache_file` asks for, in upper or lower case. -/
def hasCacheSuffix (name : Text) : Bool :=
  stringEqualsIgnoreCase (getFileSuffix name) CACHE_FILE_SUFFIX

/-- The name without its suffix. -/
def CacheFileHeader.base (h : CacheFileHeader) : Text :=
  if 0 ≤ h.cachePriority.1 then sprintfD h.timestamp.1 ++ '-' :: sprintfD h.cachePriority.1
  else sprintfD h.timestamp.1

theorem path_eq_base (h : CacheFileHeader) : getCacheFilePath h = h.base ++ CACHE_FILE_SUFFIX := by
  unfold getCacheFilePath CacheFileHeader.base
  split <;> simp

theorem getFileSuffix_append (s : Text) : getFileSuffix (s ++ CACHE_FILE_SUFFIX) = CACHE_FILE_SUFFIX := by
  have hlast : strrchr '.' (s ++ CACHE_FILE_SUFFIX) = some CACHE_FILE_SUFFIX :=
    strrchr_append (by decide) s
  rw [getFileSuffix, hlast, Option.getD_some]

theorem getFileBaseName_append (s : Text) : getFileBaseName (s ++ CACHE_FILE_SUFFIX) = s := by
  have hlast : strrchr '.' (s ++ CACHE_FILE_SUFFIX) = some CACHE_FILE_SUFFIX :=
    strrchr_append (by decide) s
  simp [getFileBaseName, hlast]

/-- The files that the hub writes have it. -/
theorem suffix_path (h : CacheFileHeader) : hasCacheSuffix (getCacheFilePath h) = true := by
  rw [hasCacheSuffix, path_eq_base, getFileSuffix_append]
  decide

@[simp] theorem base_of_path (h : CacheFileHeader) : getFileBaseName (getCacheFilePath h) = h.base := by
  rw [path_eq_base, getFileBaseName_append]

/-- A positive timestamp is printed without the separator. -/
theorem not_mem_sprintfD {n : ℤ} (hn : 0 ≤ n) : ∀ c ∈ sprintfD n, (decide (c ≠ '-')) = true := by
  intro c hc
  have hdigit : c.isDigit := isDigit_of_mem_sprintfD hn hc
  rw [decide_eq_true_iff]
  rintro rfl
  revert hdigit
  decide

theorem base_ne_nil (h : CacheFileHeader) : h.base ≠ [] := by
  unfold CacheFileHeader.base
  split
  · simp
  · exact sprintfD_ne_nil _

/-- Decoding a name the hub has written: the timestamp always comes back, the
priority only when it is not negative. -/
theorem header_of_base {h : CacheFileHeader} (ht : 0 < h.timestamp.1) :
    getCacheFileHeaderFromFileBase h.base =
      ⟨if 0 ≤ h.cachePriority.1 then h.cachePriority else VALUE_CACHE_PRIORITY_DEFAULT,
        h.timestamp⟩ := by
  have hdigits := not_mem_sprintfD (le_of_lt ht)
  by_cases hp : 0 ≤ h.cachePriority.1
  · have hdrop : (sprintfD h.timestamp.1 ++ '-' :: sprintfD h.cachePriority.1).dropWhile (· ≠ '-') =
        '-' :: sprintfD h.cachePriority.1 := by
      rw [List.dropWhile_append_of_pos hdigits]
      rfl
    have htake : (sprintfD h.timestamp.1 ++ '-' :: sprintfD h.cachePriority.1).takeWhile (· ≠ '-') =
        sprintfD h.timestamp.1 := by
      rw [List.takeWhile_append_of_pos hdigits]
      simp
    rw [CacheFileHeader.base, if_pos hp, getCacheFileHeaderFromFileBase, hdrop, htake]
    simp [hp, sprintfD_ne_nil, atoi_sprintfD, atoll_sprintfD]
  · have hdrop : (sprintfD h.timestamp.1).dropWhile (· ≠ '-') = [] :=
      List.dropWhile_eq_nil_iff.mpr hdigits
    rw [CacheFileHeader.base, if_neg hp, getCacheFileHeaderFromFileBase, hdrop]
    simp [hp, atoll_sprintfD]

theorem header_of_path {h : CacheFileHeader} (hp : 0 ≤ h.cachePriority.1)
    (ht : 0 < h.timestamp.1) :
    getCacheFileHeaderFromFileBase (getFileBaseName (getCacheFilePath h)) = h := by
  rw [base_of_path, header_of_base ht, if_pos hp]

/-- The digits that a name starts with are those of its timestamp, and a
negative timestamp has its sign in front. -/
theorem digitsValue_path (h : CacheFileHeader) :
    digitsValue (getCacheFilePath h) = if 0 ≤ h.timestamp.1 then h.timestamp.1.natAbs else 0 := by
  have hrest : ∃ c rest, c.isDigit = false ∧
      getCacheFilePath h = sprintfD h.timestamp.1 ++ c :: rest := by
    unfold getCacheFilePath
    split
    · exact ⟨'-', sprintfD h.cachePriority.1 ++ CACHE_FILE_SUFFIX, rfl, by simp⟩
    · exact ⟨'.', ['c', 'a', 'c', 'h', 'e'], rfl, rfl⟩
  rcases hrest with ⟨c, rest, hc, hpath⟩
  rw [hpath, digitsValue]
  split
  · rename_i hpos
    rw [List.takeWhile_append_of_pos fun x hx => isDigit_of_mem_sprintfD hpos hx,
      List.takeWhile_cons, hc, if_neg Bool.false_ne_true, List.append_nil, sprintfD_of_nonneg hpos]
    exact Nat.ofDigitChars_toDigits (by decide) (by decide)
  · rename_i hneg
    rw [sprintfD_of_neg (not_le.mp hneg)]
    rfl

/-- Two messages with different timestamps have different files, in whichever
of the two formats. -/
theorem path_injective {h k : CacheFileHeader} (hh : 0 < h.timestamp.1)
    (heq : getCacheFilePath h = getCacheFilePath k) : h.timestamp = k.timestamp := by
  have hvalue : digitsValue (getCacheFilePath h) = digitsValue (getCacheFilePath k) := by rw [heq]
  rw [digitsValue_path, digitsValue_path, if_pos hh.le] at hvalue
  apply Subtype.ext
  split at hvalue
  · omega
  · omega

theorem path_ne {h k : CacheFileHeader} (hh : 0 < h.timestamp.1) (hne : h.timestamp ≠ k.timestamp) :
    getCacheFilePath h ≠ getCacheFilePath k :=
  fun heq => hne (path_injective hh heq)

/-! ## Start-up -/

/-- `_POSIX_PATH_MAX`. -/
def POSIX_PATH_MAX : ℕ := 256

/-- What `scandir` finds at `cache_root_path()`: the regular files, and the names of
the other entries, "." and ".." among them. -/
structure Listing where
  root : Text
  files : Directory
  others : List Text
  root_ne_nil : root ≠ []
  not_files : ∀ name ∈ others, name ∉ files

/-- The names of all entries. -/
def Listing.entries (l : Listing) : List Text := l.files.keys ++ l.others

/-- `filter_offline_cache_file`, which the entries come to one by one. -/
def filterOfflineCacheFile (l : Listing) (name : Text) : Option Bool := do
  let _filePath ← intoBuffer POSIX_PATH_MAX (l.root ++ '/' :: name)
  return decide (name ∈ l.files) && hasCacheSuffix name

/-- The header in a file name. -/
def headerOfName (name : Text) : CacheFileHeader :=
  getCacheFileHeaderFromFileBase (getFileBaseName name)

/-- `offline_cache_file_compare`. -/
def offlineCacheFileCompare (name1 name2 : Text) : ℤ :=
  if (headerOfName name1).timestamp.1 > (headerOfName name2).timestamp.1 then 1
  else if (headerOfName name1).timestamp.1 < (headerOfName name2).timestamp.1 then -1
  else 0

/-- The loop of `scandir` that asks the filter about each entry. -/
def selectEntries (accept : Text → Option Bool) : List Text → Option (List Text)
  | [] => some []
  | name :: names => do
    let keep ← accept name
    let rest ← selectEntries accept names
    return if keep then name :: rest else rest

/-- `scandir` with the hub's filter and comparison. -/
def scandir (l : Listing) : Option (List Text) := do
  let names ← selectEntries (filterOfflineCacheFile l) l.entries
  return names.insertionSort fun a b => offlineCacheFileCompare a b ≤ 0

/-- The queue, the directory and `addedCount` while the names are loaded. -/
structure Loaded where
  queue : List CacheFileHeader
  dir : Directory
  addedCount : ℕ

/-- The loop body of `load_offline_messages`. The path that it unlinks has passed through
a buffer of the same size in the filter. -/
def loadName (l : Loaded) (name : Text) : Loaded :=
  if getFileBaseName name = [] then l
  else if 0 < (headerOfName name).timestamp.1 then
    { l with queue := l.queue ++ [headerOfName name], addedCount := l.addedCount + 1 }
  else
    -- an invalid cache file
    { l with dir := l.dir.erase name }

/-- `load_offline_messages` on an empty queue, when `scandir` succeeds. -/
def loadOfflineMessages (l : Listing) : Option Loaded := do
  let names ← scandir l
  return names.foldl loadName ⟨[], l.files, 0⟩

/-! ## What is loaded -/

/-- The cache files of a directory in the order in which they are loaded. -/
def cacheNames (d : Directory) : List Text :=
  (d.keys.filter hasCacheSuffix).insertionSort fun a b => offlineCacheFileCompare a b ≤ 0

/-- What `load_offline_messages` makes of them. -/
def loadNames (d : Directory) : Loaded :=
  (cacheNames d).foldl loadName ⟨[], d, 0⟩

/-- The path of the entry fits the buffer of the filter. -/
def Listing.Fits (l : Listing) (name : Text) : Prop :=
  l.root.length + 1 + name.length < POSIX_PATH_MAX

instance (l : Listing) : DecidablePred l.Fits := fun _ => Nat.decLt _ _

theorem filter_of_fits {l : Listing} {name : Text} (h : l.Fits name) :
    filterOfflineCacheFile l name = some (decide (name ∈ l.files) && hasCacheSuffix name) := by
  have hlen : (l.root ++ '/' :: name).length < POSIX_PATH_MAX := by
    unfold Listing.Fits at h
    rw [List.length_append, List.length_cons]
    omega
  rw [filterOfflineCacheFile, intoBuffer, if_pos hlen]
  rfl

theorem filter_of_not_fits {l : Listing} {name : Text} (h : ¬ l.Fits name) :
    filterOfflineCacheFile l name = none := by
  have hlen : ¬ (l.root ++ '/' :: name).length < POSIX_PATH_MAX := by
    unfold Listing.Fits at h
    rw [List.length_append, List.length_cons]
    omega
  rw [filterOfflineCacheFile, intoBuffer, if_neg hlen]
  rfl

theorem selectEntries_eq {accept : Text → Option Bool} {p : Text → Bool} {names : List Text}
    (h : ∀ name ∈ names, accept name = some (p name)) :
    selectEntries accept names = some (names.filter p) := by
  induction names with
  | nil => rfl
  | cons name names ih =>
    have hrest := ih fun n hn => h n (List.mem_cons_of_mem name hn)
    rw [selectEntries, h name List.mem_cons_self, hrest, List.filter_cons]
    rfl

theorem selectEntries_eq_none {accept : Text → Option Bool} {names : List Text} {name : Text}
    (hmem : name ∈ names) (h : accept name = none) : selectEntries accept names = none := by
  induction names with
  | nil => cases hmem
  | cons n names ih =>
    rw [selectEntries]
    rcases List.mem_cons.mp hmem with rfl | hmem
    · rw [h]
      rfl
    · rw [ih hmem]
      cases accept n <;> rfl

/-- When every name fits, the filter keeps the regular files with the suffix. -/
theorem scandir_of_fits {l : Listing} (h : ∀ name ∈ l.entries, l.Fits name) :
    scandir l = some (cacheNames l.files) := by
  have hselect := selectEntries_eq fun name hname => filter_of_fits (h name hname)
  have hfiles : l.files.keys.filter (fun name => decide (name ∈ l.files) && hasCacheSuffix name) =
      l.files.keys.filter hasCacheSuffix := by
    apply List.filter_congr
    intro name hname
    rw [decide_eq_true (AList.mem_keys.mpr hname), Bool.true_and]
  have hothers : l.others.filter (fun name => decide (name ∈ l.files) && hasCacheSuffix name) = [] := by
    rw [List.filter_eq_nil_iff]
    intro name hname
    rw [decide_eq_false (l.not_files name hname), Bool.false_and]
    exact Bool.false_ne_true
  rw [Listing.entries, List.filter_append, hfiles, hothers, List.append_nil] at hselect
  rw [scandir, Listing.entries, hselect]
  rfl

theorem scandir_of_not_fits {l : Listing} {name : Text} (hmem : name ∈ l.entries)
    (h : ¬ l.Fits name) : scandir l = none := by
  rw [scandir, selectEntries_eq_none hmem (filter_of_not_fits h)]
  rfl

/-- What `load_offline_messages` does, and when it does not overflow its filter's buffer. -/
theorem load_eq (l : Listing) :
    loadOfflineMessages l =
      if ∀ name ∈ l.entries, l.Fits name then some (loadNames l.files) else none := by
  rw [loadOfflineMessages]
  split
  · rename_i hfits
    rw [scandir_of_fits hfits]
    rfl
  · rename_i hnot
    simp only [not_forall] at hnot
    rcases hnot with ⟨name, hmem, hover⟩
    rw [scandir_of_not_fits hmem hover]
    rfl

theorem load_isSome_iff {l : Listing} :
    (loadOfflineMessages l).isSome ↔ ∀ name ∈ l.entries, l.Fits name := by
  rw [load_eq]
  split
  · rename_i hfits
    exact iff_of_true rfl hfits
  · rename_i hnot
    exact iff_of_false Bool.false_ne_true hnot

/-- The entry that a file name contributes to the queue. -/
def loadable (name : Text) : Option CacheFileHeader :=
  if getFileBaseName name = [] then none
  else if 0 < (headerOfName name).timestamp.1 then some (headerOfName name)
  else none

theorem loadable_path {h : CacheFileHeader} (ht : 0 < h.timestamp.1) :
    loadable (getCacheFilePath h) =
      some ⟨if 0 ≤ h.cachePriority.1 then h.cachePriority else VALUE_CACHE_PRIORITY_DEFAULT,
        h.timestamp⟩ := by
  rw [loadable, headerOfName, base_of_path, header_of_base ht, if_neg (base_ne_nil h), if_pos ht]

theorem foldl_loadName_queue (names : List Text) (l : Loaded) :
    (names.foldl loadName l).queue = l.queue ++ names.filterMap loadable ∧
    (names.foldl loadName l).addedCount = l.addedCount + (names.filterMap loadable).length := by
  induction names generalizing l with
  | nil => simp
  | cons n ns ih =>
    rcases ih (loadName l n) with ⟨hq, hc⟩
    rw [List.foldl_cons, hq, hc]
    unfold loadName loadable
    split
    · simp [*]
    · split
      · simp [*]
        omega
      · simp [*]

/-- The queue after start-up: one entry for each loadable name, in the order
of `scandir`. -/
theorem load_queue (d : Directory) : (loadNames d).queue = (cacheNames d).filterMap loadable := by
  simpa [loadNames] using (foldl_loadName_queue (cacheNames d) ⟨[], d, 0⟩).1

theorem load_addedCount (d : Directory) : (loadNames d).addedCount = (loadNames d).queue.length := by
  rw [load_queue]
  simpa [loadNames] using (foldl_loadName_queue (cacheNames d) ⟨[], d, 0⟩).2

theorem mem_cacheNames {d : Directory} {n : Text} :
    n ∈ cacheNames d ↔ n ∈ d.keys ∧ hasCacheSuffix n = true := by
  simp [cacheNames]

/-- No file is removed while every name is loadable. -/
theorem load_dir {d : Directory} (h : ∀ n ∈ cacheNames d, (loadable n).isSome) :
    (loadNames d).dir = d := by
  have hfold : ∀ (names : List Text) (l : Loaded), (∀ n ∈ names, (loadable n).isSome) →
      (names.foldl loadName l).dir = l.dir := by
    intro names
    induction names with
    | nil => intro l _; rfl
    | cons n ns ih =>
      intro l hl
      have hn : (loadable n).isSome := hl n List.mem_cons_self
      rw [List.foldl_cons, ih _ fun m hm => hl m (List.mem_cons_of_mem _ hm)]
      unfold loadable at hn
      unfold loadName
      split at hn
      · cases hn
      · rename_i hbase
        split at hn
        · rename_i hts
          rw [if_neg hbase, if_pos hts]
        · cases hn
  exact hfold _ _ h

end MqttMsgHub
