import Mathlib.Data.List.Induction
import MqttMsgHub.CacheFile

/-! # Restart

What survives a restart of the hub is the cache directory, and of each message
only its file name tells priority and timestamp. A name that the hub writes for
a non-negative priority decodes to the header it was made from, and a name is
the file of the header it decodes to exactly when it has the form that the hub
gives to such names; everything else that the directory filter lets through
(a name without priority, leading zeros, a sign, an upper case suffix) makes an
entry whose file does not exist. And every name in the directory, of whatever
kind, has to fit the filter's path buffer behind the cache root.

* `file_name_round_trip_iff` — the priorities that a file name keeps;
* `names_point_back_iff` — the directories whose loaded entries have their file;
* `restart_rebuilds_queue_iff` — the directories from which a queue is rebuilt, in
  order of timestamps.
-/

namespace MqttMsgHub

/-! ## Numerals -/

/-- A decimal number as `sprintf` prints it, of at most `bound`: digits without
a zero in front. -/
structure Numeral (bound : ℕ) (s : Text) : Prop where
  ne_nil : s ≠ []
  digits : ∀ c ∈ s, c.isDigit
  zero : s.head? = some '0' → s = ['0']
  bounded : digitsValue s ≤ bound

theorem digitsValue_eq {s : Text} (h : ∀ c ∈ s, c.isDigit) :
    digitsValue s = Nat.ofDigitChars 10 s 0 := by
  rw [digitsValue, List.takeWhile_eq_self_iff.mpr h]

theorem digitChar_of_isDigit {c : Char} (h : c.isDigit) :
    c.toNat - 48 < 10 ∧ (c.toNat - 48).digitChar = c := by
  have hrange : 48 ≤ c.toNat ∧ c.toNat ≤ 57 := by
    rw [Char.isDigit, Bool.and_eq_true, decide_eq_true_iff, decide_eq_true_iff] at h
    exact h
  have hlt : c.toNat - 48 < 10 := by omega
  refine ⟨hlt, Char.toNat_inj.mp ?_⟩
  rw [Nat.toNat_digitChar_of_lt_ten hlt]
  omega

/-- Printing the value of a numeral gives the numeral back. -/
theorem toDigits_ofDigitChars {s : Text} (hne : s ≠ []) (hdigits : ∀ c ∈ s, c.isDigit)
    (hzero : s.head? = some '0' → s = ['0']) : Nat.toDigits 10 (Nat.ofDigitChars 10 s 0) = s := by
  -- from the right, as `toDigits` splits off the last digit
  induction s using List.reverseRecOn with
  | nil => exact absurd rfl hne
  | append_singleton s c ih =>
    obtain ⟨hlt, hchar⟩ := digitChar_of_isDigit (hdigits c (by simp))
    rw [Nat.ofDigitChars_append, Nat.ofDigitChars_cons, Nat.ofDigitChars_nil]
    show Nat.toDigits 10 (10 * Nat.ofDigitChars 10 s 0 + (c.toNat - 48)) = s ++ [c]
    by_cases hs : s = []
    · subst hs
      rw [Nat.ofDigitChars_nil, Nat.mul_zero, Nat.zero_add, Nat.toDigits_of_lt_base hlt, hchar]
      rfl
    · have hhead : s.head? ≠ some '0' := by
        intro h0
        have h1 : s ++ [c] = ['0'] := hzero (by rw [List.head?_append_of_ne_nil _ hs]; exact h0)
        have h2 := congrArg List.length h1
        simp [hs] at h2
      have hprint := ih hs (fun x hx => hdigits x (List.mem_append_left _ hx))
        (fun h0 => absurd h0 hhead)
      have hpos : 0 < Nat.ofDigitChars 10 s 0 := by
        rcases Nat.eq_zero_or_pos (Nat.ofDigitChars 10 s 0) with h0 | hpos
        · rw [h0, Nat.toDigits_zero] at hprint
          rw [← hprint] at hhead
          exact absurd rfl hhead
        · exact hpos
      rw [← Nat.toDigits_append_toDigits (by decide) hpos hlt, hprint,
        Nat.toDigits_of_lt_base hlt, hchar]

theorem head?_toDigits {n : ℕ} (h : (Nat.toDigits 10 n).head? = some '0') : n = 0 := by
  induction n using Nat.strongRecOn with
  | ind n ih =>
    rcases Nat.lt_or_ge n 10 with hlt | hge
    · rw [Nat.toDigits_of_lt_base hlt] at h
      simpa using h
    · rw [Nat.toDigits_of_base_le (by decide) hge,
        List.head?_append_of_ne_nil _ Nat.toDigits_ne_nil] at h
      have hdiv := ih (n / 10) (by omega) h
      omega

/-- The numerals up to a bound are what `sprintf` prints of the numbers up to it. -/
theorem numeral_iff {bound : ℕ} {s : Text} :
    Numeral bound s ↔ ∃ n ≤ bound, s = Nat.toDigits 10 n := by
  constructor
  · intro h
    refine ⟨digitsValue s, h.bounded, ?_⟩
    rw [digitsValue_eq h.digits]
    exact (toDigits_ofDigitChars h.ne_nil h.digits h.zero).symm
  · rintro ⟨n, hn, rfl⟩
    constructor
    · exact Nat.toDigits_ne_nil
    · intro c hc
      exact Nat.isDigit_of_mem_toDigits (by decide) (by decide) hc
    · intro h0
      rw [head?_toDigits h0]
      rfl
    · rw [digitsValue_toDigits]
      exact hn

/-! ## The name of a message -/

/-- A file name gives priority and timestamp of its message back exactly when
the priority is not negative. -/
theorem file_name_round_trip_iff {h : CacheFileHeader} (ht : 0 < h.timestamp.1) :
    getCacheFileHeaderFromFileBase (getFileBaseName (getCacheFilePath h)) = h ↔
      0 ≤ h.cachePriority.1 := by
  constructor
  · intro heq
    by_contra hneg
    rw [base_of_path, header_of_base ht, if_neg hneg] at heq
    -- a name without priority decodes to the default, which is not negative
    have hdefault : 0 ≤ VALUE_CACHE_PRIORITY_DEFAULT.1 := by decide
    apply hneg
    rw [← heq]
    exact hdefault
  · intro hp
    exact header_of_path hp ht

theorem file_name_round_trip_iff_max :
    getCacheFileHeaderFromFileBase (getFileBaseName
      (getCacheFilePath ⟨2147483647, 9223372036854775807⟩)) = ⟨2147483647, 9223372036854775807⟩ :=
  (file_name_round_trip_iff (by decide)).mpr (by decide)

/-- The message of priority -1 comes back with the default priority. -/
theorem negative_priority_lost :
    ¬ ∀ h : CacheFileHeader, 0 < h.timestamp.1 →
      getCacheFileHeaderFromFileBase (getFileBaseName (getCacheFilePath h)) = h := by
  intro hclaim
  have heq := hclaim ⟨⟨-1, by decide⟩, 1⟩ (by decide)
  have hprio := congrArg (fun h => h.cachePriority.1) heq
  revert hprio
  decide

/-! ## The names in a directory -/

/-- `<timestamp>-<priority>.cache`, both in plain decimal and in the range of
their types. -/
def OwnName (name : Text) : Prop :=
  ∃ t p, name = t ++ '-' :: p ++ CACHE_FILE_SUFFIX ∧ t ≠ ['0'] ∧
    Numeral 9223372036854775807 t ∧ Numeral 2147483647 p

theorem ownName_iff {name : Text} :
    OwnName name ↔ ∃ h : CacheFileHeader, 0 < h.timestamp.1 ∧ 0 ≤ h.cachePriority.1 ∧
      name = getCacheFilePath h := by
  constructor
  · rintro ⟨t, p, rfl, hpos, ht, hp⟩
    obtain ⟨n, hn, rfl⟩ := numeral_iff.mp ht
    obtain ⟨m, hm, rfl⟩ := numeral_iff.mp hp
    have hn0 : n ≠ 0 := by
      rintro rfl
      exact hpos (Nat.toDigits_zero 10)
    refine ⟨⟨⟨m, by omega, by omega⟩, ⟨n, by omega, by omega⟩⟩, ?_, ?_, ?_⟩
    · show (0 : ℤ) < n
      omega
    · show (0 : ℤ) ≤ m
      omega
    · rw [getCacheFilePath, if_pos (Int.natCast_nonneg m), sprintfD_of_nonneg (Int.natCast_nonneg n),
        sprintfD_of_nonneg (Int.natCast_nonneg m), Int.natAbs_natCast, Int.natAbs_natCast]
  · rintro ⟨h, ht, hp, rfl⟩
    have htop := h.timestamp.2
    have hptop := h.cachePriority.2
    refine ⟨sprintfD h.timestamp.1, sprintfD h.cachePriority.1, ?_, ?_, ?_, ?_⟩
    · rw [getCacheFilePath, if_pos hp]
    · rw [sprintfD_of_nonneg ht.le]
      intro h0
      have hzero := head?_toDigits (congrArg List.head? h0)
      omega
    · rw [sprintfD_of_nonneg ht.le]
      exact numeral_iff.mpr ⟨_, by omega, rfl⟩
    · rw [sprintfD_of_nonneg hp]
      exact numeral_iff.mpr ⟨_, by omega, rfl⟩

theorem timestamp_pos_of_loadable {name : Text} {e : CacheFileHeader} (h : loadable name = some e) :
    0 < e.timestamp.1 := by
  unfold loadable at h
  split at h
  · cases h
  · split at h
    · rename_i hts
      cases h
      exact hts
    · cases h

/-- An entry has the file it was loaded from exactly when the file's name is one
of the hub's own, with a priority. -/
theorem path_eq_name_iff {name : Text} {e : CacheFileHeader} (h : loadable name = some e) :
    getCacheFilePath e = name ↔ OwnName name := by
  have hts := timestamp_pos_of_loadable h
  constructor
  · rintro rfl
    refine ownName_iff.mpr ⟨e, hts, ?_, rfl⟩
    rw [loadable_path hts, Option.some.injEq] at h
    by_contra hneg
    rw [if_neg hneg] at h
    have hdefault : 0 ≤ VALUE_CACHE_PRIORITY_DEFAULT.1 := by decide
    apply hneg
    rw [← h]
    exact hdefault
  · intro hown
    obtain ⟨k, hk, hp, rfl⟩ := ownName_iff.mp hown
    rw [loadable_path hk, if_pos hp, Option.some.injEq] at h
    rw [← h]

theorem loadName_lookup {name : Text} (h : (loadable name).isSome) (l : Loaded) (name' : Text) :
    (loadName l name').dir.lookup name = l.dir.lookup name := by
  unfold loadName
  split
  · rfl
  · rename_i hbase
    split
    · rfl
    · rename_i hts
      -- only names that are not loadable are unlinked
      have hne : name ≠ name' := by
        rintro rfl
        simp [loadable, hbase, hts] at h
      exact AList.lookup_erase_ne hne

/-- Loading keeps the files of the entries it makes. -/
theorem load_lookup {name : Text} (h : (loadable name).isSome) (d : Directory) :
    (loadNames d).dir.lookup name = d.lookup name := by
  have hfold : ∀ (names : List Text) (l : Loaded),
      (names.foldl loadName l).dir.lookup name = l.dir.lookup name := by
    intro names
    induction names with
    | nil => exact fun l => rfl
    | cons n ns ih =>
      intro l
      rw [List.foldl_cons, ih, loadName_lookup h]
  exact hfold _ _

/-- The directory is loaded, every loaded entry has the file it was loaded from, the
sender will find it, and no two files make the same entry. -/
structure PointsBack (l : Listing) : Prop where
  loads : (loadOfflineMessages l).isSome
  path : ∀ names, scandir l = some names → ∀ name ∈ names, ∀ e, loadable name = some e →
    getCacheFilePath e = name
  found : ∀ r, loadOfflineMessages l = some r → ∀ e ∈ r.queue,
    (r.dir.lookup (getCacheFilePath e)).isSome
  distinct : ∀ names, scandir l = some names → ∀ name ∈ names, ∀ name' ∈ names, ∀ e,
    loadable name = some e → loadable name' = some e → name = name'

/-- The entries of a directory that loads point back to their files when every file
that makes an entry has one of the hub's own names. -/
theorem pointsBack_of_own {l : Listing} (hfits : ∀ name ∈ l.entries, l.Fits name)
    (hown : ∀ name ∈ l.files.keys, hasCacheSuffix name = true → (loadable name).isSome →
      OwnName name) : PointsBack l := by
  have hload : loadOfflineMessages l = some (loadNames l.files) := by rw [load_eq, if_pos hfits]
  have hpath : ∀ name ∈ cacheNames l.files, ∀ e, loadable name = some e →
      getCacheFilePath e = name := by
    intro name hname e he
    obtain ⟨hkey, hsuffix⟩ := mem_cacheNames.mp hname
    exact (path_eq_name_iff he).mpr (hown name hkey hsuffix (by rw [he]; rfl))
  constructor
  · exact load_isSome_iff.mpr hfits
  · intro names hscan
    rw [scandir_of_fits hfits, Option.some.injEq] at hscan
    rw [← hscan]
    exact hpath
  · intro r hr e hmem
    rw [hload, Option.some.injEq] at hr
    rw [← hr] at hmem ⊢
    rw [load_queue, List.mem_filterMap] at hmem
    rcases hmem with ⟨name, hname, he⟩
    rw [hpath name hname e he, load_lookup (by rw [he]; rfl)]
    exact AList.lookup_isSome.mpr (AList.mem_keys.mpr (mem_cacheNames.mp hname).1)
  · intro names hscan name hname name' hname' e he he'
    rw [scandir_of_fits hfits, Option.some.injEq] at hscan
    rw [← hscan] at hname hname'
    rw [← hpath name hname e he, ← hpath name' hname' e he']

/-- The loaded entries point back to their files exactly when every name in the directory
fits the filter's buffer and every file that makes an entry has one of the hub's own names,
with a priority. -/
theorem names_point_back_iff (l : Listing) :
    PointsBack l ↔ (∀ name ∈ l.entries, l.Fits name) ∧
      ∀ name ∈ l.files.keys, hasCacheSuffix name = true → (loadable name).isSome →
        OwnName name := by
  constructor
  · intro hback
    have hfits := load_isSome_iff.mp hback.loads
    refine ⟨hfits, fun name hkey hsuffix hsome => ?_⟩
    obtain ⟨e, he⟩ := Option.isSome_iff_exists.mp hsome
    have hname := hback.path _ (scandir_of_fits hfits) name
      (mem_cacheNames.mpr ⟨hkey, hsuffix⟩) e he
    exact (path_eq_name_iff he).mp hname
  · rintro ⟨hfits, hown⟩
    exact pointsBack_of_own hfits hown

/-- The cache root of a hub that runs for `root` without configuration, with what
`scandir` finds in it. -/
def defaultListing (files : Directory) (h : ∀ name ∈ [['.'], ['.', '.']], name ∉ files) : Listing where
  root := "/root/mqttmsghub-data/mqtt-offline-msgs".toList
  files := files
  others := [['.'], ['.', '.']]
  root_ne_nil := by decide
  not_files := h

/-- The file of a message of negative priority makes an entry of priority 8,
whose file is another one. -/
theorem unprioritised_name_not_found :
    ¬ ∀ (l : Listing) (names : List Text), scandir l = some names → ∀ name ∈ names,
      ∀ e, loadable name = some e → getCacheFilePath e = name := by
  intro hclaim
  have hpath := hclaim (defaultListing (AList.singleton "1.cache".toList []) (by decide))
    ["1.cache".toList] (by decide) "1.cache".toList (by decide) ⟨8, 1⟩ (by decide)
  revert hpath
  decide

/-! ## The rebuilt queue -/

theorem compare_le_iff {name name' : Text} :
    offlineCacheFileCompare name name' ≤ 0 ↔
      (headerOfName name).timestamp.1 ≤ (headerOfName name').timestamp.1 := by
  unfold offlineCacheFileCompare
  split
  · omega
  · split <;> omega

theorem pairwise_cacheNames (d : Directory) :
    (cacheNames d).Pairwise fun a b => (headerOfName a).timestamp.1 ≤ (headerOfName b).timestamp.1 := by
  have htotal : Std.Total fun a b => offlineCacheFileCompare a b ≤ 0 := by
    constructor
    intro a b
    rw [compare_le_iff, compare_le_iff]
    exact le_total _ _
  have htrans : IsTrans Text fun a b => offlineCacheFileCompare a b ≤ 0 := by
    constructor
    intro a b c
    rw [compare_le_iff, compare_le_iff, compare_le_iff]
    exact le_trans
  have hsorted := List.pairwise_insertionSort (fun a b => offlineCacheFileCompare a b ≤ 0)
    (d.keys.filter hasCacheSuffix)
  exact hsorted.imp fun hle => compare_le_iff.mp hle

theorem headerOfName_of_loadable {name : Text} {e : CacheFileHeader} (h : loadable name = some e) :
    headerOfName name = e := by
  unfold loadable at h
  split at h
  · cases h
  · split at h
    · exact Option.some.inj h
    · cases h

/-- Whatever the directory holds, the queue is loaded in order of timestamps. -/
theorem pairwise_load (d : Directory) :
    (loadNames d).queue.Pairwise fun a b => a.timestamp.1 ≤ b.timestamp.1 := by
  rw [load_queue, List.pairwise_filterMap]
  refine (pairwise_cacheNames d).imp fun {name name'} hle e he e' he' => ?_
  rw [headerOfName_of_loadable he, headerOfName_of_loadable he'] at hle
  exact hle

/-- What loading the directory `d` has to leave to have rebuilt the queue `q`. -/
structure Rebuilt (q : List CacheFileHeader) (d : Directory) (r : Loaded) : Prop where
  perm : r.queue.Perm q
  sorted : r.queue.Pairwise fun a b => a.timestamp.1 < b.timestamp.1
  same : q.Pairwise (fun a b => a.timestamp.1 < b.timestamp.1) → r.queue = q
  addedCount : r.addedCount = q.length
  dir : r.dir = d

section Rebuild

variable {q : List CacheFileHeader} {d : Directory}
  (hnodup : (q.map CacheFileHeader.timestamp).Nodup) (hpos : ∀ e ∈ q, 0 < e.timestamp.1)
  (hfiles : ∀ e ∈ q, getCacheFilePath e ∈ d.keys)
  (hothers : ∀ name ∈ d.keys, name ∉ q.map getCacheFilePath → hasCacheSuffix name = false)
include hnodup hpos hfiles hothers

/-- The names that are loaded are those of the entries. -/
theorem cacheNames_perm : (cacheNames d).Perm (q.map getCacheFilePath) := by
  have hpaths : (q.map getCacheFilePath).Nodup := by
    rw [List.nodup_map_iff_inj_on (List.Nodup.of_map _ hnodup)]
    intro a ha b hb heq
    exact List.inj_on_of_nodup_map hnodup ha hb (path_injective (hpos a ha) heq)
  have hperm : (d.keys.filter hasCacheSuffix).Perm (q.map getCacheFilePath) := by
    rw [List.perm_ext_iff_of_nodup (d.keys_nodup.filter _) hpaths]
    intro name
    rw [List.mem_filter]
    constructor
    · rintro ⟨hkey, hsuffix⟩
      by_contra hnot
      rw [hothers name hkey hnot] at hsuffix
      cases hsuffix
    · intro hmem
      obtain ⟨e, he, rfl⟩ := List.mem_map.mp hmem
      exact ⟨hfiles e he, suffix_path e⟩
  exact (List.perm_insertionSort _ _).trans hperm

/-- The files of a queue, among others that are no cache files, make the queue again. -/
theorem rebuilt_of_files (hprio : ∀ e ∈ q, 0 ≤ e.cachePriority.1) : Rebuilt q d (loadNames d) := by
  have hscan := cacheNames_perm hnodup hpos hfiles hothers
  have hload : ∀ e ∈ q, loadable (getCacheFilePath e) = some e := by
    intro e he
    rw [loadable_path (hpos e he), if_pos (hprio e he)]
  have hback : (q.map getCacheFilePath).filterMap loadable = q := by
    rw [List.filterMap_map]
    exact (List.filterMap_congr hload).trans List.filterMap_some
  have hperm : (loadNames d).queue.Perm q := by
    rw [load_queue]
    exact (hscan.filterMap loadable).trans (List.Perm.of_eq hback)
  have hlt : (loadNames d).queue.Pairwise fun a b => a.timestamp.1 < b.timestamp.1 := by
    have hdistinct : (loadNames d).queue.Pairwise fun a b => a.timestamp ≠ b.timestamp := by
      rw [← List.pairwise_map (f := CacheFileHeader.timestamp)]
      exact (hperm.map _).nodup_iff.mpr hnodup
    exact (pairwise_load d).imp₂ (fun a b hle hne => lt_of_le_of_ne hle fun h => hne (Subtype.ext h))
      hdistinct
  refine ⟨hperm, hlt, fun hsorted => ?_, ?_, ?_⟩
  · exact List.Perm.eq_of_pairwise (fun a b _ _ hab hba => absurd hab (not_lt.mpr hba.le)) hlt hsorted
      hperm
  · rw [load_addedCount, hperm.length_eq]
  · apply load_dir
    intro name hname
    obtain ⟨e, he, rfl⟩ := List.mem_map.mp (hscan.subset hname)
    rw [hload e he]
    rfl

end Rebuild

/-- A restart with the files of a queue, and others that are no cache files, rebuilds the
queue in order of timestamps and removes nothing, exactly when every name in the directory
fits the filter's buffer. -/
theorem restart_rebuilds_queue_iff {q : List CacheFileHeader} {l : Listing}
    (hnodup : (q.map CacheFileHeader.timestamp).Nodup)
    (hpos : ∀ e ∈ q, 0 < e.timestamp.1) (hprio : ∀ e ∈ q, 0 ≤ e.cachePriority.1)
    (hfiles : ∀ e ∈ q, getCacheFilePath e ∈ l.files.keys)
    (hothers : ∀ name ∈ l.files.keys, name ∉ q.map getCacheFilePath →
      hasCacheSuffix name = false) :
    (∃ r, loadOfflineMessages l = some r ∧ Rebuilt q l.files r) ↔
      ∀ name ∈ l.entries, l.Fits name := by
  constructor
  · rintro ⟨r, hr, -⟩
    apply load_isSome_iff.mp
    rw [hr]
    rfl
  · intro hfits
    have hload : loadOfflineMessages l = some (loadNames l.files) := by rw [load_eq, if_pos hfits]
    exact ⟨_, hload, rebuilt_of_files hnodup hpos hfiles hothers hprio⟩

/-- A directory with the files of two messages and a file of another kind. -/
def twoMessages : Directory :=
  ((AList.singleton "5-8.cache".toList "b".toList).insert "3-9.cache".toList "a".toList).insert
    "notes.txt".toList []

theorem restart_rebuilds_queue_iff_two :
    ∃ r, loadOfflineMessages (defaultListing twoMessages (by decide)) = some r ∧
      Rebuilt [⟨9, 3⟩, ⟨8, 5⟩] twoMessages r :=
  (restart_rebuilds_queue_iff (by decide) (by decide) (by decide) (by decide) (by decide)).mpr
    (by decide)

/-- A long name, which is no cache file. -/
def longName : Text := List.replicate 216 'x'

/-- The file of one message and a file of such a name. -/
def longNamed : Directory := (AList.singleton "5-8.cache".toList "b".toList).insert longName []

theorem suffix_longName : hasCacheSuffix longName = false := by
  have hdot : strrchr '.' longName = none := by
    apply strrchr_eq_none
    rw [longName, List.mem_replicate]
    exact fun h => absurd h.2 (by decide)
  rw [hasCacheSuffix, getFileSuffix, hdot]
  rfl

theorem mem_longNamed {name : Text} :
    name ∈ longNamed.keys ↔ name = longName ∨ name = "5-8.cache".toList := by
  rw [← AList.mem_keys, longNamed, AList.mem_insert, AList.mem_keys, AList.keys_singleton,
    List.mem_singleton]

theorem dots_notMem_longNamed : ∀ name ∈ [['.'], ['.', '.']], name ∉ longNamed := by
  intro name hname hmem
  have hshort : name.length ≤ 2 := by
    revert name
    decide
  rcases mem_longNamed.mp (AList.mem_keys.mp hmem) with rfl | rfl
  · rw [longName, List.length_replicate] at hshort
    omega
  · revert hshort
    decide

/-- With a file of such a name in the directory nothing is loaded at all. -/
theorem long_name_stops_restart :
    ¬ ∀ (q : List CacheFileHeader) (l : Listing), (q.map CacheFileHeader.timestamp).Nodup →
      (∀ e ∈ q, 0 < e.timestamp.1) → (∀ e ∈ q, 0 ≤ e.cachePriority.1) →
      (∀ e ∈ q, getCacheFilePath e ∈ l.files.keys) →
      (∀ name ∈ l.files.keys, name ∉ q.map getCacheFilePath → hasCacheSuffix name = false) →
      ∃ r, loadOfflineMessages l = some r ∧ Rebuilt q l.files r := by
  intro hclaim
  have hfiles : ∀ e ∈ [(⟨8, 5⟩ : CacheFileHeader)], getCacheFilePath e ∈ longNamed.keys := by
    intro e he
    rw [List.mem_singleton.mp he]
    exact mem_longNamed.mpr (.inr rfl)
  have hothers : ∀ name ∈ longNamed.keys,
      name ∉ [(⟨8, 5⟩ : CacheFileHeader)].map getCacheFilePath → hasCacheSuffix name = false := by
    intro name hname hnot
    rcases mem_longNamed.mp hname with rfl | rfl
    · exact suffix_longName
    · exact absurd (List.mem_singleton_self _) hnot
  obtain ⟨r, hr, -⟩ := hclaim [⟨8, 5⟩] (defaultListing longNamed dots_notMem_longNamed)
    (by decide) (by decide) (by decide) hfiles hothers
  have hload := load_isSome_iff.mp (Option.isSome_iff_exists.mpr ⟨r, hr⟩)
  have hlong := hload longName (List.mem_append_left _ (mem_longNamed.mpr (.inl rfl)))
  rw [Listing.Fits, longName, List.length_replicate] at hlong
  revert hlong
  decide

end MqttMsgHub
