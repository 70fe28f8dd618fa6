import Mathlib.Data.List.Perm.Basic
import MqttMsgHub.CacheFile

/-! # The offline queue

The operations of `offlinemsgcache.c` on the list `g_list`, each as the
function its critical section computes: the admission test, the removal of
the first entry of lowest priority, the eviction loop in front of a push, and
the write of a cache file.

* `remove_first` — one removal takes out the first entry of lowest priority;
* `makeRoom_spec` — what a terminated eviction loop has done;
* `makeRoom_order` — which entries it has removed;
* `makeRoom_isSome`, `makeRoom_eq_none` — the loop terminates with a positive
  capacity and only then;
* `makeRoom_removed_le_one` — from a queue within its capacity it removes at
  most one entry.
-/

namespace MqttMsgHub

/-! ## Admission -/

/-- `can_message_enter_offine_queue`. -/
def canMessageEnterOffineQueue (capacity : CInt) (q : List CacheFileHeader) (p : CInt) : Bool :=
  if (q.length : ℤ) < capacity.1 then true
  else q.any fun h => h.cachePriority.1 ≤ p.1

/-- A refused priority is below every queued one. -/
theorem lt_of_refused {capacity : CInt} {q : List CacheFileHeader} {p : CInt}
    (h : canMessageEnterOffineQueue capacity q p = false) :
    capacity.1 ≤ q.length ∧ ∀ x ∈ q, p.1 < x.cachePriority.1 := by
  unfold canMessageEnterOffineQueue at h
  split at h
  · cases h
  · rename_i hfull
    refine ⟨not_lt.mp hfull, fun x hx => ?_⟩
    have hnot := List.any_eq_false.mp h x hx
    simpa using hnot

/-! ## Removal -/

/-- First round of `remove_one_lowest_priority_message`. -/
def lowestPriority (q : List CacheFileHeader) : CInt :=
  q.foldl (fun lowest h => if h.cachePriority.1 < lowest.1 then h.cachePriority else lowest) INT_MAX

/-- `remove_one_lowest_priority_message`: the queue, the directory and the
entries removed (one, or none when no entry was found). -/
def removeOneLowestPriorityMessage (q : List CacheFileHeader) (d : Directory) :
    List CacheFileHeader × Directory × List CacheFileHeader :=
  match q.find? fun h => h.cachePriority = lowestPriority q with
  | some h =>
    (q.eraseP fun h => h.cachePriority = lowestPriority q, d.erase (getCacheFilePath h), [h])
  | none => (q, d, [])

theorem foldl_lowest_le (q : List CacheFileHeader) (p : CInt) :
    (q.foldl (fun lowest h => if h.cachePriority.1 < lowest.1 then h.cachePriority else lowest) p).1 ≤
      p.1 ∧
    ∀ x ∈ q, (q.foldl
      (fun lowest h => if h.cachePriority.1 < lowest.1 then h.cachePriority else lowest) p).1 ≤
        x.cachePriority.1 := by
  induction q generalizing p with
  | nil => simp
  | cons y q ih =>
    rw [List.foldl_cons]
    obtain ⟨hle, hmem⟩ := ih (if y.cachePriority.1 < p.1 then y.cachePriority else p)
    have hstart : (if y.cachePriority.1 < p.1 then y.cachePriority else p).1 ≤ p.1 ∧
        (if y.cachePriority.1 < p.1 then y.cachePriority else p).1 ≤ y.cachePriority.1 := by
      split
      · rename_i hlt
        exact ⟨le_of_lt hlt, le_refl _⟩
      · rename_i hge
        exact ⟨le_refl _, not_lt.mp hge⟩
    refine ⟨le_trans hle hstart.1, fun x hx => ?_⟩
    rcases List.mem_cons.mp hx with rfl | hx
    · exact le_trans hle hstart.2
    · exact hmem x hx

theorem lowestPriority_le {q : List CacheFileHeader} {x : CacheFileHeader} (hx : x ∈ q) :
    (lowestPriority q).1 ≤ x.cachePriority.1 :=
  (foldl_lowest_le q INT_MAX).2 x hx

theorem foldl_lowest_attained (q : List CacheFileHeader) (p : CInt) :
    q.foldl (fun lowest h => if h.cachePriority.1 < lowest.1 then h.cachePriority else lowest) p = p ∨
    ∃ x ∈ q, x.cachePriority =
      q.foldl (fun lowest h => if h.cachePriority.1 < lowest.1 then h.cachePriority else lowest) p := by
  induction q generalizing p with
  | nil => simp
  | cons y q ih =>
    rw [List.foldl_cons]
    rcases ih (if y.cachePriority.1 < p.1 then y.cachePriority else p) with heq | ⟨x, hx, heq⟩
    · rw [heq]
      split
      · exact Or.inr ⟨y, List.mem_cons_self, rfl⟩
      · exact Or.inl rfl
    · exact Or.inr ⟨x, List.mem_cons_of_mem _ hx, heq⟩

/-- The lowest priority of a non-empty queue is some entry's: the start value
`INT_MAX` is no smaller than any `int`. -/
theorem lowestPriority_attained {q : List CacheFileHeader} (hq : q ≠ []) :
    ∃ x ∈ q, x.cachePriority = lowestPriority q := by
  rcases foldl_lowest_attained q INT_MAX with heq | hex
  · obtain ⟨x, hx⟩ := List.exists_mem_of_ne_nil q hq
    have hmax : x.cachePriority.1 ≤ INT_MAX.1 := x.cachePriority.2.2
    have hle : INT_MAX.1 ≤ x.cachePriority.1 := by
      have h := lowestPriority_le hx
      rwa [lowestPriority, heq] at h
    refine ⟨x, hx, ?_⟩
    rw [lowestPriority, heq]
    exact Subtype.ext (le_antisymm hmax hle)
  · exact hex

/-- A removal from a non-empty queue takes out the first entry of lowest
priority. -/
theorem remove_first {q : List CacheFileHeader} (hq : q ≠ []) (d : Directory) :
    ∃ pre h post, q = pre ++ h :: post ∧
      removeOneLowestPriorityMessage q d = (pre ++ post, d.erase (getCacheFilePath h), [h]) ∧
      (∀ x ∈ q, h.cachePriority.1 ≤ x.cachePriority.1) ∧
      ∀ x ∈ pre, h.cachePriority.1 < x.cachePriority.1 := by
  obtain ⟨y, hy, hlow⟩ := lowestPriority_attained hq
  have hsome : (q.find? fun h => h.cachePriority = lowestPriority q).isSome := by
    rw [List.find?_isSome]
    exact ⟨y, hy, by simpa using hlow⟩
  obtain ⟨h, hfind⟩ := Option.isSome_iff_exists.mp hsome
  have hprio : h.cachePriority = lowestPriority q := by
    simpa using List.find?_some hfind
  obtain ⟨hp, pre, post, heq, hnone⟩ := List.find?_eq_some_iff_append.mp hfind
  have hbefore : ∀ x ∈ pre, x.cachePriority ≠ lowestPriority q := by
    intro x hx
    simpa using hnone x hx
  have herase : (pre ++ h :: post).eraseP (fun h => h.cachePriority = lowestPriority q) =
      pre ++ post := by
    rw [List.eraseP_append_right _ fun x hx => by simpa using hbefore x hx, List.eraseP_cons, hp]
    rfl
  rw [← heq] at herase
  refine ⟨pre, h, post, heq, ?_, fun x hx => ?_, fun x hx => ?_⟩
  · simp only [removeOneLowestPriorityMessage, hfind, herase]
  · rw [hprio]
    exact lowestPriority_le hx
  · have hmem : x ∈ q := by
      rw [heq]
      exact List.mem_append_left _ hx
    rw [hprio]
    exact lt_of_le_of_ne (lowestPriority_le hmem) fun h => hbefore x hx (Subtype.ext h.symm)

/-- What a removal from a non-empty queue does. -/
theorem remove_spec {q : List CacheFileHeader} (hq : q ≠ []) (d : Directory) :
    ∃ h ∈ q, ∃ q', removeOneLowestPriorityMessage q d = (q', d.erase (getCacheFilePath h), [h]) ∧
      q'.Sublist q ∧ q.Perm (h :: q') ∧ ∀ x ∈ q, h.cachePriority.1 ≤ x.cachePriority.1 := by
  obtain ⟨pre, h, post, heq, hrem, hmin, -⟩ := remove_first hq d
  refine ⟨h, ?_, pre ++ post, hrem, ?_, ?_, hmin⟩
  · rw [heq]
    exact List.mem_append_right _ List.mem_cons_self
  · rw [heq]
    exact (List.sublist_cons_self h post).append_left pre
  · rw [heq]
    exact List.perm_middle

/-! ## Eviction -/

/-- `while (len >= g_cacheCapacity) remove_one_lowest_priority_message()`, for
at most `fuel` iterations: the queue, the directory and the entries removed, in
order. A queue is empty after as many removals as it has entries, and then no
iteration changes anything any more. -/
def makeRoom (capacity : CInt) : ℕ → List CacheFileHeader → Directory →
    Option (List CacheFileHeader × Directory × List CacheFileHeader)
  | 0, q, d => if capacity.1 ≤ q.length then none else some (q, d, [])
  | fuel + 1, q, d =>
    if capacity.1 ≤ q.length then
      let r := removeOneLowestPriorityMessage q d
      (makeRoom capacity fuel r.1 r.2.1).map fun r' => (r'.1, r'.2.1, r.2.2 ++ r'.2.2)
    else some (q, d, [])

theorem makeRoom_of_room {capacity : CInt} {q : List CacheFileHeader} (fuel : ℕ) (d : Directory)
    (hroom : ¬ capacity.1 ≤ q.length) : makeRoom capacity fuel q d = some (q, d, []) := by
  cases fuel with
  | zero => simp only [makeRoom, if_neg hroom]
  | succ fuel => simp only [makeRoom, if_neg hroom]

/-- What an eviction loop has done to queue and directory when it exits. -/
structure MadeRoom (capacity : CInt) (q : List CacheFileHeader) (d : Directory)
    (q' : List CacheFileHeader) (d' : Directory) (removed : List CacheFileHeader) : Prop where
  room : (q'.length : ℤ) < capacity.1
  sublist : q'.Sublist q
  perm : q.Perm (removed ++ q')
  lookup : ∀ n, d'.lookup n = if n ∈ removed.map getCacheFilePath then none else d.lookup n
  minimal : ∀ h ∈ removed, ∀ x ∈ q', h.cachePriority.1 ≤ x.cachePriority.1

theorem madeRoom_refl {capacity : CInt} {q : List CacheFileHeader} (d : Directory)
    (hroom : ¬ capacity.1 ≤ q.length) : MadeRoom capacity q d q d [] :=
  ⟨not_le.mp hroom, List.Sublist.refl q, List.Perm.refl q, by simp, by simp⟩

/-- One removal in front of a loop that exits. -/
theorem MadeRoom.cons {capacity : CInt} {q q₁ q' : List CacheFileHeader} {d d' : Directory}
    {h : CacheFileHeader} {removed : List CacheFileHeader} (hsub : q₁.Sublist q)
    (hperm : q.Perm (h :: q₁)) (hmin : ∀ x ∈ q, h.cachePriority.1 ≤ x.cachePriority.1)
    (hrest : MadeRoom capacity q₁ (d.erase (getCacheFilePath h)) q' d' removed) :
    MadeRoom capacity q d q' d' (h :: removed) where
  room := hrest.room
  sublist := hrest.sublist.trans hsub
  perm := hperm.trans (hrest.perm.cons h)
  lookup := by
    intro n
    rw [hrest.lookup n, List.map_cons]
    by_cases hn : n = getCacheFilePath h
    · subst hn
      simp
    · simp [hn, AList.lookup_erase_ne]
  minimal := by
    intro k hk x hx
    rcases List.mem_cons.mp hk with rfl | hk
    · exact hmin x (hsub.subset (hrest.sublist.subset hx))
    · exact hrest.minimal k hk x hx

theorem makeRoom_spec {capacity : CInt} {fuel : ℕ} {q q' : List CacheFileHeader}
    {d d' : Directory} {removed : List CacheFileHeader}
    (h : makeRoom capacity fuel q d = some (q', d', removed)) :
    MadeRoom capacity q d q' d' removed := by
  induction fuel generalizing q d removed with
  | zero =>
    simp only [makeRoom] at h
    split at h
    · cases h
    · rename_i hroom
      simp only [Option.some.injEq, Prod.mk.injEq] at h
      rcases h with ⟨rfl, rfl, rfl⟩
      exact madeRoom_refl _ hroom
  | succ fuel ih =>
    simp only [makeRoom] at h
    split at h
    · simp only [Option.map_eq_some_iff, Prod.mk.injEq] at h
      rcases h with ⟨⟨q₂, d₂, removed₂⟩, hrest, rfl, rfl, rfl⟩
      by_cases hq : q = []
      · -- nothing is found in an empty list, the loop goes on with it
        subst hq
        exact ih hrest
      · obtain ⟨h, -, q₁, hrem, hsub, hperm, hmin⟩ := remove_spec hq d
        rw [hrem] at hrest ⊢
        exact (ih hrest).cons hsub hperm hmin
    · rename_i hroom
      simp only [Option.some.injEq, Prod.mk.injEq] at h
      rcases h with ⟨rfl, rfl, rfl⟩
      exact madeRoom_refl _ hroom

/-- The entries in the order in which an eviction takes them: by priority, and
among those of one priority as they stand in the queue. -/
def evictionOrder (q : List CacheFileHeader) : List CacheFileHeader :=
  q.insertionSort fun a b => a.cachePriority.1 ≤ b.cachePriority.1

/-- How many entries have to go before another one is within the capacity. -/
def surplus (capacity : CInt) (q : List CacheFileHeader) : ℕ :=
  ((q.length : ℤ) + 1 - capacity.1).toNat

/-- The first entry of lowest priority is the first in the order. -/
theorem evictionOrder_of_first {pre post : List CacheFileHeader} {h : CacheFileHeader}
    (hmin : ∀ x ∈ pre ++ h :: post, h.cachePriority.1 ≤ x.cachePriority.1)
    (hfirst : ∀ x ∈ pre, h.cachePriority.1 < x.cachePriority.1) :
    evictionOrder (pre ++ h :: post) = h :: evictionOrder (pre ++ post) := by
  induction pre with
  | nil =>
    apply List.insertionSort_cons_of_forall_rel
    intro x hx
    exact hmin x (List.mem_cons_of_mem h hx)
  | cons y pre ih =>
    rw [List.forall_mem_cons] at hfirst
    have hrest := ih (fun x hx => hmin x (List.mem_cons_of_mem y hx)) hfirst.2
    have hskip := List.orderedInsert_of_not_le
      (fun a b : CacheFileHeader => a.cachePriority.1 ≤ b.cachePriority.1)
      (evictionOrder (pre ++ post)) (not_le.mpr hfirst.1)
    show (evictionOrder (pre ++ h :: post)).orderedInsert _ y = _
    rw [hrest, hskip]
    rfl

/-- The loop removes the first entries in the order, as many as have to go, and
keeps the others. -/
theorem makeRoom_order {capacity : CInt} {fuel : ℕ} {q q' : List CacheFileHeader}
    {d d' : Directory} {removed : List CacheFileHeader}
    (h : makeRoom capacity fuel q d = some (q', d', removed)) :
    removed = (evictionOrder q).take (surplus capacity q) ∧
      evictionOrder q' = (evictionOrder q).drop (surplus capacity q) := by
  have hnone : ∀ {q : List CacheFileHeader}, ¬ capacity.1 ≤ q.length → surplus capacity q = 0 := by
    intro q hroom
    rw [surplus, Int.toNat_eq_zero]
    omega
  induction fuel generalizing q d removed with
  | zero =>
    simp only [makeRoom] at h
    split at h
    · cases h
    · rename_i hroom
      simp only [Option.some.injEq, Prod.mk.injEq] at h
      rcases h with ⟨rfl, rfl, rfl⟩
      rw [hnone hroom]
      exact ⟨rfl, rfl⟩
  | succ fuel ih =>
    have hpos := (makeRoom_spec h).room
    simp only [makeRoom] at h
    split at h
    · rename_i hfull
      simp only [Option.map_eq_some_iff, Prod.mk.injEq] at h
      rcases h with ⟨⟨q₂, d₂, removed₂⟩, hrest, rfl, rfl, rfl⟩
      have hq : q ≠ [] := by
        rintro rfl
        simp only [List.length_nil] at hfull
        omega
      rcases remove_first hq d with ⟨pre, e, post, heq, hrem, hmin, hfirst⟩
      rw [hrem] at hrest ⊢
      rcases ih hrest with ⟨hremoved, hkept⟩
      rw [heq] at hmin
      have hlen : q.length = (pre ++ post).length + 1 := by
        rw [heq]
        simp only [List.length_append, List.length_cons]
        omega
      have hsurplus : surplus capacity q = surplus capacity (pre ++ post) + 1 := by
        unfold surplus
        omega
      rw [hsurplus, heq, evictionOrder_of_first hmin hfirst]
      constructor
      · rw [List.take_succ_cons, ← hremoved]
        rfl
      · rw [List.drop_succ_cons, ← hkept]
    · rename_i hroom
      simp only [Option.some.injEq, Prod.mk.injEq] at h
      rcases h with ⟨rfl, rfl, rfl⟩
      rw [hnone hroom]
      exact ⟨rfl, rfl⟩

/-- With a positive capacity the loop exits: every iteration shortens the
queue, and an empty queue has room. -/
theorem makeRoom_isSome {capacity : CInt} (hc : 1 ≤ capacity.1) {fuel : ℕ}
    {q : List CacheFileHeader} (hfuel : q.length ≤ fuel) (d : Directory) :
    (makeRoom capacity fuel q d).isSome := by
  induction fuel generalizing q d with
  | zero =>
    have hlen : q.length = 0 := Nat.le_zero.mp hfuel
    have hroom : ¬ capacity.1 ≤ (q.length : ℤ) := by omega
    simp [makeRoom, hroom]
  | succ fuel ih =>
    simp only [makeRoom]
    split
    · rename_i hfull
      have hq : q ≠ [] := by
        rintro rfl
        simp only [List.length_nil] at hfull
        omega
      obtain ⟨h, -, q₁, hrem, -, hperm, -⟩ := remove_spec hq d
      have hlen : q.length = q₁.length + 1 := by simpa using hperm.length_eq
      have hfuel₁ : q₁.length ≤ fuel := by omega
      rw [hrem, Option.isSome_map]
      exact ih hfuel₁ _
    · rfl

/-- From a queue within its capacity at most one entry has to go. -/
theorem makeRoom_removed_le_one {capacity : CInt} {fuel : ℕ} {q q' : List CacheFileHeader}
    {d d' : Directory} {removed : List CacheFileHeader} (hcap : (q.length : ℤ) ≤ capacity.1)
    (h : makeRoom capacity fuel q d = some (q', d', removed)) : removed.length ≤ 1 := by
  by_cases hq : q = []
  · -- nothing can be removed from an empty queue
    have hperm := (makeRoom_spec h).perm.length_eq
    rw [hq, List.length_nil, List.length_append] at hperm
    omega
  · by_cases hfull : capacity.1 ≤ q.length
    · cases fuel with
      | zero => simp only [makeRoom, if_pos hfull, reduceCtorEq] at h
      | succ fuel =>
        obtain ⟨k, -, q₁, hrem, -, hperm, -⟩ := remove_spec hq d
        have hlen : q.length = q₁.length + 1 := by simpa using hperm.length_eq
        have hroom : ¬ capacity.1 ≤ (q₁.length : ℤ) := by omega
        -- one removal makes room, the second test of the loop exits
        simp only [makeRoom, if_pos hfull, hrem, makeRoom_of_room _ _ hroom, Option.map_some,
          Option.some.injEq, Prod.mk.injEq] at h
        simp [← h.2.2]
    · rw [makeRoom_of_room _ _ hfull] at h
      simp only [Option.some.injEq, Prod.mk.injEq] at h
      simp [← h.2.2]

/-- From a queue that is exactly full, the loop takes out the first entry of
lowest priority. -/
theorem makeRoom_full {capacity : CInt} {q : List CacheFileHeader} (hc : 1 ≤ capacity.1)
    (hfull : (q.length : ℤ) = capacity.1) (d : Directory) :
    ∃ pre h post, q = pre ++ h :: post ∧
      makeRoom capacity q.length q d = some (pre ++ post, d.erase (getCacheFilePath h), [h]) ∧
      (∀ x ∈ q, h.cachePriority.1 ≤ x.cachePriority.1) ∧
      ∀ x ∈ pre, h.cachePriority.1 < x.cachePriority.1 := by
  have hq : q ≠ [] := by
    rintro rfl
    simp only [List.length_nil] at hfull
    omega
  obtain ⟨pre, h, post, heq, hrem, hmin, hfirst⟩ := remove_first hq d
  refine ⟨pre, h, post, heq, ?_, hmin, hfirst⟩
  have hlen : q.length = (pre ++ post).length + 1 := by
    rw [heq]
    simp only [List.length_append, List.length_cons]
    omega
  have hroom : ¬ capacity.1 ≤ ((pre ++ post).length : ℤ) := by omega
  rw [hlen, makeRoom, if_pos hfull.ge, hrem]
  simp only [makeRoom_of_room _ _ hroom, Option.map_some, List.append_nil]

/-- Without a positive capacity the loop never exits. -/
theorem makeRoom_eq_none {capacity : CInt} (hc : capacity.1 < 1) (fuel : ℕ)
    (q : List CacheFileHeader) (d : Directory) : makeRoom capacity fuel q d = none := by
  have hfull : ∀ q : List CacheFileHeader, capacity.1 ≤ q.length := by
    intro q
    omega
  induction fuel generalizing q d with
  | zero => rw [makeRoom, if_pos (hfull q)]
  | succ fuel ih =>
    rw [makeRoom, if_pos (hfull q)]
    show (makeRoom capacity fuel _ _).map _ = none
    rw [ih, Option.map_none]

/-! ## The cache file -/

/-- What the file system makes of a write: everything written, `fopen` failed,
`fwrite` stopped after `n` bytes, or `fwrite` took `n` bytes into the buffer of
the stream and `fclose` brought only the first `kept` of them into the file. -/
inductive FileOutcome where
  | ok
  | openFailed
  | wrote (n : ℕ)
  | closeFailed (n kept : ℕ)
deriving DecidableEq, Repr

/-- `write_file_string` with mode `"w"`: the directory and the `size_t`
returned, which is `(size_t)-1` when the file cannot be opened. The result of
`fclose` is not asked for. -/
def writeFileString (d : Directory) (path content : Text) : FileOutcome → Directory × ℕ
  | .ok => (d.insert path content, content.length)
  | .openFailed => (d, 18446744073709551615)
  | .wrote n => (d.insert path (content.take n), (content.take n).length)
  | .closeFailed n kept =>
    (d.insert path ((content.take n).take kept), (content.take n).length)

end MqttMsgHub
