import Mathlib.Data.List.Find
import MqttMsgHub.LinkedList
import MqttMsgHub.Lib.Refine
import MqttMsgHub.Hub

/-! # The offline queue in memory

`g_list` is a doubly linked list of nodes that point to headers, all of them on the
heap. The critical sections of `offlinemsgcache.c` are written here on this memory,
with their loops over iterators; between them a thread holds the nodes that it has
allocated and not yet inserted, or that it has popped. Addresses are chosen by
`malloc` among those that are not allocated. `init_list` makes a new list whatever
there has been, and what was queued then is lost.

* `Owned` — every node and every header on the heap belongs to exactly one entry of
  the queue, one node that is held, or one that is lost;
* `Queued.removeOne`, `Queued.makeRoom` — the loops compute what they do on lists;
* `queue_in_memory` — any sequence of accesses is answered as by the queue as a list,
  with no undefined access, and leaks no memory unless a list is replaced.
-/

namespace MqttMsgHub.QueueMemory

open DLinks LinkedList Refine

variable {A P : Type} [DecidableEq A] [DecidableEq P]

/-! ## Memory -/

/-- The headers on the heap. -/
abbrev Headers (P : Type) := AList fun _ : P => CacheFileHeader

/-- `freeListVal`. -/
def freeListVal (mem : Headers P) : Option P → Option (Headers P)
  | some p => if (mem.lookup p).isSome then some (mem.erase p) else none
  | none => some mem

/-- The list that `g_list` points to, the nodes and the headers. -/
abbrev Memory (A P : Type) := LinkedList.State A (Option P) (Headers P)

/-- The list that `init_list` makes. -/
def initList : ListT A (Option P) (Headers P) :=
  { (listNew : ListT A (Option P) (Headers P)) with free := some freeListVal }

/-- `LIST_NODE_VALUE`. -/
def listNodeValue (s : Memory A P) (node : A) : Option (Option CacheFileHeader) :=
  (valAt s.heap node).bind fun val =>
    match val with
    | some p => (s.mem.lookup p).map some
    | none => some none

/-- `cfh && test(cfh)`. -/
def valueTest (s : Memory A P) (test : CacheFileHeader → Bool) (node : A) : Option Bool :=
  (listNodeValue s node).map fun cfh => cfh.any test

/-- `can_message_enter_offine_queue`. -/
def canMessageEnterOffineQueue (capacity : CInt) (s : Memory A P) (cachePriority : CInt) :
    Option Bool :=
  if (s.list.len : ℤ) < capacity.1 then some true
  else (findNode s (valueTest s fun h => h.cachePriority.1 ≤ cachePriority.1)).map Option.isSome

/-- First round of `remove_one_lowest_priority_message`, for at most `n` nodes. -/
def lowestLoop (s : Memory A P) : ℕ → ListIteratorT A → CInt → Option CInt
  | 0, _, _ => none
  | n + 1, it, lowest => do
    let (it, node) ← listIteratorNext s.heap it
    match node with
    | none => return lowest
    | some a =>
      let cfh ← listNodeValue s a
      lowestLoop s n it
        (match cfh with
        | some h => if h.cachePriority.1 < lowest.1 then h.cachePriority else lowest
        | none => lowest)

/-- `remove_one_lowest_priority_message`. -/
def removeOneLowestPriorityMessage (s : Memory A P) (d : Directory) :
    Option (Memory A P × Directory × List CacheFileHeader) := do
  let lowest ← lowestLoop s (s.heap.keys.length + 1) (listIteratorNew s.list .forward) INT_MAX
  let foundNode ← findNode s (valueTest s fun h => h.cachePriority = lowest)
  match foundNode with
  | some node =>
    let cfh ← listNodeValue s node
    let h ← cfh
    let s ← listRemove s node
    return (s, d.erase (getCacheFilePath h), [h])
  | none => return (s, d, [])

/-- `while (len >= g_cacheCapacity) remove_one_lowest_priority_message()`, for at most
`fuel` iterations. -/
def makeRoom (capacity : CInt) : ℕ → Memory A P → Directory →
    Option (Memory A P × Directory × List CacheFileHeader)
  | 0, s, d => if capacity.1 ≤ s.list.len then none else some (s, d, [])
  | fuel + 1, s, d =>
    if capacity.1 ≤ s.list.len then do
      let r ← removeOneLowestPriorityMessage s d
      let r' ← makeRoom capacity fuel r.1 r.2.1
      return (r'.1, r'.2.1, r.2.2 ++ r'.2.2)
    else some (s, d, [])

/-! ## Sections -/

/-- The nodes and the headers on the heap, `g_list` (`none` is NULL), how many `list_t` have
been allocated, the cache directory, and the nodes in the hands of the threads. -/
structure State (A P : Type) where
  heap : Heap A (Option P)
  headers : Headers P
  gList : Option (ListT A (Option P) (Headers P))
  lists : ℕ
  dir : Directory
  held : List A

/-- Before the first access. -/
def State.start (d : Directory) : State A P := ⟨∅, ∅, none, 0, d, []⟩

/-- The memory behind `g_list`. -/
def State.memory (s : State A P) : Option (Memory A P) :=
  s.gList.map fun list => ⟨s.heap, s.headers, list⟩

def State.put (s : State A P) (memory : Memory A P) : State A P :=
  { s with heap := memory.heap, headers := memory.mem, gList := some memory.list }

omit [DecidableEq A] [DecidableEq P] in
@[simp] theorem State.put_dir (s : State A P) (memory : Memory A P) : (s.put memory).dir = s.dir := rfl

/-- `g_list ? g_list->len : 0` -/
def State.len (s : State A P) : ℕ := s.gList.elim 0 ListT.len

/-- The accesses to the queue. `α` is where `malloc` puts a new node. -/
inductive Act (α : Type) where
  /-- `init_list` behind its test: the list is replaced, and its memory is not freed. -/
  | initList
  /-- The header and the node of an entry are allocated. -/
  | create (h : CacheFileHeader) (place : α)
  | canMessageEnter (cachePriority : CInt)
  /-- `cache_offline_message` on the `k`-th of the nodes in hand. -/
  | cache (k : ℕ)
  /-- `load_offline_messages`. -/
  | load (k : ℕ)
  | pop
  /-- `send_messages_thread_fun` after a send that has failed. -/
  | putBack (k : ℕ)
  /-- `LIST_NODE_FREE`. -/
  | free (k : ℕ)
  | count

/-- What the thread is told. -/
inductive Answer where
  | canEnter (b : Bool)
  | cached (evicted : List CacheFileHeader)
  | popped (h : Option CacheFileHeader)
  | putBack (b : Bool)
  | count (n : ℕ)
deriving DecidableEq

def step (capacity : CInt) (s : State A P) : Act (A × P) → Option (State A P × List Answer)
  | .initList => some ({ s with gList := some initList, lists := s.lists + 1 }, [])
  | .create h (node, p) =>
    some ({ s with
      heap := listNodeNew s.heap node (some p), headers := s.headers.insert p h,
      held := s.held ++ [node] }, [])
  | .canMessageEnter cachePriority =>
    match s.memory with
    | some memory =>
      (canMessageEnterOffineQueue capacity memory cachePriority).map fun b => (s, [.canEnter b])
    -- a NULL list counts as empty, but there is no iterator over it
    | none => if 0 < capacity.1 then some (s, [.canEnter true]) else none
  | .cache k => do
    let node ← s.held[k]?
    let memory ← s.memory
    let r ← makeRoom capacity memory.list.len memory s.dir
    let memory ← listRpush r.1 node
    return ({ s.put memory with dir := r.2.1, held := s.held.eraseIdx k }, [.cached r.2.2])
  | .load k => do
    let node ← s.held[k]?
    let memory ← s.memory
    let memory ← listRpush memory node
    return ({ s.put memory with held := s.held.eraseIdx k }, [])
  | .pop => do
    let memory ← s.memory
    let (memory, node) ← listLpop memory
    match node with
    | none => return (s.put memory, [.popped none])
    | some a =>
      let cfh ← listNodeValue memory a
      let h ← cfh
      return ({ s.put memory with held := s.held ++ [a] }, [.popped (some h)])
  | .putBack k => do
    let node ← s.held[k]?
    if (s.len : ℤ) < capacity.1 then
      let memory ← s.memory
      let memory ← listLpush memory node
      return ({ s.put memory with held := s.held.eraseIdx k }, [.putBack true])
    else return (s, [.putBack false])
  | .free k => do
    let node ← s.held[k]?
    let val ← valAt s.heap node
    let headers ← freeListVal s.headers val
    let heap ← release s.heap node
    return ({ s with heap := heap, headers := headers, held := s.held.eraseIdx k }, [])
  | .count => some (s, [.count s.len])

/-- `malloc` returns memory that is not allocated. -/
def Fresh (s : State A P) : Act (A × P) → Prop
  | .create _ (node, p) => s.heap.lookup node = none ∧ s.headers.lookup p = none
  | _ => True

instance (s : State A P) : (a : Act (A × P)) → Decidable (Fresh s a)
  | .create _ (node, p) =>
    decidable_of_iff ((s.heap.lookup node).isNone ∧ (s.headers.lookup p).isNone) (by
      rw [Option.isNone_iff_eq_none, Option.isNone_iff_eq_none]
      rfl)
  | .initList => isTrue trivial
  | .canMessageEnter _ => isTrue trivial
  | .cache _ => isTrue trivial
  | .load _ => isTrue trivial
  | .pop => isTrue trivial
  | .putBack _ => isTrue trivial
  | .free _ => isTrue trivial
  | .count => isTrue trivial

/-! ## The queue as a list -/

/-- The entries of the queue (`none` is NULL), the directory, the entries in the hands of the
threads, and those of lists that have been replaced. -/
structure Queue where
  list : Option (List CacheFileHeader)
  dir : Directory
  held : List CacheFileHeader
  lost : List CacheFileHeader

def Queue.start (d : Directory) : Queue := ⟨none, d, [], []⟩

def Queue.entries (q : Queue) : List CacheFileHeader := q.list.getD []

def queueStep (capacity : CInt) (q : Queue) : Act Unit → Option (Queue × List Answer)
  | .initList => some ({ q with list := some [], lost := q.lost ++ q.entries }, [])
  | .create h _ => some ({ q with held := q.held ++ [h] }, [])
  | .canMessageEnter cachePriority =>
    match q.list with
    | some entries =>
      some (q, [.canEnter (MqttMsgHub.canMessageEnterOffineQueue capacity entries cachePriority)])
    | none => if 0 < capacity.1 then some (q, [.canEnter true]) else none
  | .cache k => do
    let h ← q.held[k]?
    let entries ← q.list
    let r ← MqttMsgHub.makeRoom capacity entries.length entries q.dir
    return ({ q with list := some (r.1 ++ [h]), dir := r.2.1, held := q.held.eraseIdx k },
      [.cached r.2.2])
  | .load k => do
    let h ← q.held[k]?
    let entries ← q.list
    return ({ q with list := some (entries ++ [h]), held := q.held.eraseIdx k }, [])
  | .pop => do
    let entries ← q.list
    match entries with
    | [] => return (q, [.popped none])
    | h :: entries =>
      return ({ q with list := some entries, held := q.held ++ [h] }, [.popped (some h)])
  | .putBack k => do
    let h ← q.held[k]?
    if (q.entries.length : ℤ) < capacity.1 then
      let entries ← q.list
      return ({ q with list := some (h :: entries), held := q.held.eraseIdx k }, [.putBack true])
    else return (q, [.putBack false])
  | .free k => do
    let _ ← q.held[k]?
    return ({ q with held := q.held.eraseIdx k }, [])
  | .count => some (q, [.count q.entries.length])

/-- The same access, wherever memory is. -/
def Act.forget {α : Type} : Act α → Act Unit
  | .initList => .initList
  | .create h _ => .create h ()
  | .canMessageEnter cachePriority => .canMessageEnter cachePriority
  | .cache k => .cache k
  | .load k => .load k
  | .pop => .pop
  | .putBack k => .putBack k
  | .free k => .free k
  | .count => .count

/-! ## Ownership -/

/-- A node, its header's place, and the header. -/
structure Cell (A P : Type) where
  node : A
  place : P
  header : CacheFileHeader

/-- The heap consists of the cells. -/
structure Owned (s : Memory A P) (cs : List (Cell A P)) : Prop where
  nodes : (cs.map Cell.node).Nodup
  places : (cs.map Cell.place).Nodup
  val : ∀ c ∈ cs, valAt s.heap c.node = some (some c.place)
  header : ∀ c ∈ cs, s.mem.lookup c.place = some c.header
  allNodes : ∀ a, (s.heap.lookup a).isSome → a ∈ cs.map Cell.node
  allPlaces : ∀ p, (s.mem.lookup p).isSome → p ∈ cs.map Cell.place
  free : s.list.free = some freeListVal

variable {s s' : Memory A P} {cs cs' es hs ls : List (Cell A P)} {c : Cell A P} {zs : List A}
  {d : Directory}

theorem Owned.of_perm (hperm : cs.Perm cs') (h : Owned s cs) : Owned s cs' where
  nodes := (hperm.map Cell.node).nodup_iff.mp h.nodes
  places := (hperm.map Cell.place).nodup_iff.mp h.places
  val := fun c hc => h.val c (hperm.mem_iff.mpr hc)
  header := fun c hc => h.header c (hperm.mem_iff.mpr hc)
  allNodes := fun a ha => (hperm.map Cell.node).mem_iff.mp (h.allNodes a ha)
  allPlaces := fun p hp => (hperm.map Cell.place).mem_iff.mp (h.allPlaces p hp)
  free := h.free

/-- Pointers between nodes do not matter. -/
theorem Owned.of_frame (hframe : Frame zs s s') (h : Owned s cs) : Owned s' cs where
  nodes := h.nodes
  places := h.places
  val := fun c hc => (hframe.heap.val c.node).trans (h.val c hc)
  header := by
    rw [hframe.mem]
    exact h.header
  allNodes := by
    intro a ha
    rw [hframe.heap.isSome] at ha
    exact h.allNodes a ha
  allPlaces := by
    rw [hframe.mem]
    exact h.allPlaces
  free := hframe.free.trans h.free

theorem Owned.allocated (h : Owned s cs) (hc : c ∈ cs) : (s.heap.lookup c.node).isSome := by
  have hval := congrArg Option.isSome (h.val c hc)
  rwa [valAt, Option.isSome_map] at hval

theorem Owned.node_ne (h : Owned s (c :: cs)) : ∀ b ∈ cs, b.node ≠ c.node := by
  have hnodup := h.nodes
  rw [List.map_cons, List.nodup_cons] at hnodup
  intro b hb heq
  exact hnodup.1 (heq ▸ List.mem_map_of_mem hb)

theorem Owned.place_ne (h : Owned s (c :: cs)) : ∀ b ∈ cs, b.place ≠ c.place := by
  have hnodup := h.places
  rw [List.map_cons, List.nodup_cons] at hnodup
  intro b hb heq
  exact hnodup.1 (heq ▸ List.mem_map_of_mem hb)

theorem Owned.listNodeValue (h : Owned s cs) (hc : c ∈ cs) :
    listNodeValue s c.node = some (some c.header) := by
  simp [QueueMemory.listNodeValue, h.val c hc, h.header c hc]

/-- The header of a cell can be freed. -/
theorem Owned.freeListVal (h : Owned s cs) (hc : c ∈ cs) :
    freeListVal s.mem (some c.place) = some (s.mem.erase c.place) := by
  rw [QueueMemory.freeListVal, if_pos]
  rw [h.header c hc]
  rfl

/-- A cell is allocated. -/
theorem Owned.create (h : Owned s cs) {a : A} {p : P} (e : CacheFileHeader)
    (ha : s.heap.lookup a = none) (hp : s.mem.lookup p = none) :
    Owned { s with heap := listNodeNew s.heap a (some p), mem := s.mem.insert p e }
      (⟨a, p, e⟩ :: cs) := by
  have hnode : ∀ b ∈ cs, b.node ≠ a := by
    rintro b hb rfl
    have hsome := h.allocated hb
    rw [ha] at hsome
    cases hsome
  have hplace : ∀ b ∈ cs, b.place ≠ p := by
    rintro b hb rfl
    have hsome := h.header b hb
    rw [hp] at hsome
    cases hsome
  -- the new cell has addresses of its own, and the others are where they were
  refine ⟨?_, ?_, ?_, ?_, ?_, ?_, h.free⟩
  · rw [List.map_cons, List.nodup_cons]
    refine ⟨?_, h.nodes⟩
    rw [List.mem_map]
    rintro ⟨b, hb, heq⟩
    exact hnode b hb heq
  · rw [List.map_cons, List.nodup_cons]
    refine ⟨?_, h.places⟩
    rw [List.mem_map]
    rintro ⟨b, hb, heq⟩
    exact hplace b hb heq
  · rw [List.forall_mem_cons]
    refine ⟨by simp [valAt, listNodeNew], fun b hb => ?_⟩
    show valAt (s.heap.insert a _) b.node = _
    rw [valAt, AList.lookup_insert_ne (hnode b hb)]
    exact h.val b hb
  · rw [List.forall_mem_cons]
    refine ⟨AList.lookup_insert s.mem, fun b hb => ?_⟩
    show (s.mem.insert p e).lookup b.place = _
    rw [AList.lookup_insert_ne (hplace b hb)]
    exact h.header b hb
  · intro b hb
    by_cases heq : b = a
    · subst heq
      exact List.mem_cons_self
    · refine List.mem_cons_of_mem _ (h.allNodes b ?_)
      have hlookup : (s.heap.insert a ⟨none, none, some p⟩).lookup b = s.heap.lookup b :=
        AList.lookup_insert_ne heq
      exact hlookup ▸ hb
  · intro b hb
    by_cases heq : b = p
    · subst heq
      exact List.mem_cons_self
    · refine List.mem_cons_of_mem _ (h.allPlaces b ?_)
      have hlookup : (s.mem.insert p e).lookup b = s.mem.lookup b := AList.lookup_insert_ne heq
      exact hlookup ▸ hb

/-- A cell has been freed: its node is gone, its header is erased, the values of the
other nodes are as before. -/
theorem Owned.of_removed (h : Owned s (c :: cs)) (hgone : s'.heap.lookup c.node = none)
    (hval : ∀ b, b ≠ c.node → valAt s'.heap b = valAt s.heap b)
    (hmem : s'.mem = s.mem.erase c.place) (hfree : s'.list.free = s.list.free) : Owned s' cs where
  nodes := (List.nodup_cons.mp h.nodes).2
  places := (List.nodup_cons.mp h.places).2
  val := by
    intro b hb
    rw [hval b.node (h.node_ne b hb)]
    exact h.val b (List.mem_cons_of_mem _ hb)
  header := by
    intro b hb
    rw [hmem, AList.lookup_erase_ne (h.place_ne b hb)]
    exact h.header b (List.mem_cons_of_mem _ hb)
  allNodes := by
    intro b hb
    have hne : b ≠ c.node := by
      rintro rfl
      rw [hgone] at hb
      cases hb
    have hsome := congrArg Option.isSome (hval b hne)
    rw [valAt, valAt, Option.isSome_map, Option.isSome_map] at hsome
    rw [hsome] at hb
    exact (List.mem_cons.mp (h.allNodes b hb)).resolve_left hne
  allPlaces := by
    intro p hp
    rw [hmem] at hp
    have hne : p ≠ c.place := by
      rintro rfl
      rw [AList.lookup_erase] at hp
      cases hp
    rw [AList.lookup_erase_ne hne] at hp
    exact (List.mem_cons.mp (h.allPlaces p hp)).resolve_left hne
  free := hfree.trans h.free

/-! ## The loops -/

/-- The queue is the list of the cells `es`, and there are the cells `hs` besides. -/
structure Queued (s : Memory A P) (es hs : List (Cell A P)) : Prop where
  represents : Represents s (es.map Cell.node)
  owned : Owned s (es ++ hs)

theorem Queued.len (h : Queued s es hs) : s.list.len = es.length := by
  rw [h.represents.len, List.length_map]

theorem Queued.path (h : Queued s es hs) :
    Path s.heap .forward s.list.head (es.map Cell.node) :=
  h.represents.head ▸ h.represents.chain.forward

/-- The search for a value computes `find?` on the cells. -/
theorem Queued.findNode_eq (h : Queued s es hs) (test : CacheFileHeader → Bool) :
    findNode s (valueTest s test) = some ((es.find? fun c => test c.header).map Cell.node) := by
  have hhit : ∀ c ∈ es, valueTest s test c.node = some (test c.header) := by
    intro c hc
    simp [valueTest, h.owned.listNodeValue (List.mem_append_left hs hc)]
  -- the test reads a node's header, which every node of the list has
  have hfound : ∀ a ∈ es.map Cell.node,
      valueTest s test a = some ((valueTest s test a).getD false) := by
    intro a ha
    rcases List.mem_map.mp ha with ⟨c, hc, rfl⟩
    simp [hhit c hc]
  rw [findNode_spec h.represents hfound, List.find?_map]
  congr 2
  apply List.find?_congr
  intro c hc
  simp [hhit c hc]

theorem Queued.canMessageEnter_eq (h : Queued s es hs) (capacity cachePriority : CInt) :
    canMessageEnterOffineQueue capacity s cachePriority =
      some (MqttMsgHub.canMessageEnterOffineQueue capacity (es.map Cell.header) cachePriority) := by
  rw [canMessageEnterOffineQueue, MqttMsgHub.canMessageEnterOffineQueue, h.len, List.length_map]
  split
  · rfl
  · rw [h.findNode_eq, Option.map_some, Option.isSome_map]
    congr 1
    rw [Bool.eq_iff_iff, List.find?_isSome]
    simp

/-- One step of the search for the lowest priority. -/
def lower (lowest : CInt) (h : CacheFileHeader) : CInt :=
  if h.cachePriority.1 < lowest.1 then h.cachePriority else lowest

theorem lowestLoop_eq (h : Owned s cs) {p : Option A} {dir : Direction}
    (hpath : Path s.heap dir p (es.map Cell.node)) (hsub : es ⊆ cs) (lowest : CInt) :
    ∀ k, es.length < k →
      lowestLoop s k ⟨p, dir⟩ lowest = some ((es.map Cell.header).foldl lower lowest) := by
  induction es generalizing p lowest with
  | nil =>
    intro k hk
    obtain rfl : p = none := hpath
    cases k with
    | zero => cases hk
    | succ k => rfl
  | cons c es ih =>
    intro k hk
    rcases hpath with ⟨rfl, n, hn, hrest⟩
    cases k with
    | zero => cases hk
    | succ k =>
      have hvalue := h.listNodeValue (hsub List.mem_cons_self)
      have hloop := ih hrest (fun b hb => hsub (List.mem_cons_of_mem _ hb))
        (lower lowest c.header) k (Nat.lt_of_succ_lt_succ hk)
      simp only [lowestLoop, listIteratorNext_some hn, Option.bind_eq_bind, Option.bind_some, hvalue]
      exact hloop

theorem Queued.lowest_eq (h : Queued s es hs) :
    lowestLoop s (s.heap.keys.length + 1) (listIteratorNew s.list .forward) INT_MAX =
      some (lowestPriority (es.map Cell.header)) := by
  apply lowestLoop_eq h.owned h.path (List.subset_append_left es hs)
  -- the list is not longer than the heap has nodes
  have hle := h.path.length_le h.represents.nodup
  rw [List.length_map] at hle
  exact Nat.lt_succ_of_le hle

/-- `list_remove` frees the cell. -/
theorem Queued.listRemove {pre post : List (Cell A P)} (h : Queued s (pre ++ c :: post) hs) :
    ∃ s', listRemove s c.node = some s' ∧ Queued s' (pre ++ post) hs := by
  have hmem : c ∈ pre ++ c :: post ++ hs := by simp
  have hfree : freeVal s.list s.mem (some c.place) = some (s.mem.erase c.place) := by
    rw [freeVal, h.owned.free]
    exact h.owned.freeListVal hmem
  have hrep := h.represents
  rw [List.map_append, List.map_cons] at hrep
  rcases listRemove_spec hrep (h.owned.val c hmem) hfree with ⟨s', hremove, h', hmem', hremoved⟩
  have hperm : (pre ++ c :: post ++ hs).Perm (c :: (pre ++ post ++ hs)) := by
    rw [List.append_assoc, List.append_assoc, List.cons_append]
    exact List.perm_middle
  refine ⟨s', hremove, ?_, ?_⟩
  · rw [List.map_append]
    exact h'
  · exact (h.owned.of_perm hperm).of_removed hremoved.gone hremoved.val hmem' hremoved.free

theorem Queued.removeOne (h : Queued s es hs) (d : Directory) :
    ∃ s' es', removeOneLowestPriorityMessage s d =
        some (s', (MqttMsgHub.removeOneLowestPriorityMessage (es.map Cell.header) d).2) ∧
      es'.map Cell.header = (MqttMsgHub.removeOneLowestPriorityMessage (es.map Cell.header) d).1 ∧
      Queued s' es' hs := by
  have hlowest := h.lowest_eq
  simp only [removeOneLowestPriorityMessage, hlowest, Option.bind_eq_bind, Option.bind_some,
    MqttMsgHub.removeOneLowestPriorityMessage]
  generalize lowestPriority (es.map Cell.header) = lowest
  have hfound := h.findNode_eq fun e => e.cachePriority = lowest
  have hsearch : ((es.map Cell.header).find? fun e => e.cachePriority = lowest) =
      (es.find? fun c => c.header.cachePriority = lowest).map Cell.header := List.find?_map
  simp only [hfound, Option.bind_some, hsearch]
  cases hfind : es.find? fun c => c.header.cachePriority = lowest with
  | none => exact ⟨s, es, rfl, rfl, h⟩
  | some c =>
    -- the first entry of the lowest priority is the one that goes, in both lists
    rcases List.find?_eq_some_iff_append.mp hfind with ⟨hc, pre, post, heq, hnone⟩
    have hsplit : Queued s (pre ++ c :: post) hs := heq ▸ h
    rcases hsplit.listRemove with ⟨s', hremove, h'⟩
    have hvalue := h.owned.listNodeValue (c := c) (by simp [heq])
    refine ⟨s', pre ++ post, ?_, ?_, h'⟩
    · simp only [Option.map_some, hvalue, Option.bind_some, hremove]
      rfl
    · have hbefore : ∀ b ∈ pre,
          ¬ ((fun e : CacheFileHeader => decide (e.cachePriority = lowest)) ∘ Cell.header) b := by
        intro b hb
        simpa using hnone b hb
      show (pre ++ post).map Cell.header = (es.map Cell.header).eraseP _
      rw [List.eraseP_map, heq, List.eraseP_append_right _ hbefore, List.eraseP_cons]
      simp only [Function.comp_apply, hc, cond_true]

/-- The eviction loop: neither comes to its end, or both do. -/
theorem Queued.makeRoom (h : Queued s es hs) (capacity : CInt) (fuel : ℕ) (d : Directory) :
    Agrees (fun r r' => r.2 = r'.2 ∧
        ∃ es', es'.map Cell.header = r'.1 ∧ Queued r.1 es' hs)
      (makeRoom capacity fuel s d) (MqttMsgHub.makeRoom capacity fuel (es.map Cell.header) d) := by
  induction fuel generalizing s es d with
  | zero =>
    rw [QueueMemory.makeRoom, MqttMsgHub.makeRoom, h.len, List.length_map]
    split
    · exact .undefined
    · exact .defined ⟨rfl, es, rfl, h⟩
  | succ fuel ih =>
    rw [QueueMemory.makeRoom, MqttMsgHub.makeRoom, h.len, List.length_map]
    split
    · -- both evict the same entry, and go on with one less
      rcases h.removeOne d with ⟨s', es', hremove, hes, h'⟩
      have hrest := ih h' (MqttMsgHub.removeOneLowestPriorityMessage (es.map Cell.header) d).2.1
      rw [hes] at hrest
      rw [hremove, Option.bind_eq_bind, Option.bind_some, Option.map_eq_bind]
      refine hrest.bind ?_
      rintro ⟨s₁, d₁, removed₁⟩ ⟨q₂, d₂, removed₂⟩ ⟨heq, hqueued⟩
      cases heq
      exact .defined ⟨rfl, hqueued⟩
    · exact .defined ⟨rfl, es, rfl, h⟩

/-! ## Steps -/

/-- The memory of a state, with a new list where there is none. -/
def State.linked (s : State A P) : Memory A P := ⟨s.heap, s.headers, s.gList.getD initList⟩

/-- The cells that are queued, in hand and lost. -/
structure HoldsCells (s : State A P) (q : Queue) (es hs ls : List (Cell A P)) : Prop where
  queued : Queued s.linked es (hs ++ ls)
  held : s.held = hs.map Cell.node
  queue : q = ⟨s.gList.map fun _ => es.map Cell.header, s.dir, hs.map Cell.header,
    ls.map Cell.header⟩
  unlisted : s.lists = 0 → s.gList = none
  kept : s.lists ≤ 1 → ls = []

/-- The memory holds the queue, and nothing besides it, the nodes in hand and those of lists
that have been replaced. -/
def Holds (s : State A P) (q : Queue) : Prop := ∃ es hs ls, HoldsCells s q es hs ls

omit [DecidableEq A] [DecidableEq P] in
/-- The `k`-th node in hand and its header, if there are so many. -/
theorem agrees_held (hs : List (Cell A P)) (k : ℕ) :
    Agrees (fun a h => ∃ c, hs[k]? = some c ∧ c.node = a ∧ c.header = h)
      (hs.map Cell.node)[k]? (hs.map Cell.header)[k]? := by
  rw [List.getElem?_map, List.getElem?_map]
  cases hc : hs[k]? with
  | none => exact .undefined
  | some c => exact .defined ⟨c, rfl, rfl, rfl⟩

omit [DecidableEq A] [DecidableEq P] in
/-- The `k`-th node in hand is taken out. -/
theorem perm_taken {k : ℕ} (hc : hs[k]? = some c) (ls : List (Cell A P)) :
    (hs ++ ls).Perm (c :: (hs.eraseIdx k ++ ls)) := by
  rcases List.getElem?_eq_some_iff.mp hc with ⟨hk, rfl⟩
  exact (List.getElem_cons_eraseIdx_perm hk).symm.append_right ls

theorem Queued.of_perm (hperm : hs.Perm ls) (h : Queued s es hs) : Queued s es ls :=
  ⟨h.represents, h.owned.of_perm (hperm.append_left es)⟩

/-- A node in hand is not in the list. -/
theorem Queued.held (h : Queued s es (hs ++ ls)) {k : ℕ} (hc : hs[k]? = some c) :
    (s.heap.lookup c.node).isSome ∧ c.node ∉ es.map Cell.node := by
  have hmem : c ∈ hs ++ ls := List.mem_append_left ls (List.mem_of_getElem? hc)
  refine ⟨h.owned.allocated (List.mem_append_right _ hmem), ?_⟩
  intro hlisted
  have hnodup := h.owned.nodes
  rw [List.map_append, List.nodup_append] at hnodup
  exact hnodup.2.2 c.node hlisted c.node (List.mem_map_of_mem hmem) rfl

theorem Queued.rpush {k : ℕ} (h : Queued s es (hs ++ ls)) (hc : hs[k]? = some c) :
    ∃ s', listRpush s c.node = some s' ∧ Queued s' (es ++ [c]) (hs.eraseIdx k ++ ls) := by
  have hheld := h.held hc
  rcases listRpush_spec h.represents hheld.1 hheld.2 with ⟨s', hpush, h', hframe⟩
  refine ⟨s', hpush, ?_, ?_⟩
  · rw [List.map_append]
    exact h'
  · rw [List.append_assoc]
    exact (h.owned.of_frame hframe).of_perm ((perm_taken hc ls).append_left es)

theorem Queued.lpush {k : ℕ} (h : Queued s es (hs ++ ls)) (hc : hs[k]? = some c) :
    ∃ s', listLpush s c.node = some s' ∧ Queued s' (c :: es) (hs.eraseIdx k ++ ls) := by
  have hheld := h.held hc
  rcases listLpush_spec h.represents hheld.1 hheld.2 with ⟨s', hpush, h', hframe⟩
  refine ⟨s', hpush, h', ?_⟩
  exact (h.owned.of_frame hframe).of_perm
    (((perm_taken hc ls).append_left es).trans List.perm_middle)

theorem Queued.lpop (h : Queued s (c :: es) (hs ++ ls)) :
    ∃ s', listLpop s = some (s', some c.node) ∧ Queued s' es (hs ++ [c] ++ ls) := by
  rcases listLpop_spec h.represents with ⟨s', hpop, h', hframe, -⟩
  refine ⟨s', hpop, h', (h.owned.of_frame hframe).of_perm ?_⟩
  rw [List.append_assoc, List.cons_append, ← List.append_assoc, List.singleton_append,
    ← List.append_assoc]
  exact List.perm_middle.symm

/-- `LIST_NODE_FREE`. -/
theorem Queued.free {k : ℕ} (h : Queued s es (hs ++ ls)) (hc : hs[k]? = some c) :
    Queued ⟨s.heap.erase c.node, s.mem.erase c.place, s.list⟩ es (hs.eraseIdx k ++ ls) := by
  have hheld := h.held hc
  have howned : Owned s (c :: (es ++ (hs.eraseIdx k ++ ls))) :=
    h.owned.of_perm (((perm_taken hc ls).append_left es).trans List.perm_middle)
  refine ⟨h.represents.congr_heap ?_, howned.of_removed (AList.lookup_erase _ _) ?_ rfl rfl⟩
  · intro a ha
    apply AList.lookup_erase_ne
    rintro rfl
    exact hheld.2 ha
  · intro b hb
    show valAt (s.heap.erase c.node) b = _
    rw [valAt, AList.lookup_erase_ne hb, valAt]

/-- The header and the node of an entry. -/
theorem Queued.create (h : Queued s es hs) {a : A} {p : P} (e : CacheFileHeader)
    (ha : s.heap.lookup a = none) (hp : s.mem.lookup p = none) :
    Queued { s with heap := listNodeNew s.heap a (some p), mem := s.mem.insert p e } es
      (⟨a, p, e⟩ :: hs) := by
  refine ⟨h.represents.congr_heap ?_, (h.owned.create e ha hp).of_perm List.perm_middle.symm⟩
  -- a fresh node is none of the list's
  intro b hb
  apply AList.lookup_insert_ne
  rintro rfl
  have hsome := h.represents.chain.allocated hb
  rw [ha] at hsome
  cases hsome

/-- `init_list`: what was queued is still on the heap, but no list leads to it. -/
theorem Queued.initList (h : Queued s es hs) : Queued ⟨s.heap, s.mem, initList⟩ [] (hs ++ es) := by
  have hlisted := h.owned.of_perm List.perm_append_comm
  exact ⟨represents_start, hlisted.nodes, hlisted.places, hlisted.val, hlisted.header,
    hlisted.allNodes, hlisted.allPlaces, rfl⟩

section Step

variable {capacity : CInt} {s : State A P} {q : Queue} {es hs ls : List (Cell A P)}
  {memory : Memory A P}

omit [DecidableEq A] [DecidableEq P] in
theorem State.put_memory (h : s.memory = some memory) : s.put memory = s := by
  rcases Option.map_eq_some_iff.mp h with ⟨list, hlist, rfl⟩
  rw [State.put, ← hlist]

omit [DecidableEq A] in
theorem State.memory_eq_some (h : s.memory = some memory) :
    s.gList = some memory.list ∧ s.linked = memory := by
  rcases Option.map_eq_some_iff.mp h with ⟨list, hlist, rfl⟩
  exact ⟨hlist, by simp [State.linked, hlist]⟩

/-- An access to the list: it is NULL for both, or both have one. -/
theorem HoldsCells.agrees_list (h : HoldsCells s q es hs ls) :
    Agrees (fun memory entries => s.memory = some memory ∧ entries = es.map Cell.header ∧
      Queued memory es (hs ++ ls)) s.memory q.list := by
  rw [h.queue]
  cases hlist : s.gList with
  | none =>
    rw [State.memory, hlist]
    exact .undefined
  | some list =>
    have hmemory : s.memory = some ⟨s.heap, s.headers, list⟩ := by rw [State.memory, hlist]; rfl
    have hqueued := h.queued
    rw [(State.memory_eq_some hmemory).2] at hqueued
    rw [hmemory]
    exact .defined ⟨rfl, rfl, hqueued⟩

/-- The list, the directory and the nodes in hand have changed. -/
theorem HoldsCells.put {memory' : Memory A P} {es' hs' : List (Cell A P)}
    (h : HoldsCells s q es hs ls) (hmemory : s.memory = some memory)
    (hqueued : Queued memory' es' (hs' ++ ls)) (d : Directory) :
    Holds { s.put memory' with dir := d, held := hs'.map Cell.node }
      ⟨some (es'.map Cell.header), d, hs'.map Cell.header, q.lost⟩ := by
  refine ⟨es', hs', ls, hqueued, rfl, by rw [h.queue]; rfl, ?_, h.kept⟩
  intro hlists
  have hnull := h.unlisted hlists
  rw [(State.memory_eq_some hmemory).1] at hnull
  cases hnull

theorem HoldsCells.entries_eq (h : HoldsCells s q es hs ls) : q.entries = es.map Cell.header := by
  rw [h.queue]
  cases hlist : s.gList with
  | some list => rfl
  | none =>
    -- a list that would be new is empty
    have hlen := h.queued.len
    rw [State.linked, hlist] at hlen
    rw [List.length_eq_zero_iff.mp hlen.symm]
    rfl

theorem HoldsCells.len_eq (h : HoldsCells s q es hs ls) : s.len = q.entries.length := by
  have hlen := h.queued.len
  rw [h.entries_eq, List.length_map, ← hlen, State.len, State.linked]
  cases s.gList <;> rfl

theorem agrees_canMessageEnter (hholds : Holds s q) (cachePriority : CInt) :
    Agrees (SameEvents Holds) (step capacity s (.canMessageEnter cachePriority))
      (queueStep capacity q (.canMessageEnter cachePriority)) := by
  rcases hholds with ⟨es, hs, ls, h⟩
  have hq := h.queue
  cases hlist : s.gList with
  | none =>
    have hnull : q.list = none := by rw [hq, hlist]; rfl
    simp only [step, queueStep, State.memory, hlist, hnull, Option.map_none]
    split
    · exact .defined ⟨⟨es, hs, ls, h⟩, rfl⟩
    · exact .undefined
  | some list =>
    have hmemory : s.memory = some ⟨s.heap, s.headers, list⟩ := by rw [State.memory, hlist]; rfl
    have hentries : q.list = some (es.map Cell.header) := by rw [hq, hlist]; rfl
    have hqueued := h.queued
    rw [(State.memory_eq_some hmemory).2] at hqueued
    simp only [step, queueStep, hmemory, hentries, hqueued.canMessageEnter_eq, Option.map_some]
    exact .defined ⟨⟨es, hs, ls, h⟩, rfl⟩

theorem agrees_cache (hholds : Holds s q) (k : ℕ) :
    Agrees (SameEvents Holds) (step capacity s (.cache k)) (queueStep capacity q (.cache k)) := by
  rcases hholds with ⟨es, hs, ls, h⟩
  have hq := h.queue
  have hdir : q.dir = s.dir := by rw [hq]
  have hheld : q.held = hs.map Cell.header := by rw [hq]
  rw [step, queueStep, h.held, hheld, hdir]
  apply (agrees_held hs k).bind
  rintro node e ⟨c, hc, rfl, rfl⟩
  apply h.agrees_list.bind
  rintro memory entries ⟨hmemory, rfl, hqueued⟩
  rw [hqueued.len, List.length_map]
  -- the node in hand stays in hand while the loop frees others
  apply (hqueued.makeRoom capacity es.length s.dir).bind
  rintro ⟨memory₁, r⟩ ⟨entries, r'⟩ ⟨heq, es', hes, h'⟩
  cases heq
  cases hes
  rcases h'.rpush hc with ⟨memory₂, hpush, hqueued₂⟩
  rw [hpush]
  refine .defined ⟨?_, rfl⟩
  simpa [List.eraseIdx_map] using h.put hmemory hqueued₂ r.1

theorem agrees_load (hholds : Holds s q) (k : ℕ) :
    Agrees (SameEvents Holds) (step capacity s (.load k)) (queueStep capacity q (.load k)) := by
  rcases hholds with ⟨es, hs, ls, h⟩
  have hq := h.queue
  have hdir : q.dir = s.dir := by rw [hq]
  have hheld : q.held = hs.map Cell.header := by rw [hq]
  rw [step, queueStep, h.held, hheld]
  apply (agrees_held hs k).bind
  rintro node e ⟨c, hc, rfl, rfl⟩
  apply h.agrees_list.bind
  rintro memory entries ⟨hmemory, rfl, hqueued⟩
  rcases hqueued.rpush hc with ⟨memory₁, hpush, hqueued₁⟩
  rw [hpush]
  refine .defined ⟨?_, rfl⟩
  simpa [List.eraseIdx_map, hdir] using h.put hmemory hqueued₁ s.dir

theorem agrees_pop (hholds : Holds s q) :
    Agrees (SameEvents Holds) (step capacity s .pop) (queueStep capacity q .pop) := by
  rcases hholds with ⟨es, hs, ls, h⟩
  have hq := h.queue
  have hdir : q.dir = s.dir := by rw [hq]
  have hheld : q.held = hs.map Cell.header := by rw [hq]
  rw [step, queueStep]
  apply h.agrees_list.bind
  rintro memory entries ⟨hmemory, rfl, hqueued⟩
  cases es with
  | nil =>
    have hpop : listLpop memory = some (memory, none) := if_pos hqueued.len
    rw [hpop]
    refine .defined ⟨?_, rfl⟩
    rw [State.put_memory hmemory]
    exact ⟨[], hs, ls, h⟩
  | cons c es =>
    rcases hqueued.lpop with ⟨memory₁, hpop, hqueued₁⟩
    -- the header of the popped node is still there
    have hvalue := hqueued₁.owned.listNodeValue (c := c) (by simp)
    rw [hpop]
    simp only [Option.bind_eq_bind, Option.bind_some, hvalue]
    refine .defined ⟨?_, rfl⟩
    simpa [h.held, hheld, hdir] using h.put hmemory hqueued₁ s.dir

theorem agrees_putBack (hholds : Holds s q) (k : ℕ) :
    Agrees (SameEvents Holds) (step capacity s (.putBack k)) (queueStep capacity q (.putBack k)) := by
  rcases hholds with ⟨es, hs, ls, h⟩
  have hq := h.queue
  have hdir : q.dir = s.dir := by rw [hq]
  have hheld : q.held = hs.map Cell.header := by rw [hq]
  rw [step, queueStep, h.len_eq, h.held, hheld]
  apply (agrees_held hs k).bind
  rintro node e ⟨c, hc, rfl, rfl⟩
  split
  · apply h.agrees_list.bind
    rintro memory entries ⟨hmemory, rfl, hqueued⟩
    rcases hqueued.lpush hc with ⟨memory₁, hpush, hqueued₁⟩
    rw [hpush]
    refine .defined ⟨?_, rfl⟩
    simpa [List.eraseIdx_map, hdir] using h.put hmemory hqueued₁ s.dir
  · exact .defined ⟨⟨es, hs, ls, h⟩, rfl⟩

theorem agrees_free (hholds : Holds s q) (k : ℕ) :
    Agrees (SameEvents Holds) (step capacity s (.free k)) (queueStep capacity q (.free k)) := by
  rcases hholds with ⟨es, hs, ls, h⟩
  have hq := h.queue
  have hheld : q.held = hs.map Cell.header := by rw [hq]
  rw [step, queueStep, h.held, hheld]
  apply (agrees_held hs k).bind
  rintro node e ⟨c, hc, rfl, rfl⟩
  have howned := h.queued.owned
  have hmem : c ∈ es ++ (hs ++ ls) :=
    List.mem_append_right _ (List.mem_append_left _ (List.mem_of_getElem? hc))
  -- the header is freed first, then its node
  have hval : valAt s.heap c.node = some (some c.place) := howned.val c hmem
  have hfree : freeListVal s.headers (some c.place) = some (s.headers.erase c.place) :=
    howned.freeListVal hmem
  have hrelease : release s.heap c.node = some (s.heap.erase c.node) :=
    if_pos (howned.allocated hmem)
  simp only [hval, hfree, hrelease, Option.bind_eq_bind, Option.bind_some]
  refine .defined ⟨⟨es, hs.eraseIdx k, ls, h.queued.free hc, List.eraseIdx_map .., ?_, h.unlisted,
    h.kept⟩, rfl⟩
  rw [hq]
  simp [List.eraseIdx_map]

theorem step_agrees {a : Act (A × P)} (hholds : Holds s q) (hfresh : Fresh s a) :
    Agrees (SameEvents Holds) (step capacity s a) (queueStep capacity q a.forget) := by
  cases a with
  | initList =>
    rcases hholds with ⟨es, hs, ls, h⟩
    refine .defined ⟨⟨[], hs, ls ++ es, ?_, h.held, ?_, ?_, ?_⟩, rfl⟩
    · rw [← List.append_assoc]
      exact h.queued.initList
    · show (⟨some [], q.dir, q.held, q.lost ++ q.entries⟩ : Queue) = _
      rw [h.entries_eq, h.queue, List.map_append]
      rfl
    · intro hlists
      cases hlists
    · -- before the first list nothing is queued
      intro hlists
      have hfirst : s.lists = 0 := Nat.le_zero.mp (Nat.le_of_succ_le_succ hlists)
      have hlen := h.len_eq
      rw [State.len, h.unlisted hfirst, h.entries_eq, List.length_map] at hlen
      rw [h.kept (hfirst.le.trans (Nat.zero_le 1)), List.length_eq_zero_iff.mp hlen.symm]
      rfl
  | create e place =>
    rcases hholds with ⟨es, hs, ls, h⟩
    rcases place with ⟨node, p⟩
    refine .defined ⟨⟨es, hs ++ [⟨node, p, e⟩], ls, ?_, ?_, ?_, h.unlisted, h.kept⟩, rfl⟩
    · apply (h.queued.create e hfresh.1 hfresh.2).of_perm
      rw [List.append_assoc]
      exact List.perm_middle.symm
    · show s.held ++ [node] = _
      rw [h.held, List.map_append]
      rfl
    · rw [h.queue]
      simp
  | canMessageEnter cachePriority => exact agrees_canMessageEnter hholds cachePriority
  | cache k => exact agrees_cache hholds k
  | load k => exact agrees_load hholds k
  | pop => exact agrees_pop hholds
  | putBack k => exact agrees_putBack hholds k
  | free k => exact agrees_free hholds k
  | count =>
    rcases hholds with ⟨es, hs, ls, h⟩
    rw [step, h.len_eq]
    exact .defined ⟨⟨es, hs, ls, h⟩, rfl⟩

end Step

/-! ## Runs -/

/-- A list of the nodes that are allocated, without repetitions, has all of them. -/
theorem length_keys {β : Type} {γ : β → Type} [DecidableEq β] {m : AList γ} {xs : List β}
    (hnodup : xs.Nodup) (hmem : ∀ b, (m.lookup b).isSome ↔ b ∈ xs) : m.keys.length = xs.length := by
  apply List.Perm.length_eq
  rw [List.perm_ext_iff_of_nodup m.keys_nodup hnodup]
  intro b
  rw [← hmem, AList.lookup_isSome]
  exact AList.mem_keys.symm

/-- As many nodes and headers are on the heap as there are entries. -/
theorem Holds.keys {s : State A P} {q : Queue} (hholds : Holds s q) :
    s.heap.keys.length = q.entries.length + q.held.length + q.lost.length ∧
      s.headers.keys.length = q.entries.length + q.held.length + q.lost.length := by
  rcases hholds with ⟨es, hs, ls, h⟩
  have howned := h.queued.owned
  have hnode : ∀ a, (s.heap.lookup a).isSome ↔ a ∈ (es ++ (hs ++ ls)).map Cell.node := by
    intro a
    refine ⟨howned.allNodes a, fun ha => ?_⟩
    rcases List.mem_map.mp ha with ⟨c, hc, rfl⟩
    exact howned.allocated hc
  have hplace : ∀ p, (s.headers.lookup p).isSome ↔ p ∈ (es ++ (hs ++ ls)).map Cell.place := by
    intro p
    refine ⟨howned.allPlaces p, fun hp => ?_⟩
    rcases List.mem_map.mp hp with ⟨c, hc, rfl⟩
    have hheader : s.headers.lookup c.place = some c.header := howned.header c hc
    rw [hheader]
    rfl
  have hheld : q.held = hs.map Cell.header := by rw [h.queue]
  have hlost : q.lost = ls.map Cell.header := by rw [h.queue]
  rw [length_keys howned.nodes hnode, length_keys howned.places hplace, h.entries_eq, hheld, hlost]
  simp [Nat.add_assoc]

/-- A list is there for an access that uses one, and its node is one of the `n` nodes in
hand. -/
def Act.Ready {α : Type} (n : ℕ) (listed : Bool) : Act α → Prop
  | .cache k => k < n ∧ listed = true
  | .load k => k < n ∧ listed = true
  | .pop => listed = true
  | .putBack k => k < n ∧ listed = true
  | .free k => k < n
  | _ => True

/-- With a positive capacity an access that is ready comes to its end. -/
theorem queueStep_isSome {capacity : CInt} (hc : 1 ≤ capacity.1) {q : Queue} {a : Act Unit}
    (hready : a.Ready q.held.length q.list.isSome) : (queueStep capacity q a).isSome := by
  cases a with
  | canMessageEnter cachePriority =>
    have hpos : 0 < capacity.1 := hc
    rw [queueStep]
    split
    · rfl
    · rw [if_pos hpos]
      rfl
  | cache k =>
    rcases hready with ⟨hk, hlist⟩
    rcases Option.isSome_iff_exists.mp hlist with ⟨entries, hentries⟩
    rcases Option.isSome_iff_exists.mp (makeRoom_isSome hc (le_refl entries.length) q.dir) with
      ⟨r, hr⟩
    simp [queueStep, List.getElem?_eq_getElem hk, hentries, hr]
  | load k =>
    rcases hready with ⟨hk, hlist⟩
    rcases Option.isSome_iff_exists.mp hlist with ⟨entries, hentries⟩
    simp [queueStep, List.getElem?_eq_getElem hk, hentries]
  | pop =>
    rcases Option.isSome_iff_exists.mp hready with ⟨entries, hentries⟩
    rw [queueStep, hentries]
    cases entries <;> rfl
  | putBack k =>
    rcases hready with ⟨hk, hlist⟩
    rcases Option.isSome_iff_exists.mp hlist with ⟨entries, hentries⟩
    simp only [queueStep, List.getElem?_eq_getElem hk, hentries, Option.bind_eq_bind,
      Option.bind_some]
    split <;> rfl
  | free k =>
    have hk : k < q.held.length := hready
    simp [queueStep, List.getElem?_eq_getElem hk]
  | _ => rfl

theorem holds_start {d : Directory} : Holds (State.start d : State A P) (Queue.start d) := by
  have howned : Owned (State.start d : State A P).linked [] := by
    refine ⟨List.nodup_nil, List.nodup_nil, ?_, ?_, ?_, ?_, rfl⟩
    · intro c hc
      cases hc
    · intro c hc
      cases hc
    · intro a ha
      cases ha
    · intro p hp
      cases hp
  exact ⟨[], [], [], ⟨represents_start, howned⟩, rfl, rfl, fun _ => rfl, fun _ => rfl⟩

/-- Whatever accesses are made, in whatever order, to the queue in memory, the same accesses
to the queue as a list are answered in the same way. In every state reached the heap holds a
node and a header for each entry that is queued, in hand or lost, and nothing else; nothing
is lost unless `init_list` has replaced a list; and with a positive capacity no access for
which there is a list is undefined. -/
theorem queue_in_memory {capacity : CInt} {d : Directory} {as : List (Act (A × P))}
    {tr : List Answer} {s : State A P}
    (hrun : Exec.run (step capacity) Fresh (State.start d) as = some (s, tr)) :
    ∃ q, Exec.run (queueStep capacity) (fun _ _ => True) (Queue.start d) (as.map Act.forget) =
        some (q, tr) ∧ Holds s q ∧
      s.heap.keys.length = q.entries.length + q.held.length + q.lost.length ∧
      s.headers.keys.length = q.entries.length + q.held.length + q.lost.length ∧
      (s.lists ≤ 1 → q.lost = []) ∧
      (1 ≤ capacity.1 → ∀ a, Fresh s a → a.Ready s.held.length s.gList.isSome →
        (step capacity s a).isSome) := by
  have hstep : ∀ (s : State A P) q (a : Act (A × P)), Holds s q → Fresh s a →
      Agrees (SameEvents Holds) (step capacity s a) (queueStep capacity q a.forget) :=
    fun _ _ _ => step_agrees
  rcases run_refine hstep holds_start hrun with ⟨q, hrun', hholds⟩
  refine ⟨q, hrun', hholds, hholds.keys.1, hholds.keys.2, ?_, ?_⟩
  · rcases hholds with ⟨es, hs, ls, h⟩
    intro hlists
    rw [h.queue, h.kept hlists]
    rfl
  · intro hc a hfresh hready
    rw [(step_agrees hholds hfresh).isSome_iff]
    apply queueStep_isSome hc
    have hsame : q.held.length = s.held.length ∧ q.list.isSome = s.gList.isSome := by
      rcases hholds with ⟨es, hs, ls, h⟩
      rw [h.queue, h.held]
      simp
    rw [hsame.1, hsame.2]
    cases a <;> exact hready

/-- Three entries are cached in a queue with room for two: the second one, of lower
priority than the others, is evicted. -/
def evictSecond : List (Act (ℕ × ℕ)) :=
  [.initList, .create ⟨8, 1⟩ (10, 20), .cache 0, .create ⟨5, 2⟩ (11, 21), .cache 0,
    .create ⟨8, 3⟩ (12, 22), .canMessageEnter 8, .cache 0, .pop]

theorem evictSecond_executes :
    (Exec.run (step 2) Fresh (State.start ∅ : State ℕ ℕ) evictSecond).isSome := by decide

theorem queue_in_memory_evictSecond :
    ∃ (tr : List Answer) (s : State ℕ ℕ) (q : Queue),
      tr = [.cached [], .cached [], .canEnter true, .cached [⟨5, 2⟩], .popped (some ⟨8, 1⟩)] ∧
      s.heap.keys = [10, 12] ∧ s.headers.keys = [22, 20] ∧
      Exec.run (queueStep 2) (fun _ _ => True) (Queue.start ∅) (evictSecond.map Act.forget) =
        some (q, tr) ∧ Holds s q ∧
      s.heap.keys.length = q.entries.length + q.held.length + q.lost.length ∧
      s.headers.keys.length = q.entries.length + q.held.length + q.lost.length ∧
      (s.lists ≤ 1 → q.lost = []) ∧
      (1 ≤ (2 : CInt).1 → ∀ a, Fresh s a → a.Ready s.held.length s.gList.isSome →
        (step 2 s a).isSome) := by
  rcases queue_in_memory (Option.eq_some_of_isSome evictSecond_executes) with ⟨q, hq⟩
  exact ⟨_, _, q, rfl, rfl, rfl, hq⟩

/-! ## The sections of the hub -/

open Pool (Outcome)

variable {h : Hub} {q : List CacheFileHeader} {env : Env}

/-- The sections of the hub that change the queue are steps of it. -/
theorem hub_initList {call : EnqueueCall} :
    (enqueueOfflineMessage h call env .initAssign).map Outcome.shared =
      (queueStep h.capacity ⟨h.list, h.dir, [], []⟩ .initList).map fun r =>
        { h with list := r.1.list } := rfl

theorem hub_cache {call : EnqueueCall} (hlist : h.list = some q) :
    (enqueueOfflineMessage h call env .push).map Outcome.shared =
      (queueStep h.capacity ⟨h.list, h.dir, [call.header], []⟩ (.cache 0)).map fun r =>
        { h with list := r.1.list, dir := r.1.dir } := by
  simp only [enqueueOfflineMessage, queueStep, hlist, Option.bind_eq_bind, Option.bind_some,
    List.getElem?_cons_zero]
  cases MqttMsgHub.makeRoom h.capacity q.length q h.dir <;> rfl

theorem hub_pop {J : Text → Option Json} (hlist : h.list = some q) :
    (sendMessagesThreadFun J h env .pop).map Outcome.shared =
      (queueStep h.capacity ⟨h.list, h.dir, [], []⟩ .pop).map fun r =>
        { h with list := r.1.list } := by
  rcases h with ⟨capacity, list, dir, connected, isAsyncSending⟩
  cases hlist
  cases q <;> rfl

theorem hub_putBack {J : Text → Option Json} {e : CacheFileHeader} (hlist : h.list = some q) :
    (sendMessagesThreadFun J h env (.putBack e)).map Outcome.shared =
      (queueStep h.capacity ⟨h.list, h.dir, [e], []⟩ (.putBack 0)).map fun r =>
        { h with list := r.1.list } := by
  have hentries : (⟨h.list, h.dir, [e], []⟩ : Queue).entries = q := by
    rw [hlist]
    rfl
  rcases h with ⟨capacity, list, dir, connected, isAsyncSending⟩
  cases hlist
  by_cases hroom : (q.length : ℤ) < capacity.1
  · rw [sendMessagesThreadFun, queueStep, hentries]
    simp [hroom]
  · rw [sendMessagesThreadFun, queueStep, hentries]
    simp [hroom]

end MqttMsgHub.QueueMemory
