import MqttMsgHub.Lib.DLinks
import MqttMsgHub.Lib.Exec

/-! # The doubly linked list

`list.c`, `list_node.c` and `list_iterator.c`: nodes in a chain of `prev` and `next`
pointers, with pointers to the first and the last one and their number. The list
owns its nodes and, with a `free` function, their values; `lpop` and `rpop` give
a node back.

The operations are written pointer by pointer on a heap of nodes; what they are
for is said by `Op.effect`, on lists of nodes.

* `Represents` — forwards from `head` and backwards from `tail` the same nodes are met;
* `apply_spec` — an operation has its effect on them;
* `list_refines_sequence` — after any sequence of operations.
-/

namespace MqttMsgHub.LinkedList

open DLinks

variable {A V M : Type} [DecidableEq A]

/-! ## The list -/

/-- `list_t`. The `free` function works on the memory of the values. -/
structure ListT (A V M : Type) where
  head : Option A
  tail : Option A
  len : ℕ
  free : Option (M → V → Option M)
  matchVal : Option (V → V → Bool)

/-- The list, its nodes and the memory of the values. -/
structure State (A V M : Type) where
  heap : Heap A V
  mem : M
  list : ListT A V M

/-- `list_new`. -/
def listNew : ListT A V M := ⟨none, none, 0, none, none⟩

/-- `list_node_new`, in the memory that `malloc` has returned. -/
def listNodeNew (heap : Heap A V) (node : A) (val : V) : Heap A V :=
  heap.insert node ⟨none, none, val⟩

/-- A new list with its functions. -/
def start (heap : Heap A V) (mem : M) (free : Option (M → V → Option M))
    (matchVal : Option (V → V → Bool)) : State A V M :=
  ⟨heap, mem, { (listNew : ListT A V M) with free := free, matchVal := matchVal }⟩

/-! ## Iterators -/

/-- `list_iterator_t`. -/
structure ListIteratorT (A : Type) where
  next : Option A
  direction : Direction

/-- `list_iterator_new`. -/
def listIteratorNew (list : ListT A V M) (direction : Direction) : ListIteratorT A :=
  ⟨if direction = .forward then list.head else list.tail, direction⟩

/-- `list_iterator_next`. -/
def listIteratorNext (heap : Heap A V) (it : ListIteratorT A) :
    Option (ListIteratorT A × Option A) :=
  match it.next with
  | none => some (it, none)
  | some curr => (heap.lookup curr).map fun n => ({ it with next := n.towards it.direction }, some curr)

/-- `while ((node = list_iterator_next(it))) if (hit(node)) return node;`, for at most `n` nodes. -/
def findLoop (heap : Heap A V) (hit : A → Option Bool) : ℕ → ListIteratorT A → Option (Option A)
  | 0, _ => none
  | n + 1, it => do
    let (it, node) ← listIteratorNext heap it
    match node with
    | none => return none
    | some a =>
      let found ← hit a
      if found then return some a else findLoop heap hit n it

/-- The loop, from the head; a node more than there are ends it. -/
def findNode (s : State A V M) (hit : A → Option Bool) : Option (Option A) :=
  findLoop s.heap hit (s.heap.keys.length + 1) (listIteratorNew s.list .forward)

/-- `while (index--) node = list_iterator_next(it);`. -/
def stepLoop (heap : Heap A V) : ℕ → ListIteratorT A → Option A → Option (Option A)
  | 0, _, node => some node
  | index + 1, it, _ => do
    let (it, node) ← listIteratorNext heap it
    stepLoop heap index it node

/-! ## Operations -/

/-- `list_rpush`. -/
def listRpush (s : State A V M) (node : A) : Option (State A V M) :=
  if s.list.len ≠ 0 then do
    let heap ← setPrev s.heap (some node) s.list.tail
    let heap ← setNext heap (some node) none
    let heap ← setNext heap s.list.tail (some node)
    return ⟨heap, s.mem, { s.list with tail := some node, len := s.list.len + 1 }⟩
  else do
    let heap ← setNext s.heap (some node) none
    let heap ← setPrev heap (some node) none
    return ⟨heap, s.mem, { s.list with head := some node, tail := some node, len := s.list.len + 1 }⟩

/-- `list_lpush`. -/
def listLpush (s : State A V M) (node : A) : Option (State A V M) :=
  if s.list.len ≠ 0 then do
    let heap ← setNext s.heap (some node) s.list.head
    let heap ← setPrev heap (some node) none
    let heap ← setPrev heap s.list.head (some node)
    return ⟨heap, s.mem, { s.list with head := some node, len := s.list.len + 1 }⟩
  else do
    let heap ← setNext s.heap (some node) none
    let heap ← setPrev heap (some node) none
    return ⟨heap, s.mem, { s.list with head := some node, tail := some node, len := s.list.len + 1 }⟩

/-- `node->next = node->prev = NULL; return node;` -/
def detached (s : State A V M) (node : Option A) : Option (State A V M × Option A) := do
  let heap ← setPrev s.heap node none
  let heap ← setNext heap node none
  return (⟨heap, s.mem, s.list⟩, node)

/-- `list_rpop`. -/
def listRpop (s : State A V M) : Option (State A V M × Option A) :=
  if s.list.len = 0 then some (s, none)
  else do
    let node := s.list.tail
    let len := s.list.len - 1
    if len ≠ 0 then
      let n ← node.bind s.heap.lookup
      let heap ← setNext s.heap n.prev none
      detached ⟨heap, s.mem, { s.list with tail := n.prev, len := len }⟩ node
    else detached { s with list := { s.list with head := none, tail := none, len := len } } node

/-- `list_lpop`. -/
def listLpop (s : State A V M) : Option (State A V M × Option A) :=
  if s.list.len = 0 then some (s, none)
  else do
    let node := s.list.head
    let len := s.list.len - 1
    if len ≠ 0 then
      let n ← node.bind s.heap.lookup
      let heap ← setPrev s.heap n.next none
      detached ⟨heap, s.mem, { s.list with head := n.next, len := len }⟩ node
    else detached { s with list := { s.list with head := none, tail := none, len := len } } node

/-- `self->match(val, node->val)`, or `val == node->val`. -/
def matchesVal [DecidableEq V] (s : State A V M) (val : V) (a : A) : Option Bool :=
  (valAt s.heap a).map fun v =>
    match s.list.matchVal with
    | some test => test val v
    | none => decide (val = v)

/-- `list_find`. -/
def listFind [DecidableEq V] (s : State A V M) (val : V) : Option (Option A) := findNode s (matchesVal s val)

/-- `list_at`. The index -1 is that of the last node. -/
def listAt (s : State A V M) (index : ℤ) : Option (Option A) :=
  let direction := if index < 0 then Direction.backward else .forward
  let index := if index < 0 then -index - 1 else index
  if index < s.list.len then do
    let (it, node) ← listIteratorNext s.heap (listIteratorNew s.list direction)
    stepLoop s.heap index.toNat it node
  else some none

/-- `if (self->free) self->free(val);` -/
def freeVal (list : ListT A V M) (mem : M) (val : V) : Option M :=
  match list.free with
  | some free => free mem val
  | none => some mem

/-- `node->prev ? (node->prev->next = node->next) : (self->head = node->next);` -/
def unlinkPrev (s : State A V M) (n : Node A V) : Option (State A V M) :=
  match n.prev with
  | some prev => (setNext s.heap (some prev) n.next).map fun heap => { s with heap := heap }
  | none => some { s with list := { s.list with head := n.next } }

/-- `node->next ? (node->next->prev = node->prev) : (self->tail = node->prev);` -/
def unlinkNext (s : State A V M) (n : Node A V) : Option (State A V M) :=
  match n.next with
  | some next => (setPrev s.heap (some next) n.prev).map fun heap => { s with heap := heap }
  | none => some { s with list := { s.list with tail := n.prev } }

/-- `list_remove`. -/
def listRemove (s : State A V M) (node : A) : Option (State A V M) := do
  let n ← s.heap.lookup node
  let s ← unlinkPrev s n
  let n ← s.heap.lookup node
  let s ← unlinkNext s n
  let val ← valAt s.heap node
  let mem ← freeVal s.list s.mem val
  let heap ← release s.heap node
  return ⟨heap, mem, { s.list with len := s.list.len - 1 }⟩

/-- `while (len--) { next = curr->next; ... curr = next; }` -/
def destroyLoop (list : ListT A V M) : ℕ → Heap A V → M → Option A → Option (Heap A V × M)
  | 0, heap, mem, _ => some (heap, mem)
  | len + 1, heap, mem, curr => do
    let a ← curr
    let n ← heap.lookup a
    let mem ← freeVal list mem n.val
    let heap ← release heap a
    destroyLoop list len heap mem n.next

/-- `list_destroy`. -/
def listDestroy (s : State A V M) : Option (Heap A V × M) :=
  destroyLoop s.list s.list.len s.heap s.mem s.list.head

/-! ## The linked nodes -/

/-- The chain `xs` is between `head` and `tail`, and `len` is its length. -/
structure Represents (s : State A V M) (xs : List A) : Prop where
  chain : Chain s.heap none xs none
  nodup : xs.Nodup
  head : s.list.head = xs.head?
  tail : s.list.tail = xs.getLast?
  len : s.list.len = xs.length

/-- The pointers of the nodes `zs` and those of the list may have changed. -/
structure Frame (zs : List A) (s s' : State A V M) : Prop where
  heap : Relinks zs s.heap s'.heap
  mem : s'.mem = s.mem
  free : s'.list.free = s.list.free
  matchVal : s'.list.matchVal = s.list.matchVal

variable {s s' : State A V M} {a z node : A} {xs ys zs : List A} {n : Node A V}

theorem represents_start {heap : Heap A V} {mem : M} {free : Option (M → V → Option M)}
    {matchVal : Option (V → V → Bool)} : Represents (start heap mem free matchVal) [] :=
  ⟨trivial, List.nodup_nil, rfl, rfl, rfl⟩

/-- Only the listed nodes count. -/
theorem Represents.congr_heap {heap : Heap A V} {mem : M} (h : Represents s xs)
    (hsame : ∀ a ∈ xs, heap.lookup a = s.heap.lookup a) : Represents ⟨heap, mem, s.list⟩ xs :=
  ⟨h.chain.congr hsame, h.nodup, h.head, h.tail, h.len⟩

omit [DecidableEq A] in
theorem nodup_snoc : (xs ++ [a]).Nodup ↔ a ∉ xs ∧ xs.Nodup := by
  rw [← List.concat_eq_append, List.nodup_concat]

/-- A node that is not listed gets both pointers. -/
theorem set_both (halloc : (s.heap.lookup node).isSome) (p q : Option A) :
    ∃ h₁ h₂ v, setPrev s.heap (some node) p = some h₁ ∧ setNext h₁ (some node) q = some h₂ ∧
      h₂.lookup node = some ⟨p, q, v⟩ ∧ Relinks [node] s.heap h₂ := by
  rcases Option.isSome_iff_exists.mp halloc with ⟨n, hn⟩
  rcases setPrev_eq_some hn p with ⟨h₁, hset₁, hnew₁, hrel₁⟩
  rcases setNext_eq_some hnew₁ q with ⟨h₂, hset₂, hnew₂, hrel₂⟩
  exact ⟨h₁, h₂, n.val, hset₁, hset₂, hnew₂, (hrel₁.trans hrel₂).mono (by simp)⟩

/-- The same in the other order. -/
theorem set_next_prev (halloc : (s.heap.lookup node).isSome) (q p : Option A) :
    ∃ h₁ h₂ v, setNext s.heap (some node) q = some h₁ ∧ setPrev h₁ (some node) p = some h₂ ∧
      h₂.lookup node = some ⟨p, q, v⟩ ∧ Relinks [node] s.heap h₂ := by
  rcases Option.isSome_iff_exists.mp halloc with ⟨n, hn⟩
  rcases setNext_eq_some hn q with ⟨h₁, hset₁, hnew₁, hrel₁⟩
  rcases setPrev_eq_some hnew₁ p with ⟨h₂, hset₂, hnew₂, hrel₂⟩
  exact ⟨h₁, h₂, n.val, hset₁, hset₂, hnew₂, (hrel₁.trans hrel₂).mono (by simp)⟩

theorem listRpush_spec (h : Represents s xs) (halloc : (s.heap.lookup node).isSome)
    (hnode : node ∉ xs) :
    ∃ s', listRpush s node = some s' ∧ Represents s' (xs ++ [node]) ∧ Frame (xs ++ [node]) s s' := by
  have hnodup : (xs ++ [node]).Nodup := nodup_snoc.mpr ⟨hnode, h.nodup⟩
  rcases List.eq_nil_or_concat' xs with rfl | ⟨zs, z, rfl⟩
  · -- an empty list
    rcases set_next_prev halloc none none with ⟨h₁, h₂, v, hset₁, hset₂, hnew, hrel⟩
    refine ⟨⟨h₂, s.mem, { s.list with head := some node, tail := some node, len := s.list.len + 1 }⟩,
      ?_, ⟨chain_singleton.mpr ⟨v, hnew⟩, hnodup, rfl, rfl, ?_⟩, ⟨hrel, rfl, rfl, rfl⟩⟩
    · simp [listRpush, h.len, hset₁, hset₂]
    · rw [h.len]
      rfl
  · have hlen : s.list.len ≠ 0 := by
      rw [h.len]
      simp
    have htail : s.list.tail = some z := by
      rw [h.tail, List.getLast?_concat]
    rcases set_both halloc (some z) none with ⟨h₁, h₂, v, hset₁, hset₂, hnew, hrel⟩
    have hchain : Chain h₂ none (zs ++ [z]) none := by
      apply h.chain.relinks hrel
      intro b hb hmem
      exact hnode (List.mem_singleton.mp hmem ▸ hb)
    have hz : z ∉ zs := (nodup_snoc.mp h.nodup).1
    rcases hchain.setNext_last hz (some node) with ⟨h₃, hset₃, hchain₃, hrel₃⟩
    have hne : node ∉ [z] := by
      intro hmem
      exact hnode (List.mem_append_right _ hmem)
    refine ⟨⟨h₃, s.mem, { s.list with tail := some node, len := s.list.len + 1 }⟩, ?_, ?_, ?_⟩
    · simp only [listRpush, if_pos hlen, htail, hset₁, hset₂, hset₃, Option.bind_eq_bind,
        Option.bind_some]
      rfl
    · refine ⟨chain_append.mpr ⟨hchain₃, chain_singleton.mpr ⟨v, ?_⟩⟩, hnodup, ?_, ?_, ?_⟩
      · rw [hrel₃.other node hne, hnew, List.getLast?_concat]
        rfl
      · show s.list.head = _
        rw [h.head]
        simp
      · simp
      · show s.list.len + 1 = _
        rw [h.len]
        simp
    · refine ⟨(hrel.trans hrel₃).mono ?_, rfl, rfl, rfl⟩
      intro b hb
      simp only [List.mem_append, List.mem_singleton] at hb ⊢
      tauto

theorem listLpush_spec (h : Represents s xs) (halloc : (s.heap.lookup node).isSome)
    (hnode : node ∉ xs) :
    ∃ s', listLpush s node = some s' ∧ Represents s' (node :: xs) ∧ Frame (node :: xs) s s' := by
  have hnodup : (node :: xs).Nodup := List.nodup_cons.mpr ⟨hnode, h.nodup⟩
  cases xs with
  | nil =>
    rcases set_next_prev halloc none none with ⟨h₁, h₂, v, hset₁, hset₂, hnew, hrel⟩
    refine ⟨⟨h₂, s.mem, { s.list with head := some node, tail := some node, len := s.list.len + 1 }⟩,
      ?_, ⟨chain_singleton.mpr ⟨v, hnew⟩, hnodup, rfl, rfl, ?_⟩, ⟨hrel, rfl, rfl, rfl⟩⟩
    · simp [listLpush, h.len, hset₁, hset₂]
    · rw [h.len]
      rfl
  | cons z ys =>
    have hlen : s.list.len ≠ 0 := by
      rw [h.len]
      simp
    have hhead : s.list.head = some z := h.head
    rcases set_next_prev halloc (some z) none with ⟨h₁, h₂, v, hset₁, hset₂, hnew, hrel⟩
    -- the pointers of the new node are set, and the list is as before
    have hchain : Chain h₂ none (z :: ys) none := by
      apply h.chain.relinks hrel
      intro b hb hmem
      exact hnode (List.mem_singleton.mp hmem ▸ hb)
    rcases hchain.setPrev_first (List.nodup_cons.mp h.nodup).1 (some node) with
      ⟨h₃, hset₃, hchain₃, hrel₃⟩
    have hne : node ∉ [z] := by
      intro hmem
      exact hnode (List.mem_singleton.mp hmem ▸ List.mem_cons_self)
    refine ⟨⟨h₃, s.mem, { s.list with head := some node, len := s.list.len + 1 }⟩, ?_, ?_, ?_⟩
    · simp only [listLpush, if_pos hlen, hhead, hset₁, hset₂, hset₃, Option.bind_eq_bind,
        Option.bind_some]
      rfl
    · refine ⟨⟨⟨v, ?_⟩, hchain₃⟩, hnodup, rfl, ?_, ?_⟩
      · rw [hrel₃.other node hne, hnew]
        rfl
      · show s.list.tail = _
        rw [h.tail]
        simp
      · show s.list.len + 1 = _
        rw [h.len]
        rfl
    · refine ⟨(hrel.trans hrel₃).mono ?_, rfl, rfl, rfl⟩
      intro b hb
      simp only [List.mem_append, List.mem_cons] at hb ⊢
      tauto

/-- A node that is given back points nowhere. -/
def Detached (s : State A V M) (a : A) : Prop := ∃ v, s.heap.lookup a = some ⟨none, none, v⟩

theorem Frame.refl (s : State A V M) : Frame [] s s :=
  ⟨Relinks.refl _, rfl, rfl, rfl⟩

theorem Frame.trans {s₁ : State A V M} (h₁ : Frame zs s s₁) (h₂ : Frame xs s₁ s') :
    Frame (zs ++ xs) s s' :=
  ⟨h₁.heap.trans h₂.heap, h₂.mem.trans h₁.mem, h₂.free.trans h₁.free, h₂.matchVal.trans h₁.matchVal⟩

theorem Frame.mono (h : Frame zs s s') (hsub : zs ⊆ xs) : Frame xs s s' :=
  ⟨h.heap.mono hsub, h.mem, h.free, h.matchVal⟩

/-- The end of `lpop` and `rpop`. -/
theorem detached_spec (h : Represents s ys) (halloc : (s.heap.lookup a).isSome) (ha : a ∉ ys) :
    ∃ s', detached s (some a) = some (s', some a) ∧ Represents s' ys ∧ Frame [a] s s' ∧
      Detached s' a := by
  rcases set_both halloc none none with ⟨h₁, h₂, v, hset₁, hset₂, hnew, hrel⟩
  refine ⟨⟨h₂, s.mem, s.list⟩, ?_, ?_, ⟨hrel, rfl, rfl, rfl⟩, v, hnew⟩
  · simp only [detached, hset₁, hset₂, Option.bind_eq_bind, Option.bind_some]
    rfl
  · apply h.congr_heap
    intro b hb
    apply hrel.other
    intro hmem
    exact ha (List.mem_singleton.mp hmem ▸ hb)

/-- What `lpop` does before that. -/
theorem listLpop_rest (h : Represents s (a :: ys)) :
    ∃ s₁, listLpop s = detached s₁ (some a) ∧ Represents s₁ ys ∧ Frame ys s s₁ := by
  have hhead : s.list.head = some a := h.head
  have hlen : s.list.len ≠ 0 := by
    rw [h.len]
    simp
  have hless : s.list.len - 1 = ys.length := by
    rw [h.len]
    rfl
  rcases h.chain with ⟨⟨v, hv⟩, hchain⟩
  have hnodup := (List.nodup_cons.mp h.nodup).2
  cases ys with
  | nil =>
    refine ⟨⟨s.heap, s.mem, { s.list with head := none, tail := none, len := s.list.len - 1 }⟩,
      ?_, ⟨trivial, hnodup, rfl, rfl, hless⟩,
      ⟨Relinks.refl _, rfl, rfl, rfl⟩⟩
    rw [listLpop, if_neg hlen, if_neg (by simp [hless]), hhead]
  | cons z zs =>
    have hnext : (z :: zs).head?.or (none : Option A) = some z := rfl
    rcases hchain.setPrev_first (List.nodup_cons.mp hnodup).1 none with ⟨heap, hset, hrest, hrel⟩
    refine ⟨⟨heap, s.mem, { s.list with head := some z, len := s.list.len - 1 }⟩,
      ?_, ⟨hrest, hnodup, rfl, ?_, hless⟩, ⟨hrel.mono (by simp), rfl, rfl, rfl⟩⟩
    · rw [listLpop, if_neg hlen, if_pos (by simp [hless]), hhead, Option.bind_some, hv]
      simp [hset]
    · show s.list.tail = _
      rw [h.tail]
      simp

theorem listLpop_spec (h : Represents s xs) :
    ∃ s', listLpop s = some (s', xs.head?) ∧ Represents s' xs.tail ∧ Frame xs s s' ∧
      ∀ a ∈ xs.head?, Detached s' a := by
  cases xs with
  | nil => exact ⟨s, if_pos h.len, h, Frame.refl s, fun a ha => by cases ha⟩
  | cons a ys =>
    rcases listLpop_rest h with ⟨s₁, hpop, h₁, hframe⟩
    have ha := (List.nodup_cons.mp h.nodup).1
    have halloc : (s₁.heap.lookup a).isSome := by
      rw [hframe.heap.isSome]
      exact h.chain.allocated List.mem_cons_self
    rcases detached_spec h₁ halloc ha with ⟨s', hdetached, h', hframe', hnull⟩
    refine ⟨s', hpop.trans hdetached, h', (hframe.trans hframe').mono (by simp), ?_⟩
    intro b hb
    cases hb
    exact hnull

/-- What `rpop` does before the node is detached. -/
theorem listRpop_rest (h : Represents s (ys ++ [a])) :
    ∃ s₁, listRpop s = detached s₁ (some a) ∧ Represents s₁ ys ∧ Frame ys s s₁ := by
  have htail : s.list.tail = some a := by
    rw [h.tail, List.getLast?_concat]
  have hlen : s.list.len ≠ 0 := by
    rw [h.len]
    simp
  have hless : s.list.len - 1 = ys.length := by
    rw [h.len]
    simp
  rcases chain_append.mp h.chain with ⟨hchain, hlast⟩
  rcases chain_singleton.mp hlast with ⟨v, hv⟩
  have hnodup := (nodup_snoc.mp h.nodup).2
  rcases List.eq_nil_or_concat' ys with rfl | ⟨zs, z, rfl⟩
  · refine ⟨⟨s.heap, s.mem, { s.list with head := none, tail := none, len := s.list.len - 1 }⟩,
      ?_, ⟨trivial, hnodup, rfl, rfl, hless⟩,
      ⟨Relinks.refl _, rfl, rfl, rfl⟩⟩
    rw [listRpop, if_neg hlen, if_neg (by simp [hless]), htail]
  · have hprev : (zs ++ [z]).getLast?.or (none : Option A) = some z := by simp
    rw [hprev] at hv
    rcases hchain.setNext_last (nodup_snoc.mp hnodup).1 none with ⟨heap, hset, hrest, hrel⟩
    refine ⟨⟨heap, s.mem, { s.list with tail := some z, len := s.list.len - 1 }⟩,
      ?_, ⟨hrest, hnodup, ?_, ?_, hless⟩, ⟨hrel.mono (by simp), rfl, rfl, rfl⟩⟩
    · rw [listRpop, if_neg hlen, if_pos (by simp [hless]), htail, Option.bind_some, hv]
      simp [hset]
    · show s.list.head = _
      rw [h.head]
      simp
    · simp

theorem listRpop_spec (h : Represents s xs) :
    ∃ s', listRpop s = some (s', xs.getLast?) ∧ Represents s' xs.dropLast ∧ Frame xs s s' ∧
      ∀ a ∈ xs.getLast?, Detached s' a := by
  rcases List.eq_nil_or_concat' xs with rfl | ⟨ys, a, rfl⟩
  · exact ⟨s, if_pos h.len, h, Frame.refl s, fun a ha => by cases ha⟩
  · rcases listRpop_rest h with ⟨s₁, hpop, h₁, hframe⟩
    have ha := (nodup_snoc.mp h.nodup).1
    have halloc : (s₁.heap.lookup a).isSome := by
      rw [hframe.heap.isSome]
      exact h.chain.allocated (by simp)
    rcases detached_spec h₁ halloc ha with ⟨s', hdetached, h', hframe', hnull⟩
    rw [List.getLast?_concat, List.dropLast_concat]
    refine ⟨s', hpop.trans hdetached, h', hframe.trans hframe', ?_⟩
    intro b hb
    cases hb
    exact hnull

/-! ## Removal -/

/-- The pointer that leads forwards to the node `a` is moved on. -/
theorem unlinkPrev_spec (h : Represents s (xs ++ a :: ys)) (hn : s.heap.lookup a = some n) :
    ∃ s₁, unlinkPrev s n = some s₁ ∧ Chain s₁.heap none xs ys.head? ∧
      Chain s₁.heap (some a) ys none ∧ s₁.list.head = (xs ++ ys).head? ∧
      s₁.list.tail = s.list.tail ∧ s₁.list.len = s.list.len ∧ s₁.heap.lookup a = some n ∧
      Frame xs s s₁ := by
  rcases chain_append.mp h.chain with ⟨hxs, ⟨v, hv⟩, hys⟩
  rcases List.nodup_append.mp h.nodup with ⟨hnodup, -, hdisjoint⟩
  obtain rfl : n = ⟨xs.getLast?, ys.head?, v⟩ := by
    rw [hn, Option.or_none, Option.or_none] at hv
    exact Option.some.inj hv
  rcases List.eq_nil_or_concat' xs with rfl | ⟨zs, z, rfl⟩
  · exact ⟨{ s with list := { s.list with head := ys.head? } }, rfl, trivial, hys, rfl, rfl, rfl, hn,
      ⟨Relinks.refl _, rfl, rfl, rfl⟩⟩
  · -- the node in front of it points past it now
    rcases hxs.setNext_last (nodup_snoc.mp hnodup).1 ys.head? with ⟨heap, hset, hchain, hrel⟩
    have hz : ∀ b ∈ a :: ys, b ∉ [z] := by
      intro b hb hmem
      exact hdisjoint z (by simp) b hb (List.mem_singleton.mp hmem).symm
    refine ⟨{ s with heap := heap }, ?_, hchain, ?_, ?_, rfl, rfl, ?_,
      ⟨hrel.mono (by simp), rfl, rfl, rfl⟩⟩
    · rw [unlinkPrev]
      simp only [List.getLast?_concat, hset, Option.map_some]
    · exact hys.relinks hrel fun b hb => hz b (List.mem_cons_of_mem _ hb)
    · show s.list.head = _
      rw [h.head]
      simp
    · rw [hrel.other a (hz a List.mem_cons_self), hn]

/-- After that the pointer that leads backwards to it. -/
theorem unlinkNext_spec {v : V} (hxs : Chain s.heap none xs ys.head?)
    (hys : Chain s.heap (some a) ys none) (hnodup : (xs ++ a :: ys).Nodup)
    (htail : s.list.tail = (xs ++ a :: ys).getLast?) :
    ∃ s₁, unlinkNext s ⟨xs.getLast?, ys.head?, v⟩ = some s₁ ∧ Chain s₁.heap none (xs ++ ys) none ∧
      s₁.list.head = s.list.head ∧ s₁.list.tail = (xs ++ ys).getLast? ∧
      s₁.list.len = s.list.len ∧ s₁.heap.lookup a = s.heap.lookup a ∧ Frame ys s s₁ := by
  rcases List.nodup_append.mp hnodup with ⟨-, hrest, hdisjoint⟩
  rcases List.nodup_cons.mp hrest with ⟨ha, hnodup'⟩
  cases ys with
  | nil =>
    refine ⟨{ s with list := { s.list with tail := xs.getLast? } }, rfl, ?_, rfl, ?_, rfl, rfl,
      ⟨Relinks.refl _, rfl, rfl, rfl⟩⟩
    · rw [List.append_nil]
      exact hxs
    · rw [List.append_nil]
  | cons y ys =>
    rcases hys.setPrev_first (List.nodup_cons.mp hnodup').1 xs.getLast? with
      ⟨heap, hset, hchain, hrel⟩
    refine ⟨{ s with heap := heap }, ?_, ?_, rfl, ?_, rfl, ?_, ⟨hrel.mono (by simp), rfl, rfl, rfl⟩⟩
    · simp only [unlinkNext, List.head?_cons, hset, Option.map_some]
    · refine chain_append.mpr ⟨?_, ?_⟩
      · apply hxs.relinks hrel
        intro b hb hmem
        exact hdisjoint b hb y (by simp) (List.mem_singleton.mp hmem)
      · rw [Option.or_none]
        exact hchain
    · show s.list.tail = _
      rw [htail]
      simp
    · apply hrel.other
      intro hmem
      exact ha (List.mem_singleton.mp hmem ▸ List.mem_cons_self)

/-- What removal leaves behind: the node and its value are freed, the other nodes are
where they were and have their values. -/
structure Removed (a : A) (xs : List A) (s s' : State A V M) : Prop where
  gone : s'.heap.lookup a = none
  other : ∀ b, b ∉ xs → s'.heap.lookup b = s.heap.lookup b
  val : ∀ b, b ≠ a → valAt s'.heap b = valAt s.heap b
  free : s'.list.free = s.list.free
  matchVal : s'.list.matchVal = s.list.matchVal

theorem listRemove_spec {v : V} {mem : M} (h : Represents s (xs ++ a :: ys))
    (hval : valAt s.heap a = some v) (hfree : freeVal s.list s.mem v = some mem) :
    ∃ s', listRemove s a = some s' ∧ Represents s' (xs ++ ys) ∧ s'.mem = mem ∧
      Removed a (xs ++ a :: ys) s s' := by
  have halloc := h.chain.allocated (a := a) (by simp)
  rcases Option.isSome_iff_exists.mp halloc with ⟨n, hn⟩
  rcases unlinkPrev_spec h hn with
    ⟨s₁, hprev, hxs, hys, hhead, htail, hlen, hn₁, hframe₁⟩
  rcases chain_append.mp h.chain with ⟨-, ⟨w, hw⟩, -⟩
  have hn' : n = ⟨xs.getLast?, ys.head?, w⟩ := by
    rw [hn, Option.or_none, Option.or_none] at hw
    exact Option.some.inj hw
  rcases unlinkNext_spec (v := w) hxs hys h.nodup (htail.trans h.tail) with
    ⟨s₂, hnext, hchain, hhead₂, htail₂, hlen₂, hn₂, hframe₂⟩
  have hframe := hframe₁.trans hframe₂
  -- the node is out of both chains, its value is unchanged: it can be freed
  rcases List.nodup_cons.mp (List.nodup_middle.mp h.nodup) with ⟨ha, hnodup⟩
  have hval₂ : valAt s₂.heap a = some v := by rw [hframe.heap.val, hval]
  have hfree₂ : freeVal s₂.list s₂.mem v = some mem := by
    rw [freeVal, hframe.free, hframe.mem]
    exact hfree
  have hrelease : release s₂.heap a = some (s₂.heap.erase a) := by
    rw [release, if_pos]
    rw [hframe.heap.isSome]
    exact halloc
  refine ⟨⟨s₂.heap.erase a, mem, { s₂.list with len := s₂.list.len - 1 }⟩, ?_, ?_, rfl, ?_⟩
  · rw [listRemove, hn]
    simp only [Option.bind_eq_bind, Option.bind_some, hprev, hn₁]
    rw [hn', hnext]
    simp only [Option.bind_some, hval₂, hfree₂, hrelease]
    rfl
  · refine ⟨?_, hnodup, hhead₂.trans hhead, htail₂, ?_⟩
    · apply hchain.congr
      intro b hb
      exact AList.lookup_erase_ne fun heq => ha (heq ▸ hb)
    · show s₂.list.len - 1 = _
      rw [hlen₂, hlen, h.len]
      simp
  · refine ⟨AList.lookup_erase a s₂.heap, ?_, ?_, hframe.free, hframe.matchVal⟩
    · intro b hb
      have hne : b ≠ a := fun heq => hb (by simp [heq])
      show (s₂.heap.erase a).lookup b = _
      rw [AList.lookup_erase_ne hne]
      apply hframe.heap.other
      intro hmem
      exact hb (by simpa using (List.mem_append.mp hmem).imp id .inr)
    · intro b hne
      show valAt (s₂.heap.erase a) b = _
      rw [valAt, AList.lookup_erase_ne hne]
      exact hframe.heap.val b

/-! ## Iteration -/

variable {d : Direction} {p : Option A} {heap : Heap A V}

theorem listIteratorNext_some (hn : heap.lookup a = some n) :
    listIteratorNext heap ⟨some a, d⟩ = some (⟨n.towards d, d⟩, some a) := by
  simp [listIteratorNext, hn]

theorem findLoop_eq {hit : A → Option Bool} {f : A → Bool} (hpath : Path heap d p xs)
    (hhit : ∀ a ∈ xs, hit a = some (f a)) :
    ∀ k, xs.length < k → findLoop heap hit k ⟨p, d⟩ = some (xs.find? f) := by
  induction xs generalizing p with
  | nil =>
    intro k hk
    obtain rfl : p = none := hpath
    cases k with
    | zero => cases hk
    | succ k => rfl
  | cons a xs ih =>
    intro k hk
    rcases hpath with ⟨rfl, n, hn, hrest⟩
    rw [List.forall_mem_cons] at hhit
    cases k with
    | zero => cases hk
    | succ k =>
      simp only [findLoop, listIteratorNext_some hn, Option.bind_eq_bind, Option.bind_some, hhit.1]
      cases hf : f a with
      | true => simp [hf]
      | false => simpa [hf] using ih hrest hhit.2 k (Nat.lt_of_succ_lt_succ hk)

theorem findNode_spec {hit : A → Option Bool} {f : A → Bool} (h : Represents s xs)
    (hhit : ∀ a ∈ xs, hit a = some (f a)) : findNode s hit = some (xs.find? f) := by
  have hpath : Path s.heap .forward s.list.head xs := h.head ▸ h.chain.forward
  exact findLoop_eq hpath hhit _ (Nat.lt_succ_of_le (hpath.length_le h.nodup))

theorem stepLoop_eq (hpath : Path heap d p xs) (index : ℕ) (hindex : index < xs.length) :
    (listIteratorNext heap ⟨p, d⟩).bind (fun r => stepLoop heap index r.1 r.2) = some xs[index]? := by
  induction index generalizing p xs with
  | zero =>
    cases xs with
    | nil => cases hindex
    | cons a xs =>
      rcases hpath with ⟨rfl, n, hn, -⟩
      rw [listIteratorNext_some hn]
      rfl
  | succ index ih =>
    cases xs with
    | nil => cases hindex
    | cons a xs =>
      rcases hpath with ⟨rfl, n, hn, hrest⟩
      rw [listIteratorNext_some hn]
      exact ih hrest (Nat.lt_of_succ_lt_succ hindex)

/-- The node with an index, counted from the end when it is negative. -/
theorem listAt_spec (h : Represents s xs) (index : ℤ) :
    listAt s index =
      some (if index < 0 then xs.reverse[(-index - 1).toNat]? else xs[index.toNat]?) := by
  have hforward : Path s.heap .forward s.list.head xs := h.head ▸ h.chain.forward
  have hbackward : Path s.heap .backward s.list.tail xs.reverse := h.tail ▸ h.chain.backward
  have hlen := h.len
  unfold listAt
  by_cases hneg : index < 0
  · simp only [if_pos hneg]
    split
    · exact stepLoop_eq hbackward _ (by rw [List.length_reverse]; omega)
    · rw [List.getElem?_eq_none]
      rw [List.length_reverse]
      omega
  · simp only [if_neg hneg]
    split
    · exact stepLoop_eq hforward _ (by omega)
    · rw [List.getElem?_eq_none]
      omega

/-! ## The end of a list -/

/-- The values of nodes. -/
def values (heap : Heap A V) (xs : List A) : List V := xs.filterMap (valAt heap)

theorem destroyLoop_eq {list : ListT A V M} {mem mem' : M} (hchain : Chain heap p xs none)
    (hnodup : xs.Nodup) (hfree : (values heap xs).foldlM (freeVal list) mem = some mem') :
    ∃ heap', destroyLoop list xs.length heap mem xs.head? = some (heap', mem') ∧
      (∀ a ∈ xs, heap'.lookup a = none) ∧ ∀ b, b ∉ xs → heap'.lookup b = heap.lookup b := by
  induction xs generalizing heap p mem with
  | nil =>
    cases hfree
    exact ⟨heap, rfl, fun a ha => absurd ha List.not_mem_nil, fun _ _ => rfl⟩
  | cons a xs ih =>
    rcases hchain with ⟨⟨v, hv⟩, hrest⟩
    rcases List.nodup_cons.mp hnodup with ⟨ha, hnodup⟩
    have hval : valAt heap a = some v := by simp [valAt, hv]
    have hsame : ∀ b, b ≠ a → (heap.erase a).lookup b = heap.lookup b :=
      fun b hb => AList.lookup_erase_ne hb
    rw [values, List.filterMap_cons, hval] at hfree
    simp only [List.foldlM_cons, Option.bind_eq_bind, Option.bind_eq_some_iff] at hfree
    rcases hfree with ⟨mem₁, hfree₁, hfree₂⟩
    -- the loop has saved `next` before it frees the node, so the rest is still a chain
    have hvalues : values (heap.erase a) xs = values heap xs := by
      apply List.filterMap_congr
      intro b hb
      rw [valAt, hsame b fun heq => ha (heq ▸ hb), valAt]
    have hchain : Chain (heap.erase a) (some a) xs none :=
      hrest.congr fun b hb => hsame b fun heq => ha (heq ▸ hb)
    rcases ih hchain hnodup (by rw [hvalues]; exact hfree₂) with ⟨heap', hloop, hgone, hother⟩
    have hrelease : release heap a = some (heap.erase a) := by
      rw [release, if_pos]
      rw [hv]
      rfl
    refine ⟨heap', ?_, ?_, ?_⟩
    · simp only [List.length_cons, List.head?_cons, destroyLoop, Option.bind_eq_bind, Option.bind_some,
        hv, hfree₁, hrelease, Option.or_none]
      exact hloop
    · intro b hb
      rcases List.mem_cons.mp hb with rfl | hmem
      · rw [hother b ha, AList.lookup_erase]
      · exact hgone b hmem
    · intro b hb
      rw [List.mem_cons, not_or] at hb
      rw [hother b hb.2, hsame b hb.1]

/-- All nodes and all values are freed, from the first to the last. -/
theorem listDestroy_spec {mem : M} (h : Represents s xs)
    (hfree : (values s.heap xs).foldlM (freeVal s.list) s.mem = some mem) :
    ∃ heap, listDestroy s = some (heap, mem) ∧ (∀ a ∈ xs, heap.lookup a = none) ∧
      ∀ b, b ∉ xs → heap.lookup b = s.heap.lookup b := by
  rcases destroyLoop_eq h.chain h.nodup hfree with ⟨heap, hloop, hheap⟩
  refine ⟨heap, ?_, hheap⟩
  rw [listDestroy, h.len, h.head]
  exact hloop

/-! ## Operations on any list -/

section Operations

variable [DecidableEq V]

inductive Op (A V : Type) where
  | rpush (node : A)
  | lpush (node : A)
  | rpop
  | lpop
  | find (val : V)
  | atIndex (index : ℤ)
  | remove (node : A)

/-- An operation, and what it returns. -/
def Op.apply (s : State A V M) : Op A V → Option (State A V M × Option A)
  | .rpush node => (listRpush s node).map fun s => (s, some node)
  | .lpush node => (listLpush s node).map fun s => (s, some node)
  | .rpop => listRpop s
  | .lpop => listLpop s
  | .find val => (listFind s val).map fun node => (s, node)
  | .atIndex index => (listAt s index).map fun node => (s, node)
  | .remove node => (listRemove s node).map fun s => (s, none)

/-- The test of `list_find`. -/
def isMatch (s : State A V M) (val : V) (a : A) : Bool := (matchesVal s val a).getD false

/-- What an operation is for: the nodes listed afterwards, and the one returned. -/
def Op.effect (s : State A V M) (xs : List A) : Op A V → List A × Option A
  | .rpush node => (xs ++ [node], some node)
  | .lpush node => (node :: xs, some node)
  | .rpop => (xs.dropLast, xs.getLast?)
  | .lpop => (xs.tail, xs.head?)
  | .find val => (xs, xs.find? (isMatch s val))
  | .atIndex index =>
    (xs, if index < 0 then xs.reverse[(-index - 1).toNat]? else xs[index.toNat]?)
  | .remove node => (xs.erase node, none)

/-- The memory of the values afterwards: `remove` frees one. -/
def Op.memory (s : State A V M) : Op A V → Option M
  | .remove node => (valAt s.heap node).bind (freeVal s.list s.mem)
  | _ => some s.mem

/-- What the caller answers for. -/
def Op.Allowed (s : State A V M) (xs : List A) (op : Op A V) : Prop :=
  (op.memory s).isSome ∧
    match op with
    | .rpush node => (s.heap.lookup node).isSome ∧ node ∉ xs
    | .lpush node => (s.heap.lookup node).isSome ∧ node ∉ xs
    | .remove node => node ∈ xs
    | _ => True

instance (s : State A V M) (xs : List A) : (op : Op A V) → Decidable (op.Allowed s xs)
  | .rpush node => inferInstanceAs (Decidable (_ ∧ (s.heap.lookup node).isSome ∧ node ∉ xs))
  | .lpush node => inferInstanceAs (Decidable (_ ∧ (s.heap.lookup node).isSome ∧ node ∉ xs))
  | .remove node => inferInstanceAs (Decidable (_ ∧ node ∈ xs))
  | .rpop => inferInstanceAs (Decidable (_ ∧ True))
  | .lpop => inferInstanceAs (Decidable (_ ∧ True))
  | .find _ => inferInstanceAs (Decidable (_ ∧ True))
  | .atIndex _ => inferInstanceAs (Decidable (_ ∧ True))

/-- The node that an operation links. -/
def Op.linked : Op A V → List A
  | .rpush node => [node]
  | .lpush node => [node]
  | _ => []

/-- The node that it takes out and gives back. -/
def Op.popped (xs : List A) : Op A V → Option A
  | .rpop => xs.getLast?
  | .lpop => xs.head?
  | _ => none

/-- The node that it frees. -/
def Op.freed : Op A V → Option A
  | .remove node => some node
  | _ => none

/-- An operation has its effect: a node that is given back is still allocated, with its value
and without pointers; a removed node is gone, and its value has been freed; every other value
stays with its node; and nodes that are not the list's are as they were. -/
structure Applied (op : Op A V) (s : State A V M) (xs : List A) (s' : State A V M) : Prop where
  represents : Represents s' (op.effect s xs).1
  memory : op.memory s = some s'.mem
  popped : ∀ a ∈ op.popped xs,
    ∃ v, valAt s.heap a = some v ∧ s'.heap.lookup a = some ⟨none, none, v⟩
  freed : ∀ a ∈ op.freed, s'.heap.lookup a = none
  val : ∀ b, b ∉ op.freed → valAt s'.heap b = valAt s.heap b
  other : ∀ b, b ∉ xs → b ∉ op.linked → s'.heap.lookup b = s.heap.lookup b
  free : s'.list.free = s.list.free
  matchVal : s'.list.matchVal = s.list.matchVal

/-- An operation that frees nothing. -/
theorem Applied.of_frame {op : Op A V} (hrep : Represents s' (op.effect s xs).1)
    (hframe : Frame zs s s') (hzs : zs ⊆ xs ++ op.linked) (hmem : op.memory s = some s.mem)
    (hfreed : op.freed = none) (hpopped : ∀ a ∈ op.popped xs, Detached s' a) :
    Applied op s xs s' where
  represents := hrep
  memory := hmem.trans (congrArg some hframe.mem.symm)
  popped := by
    intro a ha
    rcases hpopped a ha with ⟨v, hv⟩
    refine ⟨v, ?_, hv⟩
    rw [← hframe.heap.val, valAt, hv]
    rfl
  freed := by
    intro a ha
    rw [hfreed] at ha
    cases ha
  val := fun b _ => hframe.heap.val b
  other := by
    intro b hb hlinked
    apply hframe.heap.other
    intro hmem
    rcases List.mem_append.mp (hzs hmem) with hlisted | hnew
    · exact hb hlisted
    · exact hlinked hnew
  free := hframe.free
  matchVal := hframe.matchVal

/-- An operation that only reads. -/
theorem Applied.of_same {op : Op A V} (h : Represents s xs) (hsame : (op.effect s xs).1 = xs)
    (hmem : op.memory s = some s.mem) (hfreed : op.freed = none) (hpopped : op.popped xs = none) :
    Applied op s xs s := by
  refine Applied.of_frame ?_ (Frame.refl s) (List.nil_subset _) hmem hfreed ?_
  · rwa [hsame]
  · intro a ha
    rw [hpopped] at ha
    cases ha

theorem apply_spec {op : Op A V} (h : Represents s xs) (hop : op.Allowed s xs) :
    ∃ s', op.apply s = some (s', (op.effect s xs).2) ∧ Applied op s xs s' := by
  cases op with
  | rpush node =>
    rcases hop with ⟨-, halloc, hnode⟩
    rcases listRpush_spec h halloc hnode with ⟨s', hpush, h', hframe⟩
    exact ⟨s', by simp [Op.apply, hpush, Op.effect],
      Applied.of_frame h' hframe (by simp [Op.linked]) rfl rfl (by simp [Op.popped])⟩
  | lpush node =>
    rcases hop with ⟨-, halloc, hnode⟩
    rcases listLpush_spec h halloc hnode with ⟨s', hpush, h', hframe⟩
    exact ⟨s', by simp [Op.apply, hpush, Op.effect],
      Applied.of_frame h' hframe (by simp [Op.linked]) rfl rfl (by simp [Op.popped])⟩
  | rpop =>
    rcases listRpop_spec h with ⟨s', hpop, h', hframe, hnull⟩
    exact ⟨s', hpop, Applied.of_frame h' hframe (List.subset_append_left _ _) rfl rfl hnull⟩
  | lpop =>
    rcases listLpop_spec h with ⟨s', hpop, h', hframe, hnull⟩
    exact ⟨s', hpop, Applied.of_frame h' hframe (List.subset_append_left _ _) rfl rfl hnull⟩
  | find val =>
    have hhit : ∀ a ∈ xs, matchesVal s val a = some (isMatch s val a) := by
      intro a ha
      rcases Option.isSome_iff_exists.mp (h.chain.allocated ha) with ⟨n, hn⟩
      simp [isMatch, matchesVal, valAt, hn]
    exact ⟨s, by simp [Op.apply, listFind, findNode_spec h hhit, Op.effect],
      Applied.of_same h rfl rfl rfl rfl⟩
  | atIndex index =>
    exact ⟨s, by simp [Op.apply, listAt_spec h, Op.effect], Applied.of_same h rfl rfl rfl rfl⟩
  | remove node =>
    rcases hop with ⟨hmemory, hnode⟩
    rcases List.append_of_mem hnode with ⟨ys, zs, rfl⟩
    rcases Option.isSome_iff_exists.mp hmemory with ⟨mem, hmem⟩
    rcases Option.bind_eq_some_iff.mp hmem with ⟨v, hval, hfree⟩
    rcases listRemove_spec h hval hfree with ⟨s', hremove, h', hmem', hremoved⟩
    have hnot : node ∉ ys := by
      intro hmem
      exact (List.nodup_cons.mp (List.nodup_middle.mp h.nodup)).1 (List.mem_append_left _ hmem)
    have herase : (ys ++ node :: zs).erase node = ys ++ zs := by
      rw [List.erase_append_right _ hnot, List.erase_cons_head]
    refine ⟨s', by simp [Op.apply, hremove, Op.effect], ?_⟩
    constructor
    · show Represents s' ((ys ++ node :: zs).erase node)
      rwa [herase]
    · exact hmem.trans (congrArg some hmem'.symm)
    · intro a ha
      cases ha
    · intro a ha
      cases ha
      exact hremoved.gone
    · intro b hb
      apply hremoved.val
      rintro rfl
      exact hb rfl
    · exact fun b hb _ => hremoved.other b hb
    · exact hremoved.free
    · exact hremoved.matchVal

/-! ## Runs

Between two operations the rest of the program allocates nodes, frees those it was
given back and changes the memory of the values. -/

/-- The nodes that are met from `head` on. -/
def visited (s : State A V M) : List A := visit s.heap .forward s.list.head

omit [DecidableEq V] in
theorem Represents.visited_eq (h : Represents s xs) : visited s = xs := by
  rw [visited, h.head]
  exact visit_eq h.chain.forward h.nodup

inductive Label (A V M : Type) where
  | op (o : Op A V)
  | outside (heap : Heap A V) (mem : M)

/-- A step emits what the operation returns. -/
def step (s : State A V M) : Label A V M → Option (State A V M × List (Option A))
  | .op o => (o.apply s).map fun r => (r.1, [r.2])
  | .outside heap mem => some (⟨heap, mem, s.list⟩, [])

/-- The rest of the program keeps away from the nodes of the list. -/
def Good (s : State A V M) : Label A V M → Prop
  | .op o => o.Allowed s (visited s)
  | .outside heap _ => ∀ a ∈ visited s, heap.lookup a = s.heap.lookup a

instance (s : State A V M) : (l : Label A V M) → Decidable (Good s l)
  | .op o => inferInstanceAs (Decidable (o.Allowed s (visited s)))
  | .outside heap _ => inferInstanceAs (Decidable (∀ a ∈ visited s, heap.lookup a = s.heap.lookup a))

variable {free : Option (M → V → Option M)} {matchVal : Option (V → V → Bool)} {heap₀ : Heap A V}
  {mem₀ : M} {tr : List (Option A)}


/-- One step keeps the chain, the pointers and the length in agreement. -/
theorem step_represents {l : Label A V M} {ev : List (Option A)} (h : Represents s (visited s))
    (hgood : Good s l) (hstep : step s l = some (s', ev)) : Represents s' (visited s') := by
  cases l with
  | op o =>
    rcases apply_spec h hgood with ⟨s₁, happly, h₁⟩
    simp only [step, happly, Option.map_some, Option.some.injEq, Prod.mk.injEq] at hstep
    rcases hstep with ⟨rfl, -⟩
    rw [h₁.represents.visited_eq]
    exact h₁.represents
  | outside heap mem =>
    simp only [step, Option.some.injEq, Prod.mk.injEq] at hstep
    rcases hstep with ⟨rfl, -⟩
    have h₁ : Represents ⟨heap, mem, s.list⟩ (visited s) := h.congr_heap hgood
    rw [h₁.visited_eq]
    exact h₁

theorem represents_of_runs (hrun : Exec.Runs step Good (start heap₀ mem₀ free matchVal) tr s) :
    Represents s (visited s) := by
  apply hrun.invariant (H := fun _ => True) (P := fun _ s => Represents s (visited s))
  · intro _ _ _
    trivial
  · have hnew : Represents (start heap₀ mem₀ free matchVal) [] := represents_start
    rw [hnew.visited_eq]
    exact hnew
  · intro _ _ _ _ _ _ _ hs hgood hstep
    exact step_represents hs hgood hstep
  · trivial

/-- After any sequence of operations, with `xs` for the nodes that are met forwards from
`head`: backwards from `tail` they are met in reverse order, `len` is their number, each
operation that is allowed is defined, returns what the operation on `xs` returns and has its
effect on nodes and values, and a destroy frees all of them. -/
theorem list_refines_sequence
    (hrun : Exec.Runs step Good (start heap₀ mem₀ free matchVal) tr s) :
    let xs := visited s
    (Path s.heap .forward s.list.head xs ∧ Path s.heap .backward s.list.tail xs.reverse ∧
        xs.Nodup ∧ s.list.len = xs.length) ∧
      (∀ op : Op A V, op.Allowed s xs →
        ∃ s', op.apply s = some (s', (op.effect s xs).2) ∧ visited s' = (op.effect s xs).1 ∧
          Applied op s xs s') ∧
      ∀ mem, (values s.heap xs).foldlM (freeVal s.list) s.mem = some mem →
        ∃ heap, listDestroy s = some (heap, mem) ∧ (∀ a ∈ xs, heap.lookup a = none) ∧
          ∀ b, b ∉ xs → heap.lookup b = s.heap.lookup b := by
  intro xs
  have h : Represents s xs := represents_of_runs hrun
  refine ⟨⟨h.head ▸ h.chain.forward, h.tail ▸ h.chain.backward, h.nodup, h.len⟩, ?_, ?_⟩
  · intro op hop
    rcases apply_spec h hop with ⟨s', happly, h'⟩
    exact ⟨s', happly, h'.represents.visited_eq, h'⟩
  · intro mem hfree
    exact listDestroy_spec h hfree

/-- Four nodes, with the values 10, 20, 30 and 40. -/
def fourNodes : Heap ℕ ℕ :=
  listNodeNew (listNodeNew (listNodeNew (listNodeNew ∅ 1 10) 2 20) 3 30) 4 40

/-- Three nodes are pushed, the middle one is removed, and another one is pushed in front;
the values that are freed are kept in the memory. -/
theorem list_refines_sequence_four_one_three :
    ∃ s : State ℕ ℕ (List ℕ), visited s = [4, 1, 3] ∧ s.mem = [20] ∧ s.list.len = 3 ∧
      Path s.heap .backward s.list.tail [3, 1, 4] := by
  have hsome : (Exec.run step Good
      (start fourNodes [] (some fun mem v => some (v :: mem)) none)
      [.op (.rpush 1), .op (.rpush 2), .op (.rpush 3), .op (.remove 2), .op (.lpush 4)]).isSome := by
    decide
  have hlist := (list_refines_sequence (Exec.runs_of_isSome hsome)).1
  exact ⟨_, rfl, rfl, hlist.2.2.2, hlist.2.1⟩

end Operations

end MqttMsgHub.LinkedList
