import MqttMsgHub.Lib.Exec
import MqttMsgHub.Lib.Links

/-! # The singly linked list

`slist.c` keeps its nodes in a chain of `next` pointers, with pointers to the
first and the last node and their number beside it. The nodes belong to the
caller until they are inserted; `remove`, `replace` and `clear` free them, `take`
gives them back. The operations are written here pointer by pointer, on a heap of
nodes; what they are for is said by `Op.effect`, on lists of nodes.

The head/middle/tail cases of taking a node out of the chain are repeated five
times in the source, with the same assignments. They stand here once (`unlink`).
`size` is an `int` in the source; no list gets near its bound.

* `apply_spec` — one operation, on any list, has its effect on the visited nodes;
* `slist_refines_sequence` — after any sequence of operations the chain, the two
  pointers and the size agree, and every operation that is allowed is defined.
-/

namespace MqttMsgHub.SList

open Links

variable {A K D : Type} [DecidableEq A]

/-! ## The list -/

/-- `struct single_list`. A key test is true where the source's returns 0. -/
structure SingleList (A K D : Type) where
  head : Option A
  tail : Option A
  size : ℤ
  freeNode : Option (Heap A D → Option A → Option (Heap A D))
  keyHitTest : Option (D → K → Bool)

/-- The list, and the memory its nodes are in. -/
structure State (A K D : Type) where
  heap : Heap A D
  list : SingleList A K D

/-- `new_single_list`. -/
def newSingleList (opFree : Option (Heap A D → Option A → Option (Heap A D)))
    (opCmp : Option (D → K → Bool)) : SingleList A K D :=
  ⟨none, none, 0, opFree, opCmp⟩

/-- `if(list->free_node) list->free_node(p); else if(p) free(p);` -/
def SingleList.free (list : SingleList A K D) : Heap A D → Option A → Option (Heap A D) :=
  list.freeNode.getD release

/-! ## Operations -/

/-- `_add_node`. -/
def addNode (s : State A K D) (node : A) : Option (State A K D) :=
  match s.list.tail with
  | some t => do
    let heap ← setNext s.heap (some t) (some node)
    let heap ← setNext heap (some node) none
    return ⟨heap, { s.list with tail := some node, size := s.list.size + 1 }⟩
  | none => do
    let heap ← setNext s.heap (some node) none
    return ⟨heap, { s.list with head := some node, tail := some node, size := 1 }⟩

/-- `if(node->next == 0) list->tail = node;` -/
def fixTail (s : State A K D) (node : A) : Option (State A K D) := do
  let q ← next s.heap (some node)
  if q = none then return { s with list := { s.list with tail := some node } } else return s

/-- The node goes in front of the one at `p`; `prev` is the node before that. -/
def linkBefore (s : State A K D) (prev p : Option A) (node : A) : Option (State A K D) :=
  if p = s.list.head then do
    let heap ← setNext s.heap (some node) s.list.head
    return ⟨heap, { s.list with head := some node }⟩
  else do
    let heap ← setNext s.heap prev (some node)
    let heap ← setNext heap (some node) p
    return ⟨heap, s.list⟩

/-- `_insert_node`. -/
def insertNode (s : State A K D) (pos : ℤ) (node : A) : Option (State A K D) :=
  if pos < s.list.size then do
    let (prev, p) ← advance s.heap pos.toNat s.list.head s.list.head
    let s ← linkBefore s prev p node
    let s ← fixTail s node
    return { s with list := { s.list with size := s.list.size + 1 } }
  else addNode s node

/-- The node takes the place of the one at `p`; `prev` is the node before that. -/
def linkInstead (s : State A K D) (prev p : Option A) (node : A) : Option (State A K D) :=
  if p = s.list.head then do
    let q ← next s.heap s.list.head
    let heap ← setNext s.heap (some node) q
    return ⟨heap, { s.list with head := some node }⟩
  else do
    let heap ← setNext s.heap prev (some node)
    let q ← next heap p
    let heap ← setNext heap (some node) q
    return ⟨heap, s.list⟩

/-- `_replace`. -/
def replace (s : State A K D) (pos : ℤ) (node : A) : Option (State A K D) :=
  if pos < s.list.size then do
    let (prev, p) ← advance s.heap pos.toNat s.list.head s.list.head
    let s ← linkInstead s prev p node
    let s ← fixTail s node
    let heap ← s.list.free s.heap p
    return { s with heap := heap }
  else return s

/-- `key_hit_test(p, key) == 0`. -/
def keyHit (heap : Heap A D) (test : D → K → Bool) (key : K) (a : A) : Option Bool :=
  (heap.lookup a).map fun c => test c.data key

/-- `_find_by_key`. -/
def findByKey (s : State A K D) (key : K) : Option (Option A) :=
  match s.list.keyHitTest with
  | some test => (scan s.heap (keyHit s.heap test key) none s.list.head).map Prod.snd
  | none => some none

/-- `_first_of`. -/
def firstOf (s : State A K D) : Option A := s.list.head

/-- `_last_of`. -/
def lastOf (s : State A K D) : Option A := s.list.tail

/-- `_node_at`. -/
def nodeAt (s : State A K D) (pos : ℤ) : Option (Option A) :=
  if pos < s.list.size then (advance s.heap pos.toNat none s.list.head).map Prod.snd
  else some none

/-- `_length_of`. -/
def lengthOf (s : State A K D) : ℤ := s.list.size

/-- Take the node at `p` out of the chain; `prev` is the node before it, or the
head when there is none. -/
def unlink (s : State A K D) (prev p : Option A) : Option (State A K D) :=
  if p = s.list.head then do
    let q ← next s.heap p
    return { s with list := { s.list with head := q, tail := if q = none then none else s.list.tail } }
  else if p = s.list.tail then do
    let heap ← setNext s.heap prev none
    return ⟨heap, { s.list with tail := prev }⟩
  else do
    let q ← next s.heap p
    let heap ← setNext s.heap prev q
    return ⟨heap, s.list⟩

/-- The node is unlinked and returned. -/
def takeOut (s : State A K D) (prev p : Option A) : Option (State A K D × Option A) := do
  let s ← unlink s prev p
  let heap ← setNext s.heap p none
  return (⟨heap, { s.list with size := s.list.size - 1 }⟩, p)

/-- The node is unlinked and freed. -/
def removeOut (s : State A K D) (prev p : Option A) : Option (State A K D) := do
  let s ← unlink s prev p
  let heap ← s.list.free s.heap p
  return ⟨heap, { s.list with size := s.list.size - 1 }⟩

/-- `_take_at`. -/
def takeAt (s : State A K D) (pos : ℤ) : Option (State A K D × Option A) :=
  if pos < s.list.size then do
    let (prev, p) ← advance s.heap pos.toNat s.list.head s.list.head
    takeOut s prev p
  else return (s, none)

/-- `_take_by_key`. -/
def takeByKey (s : State A K D) (key : K) : Option (State A K D × Option A) :=
  match s.list.keyHitTest with
  | some test => do
    let (prev, p) ← scan s.heap (keyHit s.heap test key) s.list.head s.list.head
    if p = none then return (s, none) else takeOut s prev p
  | none => return (s, none)

/-- The first node at which a search stops is unlinked and freed. -/
def removeFirst (s : State A K D) (stop : A → Option Bool) : Option (State A K D) := do
  let (prev, p) ← scan s.heap stop s.list.head s.list.head
  if p = none then return s else removeOut s prev p

/-- `_remove_node`. -/
def removeNode (s : State A K D) (node : A) : Option (State A K D) :=
  removeFirst s fun a => some (a == node)

/-- `_remove_at`. -/
def removeAt (s : State A K D) (pos : ℤ) : Option (State A K D) :=
  if pos < s.list.size then do
    let (prev, p) ← advance s.heap pos.toNat s.list.head s.list.head
    removeOut s prev p
  else return s

/-- `_remove_by_key`. -/
def removeByKey (s : State A K D) (key : K) : Option (State A K D) :=
  match s.list.keyHitTest with
  | some test => removeFirst s (keyHit s.heap test key)
  | none => some s

/-- `_clear_list`. -/
def clearList (s : State A K D) : Option (State A K D) :=
  (releaseAll s.list.free s.heap s.list.head).map fun heap =>
    ⟨heap, { s.list with head := none, tail := none, size := 0 }⟩

/-! ## The visited nodes -/

/-- Following `next` from `head` visits `xs`, each node once, and ends at `tail`;
`size` is their number. What the list frees a node with leaves all others alone. -/
structure Represents (s : State A K D) (xs : List A) : Prop where
  frees : Frees s.list.free
  seg : Seg s.heap s.list.head xs none
  nodup : xs.Nodup
  tail : s.list.tail = xs.getLast?
  size : s.list.size = xs.length

variable {s s' : State A K D} {a node : A} {xs ys : List A} {prev p : Option A}

theorem Represents.head (h : Represents s xs) : s.list.head = xs.head? := h.seg.start_eq

theorem Represents.frees_of_eq (h : Represents s xs) (hfree : s'.list.free = s.list.free) :
    Frees s'.list.free := by
  rw [hfree]
  exact h.frees

/-- Only the `next` pointers of the visited nodes count. -/
theorem Represents.congr_heap {heap : Heap A D} (h : Represents s xs)
    (hsame : ∀ a ∈ xs, nextAt heap a = nextAt s.heap a) : Represents ⟨heap, s.list⟩ xs :=
  ⟨h.frees, h.seg.congr hsame, h.nodup, h.tail, h.size⟩

/-- The loops stop with `p` at the node `a` and `prev` at the one before it. -/
theorem Represents.seg_split (h : Represents s (xs ++ a :: ys)) :
    Seg s.heap s.list.head xs (some a) ∧ ∃ q, nextAt s.heap a = some q ∧ Seg s.heap q ys none := by
  rcases seg_append.mp h.seg with ⟨r, hxs, hr, q, hq, hys⟩
  rw [hr] at hxs
  exact ⟨hxs, q, hq, hys⟩

theorem Represents.advance_eq (h : Represents s (xs ++ a :: ys)) (prev : Option A) :
    advance s.heap xs.length prev s.list.head = some (xs.getLast?.or prev, some a) :=
  Links.advance_eq h.seg_split.1 prev

theorem Represents.nodup_split (h : Represents s (xs ++ a :: ys)) :
    a ∉ xs ++ ys ∧ (xs ++ ys).Nodup := List.nodup_cons.mp (List.nodup_middle.mp h.nodup)

/-- The head is the node `a` if and only if no node is in front of it. -/
theorem Represents.eq_head_iff (h : Represents s (xs ++ a :: ys)) :
    some a = s.list.head ↔ xs = [] := by
  rw [h.head]
  constructor
  · intro heq
    by_contra hne
    rw [List.head?_append_of_ne_nil _ hne] at heq
    exact h.nodup_split.1 (List.mem_append_left _ (List.mem_of_head? heq.symm))
  · rintro rfl
    rfl

/-- The tail is the node `a` if and only if no node is behind it. -/
theorem Represents.eq_tail_iff (h : Represents s (xs ++ a :: ys)) :
    some a = s.list.tail ↔ ys = [] := by
  rw [h.tail, List.getLast?_append_of_ne_nil _ (List.cons_ne_nil a ys)]
  constructor
  · intro heq
    by_contra hne
    rw [← List.singleton_append, List.getLast?_append_of_ne_nil _ hne] at heq
    exact h.nodup_split.1 (List.mem_append_right _ (List.mem_of_getLast? heq.symm))
  · rintro rfl
    rfl

/-! ## Taking a node out -/

/-- `unlink` on the node `a`: the chain goes from the nodes in front of it to the
nodes behind it. The node itself, and everything outside of the list, is as
before. -/
theorem unlink_spec (h : Represents s (xs ++ a :: ys)) :
    ∃ s', unlink s (xs.getLast?.or s.list.head) (some a) = some s' ∧
      Seg s'.heap s'.list.head (xs ++ ys) none ∧ s'.list.tail = (xs ++ ys).getLast? ∧
      s'.list.size = s.list.size ∧ s'.list.free = s.list.free ∧
      ∀ b, b ∉ xs → s'.heap.lookup b = s.heap.lookup b := by
  rcases h.seg_split with ⟨hxs, q, hq, hys⟩
  have hnext : next s.heap (some a) = some q := hq
  have htail := h.tail
  rcases List.eq_nil_or_concat' xs with rfl | ⟨zs, z, rfl⟩
  · -- the first node
    have hstart : q = ys.head? := hys.start_eq
    refine ⟨⟨s.heap, { s.list with head := q, tail := if q = none then none else s.list.tail }⟩,
      ?_, hys, ?_, rfl, rfl, fun _ _ => rfl⟩
    · rw [unlink, if_pos (h.eq_head_iff.mpr rfl), hnext]
      rfl
    · show (if q = none then none else s.list.tail) = ys.getLast?
      rw [hstart, htail]
      cases ys with
      | nil => rfl
      | cons b ys => rfl
  · have hprev : ((zs ++ [z]).getLast?).or s.list.head = some z := by simp
    have hz : z ∉ zs ++ ys := by
      have hnodup := h.nodup_split.2
      rw [List.append_assoc, List.singleton_append] at hnodup
      exact (List.nodup_cons.mp (List.nodup_middle.mp hnodup)).1
    rw [List.mem_append, not_or] at hz
    have hother : ∀ {heap : Heap A D}, (∀ b, b ≠ z → heap.lookup b = s.heap.lookup b) →
        ∀ b, b ∉ zs ++ [z] → heap.lookup b = s.heap.lookup b := by
      intro heap hsame b hb
      apply hsame
      rintro rfl
      exact hb (by simp)
    have hcase : ¬ some a = s.list.head := mt h.eq_head_iff.mp (by simp)
    rw [hprev]
    cases ys with
    | nil =>
      -- the last node
      rcases hxs.setNext_last hz.1 none with ⟨heap, hset, hseg, hsame⟩
      refine ⟨⟨heap, { s.list with tail := some z }⟩, ?_, ?_, ?_, rfl, rfl, hother hsame⟩
      · rw [unlink, if_neg hcase, if_pos (h.eq_tail_iff.mpr rfl), hset]
        rfl
      · rw [List.append_nil]
        exact hseg
      · simp
    | cons b ys =>
      rcases hxs.setNext_last hz.1 q with ⟨heap, hset, hseg, hsame⟩
      refine ⟨⟨heap, s.list⟩, ?_, ?_, ?_, rfl, rfl, hother hsame⟩
      · rw [unlink, if_neg hcase, if_neg (mt h.eq_tail_iff.mp (List.cons_ne_nil b ys)), hnext]
        show (setNext s.heap (some z) q).bind _ = _
        rw [hset]
        rfl
      · exact seg_append.mpr ⟨q, hseg, hys.congr_lookup hz.2 hsame⟩
      · rw [htail]
        simp

/-- After `unlink` something is done to the node itself (`f`); the rest is a list
again. -/
theorem unlink_then {f : Heap A D → Option (Heap A D)} (h : Represents s (xs ++ a :: ys))
    (hf : ∀ heap, (heap.lookup a).isSome →
      ∃ heap', f heap = some heap' ∧ ∀ b, b ≠ a → heap'.lookup b = heap.lookup b) :
    ∃ s₁ heap, unlink s (xs.getLast?.or s.list.head) (some a) = some s₁ ∧ f s₁.heap = some heap ∧
      s₁.list.free = s.list.free ∧
      Represents ⟨heap, { s₁.list with size := s₁.list.size - 1 }⟩ (xs ++ ys) := by
  rcases unlink_spec h with ⟨s₁, hunlink, hseg, htail, hsize, hfree, hsame⟩
  have halloc : (s₁.heap.lookup a).isSome := by
    rw [hsame a fun hmem => h.nodup_split.1 (List.mem_append_left _ hmem)]
    exact h.seg.allocated (by simp)
  rcases hf s₁.heap halloc with ⟨heap, hdone, hheap⟩
  refine ⟨s₁, heap, hunlink, hdone, hfree, h.frees_of_eq hfree, ?_, h.nodup_split.2, htail, ?_⟩
  · exact hseg.congr_lookup h.nodup_split.1 hheap
  · have hlen := h.size
    rw [List.length_append, List.length_cons] at hlen
    show s₁.list.size - 1 = ((xs ++ ys).length : ℤ)
    rw [hsize, hlen, List.length_append]
    omega

theorem takeOut_spec (h : Represents s (xs ++ a :: ys)) :
    ∃ s', takeOut s (xs.getLast?.or s.list.head) (some a) = some (s', some a) ∧
      Represents s' (xs ++ ys) := by
  have hf : ∀ heap : Heap A D, (heap.lookup a).isSome → ∃ heap',
      setNext heap (some a) none = some heap' ∧ ∀ b, b ≠ a → heap'.lookup b = heap.lookup b := by
    intro heap halloc
    rcases setNext_eq_some halloc none with ⟨heap', hset, -, hother⟩
    exact ⟨heap', hset, hother⟩
  rcases unlink_then h hf with ⟨s₁, heap, hunlink, hset, -, h'⟩
  refine ⟨_, ?_, h'⟩
  rw [takeOut, hunlink]
  show (setNext s₁.heap (some a) none).bind _ = _
  rw [hset]
  rfl

theorem removeOut_spec (h : Represents s (xs ++ a :: ys)) :
    ∃ s', removeOut s (xs.getLast?.or s.list.head) (some a) = some s' ∧
      Represents s' (xs ++ ys) := by
  rcases unlink_then h fun heap => h.frees heap a with ⟨s₁, heap, hunlink, hgone, hfree, h'⟩
  refine ⟨_, ?_, h'⟩
  rw [removeOut, hunlink]
  show (s₁.list.free s₁.heap (some a)).bind _ = _
  rw [hfree, hgone]
  rfl

/-! ## Putting a node in -/

/-- A node that can be put in: it is allocated, and not in the list. -/
def Fresh (s : State A K D) (xs : List A) (node : A) : Prop :=
  (s.heap.lookup node).isSome ∧ node ∉ xs

omit [DecidableEq A] in
theorem nodup_snoc : (xs ++ [a]).Nodup ↔ a ∉ xs ∧ xs.Nodup := by
  rw [← List.concat_eq_append, List.nodup_concat]

theorem addNode_spec (h : Represents s xs) (hnode : Fresh s xs node) :
    ∃ s', addNode s node = some s' ∧ Represents s' (xs ++ [node]) := by
  have hnodup : (xs ++ [node]).Nodup := nodup_snoc.mpr ⟨hnode.2, h.nodup⟩
  have htail := h.tail
  rcases List.eq_nil_or_concat' xs with rfl | ⟨zs, z, rfl⟩
  · -- an empty list
    rcases setNext_eq_some hnode.1 none with ⟨heap, hset, hnext, -⟩
    refine ⟨⟨heap, { s.list with head := some node, tail := some node, size := 1 }⟩, ?_, ?_⟩
    · rw [List.getLast?_nil] at htail
      simp only [addNode, htail, hset]
      rfl
    · exact ⟨h.frees, ⟨rfl, none, hnext, rfl⟩, hnodup, rfl, rfl⟩
  · have hz : z ∉ zs := (nodup_snoc.mp h.nodup).1
    rcases h.seg.link hz hnode.1 hnode.2 none with ⟨heap₁, heap₂, hset₁, hset₂, hseg, -, -⟩
    refine ⟨⟨heap₂, { s.list with tail := some node, size := s.list.size + 1 }⟩, ?_, ?_⟩
    · rw [List.getLast?_concat] at htail
      simp only [addNode, htail, hset₁, Option.bind_eq_bind, Option.bind_some, hset₂]
      rfl
    · refine ⟨h.frees, hseg, hnodup, by simp, ?_⟩
      show s.list.size + 1 = (((zs ++ [z] ++ [node]).length : ℕ) : ℤ)
      rw [h.size]
      simp only [List.length_append, List.length_singleton]
      omega

/-- The new node is linked in behind the node `z`, with any successor; the nodes
from `a` on are not touched. -/
theorem link_behind {zs : List A} {z : A} (h : Represents s (zs ++ [z] ++ a :: ys))
    (hnode : Fresh s (zs ++ [z] ++ a :: ys) node) (r : Option A) :
    ∃ heap₁ heap₂, setNext s.heap (some z) (some node) = some heap₁ ∧
      setNext heap₁ (some node) r = some heap₂ ∧
      Seg heap₂ s.list.head (zs ++ [z] ++ [node]) r ∧ nextAt heap₁ a = nextAt s.heap a ∧
      ∀ b ∈ a :: ys, nextAt heap₂ b = nextAt s.heap b := by
  rcases List.nodup_append.mp h.nodup with ⟨hzs, -, hdisjoint⟩
  have hz' : z ∉ zs := (nodup_snoc.mp hzs).1
  have hnot : node ∉ zs ++ [z] := fun hmem => hnode.2 (List.mem_append_left _ hmem)
  rcases h.seg_split.1.link hz' hnode.1 hnot r with
    ⟨heap₁, heap₂, hset₁, hset₂, hseg, hsame₁, hsame₂⟩
  have hz : ∀ b ∈ a :: ys, b ≠ z := fun b hb heq => hdisjoint z (by simp) b hb heq.symm
  refine ⟨heap₁, heap₂, hset₁, hset₂, hseg, ?_, ?_⟩
  · rw [nextAt, hsame₁ a (hz a List.mem_cons_self), nextAt]
  · intro b hb
    have hne : b ≠ node := by
      rintro rfl
      exact hnode.2 (List.mem_append_right _ hb)
    rw [nextAt, hsame₂ b (hz b hb) hne, nextAt]

/-- The new node stands in front of the node `a`. -/
theorem linkBefore_spec (h : Represents s (xs ++ a :: ys)) (hnode : Fresh s (xs ++ a :: ys) node) :
    ∃ s', linkBefore s (xs.getLast?.or s.list.head) (some a) node = some s' ∧
      Seg s'.heap s'.list.head (xs ++ node :: a :: ys) none ∧ s'.list.tail = s.list.tail ∧
      s'.list.size = s.list.size ∧ s'.list.free = s.list.free := by
  rcases List.eq_nil_or_concat' xs with rfl | ⟨zs, z, rfl⟩
  · rcases setNext_eq_some hnode.1 s.list.head with ⟨heap, hset, hnext, hsame⟩
    refine ⟨⟨heap, { s.list with head := some node }⟩, ?_, ?_, rfl, rfl, rfl⟩
    · rw [linkBefore, if_pos (h.eq_head_iff.mpr rfl), hset]
      rfl
    · exact ⟨rfl, s.list.head, hnext, h.seg.congr_lookup hnode.2 hsame⟩
  · have hprev : ((zs ++ [z]).getLast?).or s.list.head = some z := by simp
    rcases link_behind h hnode (some a) with ⟨heap₁, heap₂, hset₁, hset₂, hseg, -, hsame⟩
    refine ⟨⟨heap₂, s.list⟩, ?_, ?_, rfl, rfl, rfl⟩
    · rw [linkBefore, if_neg (mt h.eq_head_iff.mp (by simp)), hprev, hset₁]
      show (setNext heap₁ (some node) (some a)).bind _ = _
      rw [hset₂]
      rfl
    · rcases seg_append.mp h.seg with ⟨q, -, hrest⟩
      have hq : q = some a := hrest.1
      subst hq
      have hall := seg_append.mpr ⟨some a, hseg, hrest.congr hsame⟩
      simpa using hall

/-- The tail is set when the node is the last one. -/
theorem fixTail_eq (hseg : Seg s.heap s.list.head (xs ++ node :: ys) none) :
    fixTail s node =
      some ⟨s.heap, { s.list with tail := if ys = [] then some node else s.list.tail }⟩ := by
  rcases seg_append.mp hseg with ⟨p, -, -, q, hq, hys⟩
  have hnext : next s.heap (some node) = some q := hq
  rw [fixTail, hnext, hys.start_eq]
  cases ys with
  | nil => rfl
  | cons b ys => rfl

omit [DecidableEq A] in
theorem exists_split {n : ℕ} (hn : n < xs.length) : ∃ as a bs, xs = as ++ a :: bs ∧ as.length = n :=
  ⟨xs.take n, xs[n], xs.drop (n + 1), by simp, List.length_take_of_le (Nat.le_of_lt hn)⟩

omit [DecidableEq A] in
theorem insertIdx_middle (xs ys : List A) : (xs ++ ys).insertIdx xs.length node = xs ++ node :: ys := by
  induction xs with
  | nil => rfl
  | cons a xs ih => rw [List.cons_append, List.length_cons, List.insertIdx_succ_cons, ih]; rfl

omit [DecidableEq A] in
theorem eraseIdx_middle (xs ys : List A) (a : A) :
    (xs ++ a :: ys).eraseIdx xs.length = xs ++ ys := by
  rw [List.eraseIdx_append_of_length_le (Nat.le_refl _), Nat.sub_self, List.eraseIdx_cons_zero]

theorem insertNode_spec {pos : ℤ} (h : Represents s xs) (hpos : 0 ≤ pos) (hnode : Fresh s xs node) :
    ∃ s', insertNode s pos node = some s' ∧
      Represents s' (xs.insertIdx (min pos.toNat xs.length) node) := by
  have hsize := h.size
  unfold insertNode
  split
  · rename_i hlt
    have hn : pos.toNat < xs.length := by omega
    rcases exists_split hn with ⟨as, a, bs, rfl, has⟩
    rcases linkBefore_spec h hnode with ⟨s₁, hlink, hseg, htail, hsize₁, hfree⟩
    have hmin : min pos.toNat (as ++ a :: bs).length = as.length := by
      rw [List.length_append]
      omega
    have hfix := fixTail_eq hseg
    rw [if_neg (List.cons_ne_nil a bs)] at hfix
    refine ⟨⟨s₁.heap, { s₁.list with size := s₁.list.size + 1 }⟩, ?_, ?_⟩
    · rw [← has, h.advance_eq]
      show (linkBefore s (as.getLast?.or s.list.head) (some a) node).bind _ = _
      rw [hlink]
      show (fixTail s₁ node).bind _ = _
      rw [hfix]
      rfl
    · rw [hmin, insertIdx_middle]
      refine ⟨h.frees_of_eq hfree, hseg, ?_, ?_, ?_⟩
      · rw [List.nodup_middle, List.nodup_cons]
        exact ⟨hnode.2, h.nodup⟩
      · show s₁.list.tail = _
        rw [htail, h.tail]
        simp
      · show s₁.list.size + 1 = _
        rw [hsize₁, hsize]
        simp only [List.length_append, List.length_cons]
        omega
  · rename_i hge
    have hn : xs.length ≤ pos.toNat := by omega
    rw [Nat.min_eq_right hn, List.insertIdx_length_self]
    exact addNode_spec h hnode

/-- The new node stands in the place of the node `a`. -/
theorem linkInstead_spec (h : Represents s (xs ++ a :: ys)) (hnode : Fresh s (xs ++ a :: ys) node) :
    ∃ s', linkInstead s (xs.getLast?.or s.list.head) (some a) node = some s' ∧
      Seg s'.heap s'.list.head (xs ++ node :: ys) none ∧ s'.list.tail = s.list.tail ∧
      s'.list.size = s.list.size ∧ s'.list.free = s.list.free ∧ (s'.heap.lookup a).isSome := by
  rcases h.seg_split with ⟨-, q, hq, hys⟩
  have hne : a ≠ node := by
    rintro rfl
    exact hnode.2 (by simp)
  rcases List.eq_nil_or_concat' xs with rfl | ⟨zs, z, rfl⟩
  · have hhead : some a = s.list.head := h.eq_head_iff.mpr rfl
    have hnext : next s.heap s.list.head = some q := by
      rw [← hhead]
      exact hq
    rcases setNext_eq_some hnode.1 q with ⟨heap, hset, hnext', hsame⟩
    refine ⟨⟨heap, { s.list with head := some node }⟩, ?_, ?_, rfl, rfl, rfl, ?_⟩
    · rw [linkInstead, if_pos hhead, hnext]
      show (setNext s.heap (some node) q).bind _ = _
      rw [hset]
      rfl
    · have hys' : node ∉ ys := fun hmem => hnode.2 (List.mem_cons_of_mem _ hmem)
      exact ⟨rfl, q, hnext', hys.congr_lookup hys' hsame⟩
    · show (heap.lookup a).isSome
      rw [hsame a hne]
      exact h.seg.allocated (by simp)
  · have hprev : ((zs ++ [z]).getLast?).or s.list.head = some z := by simp
    rcases link_behind h hnode q with ⟨heap₁, heap₂, hset₁, hset₂, hseg, hsame₁, hsame₂⟩
    have hnext : next heap₁ (some a) = some q := hsame₁.trans hq
    refine ⟨⟨heap₂, s.list⟩, ?_, ?_, rfl, rfl, rfl, ?_⟩
    · rw [linkInstead, if_neg (mt h.eq_head_iff.mp (by simp)), hprev, hset₁]
      show (next heap₁ (some a)).bind _ = _
      rw [hnext]
      show (setNext heap₁ (some node) q).bind _ = _
      rw [hset₂]
      rfl
    · have hys' : Seg heap₂ q ys none := hys.congr fun b hb => hsame₂ b (List.mem_cons_of_mem _ hb)
      have hall := seg_append.mpr ⟨q, hseg, hys'⟩
      simpa using hall
    · have hsome : (nextAt heap₂ a).isSome := by
        rw [hsame₂ a List.mem_cons_self, hq]
        rfl
      rwa [nextAt, Option.isSome_map] at hsome

theorem replace_spec {pos : ℤ} (h : Represents s xs) (hpos : 0 ≤ pos) (hnode : Fresh s xs node) :
    ∃ s', replace s pos node = some s' ∧ Represents s' (xs.set pos.toNat node) := by
  have hsize := h.size
  unfold replace
  split
  · rename_i hlt
    have hn : pos.toNat < xs.length := by omega
    rcases exists_split hn with ⟨as, a, bs, rfl, has⟩
    rcases linkInstead_spec h hnode with ⟨s₁, hlink, hseg, htail, hsize₁, hfree, halloc⟩
    rcases h.frees s₁.heap a halloc with ⟨heap, hgone, hsame⟩
    have hset : (as ++ a :: bs).set pos.toNat node = as ++ node :: bs := by
      rw [← has]
      simp
    have hsplit := h.nodup_split
    have hnot : node ∉ as ++ bs ∧ node ≠ a := by
      have hall := hnode.2
      simp only [List.mem_append, List.mem_cons, not_or] at hall ⊢
      exact ⟨⟨hall.1, hall.2.2⟩, hall.2.1⟩
    have hout : a ∉ as ++ node :: bs := by
      have hother := hsplit.1
      simp only [List.mem_append, List.mem_cons, not_or] at hother ⊢
      exact ⟨hother.1, Ne.symm hnot.2, hother.2⟩
    have hfixed := fixTail_eq hseg
    refine ⟨⟨heap, { s₁.list with tail := if bs = [] then some node else s₁.list.tail }⟩, ?_, ?_⟩
    · rw [← has, h.advance_eq]
      show (linkInstead s (as.getLast?.or s.list.head) (some a) node).bind _ = _
      rw [hlink]
      show (fixTail s₁ node).bind _ = _
      rw [hfixed]
      show (s₁.list.free s₁.heap (some a)).bind _ = _
      rw [hfree, hgone]
      rfl
    · rw [hset]
      refine ⟨h.frees_of_eq hfree, hseg.congr_lookup hout hsame, ?_, ?_, ?_⟩
      · rw [List.nodup_middle, List.nodup_cons]
        exact ⟨hnot.1, hsplit.2⟩
      · show (if bs = [] then some node else s₁.list.tail) = _
        rw [htail, h.tail]
        cases bs with
        | nil => simp
        | cons b bs => simp
      · show s₁.list.size = _
        rw [hsize₁, hsize]
        simp
  · rename_i hge
    refine ⟨s, rfl, ?_⟩
    rw [List.set_eq_of_length_le (by omega)]
    exact h

/-! ## By position -/

section Position

variable {pos : ℤ} (h : Represents s xs) (hpos : 0 ≤ pos)

include h hpos

theorem nodeAt_spec : nodeAt s pos = some xs[pos.toNat]? := by
  have hsize := h.size
  unfold nodeAt
  split
  · have hn : pos.toNat < xs.length := by omega
    rcases exists_split hn with ⟨as, a, bs, rfl, has⟩
    rw [← has, h.advance_eq]
    simp
  · rw [List.getElem?_eq_none (by omega)]

theorem takeAt_spec :
    ∃ s', takeAt s pos = some (s', xs[pos.toNat]?) ∧ Represents s' (xs.eraseIdx pos.toNat) := by
  have hsize := h.size
  unfold takeAt
  split
  · have hn : pos.toNat < xs.length := by omega
    rcases exists_split hn with ⟨as, a, bs, rfl, has⟩
    rcases takeOut_spec h with ⟨s', htake, h'⟩
    refine ⟨s', ?_, ?_⟩
    · rw [← has, h.advance_eq]
      show takeOut s (as.getLast?.or s.list.head) (some a) = _
      rw [htake]
      simp
    · rw [← has, eraseIdx_middle]
      exact h'
  · rw [List.getElem?_eq_none (by omega), List.eraseIdx_of_length_le (by omega)]
    exact ⟨s, rfl, h⟩

theorem removeAt_spec :
    ∃ s', removeAt s pos = some s' ∧ Represents s' (xs.eraseIdx pos.toNat) := by
  have hsize := h.size
  unfold removeAt
  split
  · have hn : pos.toNat < xs.length := by omega
    rcases exists_split hn with ⟨as, a, bs, rfl, has⟩
    rcases removeOut_spec h with ⟨s', hremove, h'⟩
    refine ⟨s', ?_, ?_⟩
    · rw [← has, h.advance_eq]
      exact hremove
    · rw [← has, eraseIdx_middle]
      exact h'
  · rw [List.eraseIdx_of_length_le (by omega)]
    exact ⟨s, rfl, h⟩

end Position

/-! ## By key, and by address -/

/-- The key test hits the node. -/
def hits (s : State A K D) (key : K) (a : A) : Bool :=
  match s.list.keyHitTest with
  | some test => (keyHit s.heap test key a).getD false
  | none => false

theorem not_hits (htest : s.list.keyHitTest = none) (key : K) (a : A) : ¬ hits s key a = true := by
  simp [hits, htest]

omit [DecidableEq A] in
/-- Either no node is hit, or the list is split at the first one that is. -/
theorem find_cases (f : A → Bool) (xs : List A) :
    ((∀ a ∈ xs, f a = false) ∧ xs.find? f = none ∧ xs.eraseP f = xs) ∨
      ∃ as a bs, xs = as ++ a :: bs ∧ (∀ b ∈ as, f b = false) ∧ f a = true ∧
        xs.find? f = some a ∧ xs.eraseP f = as ++ bs := by
  rcases hfind : xs.find? f with - | a
  · left
    rw [List.find?_eq_none] at hfind
    exact ⟨fun a ha => by simpa using hfind a ha, rfl, List.eraseP_of_forall_not hfind⟩
  · right
    rcases List.find?_eq_some_iff_append.mp hfind with ⟨ha, as, bs, rfl, has⟩
    have has' : ∀ b ∈ as, ¬ f b = true := fun b hb => by simpa using has b hb
    refine ⟨as, a, bs, rfl, fun b hb => by simpa using has b hb, ha, rfl, ?_⟩
    rw [List.eraseP_append_right _ has', List.eraseP_cons_of_pos ha]

theorem keyHit_eq {test : D → K → Bool} (h : Represents s xs) (htest : s.list.keyHitTest = some test)
    (key : K) (ha : a ∈ xs) : keyHit s.heap test key a = some (hits s key a) := by
  rcases Option.isSome_iff_exists.mp (h.seg.allocated ha) with ⟨c, hc⟩
  simp [hits, htest, keyHit, hc]

/-- A search through the list for the first node with `f`. -/
theorem Represents.scan_eq {stop : A → Option Bool} {f : A → Bool} (h : Represents s xs)
    (hstop : ∀ a ∈ xs, stop a = some (f a)) (prev : Option A) :
    (∃ q, scan s.heap stop prev s.list.head = some (q, none) ∧ xs.find? f = none ∧
        xs.eraseP f = xs) ∨
      ∃ as a bs, xs = as ++ a :: bs ∧
        scan s.heap stop prev s.list.head = some (as.getLast?.or prev, some a) ∧
        xs.find? f = some a ∧ xs.eraseP f = as ++ bs := by
  rcases find_cases f xs with ⟨hnone, hfind, herase⟩ | ⟨as, a, bs, rfl, has, ha, hfind, herase⟩
  · left
    refine ⟨xs.getLast?.or prev, ?_, hfind, herase⟩
    have hseg : Seg s.heap s.list.head (xs ++ []) none := by
      rw [List.append_nil]
      exact h.seg
    apply Links.scan_eq hseg
    · rw [List.append_nil]
      exact h.nodup
    · intro a ha
      rw [hstop a ha, hnone a ha]
    · simp
  · right
    refine ⟨as, a, bs, rfl, ?_, hfind, herase⟩
    apply Links.scan_eq h.seg h.nodup
    · intro b hb
      rw [hstop b (List.mem_append_left _ hb), has b hb]
    · rintro b ⟨⟩
      rw [hstop a (by simp), ha]

theorem removeFirst_spec {stop : A → Option Bool} {f : A → Bool} (h : Represents s xs)
    (hstop : ∀ a ∈ xs, stop a = some (f a)) :
    ∃ s', removeFirst s stop = some s' ∧ Represents s' (xs.eraseP f) := by
  unfold removeFirst
  rcases h.scan_eq hstop s.list.head with
    ⟨q, hscan, -, herase⟩ | ⟨as, a, bs, rfl, hscan, -, herase⟩
  · rw [hscan, herase]
    exact ⟨s, rfl, h⟩
  · rw [hscan, herase]
    exact removeOut_spec h

section Key

variable (h : Represents s xs) (key : K)

include h

theorem findByKey_spec : findByKey s key = some (xs.find? (hits s key)) := by
  unfold findByKey
  split
  · rename_i test htest
    rcases h.scan_eq (fun a ha => keyHit_eq h htest key ha) none with
      ⟨q, hscan, hfind, -⟩ | ⟨as, a, bs, rfl, hscan, hfind, -⟩
    · rw [hscan, hfind]
      rfl
    · rw [hscan, hfind]
      rfl
  · rename_i htest
    have hnone := not_hits htest key
    rw [List.find?_eq_none.mpr fun a _ => hnone a]

theorem takeByKey_spec :
    ∃ s', takeByKey s key = some (s', xs.find? (hits s key)) ∧
      Represents s' (xs.eraseP (hits s key)) := by
  unfold takeByKey
  split
  · rename_i test htest
    rcases h.scan_eq (fun a ha => keyHit_eq h htest key ha) s.list.head with
      ⟨q, hscan, hfind, herase⟩ | ⟨as, a, bs, rfl, hscan, hfind, herase⟩
    · rw [hscan, hfind, herase]
      exact ⟨s, rfl, h⟩
    · rw [hscan, hfind, herase]
      exact takeOut_spec h
  · rename_i htest
    have hnone := not_hits htest key
    rw [List.eraseP_of_forall_not fun a _ => hnone a, List.find?_eq_none.mpr fun a _ => hnone a]
    exact ⟨s, rfl, h⟩

theorem removeByKey_spec :
    ∃ s', removeByKey s key = some s' ∧ Represents s' (xs.eraseP (hits s key)) := by
  unfold removeByKey
  split
  · rename_i test htest
    exact removeFirst_spec h fun a ha => keyHit_eq h htest key ha
  · rename_i htest
    have hnone := not_hits htest key
    rw [List.eraseP_of_forall_not fun a _ => hnone a]
    exact ⟨s, rfl, h⟩

end Key

theorem removeNode_spec (h : Represents s xs) (node : A) :
    ∃ s', removeNode s node = some s' ∧ Represents s' (xs.erase node) := by
  rw [List.erase_eq_eraseP']
  exact removeFirst_spec h fun _ _ => rfl

theorem clearList_spec (h : Represents s xs) :
    ∃ s', clearList s = some s' ∧ Represents s' ([] : List A) := by
  rcases releaseAll_eq h.frees h.seg h.nodup with ⟨heap, hfree, -⟩
  refine ⟨⟨heap, { s.list with head := none, tail := none, size := 0 }⟩, ?_, ?_⟩
  · rw [clearList, hfree]
    rfl
  · exact ⟨h.frees, rfl, List.nodup_nil, rfl, rfl⟩

/-! ## Sequences of operations -/

/-- The operations that change a list. -/
inductive Op (A K : Type) where
  | add (node : A)
  | insert (pos : ℤ) (node : A)
  | replace (pos : ℤ) (node : A)
  | takeAt (pos : ℤ)
  | takeByKey (key : K)
  | remove (node : A)
  | removeAt (pos : ℤ)
  | removeByKey (key : K)
  | clear

/-- The function behind an operation: the list and the memory afterwards, and the
node that is returned, which only the `take` operations do. -/
def Op.apply (s : State A K D) : Op A K → Option (State A K D × Option A)
  | .add node => (addNode s node).map (·, none)
  | .insert pos node => (insertNode s pos node).map (·, none)
  | .replace pos node => (SList.replace s pos node).map (·, none)
  | .takeAt pos => SList.takeAt s pos
  | .takeByKey key => SList.takeByKey s key
  | .remove node => (removeNode s node).map (·, none)
  | .removeAt pos => (SList.removeAt s pos).map (·, none)
  | .removeByKey key => (SList.removeByKey s key).map (·, none)
  | .clear => (clearList s).map (·, none)

/-- What an operation is for, on the sequence of the nodes. -/
def Op.effect (s : State A K D) (xs : List A) : Op A K → List A × Option A
  | .add node => (xs ++ [node], none)
  | .insert pos node => (xs.insertIdx (min pos.toNat xs.length) node, none)
  | .replace pos node => (xs.set pos.toNat node, none)
  | .takeAt pos => (xs.eraseIdx pos.toNat, xs[pos.toNat]?)
  | .takeByKey key => (xs.eraseP (hits s key), xs.find? (hits s key))
  | .remove node => (xs.erase node, none)
  | .removeAt pos => (xs.eraseIdx pos.toNat, none)
  | .removeByKey key => (xs.eraseP (hits s key), none)
  | .clear => ([], none)

/-- What the caller has to see to: positions are not negative, and nodes are put
in that are allocated and not in the list. -/
def Op.Allowed (s : State A K D) (xs : List A) : Op A K → Prop
  | .add node => Fresh s xs node
  | .insert pos node | .replace pos node => 0 ≤ pos ∧ Fresh s xs node
  | .takeAt pos | .removeAt pos => 0 ≤ pos
  | .takeByKey _ | .remove _ | .removeByKey _ | .clear => True

instance (s : State A K D) (xs : List A) (node : A) : Decidable (Fresh s xs node) :=
  inferInstanceAs (Decidable (_ ∧ _))

instance (s : State A K D) (xs : List A) : (op : Op A K) → Decidable (op.Allowed s xs)
  | .add node => inferInstanceAs (Decidable (Fresh s xs node))
  | .insert pos node | .replace pos node => inferInstanceAs (Decidable (0 ≤ pos ∧ Fresh s xs node))
  | .takeAt pos | .removeAt pos => inferInstanceAs (Decidable (0 ≤ pos))
  | .takeByKey _ | .remove _ | .removeByKey _ | .clear => inferInstanceAs (Decidable True)

/-- One operation. -/
theorem apply_spec (h : Represents s xs) {op : Op A K} (hop : op.Allowed s xs) :
    ∃ s', op.apply s = some (s', (op.effect s xs).2) ∧ Represents s' (op.effect s xs).1 := by
  have hunit : ∀ {o : Option (State A K D)} {ys : List A}, (∃ s', o = some s' ∧ Represents s' ys) →
      ∃ s', o.map (·, none) = some (s', (none : Option A)) ∧ Represents s' ys := by
    rintro o ys ⟨s', rfl, h'⟩
    exact ⟨s', rfl, h'⟩
  cases op with
  | add node => exact hunit (addNode_spec h hop)
  | insert pos node => exact hunit (insertNode_spec h hop.1 hop.2)
  | replace pos node => exact hunit (replace_spec h hop.1 hop.2)
  | takeAt pos => exact takeAt_spec h hop
  | takeByKey key => exact takeByKey_spec h key
  | remove node => exact hunit (removeNode_spec h node)
  | removeAt pos => exact hunit (removeAt_spec h hop)
  | removeByKey key => exact hunit (removeByKey_spec h key)
  | clear => exact hunit (clearList_spec h)

/-! ## Runs

Between two operations the rest of the program goes on: it allocates nodes and
frees those it was given back, and changes what is in them. -/

/-- The nodes that are met from `head` on. -/
def visited (s : State A K D) : List A := visit s.heap s.list.head

theorem Represents.visited_eq (h : Represents s xs) : visited s = xs := visit_eq h.seg h.nodup

inductive Label (A K D : Type) where
  | op (o : Op A K)
  | outside (heap : Heap A D)

/-- A step emits what the operation returns. -/
def step (s : State A K D) : Label A K D → Option (State A K D × List (Option A))
  | .op o => (o.apply s).map fun r => (r.1, [r.2])
  | .outside heap => some (⟨heap, s.list⟩, [])

/-- The rest of the program keeps away from the `next` pointers of the list. -/
def Good (s : State A K D) : Label A K D → Prop
  | .op o => o.Allowed s (visited s)
  | .outside heap => ∀ a ∈ visited s, nextAt heap a = nextAt s.heap a

instance (s : State A K D) : (l : Label A K D) → Decidable (Good s l)
  | .op o => inferInstanceAs (Decidable (o.Allowed s (visited s)))
  | .outside heap => inferInstanceAs (Decidable (∀ a ∈ visited s, nextAt heap a = nextAt s.heap a))

section Runs

variable {opFree : Option (Heap A D → Option A → Option (Heap A D))}
  {opCmp : Option (D → K → Bool)} {heap₀ : Heap A D} {tr : List (Option A)}

theorem represents_new (hfree : ∀ f, opFree = some f → Frees f) :
    Represents (⟨heap₀, newSingleList opFree opCmp⟩ : State A K D) [] := by
  refine ⟨?_, rfl, List.nodup_nil, rfl, rfl⟩
  show Frees (opFree.getD release)
  cases opFree with
  | none => exact frees_release
  | some f => exact hfree f rfl

/-- One step keeps the chain, the two pointers and the size in agreement. -/
theorem step_represents {l : Label A K D} {ev : List (Option A)} (h : Represents s (visited s))
    (hgood : Good s l) (hstep : step s l = some (s', ev)) : Represents s' (visited s') := by
  cases l with
  | op o =>
    rcases apply_spec h hgood with ⟨s₁, happly, h₁⟩
    simp only [step, happly, Option.map_some, Option.some.injEq, Prod.mk.injEq] at hstep
    rcases hstep with ⟨rfl, -⟩
    rw [h₁.visited_eq]
    exact h₁
  | outside heap =>
    simp only [step, Option.some.injEq, Prod.mk.injEq] at hstep
    rcases hstep with ⟨rfl, -⟩
    have h₁ := h.congr_heap hgood
    rw [h₁.visited_eq]
    exact h₁

theorem represents_of_runs (hfree : ∀ f, opFree = some f → Frees f)
    (hrun : Exec.Runs step Good (⟨heap₀, newSingleList opFree opCmp⟩ : State A K D) tr s) :
    Represents s (visited s) := by
  apply hrun.invariant (H := fun _ => True) (P := fun _ s => Represents s (visited s))
  · intro _ _ _
    trivial
  · have hnew : Represents (⟨heap₀, newSingleList opFree opCmp⟩ : State A K D) [] :=
      represents_new hfree
    rw [hnew.visited_eq]
    exact hnew
  · intro _ _ _ _ _ _ _ hs hgood hstep
    exact step_represents hs hgood hstep
  · trivial

/-- After any sequence of operations, with `xs` for the nodes that are met from
`head` on: `xs` ends in NULL, has no node twice, `size` nodes, and the last of them
is `tail`; `find_by_key`, `at`, `first`, `last` and `length` read it; and each
operation that is allowed is defined and has its effect on it. -/
theorem slist_refines_sequence (hfree : ∀ f, opFree = some f → Frees f)
    (hrun : Exec.Runs step Good (⟨heap₀, newSingleList opFree opCmp⟩ : State A K D) tr s) :
    let xs := visited s
    (Seg s.heap s.list.head xs none ∧ xs.Nodup ∧ s.list.size = xs.length ∧
        s.list.tail = xs.getLast?) ∧
      ((s.list.head = none ↔ s.list.size = 0) ∧ (s.list.tail = none ↔ s.list.size = 0)) ∧
      ((∀ key, findByKey s key = some (xs.find? (hits s key))) ∧
        (∀ pos : ℤ, 0 ≤ pos → nodeAt s pos = some xs[pos.toNat]?) ∧
        firstOf s = xs.head? ∧ lastOf s = xs.getLast? ∧ lengthOf s = xs.length) ∧
      ∀ op : Op A K, op.Allowed s xs → ∃ s', op.apply s = some (s', (op.effect s xs).2) ∧
        visited s' = (op.effect s xs).1 := by
  intro xs
  have h : Represents s xs := represents_of_runs hfree hrun
  have hempty : s.list.size = 0 ↔ xs = [] := by
    rw [h.size]
    simp
  refine ⟨⟨h.seg, h.nodup, h.size, h.tail⟩, ⟨?_, ?_⟩, ⟨?_, ?_, h.head, h.tail, h.size⟩, ?_⟩
  · rw [h.head, hempty, List.head?_eq_none_iff]
  · rw [h.tail, hempty, List.getLast?_eq_none_iff]
  · intro key
    exact findByKey_spec h key
  · intro pos hpos
    exact nodeAt_spec h hpos
  · intro op hop
    rcases apply_spec h hop with ⟨s', happly, h'⟩
    exact ⟨s', happly, h'.visited_eq⟩

/-- Three nodes, with 10, 20 and 30 in them. -/
def threeNodes : Heap ℕ ℕ :=
  ((AList.insert 1 ⟨none, 10⟩ ∅).insert 2 ⟨none, 20⟩).insert 3 ⟨none, 30⟩

/-- The list with the nodes 2 and 1, after the node 3 was put in between them and
removed by its key. -/
theorem slist_refines_sequence_two_one :
    ∃ s : State ℕ ℕ ℕ, visited s = [2, 1] ∧ s.list.size = 2 ∧ s.list.tail = some 1 ∧
      findByKey s 10 = some (some 1) ∧ nodeAt s 0 = some (some 2) := by
  have hsome : (Exec.run step Good
      (⟨threeNodes, newSingleList (some release) (some fun d k => d == k)⟩ : State ℕ ℕ ℕ)
      [.op (.add 1), .op (.insert 0 2), .op (.insert 1 3), .op (.removeByKey 30)]).isSome := by
    decide
  have hlist := slist_refines_sequence (fun f hf => by cases hf; exact frees_release)
    (Exec.runs_of_isSome hsome)
  refine ⟨_, rfl, hlist.1.2.2.1, hlist.1.2.2.2, ?_, ?_⟩
  · exact hlist.2.2.1.1 10
  · exact hlist.2.2.1.2.1 0 (by decide)

end Runs

end MqttMsgHub.SList
