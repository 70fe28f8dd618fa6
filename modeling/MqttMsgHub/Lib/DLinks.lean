import Mathlib.Data.List.AList
import Mathlib.Data.List.Induction

/-! # Doubly linked nodes

A heap of nodes with a `prev` and a `next` pointer each, and a value. An access
through the NULL pointer or to a node that is not allocated is undefined (`none`).

* `Chain` — a list of nodes, each linked to the one before it and the one behind it;
* `Relinks` — a change of the heap that touches the pointers of some nodes only;
* `Chain.setNext_last`, `Chain.setPrev_first` — a chain gets another end or start;
* `Path` — the nodes met when the pointers of one direction are followed;
  `Chain.forward`, `Chain.backward`, `visit_eq`.
-/

namespace DLinks

variable {A V : Type*} [DecidableEq A]

/-! ## Heaps -/

structure Node (A V : Type*) where
  prev : Option A
  next : Option A
  val : V
deriving DecidableEq

abbrev Heap (A V : Type*) := AList fun _ : A => Node A V

/-- `a->val`. -/
def valAt (h : Heap A V) (a : A) : Option V := (h.lookup a).map Node.val

/-- `p->next = q`. -/
def setNext (h : Heap A V) (p q : Option A) : Option (Heap A V) :=
  p.bind fun a => (h.lookup a).map fun n => h.insert a { n with next := q }

/-- `p->prev = q`. -/
def setPrev (h : Heap A V) (p q : Option A) : Option (Heap A V) :=
  p.bind fun a => (h.lookup a).map fun n => h.insert a { n with prev := q }

/-- `free(a)`. -/
def release (h : Heap A V) (a : A) : Option (Heap A V) :=
  if (h.lookup a).isSome then some (h.erase a) else none

/-- The pointers of the nodes `zs` may have changed, and nothing else. -/
structure Relinks (zs : List A) (h h' : Heap A V) : Prop where
  other : ∀ b, b ∉ zs → h'.lookup b = h.lookup b
  val : ∀ b, valAt h' b = valAt h b

variable {h h' h'' : Heap A V} {a b z : A} {p q e e' : Option A} {xs ys zs ws : List A}

theorem Relinks.refl (h : Heap A V) : Relinks [] h h := ⟨fun _ _ => rfl, fun _ => rfl⟩

theorem Relinks.trans (h₁ : Relinks zs h h') (h₂ : Relinks ws h' h'') : Relinks (zs ++ ws) h h'' where
  other := by
    intro b hb
    rw [List.mem_append, not_or] at hb
    rw [h₂.other b hb.2, h₁.other b hb.1]
  val := fun b => (h₂.val b).trans (h₁.val b)

theorem Relinks.mono (hrel : Relinks zs h h') (hsub : zs ⊆ ws) : Relinks ws h h' :=
  ⟨fun b hb => hrel.other b fun hmem => hb (hsub hmem), hrel.val⟩

theorem Relinks.isSome (hrel : Relinks zs h h') (b : A) :
    (h'.lookup b).isSome = (h.lookup b).isSome := by
  have hval := congrArg Option.isSome (hrel.val b)
  rwa [valAt, valAt, Option.isSome_map, Option.isSome_map] at hval

/-- A node gets other pointers. -/
theorem relinks_insert {n n' : Node A V} (hn : h.lookup a = some n) (hval : n'.val = n.val) :
    Relinks [a] h (h.insert a n') where
  other := fun b hb => AList.lookup_insert_ne fun heq => hb (List.mem_singleton.mpr heq)
  val := by
    intro b
    by_cases hb : b = a
    · subst hb
      simp [valAt, hn, hval]
    · rw [valAt, AList.lookup_insert_ne hb, valAt]

theorem setNext_eq_some {n : Node A V} (hn : h.lookup a = some n) (q : Option A) :
    ∃ h', setNext h (some a) q = some h' ∧ h'.lookup a = some { n with next := q } ∧
      Relinks [a] h h' :=
  ⟨h.insert a { n with next := q }, by simp [setNext, hn], AList.lookup_insert h,
    relinks_insert hn rfl⟩

theorem setPrev_eq_some {n : Node A V} (hn : h.lookup a = some n) (q : Option A) :
    ∃ h', setPrev h (some a) q = some h' ∧ h'.lookup a = some { n with prev := q } ∧
      Relinks [a] h h' :=
  ⟨h.insert a { n with prev := q }, by simp [setPrev, hn], AList.lookup_insert h,
    relinks_insert hn rfl⟩

/-! ## Chains -/

/-- The nodes `xs` in their order: `p` is before the first one, `e` behind the last. -/
def Chain (h : Heap A V) : Option A → List A → Option A → Prop
  | _, [], _ => True
  | p, a :: xs, e => (∃ v, h.lookup a = some ⟨p, xs.head?.or e, v⟩) ∧ Chain h (some a) xs e

omit [DecidableEq A] in
theorem getLast?_cons_or (a : A) (xs : List A) (p : Option A) :
    (a :: xs).getLast?.or p = xs.getLast?.or (some a) := by
  rw [List.getLast?_cons]
  cases xs.getLast? <;> rfl

theorem chain_append :
    Chain h p (xs ++ ys) e ↔ Chain h p xs (ys.head?.or e) ∧ Chain h (xs.getLast?.or p) ys e := by
  induction xs generalizing p with
  | nil => simp [Chain]
  | cons a xs ih =>
    rw [List.cons_append, Chain, Chain, ih, getLast?_cons_or, List.head?_append, Option.or_assoc,
      and_assoc]

theorem chain_singleton : Chain h p [a] e ↔ ∃ v, h.lookup a = some ⟨p, e, v⟩ := by
  simp [Chain]

/-- A chain depends on its own nodes only. -/
theorem Chain.congr (hchain : Chain h p xs e) (hsame : ∀ a ∈ xs, h'.lookup a = h.lookup a) :
    Chain h' p xs e := by
  induction xs generalizing p with
  | nil => trivial
  | cons a xs ih =>
    rcases hchain with ⟨⟨v, hv⟩, hrest⟩
    rw [List.forall_mem_cons] at hsame
    exact ⟨⟨v, hsame.1.trans hv⟩, ih hrest hsame.2⟩

theorem Chain.relinks (hchain : Chain h p xs e) (hrel : Relinks zs h h') (hout : ∀ a ∈ xs, a ∉ zs) :
    Chain h' p xs e :=
  hchain.congr fun a ha => hrel.other a (hout a ha)

theorem Chain.allocated (hchain : Chain h p xs e) (ha : a ∈ xs) : (h.lookup a).isSome := by
  induction xs generalizing p with
  | nil => cases ha
  | cons b xs ih =>
    rcases hchain with ⟨⟨v, hv⟩, hrest⟩
    rcases List.mem_cons.mp ha with rfl | hmem
    · rw [hv]
      rfl
    · exact ih hrest hmem

/-- The last node of a chain gets another successor. -/
theorem Chain.setNext_last (hchain : Chain h p (xs ++ [z]) e) (hz : z ∉ xs) (e' : Option A) :
    ∃ h', setNext h (some z) e' = some h' ∧ Chain h' p (xs ++ [z]) e' ∧ Relinks [z] h h' := by
  rcases chain_append.mp hchain with ⟨hxs, hlast⟩
  rcases chain_singleton.mp hlast with ⟨v, hv⟩
  rcases setNext_eq_some hv e' with ⟨h', hset, hnew, hrel⟩
  refine ⟨h', hset, chain_append.mpr ⟨?_, chain_singleton.mpr ⟨v, hnew⟩⟩, hrel⟩
  apply hxs.relinks hrel
  rintro b hb hmem
  exact hz (List.mem_singleton.mp hmem ▸ hb)

/-- The first node of a chain gets another predecessor. -/
theorem Chain.setPrev_first (hchain : Chain h p (z :: ys) e) (hz : z ∉ ys) (p' : Option A) :
    ∃ h', setPrev h (some z) p' = some h' ∧ Chain h' p' (z :: ys) e ∧ Relinks [z] h h' := by
  rcases hchain with ⟨⟨v, hv⟩, hys⟩
  rcases setPrev_eq_some hv p' with ⟨h', hset, hnew, hrel⟩
  refine ⟨h', hset, ⟨⟨v, hnew⟩, ?_⟩, hrel⟩
  apply hys.relinks hrel
  rintro b hb hmem
  exact hz (List.mem_singleton.mp hmem ▸ hb)

/-! ## Paths -/

inductive Direction where
  | forward
  | backward
deriving DecidableEq

def Node.towards (n : Node A V) : Direction → Option A
  | .forward => n.next
  | .backward => n.prev

/-- From `p` on, the pointers of the direction lead along the nodes `xs` to NULL. -/
def Path (h : Heap A V) (d : Direction) : Option A → List A → Prop
  | p, [] => p = none
  | p, a :: xs => p = some a ∧ ∃ n, h.lookup a = some n ∧ Path h d (n.towards d) xs

theorem Chain.forward (hchain : Chain h p xs none) : Path h .forward xs.head? xs := by
  induction xs generalizing p with
  | nil => rfl
  | cons a xs ih =>
    rcases hchain with ⟨⟨v, hv⟩, hrest⟩
    refine ⟨rfl, _, hv, ?_⟩
    show Path h .forward (xs.head?.or none) xs
    rw [Option.or_none]
    exact ih hrest

theorem Chain.backward (hchain : Chain h none xs e) : Path h .backward xs.getLast? xs.reverse := by
  induction xs using List.reverseRecOn generalizing e with
  | nil => rfl
  | append_singleton xs a ih =>
    rcases chain_append.mp hchain with ⟨hxs, hlast⟩
    rcases chain_singleton.mp hlast with ⟨v, hv⟩
    rw [List.reverse_append, List.getLast?_concat]
    refine ⟨rfl, _, hv, ?_⟩
    show Path h .backward (xs.getLast?.or none) xs.reverse
    rw [Option.or_none]
    exact ih hxs

theorem Path.start_eq {d : Direction} (hpath : Path h d p xs) : p = xs.head? := by
  cases xs with
  | nil => exact hpath
  | cons a xs => exact hpath.1

theorem Path.allocated {d : Direction} (hpath : Path h d p xs) (ha : a ∈ xs) :
    (h.lookup a).isSome := by
  induction xs generalizing p with
  | nil => cases ha
  | cons b xs ih =>
    rcases hpath with ⟨-, n, hn, hrest⟩
    rcases List.mem_cons.mp ha with rfl | hmem
    · rw [hn]
      rfl
    · exact ih hrest hmem

/-- The nodes of a path are at most as many as there are. -/
theorem Path.length_le {d : Direction} (hpath : Path h d p xs) (hnodup : xs.Nodup) :
    xs.length ≤ h.keys.length := by
  have hsub : xs ⊆ h.keys := by
    intro a ha
    exact AList.mem_keys.mp (AList.lookup_isSome.mp (hpath.allocated ha))
  exact (List.subperm_of_subset hnodup hsub).length_le

/-- The nodes met from `p` on, at most `n`. -/
def visitLoop (h : Heap A V) (d : Direction) : ℕ → Option A → List A
  | _, none => []
  | 0, some _ => []
  | k + 1, some a =>
    match h.lookup a with
    | none => []
    | some n => a :: visitLoop h d k (n.towards d)

/-- The nodes met from `p` on. -/
def visit (h : Heap A V) (d : Direction) (p : Option A) : List A := visitLoop h d h.keys.length p

theorem visitLoop_eq {d : Direction} (hpath : Path h d p xs) :
    ∀ k : ℕ, xs.length ≤ k → visitLoop h d k p = xs := by
  induction xs generalizing p with
  | nil =>
    intro k _
    obtain rfl : p = none := hpath
    cases k <;> rfl
  | cons a xs ih =>
    intro k hk
    rcases hpath with ⟨rfl, n, hn, hrest⟩
    cases k with
    | zero => cases hk
    | succ k =>
      simp only [visitLoop, hn]
      rw [ih hrest k (Nat.le_of_succ_le_succ hk)]

theorem visit_eq {d : Direction} (hpath : Path h d p xs) (hnodup : xs.Nodup) : visit h d p = xs :=
  visitLoop_eq hpath _ (hpath.length_le hnodup)

end DLinks
