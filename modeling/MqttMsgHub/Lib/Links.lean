import Mathlib.Data.List.AList

/-! # Linked nodes

A heap of nodes with a `next` pointer each, and some data. An access through the
NULL pointer or to a node that is not allocated is undefined (`none`). A loop
along `next` pointers that comes past more nodes than are allocated has come to
one of them twice and does not end; it is given `none` as well.

* `Seg` — following `next` from `p` visits a list of nodes and arrives at `q`;
* `Seg.congr`, `Seg.setNext_last`, `Seg.link` — what a change of the heap does to
  a segment;
* `visit_eq`, `advance_eq`, `scan_eq`, `releaseAll_eq` — loops over a segment.
-/

namespace Links

variable {A D : Type*} [DecidableEq A]

/-! ## Heaps -/

structure Cell (A D : Type*) where
  next : Option A
  data : D

abbrev Heap (A D : Type*) := AList fun _ : A => Cell A D

/-- `a->next`. -/
def nextAt (h : Heap A D) (a : A) : Option (Option A) := (h.lookup a).map Cell.next

/-- `p->next`. -/
def next (h : Heap A D) (p : Option A) : Option (Option A) := p.bind (nextAt h)

/-- `p->next = q`. -/
def setNext (h : Heap A D) (p q : Option A) : Option (Heap A D) :=
  p.bind fun a => (h.lookup a).map fun c => h.insert a ⟨q, c.data⟩

/-- `free(p)`: NULL is allowed. -/
def release (h : Heap A D) : Option A → Option (Heap A D)
  | some a => if (h.lookup a).isSome then some (h.erase a) else none
  | none => some h

/-- A function that gives a node back: it is defined on every node of the heap and
touches no other one. -/
def Frees (free : Heap A D → Option A → Option (Heap A D)) : Prop :=
  ∀ h a, (h.lookup a).isSome →
    ∃ h', free h (some a) = some h' ∧ ∀ b, b ≠ a → h'.lookup b = h.lookup b

variable {h h' : Heap A D} {p q r : Option A} {a b : A} {xs ys : List A}

/-- The effect of an assignment to a `next` pointer: all other nodes stay. -/
theorem setNext_eq_some (ha : (h.lookup a).isSome) (q : Option A) :
    ∃ h', setNext h (some a) q = some h' ∧ nextAt h' a = some q ∧
      ∀ b, b ≠ a → h'.lookup b = h.lookup b := by
  rcases Option.isSome_iff_exists.mp ha with ⟨c, hc⟩
  refine ⟨h.insert a ⟨q, c.data⟩, ?_, ?_, ?_⟩
  · simp [setNext, hc]
  · simp [nextAt]
  · intro b hb
    exact AList.lookup_insert_ne hb

theorem frees_release : Frees (release : Heap A D → Option A → Option (Heap A D)) := by
  intro h a ha
  refine ⟨h.erase a, if_pos ha, ?_⟩
  intro b hb
  exact AList.lookup_erase_ne hb

/-! ## Segments -/

/-- Following `next` from `p` visits the nodes `xs` and arrives at `q`. -/
def Seg (h : Heap A D) : Option A → List A → Option A → Prop
  | p, [], q => p = q
  | p, a :: xs, q => p = some a ∧ ∃ r, nextAt h a = some r ∧ Seg h r xs q

theorem seg_append : Seg h p (xs ++ ys) q ↔ ∃ r, Seg h p xs r ∧ Seg h r ys q := by
  induction xs generalizing p with
  | nil => simp [Seg]
  | cons a xs ih =>
    simp only [List.cons_append, Seg, ih]
    constructor
    · rintro ⟨hp, r, hr, m, hxs, hys⟩
      exact ⟨m, ⟨hp, r, hr, hxs⟩, hys⟩
    · rintro ⟨m, ⟨hp, r, hr, hxs⟩, hys⟩
      exact ⟨hp, r, hr, m, hxs, hys⟩

/-- A segment depends on the `next` pointers of its nodes only. -/
theorem Seg.congr (hseg : Seg h p xs q) (hsame : ∀ a ∈ xs, nextAt h' a = nextAt h a) :
    Seg h' p xs q := by
  induction xs generalizing p with
  | nil => exact hseg
  | cons a xs ih =>
    rcases hseg with ⟨hp, r, hr, hrest⟩
    rw [List.forall_mem_cons] at hsame
    exact ⟨hp, r, hsame.1.trans hr, ih hrest hsame.2⟩

theorem Seg.nextAt_isSome (hseg : Seg h p xs q) (ha : a ∈ xs) : (nextAt h a).isSome := by
  induction xs generalizing p with
  | nil => cases ha
  | cons b xs ih =>
    rcases hseg with ⟨-, r, hr, hrest⟩
    rcases List.mem_cons.mp ha with rfl | hmem
    · rw [hr]
      rfl
    · exact ih hrest hmem

theorem Seg.allocated (hseg : Seg h p xs q) (ha : a ∈ xs) : (h.lookup a).isSome := by
  have hnext := hseg.nextAt_isSome ha
  rwa [nextAt, Option.isSome_map] at hnext

/-- The start of a segment that ends in NULL. -/
theorem Seg.start_eq (hseg : Seg h p xs none) : p = xs.head? := by
  cases xs with
  | nil => exact hseg
  | cons a xs => exact hseg.1

/-- A segment that does not hold `a` does not see what happens there. -/
theorem Seg.congr_lookup (hseg : Seg h p xs q) (ha : a ∉ xs)
    (hsame : ∀ b, b ≠ a → h'.lookup b = h.lookup b) : Seg h' p xs q := by
  apply hseg.congr
  intro b hb
  rw [nextAt, hsame b fun heq => ha (heq ▸ hb), nextAt]

/-- An assignment to the `next` pointer of its last node gives a segment another
end. -/
theorem Seg.setNext_last (hseg : Seg h p (xs ++ [a]) q) (ha : a ∉ xs) (r : Option A) :
    ∃ h', setNext h (some a) r = some h' ∧ Seg h' p (xs ++ [a]) r ∧
      ∀ b, b ≠ a → h'.lookup b = h.lookup b := by
  rcases setNext_eq_some (hseg.allocated (a := a) (by simp)) r with ⟨h', hset, hnext, hsame⟩
  rcases seg_append.mp hseg with ⟨m, hxs, hlast⟩
  exact ⟨h', hset, seg_append.mpr ⟨m, hxs.congr_lookup ha hsame, hlast.1, r, hnext, rfl⟩, hsame⟩

/-- A node is linked in behind the last node of a segment: two assignments. -/
theorem Seg.link {z node : A} (hseg : Seg h p (xs ++ [z]) q) (hz : z ∉ xs)
    (halloc : (h.lookup node).isSome) (hnode : node ∉ xs ++ [z]) (r : Option A) :
    ∃ h₁ h₂, setNext h (some z) (some node) = some h₁ ∧ setNext h₁ (some node) r = some h₂ ∧
      Seg h₂ p (xs ++ [z] ++ [node]) r ∧ (∀ b, b ≠ z → h₁.lookup b = h.lookup b) ∧
      ∀ b, b ≠ z → b ≠ node → h₂.lookup b = h.lookup b := by
  rcases hseg.setNext_last hz (some node) with ⟨h₁, hset₁, hseg₁, hsame₁⟩
  have hne : node ≠ z := by
    rintro rfl
    exact hnode (by simp)
  have halloc₁ : (h₁.lookup node).isSome := by rwa [hsame₁ node hne]
  rcases setNext_eq_some halloc₁ r with ⟨h₂, hset₂, hnext, hsame₂⟩
  refine ⟨h₁, h₂, hset₁, hset₂, ?_, hsame₁, ?_⟩
  · exact seg_append.mpr ⟨some node, hseg₁.congr_lookup hnode hsame₂, rfl, r, hnext, rfl⟩
  · intro b hbz hbnode
    rw [hsame₂ b hbnode, hsame₁ b hbz]

/-- Distinct allocated nodes are at most as many as there are. -/
theorem length_le_of_allocated (hnodup : xs.Nodup) (halloc : ∀ a ∈ xs, (h.lookup a).isSome) :
    xs.length ≤ h.keys.length := by
  have hsub : xs ⊆ h.keys := by
    intro a ha
    exact AList.mem_keys.mp (AList.lookup_isSome.mp (halloc a ha))
  exact (List.subperm_of_subset hnodup hsub).length_le

/-! ## Loops -/

/-- The nodes that are met when `next` is followed from `p`, at most `n` times. -/
def visitLoop (h : Heap A D) : ℕ → Option A → List A
  | _, none => []
  | 0, some _ => []
  | n + 1, some a =>
    match nextAt h a with
    | none => []
    | some q => a :: visitLoop h n q

/-- The nodes that are met when `next` is followed from `p`. -/
def visit (h : Heap A D) (p : Option A) : List A := visitLoop h h.keys.length p

theorem visitLoop_eq (hseg : Seg h p xs none) : ∀ n : ℕ, xs.length ≤ n → visitLoop h n p = xs := by
  induction xs generalizing p with
  | nil =>
    intro n _
    have hp : p = none := hseg
    subst hp
    cases n <;> rfl
  | cons a xs ih =>
    intro n hn
    rcases hseg with ⟨rfl, r, hr, hrest⟩
    cases n with
    | zero => cases hn
    | succ n =>
      simp only [visitLoop, hr]
      rw [ih hrest n (Nat.le_of_succ_le_succ hn)]

theorem visit_eq (hseg : Seg h p xs none) (hnodup : xs.Nodup) : visit h p = xs :=
  visitLoop_eq hseg _ (length_le_of_allocated hnodup fun _ ha => hseg.allocated ha)

/-- `for (i = 0; i < n; i++) { prev = p; p = p->next; }`: both pointers
afterwards. -/
def advance (h : Heap A D) : ℕ → Option A → Option A → Option (Option A × Option A)
  | 0, prev, p => some (prev, p)
  | n + 1, _, p => (next h p).bind fun q => advance h n p q

theorem advance_eq (hseg : Seg h p xs q) (prev : Option A) :
    advance h xs.length prev p = some (xs.getLast?.or prev, q) := by
  induction xs generalizing p prev with
  | nil =>
    have hpq : p = q := hseg
    rw [hpq]
    rfl
  | cons a xs ih =>
    rcases hseg with ⟨rfl, r, hr, hrest⟩
    have hnext : next h (some a) = some r := hr
    rw [List.length_cons, advance, hnext, Option.bind_some, ih hrest, List.getLast?_cons]
    cases xs.getLast? <;> rfl

/-- `while (p) { if (stop(p)) break; prev = p; p = p->next; }`, at most `n` times. -/
def scanLoop (h : Heap A D) (stop : A → Option Bool) :
    ℕ → Option A → Option A → Option (Option A × Option A)
  | _, prev, none => some (prev, none)
  | 0, _, some _ => none
  | n + 1, prev, some a =>
    (stop a).bind fun hit =>
      if hit then some (prev, some a)
      else (nextAt h a).bind fun q => scanLoop h stop n (some a) q

/-- The loop, as often as there are nodes: both pointers afterwards. -/
def scan (h : Heap A D) (stop : A → Option Bool) (prev p : Option A) :
    Option (Option A × Option A) :=
  scanLoop h stop h.keys.length prev p

theorem scanLoop_eq {stop : A → Option Bool} (hseg : Seg h p (xs ++ ys) none)
    (hpass : ∀ a ∈ xs, stop a = some false) (hstop : ∀ a ∈ ys.head?, stop a = some true)
    (prev : Option A) : ∀ n : ℕ, (xs ++ ys).length ≤ n →
      scanLoop h stop n prev p = some (xs.getLast?.or prev, ys.head?) := by
  induction xs generalizing p prev with
  | nil =>
    intro n hn
    rw [List.nil_append] at hseg hn
    rw [hseg.start_eq]
    cases ys with
    | nil => cases n <;> rfl
    | cons a ys =>
      cases n with
      | zero => cases hn
      | succ n =>
        have hhit : stop a = some true := hstop a rfl
        simp [scanLoop, hhit]
  | cons a xs ih =>
    intro n hn
    rcases hseg with ⟨rfl, r, hr, hrest⟩
    rw [List.forall_mem_cons] at hpass
    cases n with
    | zero => cases hn
    | succ n =>
      have hloop := ih hrest hpass.2 (some a) n (Nat.le_of_succ_le_succ hn)
      rw [scanLoop, hpass.1, Option.bind_some, hr, Option.bind_some, hloop, List.getLast?_cons]
      cases xs.getLast? <;> rfl

theorem scan_eq {stop : A → Option Bool} (hseg : Seg h p (xs ++ ys) none)
    (hnodup : (xs ++ ys).Nodup) (hpass : ∀ a ∈ xs, stop a = some false)
    (hstop : ∀ a ∈ ys.head?, stop a = some true) (prev : Option A) :
    scan h stop prev p = some (xs.getLast?.or prev, ys.head?) := by
  apply scanLoop_eq hseg hpass hstop
  exact length_le_of_allocated hnodup fun a ha => hseg.allocated ha

/-- `while (p) { q = p; p = p->next; free(q); }`, at most `n` times. -/
def releaseLoop (free : Heap A D → Option A → Option (Heap A D)) :
    ℕ → Heap A D → Option A → Option (Heap A D)
  | _, h, none => some h
  | 0, _, some _ => none
  | n + 1, h, some a =>
    (nextAt h a).bind fun q => (free h (some a)).bind fun h => releaseLoop free n h q

/-- The loop, as often as there are nodes: the heap afterwards. -/
def releaseAll (free : Heap A D → Option A → Option (Heap A D)) (h : Heap A D) (p : Option A) :
    Option (Heap A D) :=
  releaseLoop free h.keys.length h p

variable {free : Heap A D → Option A → Option (Heap A D)}

theorem releaseLoop_eq (hfrees : Frees free) (hseg : Seg h p xs none) (hnodup : xs.Nodup) : ∀ n : ℕ, xs.length ≤ n →
    ∃ h', releaseLoop free n h p = some h' ∧ ∀ b, b ∉ xs → h'.lookup b = h.lookup b := by
  induction xs generalizing h p with
  | nil =>
    intro n _
    have hp : p = none := hseg
    subst hp
    refine ⟨h, ?_, fun _ _ => rfl⟩
    cases n <;> rfl
  | cons a xs ih =>
    intro n hn
    rw [List.nodup_cons] at hnodup
    have halloc := hseg.allocated List.mem_cons_self
    rcases hseg with ⟨rfl, r, hr, hrest⟩
    rcases hfrees h a halloc with ⟨h₁, hfree, hsame⟩
    cases n with
    | zero => cases hn
    | succ n =>
      have hrest' : Seg h₁ r xs none := hrest.congr_lookup hnodup.1 hsame
      rcases ih hrest' hnodup.2 n (Nat.le_of_succ_le_succ hn) with ⟨h', hloop, hsame'⟩
      refine ⟨h', ?_, ?_⟩
      · rw [releaseLoop, hr, Option.bind_some, hfree, Option.bind_some, hloop]
      · intro b hb
        rw [List.mem_cons, not_or] at hb
        rw [hsame' b hb.2, hsame b hb.1]

theorem releaseAll_eq (hfrees : Frees free) (hseg : Seg h p xs none) (hnodup : xs.Nodup) :
    ∃ h', releaseAll free h p = some h' ∧ ∀ b, b ∉ xs → h'.lookup b = h.lookup b :=
  releaseLoop_eq hfrees hseg hnodup _ (length_le_of_allocated hnodup fun _ ha => hseg.allocated ha)

end Links
