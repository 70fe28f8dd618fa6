import Mathlib.Data.List.Basic
import Mathlib.Data.Nat.ModEq

/-! # Ring buffers

A queue in an array: `head` is the index of the first element, `tail` that of the
cell behind the last one, both modulo the size. `count` tells an empty buffer from
a full one. The other cells hold anything.

* `Holds` — the buffer is the queue `xs`;
* `holds_empty`, `Holds.put`, `Holds.front_eq`, `Holds.pop` — the operations are
  those of a queue, as long as there is room.
-/

namespace Ring

variable {α : Type*}

structure Buffer (α : Type*) where
  cells : List α
  size : ℕ
  head : ℕ
  tail : ℕ
  count : ℕ

/-- The element goes to `tail`. -/
def put (b : Buffer α) (x : α) : Buffer α :=
  { b with cells := b.cells.set b.tail x, tail := (b.tail + 1) % b.size, count := b.count + 1 }

/-- The element at `head`. -/
def front (b : Buffer α) : Option α := b.cells[b.head]?

/-- The element at `head` is given up. -/
def pop (b : Buffer α) : Buffer α :=
  { b with head := (b.head + 1) % b.size, count := b.count - 1 }

@[simp] theorem pop_count (b : Buffer α) : (pop b).count = b.count - 1 := rfl

/-- The cells from `head` on are the queue `xs`. -/
structure Holds (b : Buffer α) (xs : List α) : Prop where
  length : b.cells.length = b.size
  head : b.head < b.size
  tail : b.tail = (b.head + xs.length) % b.size
  count : b.count = xs.length
  room : xs.length ≤ b.size
  cell : ∀ i (hi : i < xs.length), b.cells[(b.head + i) % b.size]? = some xs[i]

variable {b : Buffer α} {x : α} {xs : List α}

theorem holds_empty {cells : List α} (hpos : 0 < cells.length) :
    Holds ⟨cells, cells.length, 0, 0, 0⟩ ([] : List α) where
  length := rfl
  head := hpos
  tail := (Nat.zero_mod _).symm
  count := rfl
  room := Nat.zero_le _
  cell := fun i hi => absurd hi (Nat.not_lt_zero i)

/-- Two places less than the size apart are different cells. -/
theorem mod_ne {n h i j : ℕ} (hi : i < n) (hj : j < n) (hne : i ≠ j) :
    (h + i) % n ≠ (h + j) % n := by
  intro heq
  have hcong : i ≡ j [MOD n] := Nat.ModEq.add_left_cancel' h heq
  exact hne (Nat.ModEq.eq_of_lt_of_lt hcong hi hj)

theorem Holds.put (h : Holds b xs) (x : α) (hroom : xs.length < b.size) :
    Holds (put b x) (xs ++ [x]) where
  length := by rw [Ring.put, List.length_set, h.length]
  head := h.head
  tail := by
    show (b.tail + 1) % b.size = (b.head + (xs ++ [x]).length) % b.size
    rw [h.tail, Nat.mod_add_mod, List.length_append, List.length_singleton, Nat.add_assoc]
  count := by
    show b.count + 1 = (xs ++ [x]).length
    rw [h.count, List.length_append, List.length_singleton]
  room := by
    rw [List.length_append, List.length_singleton]
    exact hroom
  cell := by
    intro i hi
    show (b.cells.set b.tail x)[(b.head + i) % b.size]? = some (xs ++ [x])[i]
    have htail : b.tail < b.cells.length := by
      rw [h.length, h.tail]
      exact Nat.mod_lt _ (Nat.zero_lt_of_lt hroom)
    rcases Nat.lt_or_ge i xs.length with hlt | hge
    · -- an older element: the new one goes elsewhere
      have hne : b.tail ≠ (b.head + i) % b.size := by
        rw [h.tail]
        exact mod_ne hroom (hlt.trans hroom) (Nat.ne_of_gt hlt)
      rw [List.getElem?_set_ne hne, h.cell i hlt, List.getElem_append_left hlt]
    · have heq : i = xs.length := by
        rw [List.length_append, List.length_singleton] at hi
        exact Nat.le_antisymm (Nat.le_of_lt_succ hi) hge
      subst heq
      rw [← h.tail, List.getElem?_set_self htail, List.getElem_concat_length rfl]

theorem Holds.front_eq (h : Holds b (x :: xs)) : front b = some x := by
  have hcell := h.cell 0 (Nat.zero_lt_succ _)
  rwa [Nat.add_zero, Nat.mod_eq_of_lt h.head] at hcell

theorem Holds.pop (h : Holds b (x :: xs)) : Holds (pop b) xs where
  length := h.length
  head := Nat.mod_lt _ (Nat.zero_lt_of_lt h.head)
  tail := by
    show b.tail = ((b.head + 1) % b.size + xs.length) % b.size
    rw [h.tail, Nat.mod_add_mod, List.length_cons, Nat.add_assoc, Nat.add_comm 1]
  count := by
    show b.count - 1 = xs.length
    rw [h.count]
    rfl
  room := Nat.le_of_succ_le h.room
  cell := by
    intro i hi
    show b.cells[((b.head + 1) % b.size + i) % b.size]? = some xs[i]
    rw [Nat.mod_add_mod, Nat.add_assoc, Nat.add_comm 1]
    exact h.cell (i + 1) (Nat.succ_lt_succ hi)

end Ring
