import Mathlib.Data.Int.Order.Basic
import Mathlib.Data.List.Induction

/-! # Buffers and pointers into them

A buffer is the list of its cells, a pointer the offset of the cell it points
to. Offsets are integers: a pointer may be moved in front of the buffer or behind
it, but an access through it is then undefined (`none`).

* `scanForward_eq`, `scanBackward_eq` — a scan that stops at a cell of the
  buffer;
* `scanBackward_eq_none` — a backward scan that meets no such cell leaves the
  buffer;
* `copy_eq` — what a bounded copy takes out of a buffer;
* `foldlM_put`, `copyInto_eq` — cells written one behind the other, which is
  defined just when there is room for them.
-/

namespace Ptr

variable {α : Type*} {buf a b s : List α} {p : ℤ} {x y : α}

/-! ## Accesses -/

/-- `*p`. -/
def read (buf : List α) (p : ℤ) : Option α := if 0 ≤ p then buf[p.toNat]? else none

/-- `*p = x`. -/
def write (buf : List α) (p : ℤ) (x : α) : Option (List α) :=
  if 0 ≤ p ∧ p < buf.length then some (buf.set p.toNat x) else none

theorem bounds_of_read (h : read buf p = some x) : 0 ≤ p ∧ p < buf.length := by
  unfold read at h
  split at h
  · have hlt := (List.getElem?_eq_some_iff.mp h).1
    omega
  · cases h

theorem read_of_neg (h : p < 0) : read buf p = none := if_neg (not_le.mpr h)

theorem read_append (hp : p = a.length) : read (a ++ x :: b) p = some x := by
  subst hp
  simp [read]

theorem write_append (hp : p = a.length) (y : α) : write (a ++ x :: b) p y = some (a ++ y :: b) := by
  subst hp
  have hin : (0 : ℤ) ≤ a.length ∧ (a.length : ℤ) < (a ++ x :: b).length := by
    rw [List.length_append, List.length_cons]
    omega
  rw [write, if_pos hin]
  simp

/-! ## Scans -/

/-- `while (go(*p, p)) ++p`: where it stops. -/
def scanForward (go : α → ℤ → Bool) (buf : List α) (p : ℤ) : Option ℤ :=
  match _h : read buf p with
  | none => none
  | some x => if go x p then scanForward go buf (p + 1) else some p
termination_by (buf.length - p).toNat
decreasing_by
  have hp := bounds_of_read _h
  omega

/-- `while (go(*p)) --p`: where it stops. -/
def scanBackward (go : α → Bool) (buf : List α) (p : ℤ) : Option ℤ :=
  match _h : read buf p with
  | none => none
  | some x => if go x then scanBackward go buf (p - 1) else some p
termination_by (p + 1).toNat
decreasing_by
  have hp := bounds_of_read _h
  omega

theorem scanForward_of_read {go : α → ℤ → Bool} (h : read buf p = some x) :
    scanForward go buf p = if go x p then scanForward go buf (p + 1) else some p := by
  rw [scanForward]
  split
  · rename_i hnone
    rw [hnone] at h
    cases h
  · rename_i y hy
    rw [hy, Option.some.injEq] at h
    rw [h]

theorem scanBackward_of_read {go : α → Bool} (h : read buf p = some x) :
    scanBackward go buf p = if go x then scanBackward go buf (p - 1) else some p := by
  rw [scanBackward]
  split
  · rename_i hnone
    rw [hnone] at h
    cases h
  · rename_i y hy
    rw [hy, Option.some.injEq] at h
    rw [h]

theorem scanBackward_of_neg {go : α → Bool} (h : p < 0) : scanBackward go buf p = none := by
  rw [scanBackward]
  split
  · rfl
  · rename_i y hy
    rw [read_of_neg h] at hy
    cases hy

/-- A forward scan passes `s` and stops at the cell behind it. -/
theorem scanForward_eq {go : α → ℤ → Bool} (hp : p = a.length)
    (hs : ∀ x ∈ s, ∀ i, p ≤ i → i < p + s.length → go x i = true)
    (hx : go x (p + s.length) = false) :
    scanForward go (a ++ s ++ x :: b) p = some (p + s.length) := by
  induction s generalizing a p with
  | nil =>
    have hend : p + (([] : List α).length : ℤ) = p := by simp
    rw [hend] at hx ⊢
    rw [List.append_nil, scanForward_of_read (read_append hp), hx]
    rfl
  | cons y s ih =>
    have hgo : go y p = true := by
      apply hs y List.mem_cons_self p le_rfl
      rw [List.length_cons]
      omega
    have hnext : p + ((y :: s).length : ℤ) = p + 1 + (s.length : ℤ) := by
      rw [List.length_cons]
      omega
    have hsplit : a ++ y :: s ++ x :: b = a ++ [y] ++ s ++ x :: b := by simp
    rw [hnext] at hx ⊢
    have hread : read (a ++ y :: s ++ x :: b) p = some y := by
      rw [List.append_assoc]
      exact read_append hp
    rw [scanForward_of_read hread, hgo, if_pos rfl, hsplit]
    apply ih _ _ hx
    · rw [List.length_append, List.length_singleton, hp]
      rfl
    · intro z hz i hi hlt
      apply hs z (List.mem_cons_of_mem _ hz) i (by omega)
      rw [List.length_cons]
      omega

/-- A backward scan passes `s` and stops at the cell in front of it. -/
theorem scanBackward_eq {go : α → Bool} (hx : go x = false) (hs : ∀ y ∈ s, go y = true) (b : List α)
    (hp : p = a.length + s.length) :
    scanBackward go (a ++ x :: (s ++ b)) p = some (a.length : ℤ) := by
  induction s using List.reverseRecOn generalizing b p with
  | nil =>
    have hp : p = a.length := by simpa using hp
    rw [List.nil_append, scanBackward_of_read (read_append hp), hx, hp]
    rfl
  | append_singleton s y ih =>
    rw [List.length_append, List.length_singleton] at hp
    have hsplit : a ++ x :: (s ++ [y] ++ b) = (a ++ x :: s) ++ y :: b := by simp
    have hread : read (a ++ x :: (s ++ [y] ++ b)) p = some y := by
      rw [hsplit]
      apply read_append
      rw [List.length_append, List.length_cons]
      omega
    have hy : go y = true := hs y (by simp)
    rw [scanBackward_of_read hread, hy, if_pos rfl, List.append_assoc]
    exact ih (fun z hz => hs z (List.mem_append_left _ hz)) ([y] ++ b) (by omega)

/-- A backward scan over cells that are all passed runs off the front. -/
theorem scanBackward_eq_none {go : α → Bool} (hs : ∀ y ∈ s, go y = true) (b : List α)
    (hp : p = s.length - 1) : scanBackward go (s ++ b) p = none := by
  induction s using List.reverseRecOn generalizing b p with
  | nil =>
    apply scanBackward_of_neg
    rw [hp, List.length_nil]
    decide
  | append_singleton s y ih =>
    rw [List.length_append, List.length_singleton] at hp
    have hread : read (s ++ [y] ++ b) p = some y := by
      rw [List.append_assoc]
      apply read_append
      omega
    have hy : go y = true := hs y (by simp)
    rw [scanBackward_of_read hread, hy, if_pos rfl, List.append_assoc]
    exact ih (fun z hz => hs z (List.mem_append_left _ hz)) ([y] ++ b) (by omega)

/-! ## Copies -/

/-- `strncpy`: at most `n` cells from `p` on, up to a cell with `stop`. -/
def copy [DecidableEq α] (stop : α) (buf : List α) : ℤ → ℕ → Option (List α)
  | _, 0 => some []
  | p, n + 1 =>
    match read buf p with
    | none => none
    | some x => if x = stop then some [] else (copy stop buf (p + 1) n).map (x :: ·)

theorem copy_eq [DecidableEq α] {stop : α} (hs : stop ∉ s) (b : List α) (hp : p = a.length) :
    copy stop (a ++ s ++ b) p s.length = some s := by
  induction s generalizing a p with
  | nil => rfl
  | cons x s ih =>
    rw [List.mem_cons, not_or] at hs
    have hsplit : a ++ x :: s ++ b = a ++ [x] ++ s ++ b := by simp
    have hread : read (a ++ x :: s ++ b) p = some x := by
      rw [List.append_assoc]
      exact read_append hp
    rw [List.length_cons, copy, hread]
    simp only [if_neg (Ne.symm hs.1)]
    rw [hsplit, ih hs.2, Option.map_some]
    rw [List.length_append, List.length_singleton, hp]
    rfl

/-- `strcpy`: the cells of `src` up to and with one that holds `stop`, to the start of
`dst`. -/
def copyInto [DecidableEq α] (stop : α) : List α → List α → Option (List α)
  | _ :: dst, x :: src =>
    if x = stop then some (stop :: dst) else (copyInto stop dst src).map (x :: ·)
  | _, _ => none

theorem copyInto_eq [DecidableEq α] {stop : α} (hs : stop ∉ s) (b dst : List α) :
    copyInto stop dst (s ++ stop :: b) =
      if s.length < dst.length then some (s ++ stop :: dst.drop (s.length + 1)) else none := by
  induction s generalizing dst with
  | nil =>
    cases dst with
    | nil => rfl
    | cons y dst => simp [copyInto]
  | cons x s ih =>
    rw [List.mem_cons, not_or] at hs
    cases dst with
    | nil => rfl
    | cons y dst =>
      rw [List.cons_append, copyInto, if_neg (Ne.symm hs.1), ih hs.2]
      by_cases hroom : s.length < dst.length
      · have hroom' : (x :: s).length < (y :: dst).length := Nat.succ_lt_succ hroom
        rw [if_pos hroom, if_pos hroom']
        rfl
      · have hroom' : ¬ (x :: s).length < (y :: dst).length := mt Nat.lt_of_succ_lt_succ hroom
        rw [if_neg hroom, if_neg hroom']
        rfl

/-! ## Writers -/

/-- `*p++ = x`, on the buffer and `p`. -/
def put (m : List α × ℤ) (x : α) : Option (List α × ℤ) :=
  (write m.1 m.2 x).map fun buf => (buf, m.2 + 1)

/-- The written cells stand behind `a` where `b` was, as long as `b` lasts. -/
theorem foldlM_put (hp : p = a.length) :
    s.foldlM put (a ++ b, p) =
      if s.length ≤ b.length then some (a ++ s ++ b.drop s.length, p + s.length) else none := by
  induction s generalizing a b p with
  | nil => simp
  | cons x s ih =>
    cases b with
    | nil =>
      have hend : write (a ++ []) p x = none := by
        rw [write, if_neg]
        rw [List.append_nil, hp]
        omega
      rw [List.foldlM_cons, put, hend]
      rfl
    | cons y b =>
      have hstep : put (a ++ y :: b, p) x = some (a ++ [x] ++ b, p + 1) := by
        rw [put, write_append hp, Option.map_some, List.append_assoc, List.singleton_append]
      have hnext : p + 1 = (a ++ [x]).length := by
        rw [List.length_append, List.length_singleton, hp]
        rfl
      rw [List.foldlM_cons, hstep, Option.bind_eq_bind, Option.bind_some, ih hnext]
      by_cases hfits : s.length ≤ b.length
      · have hfits' : (x :: s).length ≤ (y :: b).length := Nat.succ_le_succ hfits
        have hlength : p + 1 + (s.length : ℤ) = p + ((x :: s).length : ℤ) := by
          rw [List.length_cons]
          omega
        rw [if_pos hfits, if_pos hfits', hlength, List.append_assoc a, List.singleton_append,
          List.length_cons, List.drop_succ_cons]
      · have hfits' : ¬ (x :: s).length ≤ (y :: b).length := mt Nat.le_of_succ_le_succ hfits
        rw [if_neg hfits, if_neg hfits']

end Ptr
