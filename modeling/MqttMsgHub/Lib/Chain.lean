import Mathlib.Data.List.GetD
import Mathlib.Data.List.OfFn

/-! # Cipher block chaining

A sequence is cut into blocks of a fixed size, and the blocks are encrypted one
after the other, each mixed with the ciphertext of the one before. `mix` is the
operation that combines two blocks (exclusive or, for bytes), `enc` and `dec`
work on single blocks.

* `join_cut`, `cut_join` — cutting into blocks and joining them again;
* `decrypt_encrypt` — the chain can be undone when `dec` undoes `enc` and mixing
  twice with the same block cancels.
-/

namespace Chain

variable {α B : Type*}

/-! ## Blocks -/

/-- The first `k` blocks of size `n`. -/
def cut [Inhabited α] (n : ℕ) : ℕ → List α → List (Fin n → α)
  | 0, _ => []
  | k + 1, xs => (fun j => xs.getD j default) :: cut n k (xs.drop n)

/-- The blocks, one behind the other. -/
def join {n : ℕ} (bs : List (Fin n → α)) : List α := bs.flatMap List.ofFn

theorem length_join {n : ℕ} (bs : List (Fin n → α)) : (join bs).length = bs.length * n := by
  induction bs with
  | nil => simp [join]
  | cons b bs ih =>
    have hcons : join (b :: bs) = List.ofFn b ++ join bs := rfl
    rw [hcons, List.length_append, ih, List.length_ofFn, List.length_cons, Nat.succ_mul, Nat.add_comm]

theorem length_cut [Inhabited α] (n k : ℕ) (xs : List α) : (cut n k xs).length = k := by
  induction k generalizing xs with
  | zero => rfl
  | succ k ih => simp [cut, ih]

theorem join_cut [Inhabited α] {n : ℕ} (k : ℕ) {xs : List α} (h : xs.length = k * n) :
    join (cut n k xs) = xs := by
  induction k generalizing xs with
  | zero =>
    have hnil : xs = [] := List.length_eq_zero_iff.mp (by simpa using h)
    rw [hnil]
    rfl
  | succ k ih =>
    have hrest : join (cut n k (xs.drop n)) = xs.drop n :=
      ih (by rw [List.length_drop, h, Nat.succ_mul, Nat.add_sub_cancel])
    have hfirst : List.ofFn (fun j : Fin n => xs.getD j default) = xs.take n := by
      apply List.ext_getElem
      · rw [List.length_ofFn, List.length_take, h, Nat.succ_mul]
        omega
      · intro i hi hi'
        have hlen : i < xs.length := by
          rw [List.length_take] at hi'
          omega
        rw [List.getElem_ofFn, List.getElem_take, List.getD_eq_getElem _ _ hlen]
    show List.ofFn (fun j : Fin n => xs.getD j default) ++ join (cut n k (xs.drop n)) = xs
    rw [hrest, hfirst, List.take_append_drop]

theorem cut_join [Inhabited α] {n : ℕ} (bs : List (Fin n → α)) : cut n bs.length (join bs) = bs := by
  induction bs with
  | nil => rfl
  | cons b bs ih =>
    have hcons : join (b :: bs) = List.ofFn b ++ join bs := rfl
    have hdrop : (List.ofFn b ++ join bs).drop n = join bs := by
      rw [List.drop_append_of_le_length (by simp), List.drop_of_length_le (by simp), List.nil_append]
    have hfirst : (fun j : Fin n => (List.ofFn b ++ join bs).getD j default) = b := by
      funext j
      rw [List.getD_append _ _ _ _ (by simp), List.getD_eq_getElem _ _ (by simp)]
      simp
    rw [List.length_cons, cut, hcons, hdrop, hfirst, ih]

/-! ## The chain -/

/-- Encrypt the blocks in order; the first one is mixed with `iv`. -/
def encrypt (mix : B → B → B) (enc : B → B) : B → List B → List B
  | _, [] => []
  | iv, p :: ps => enc (mix iv p) :: encrypt mix enc (enc (mix iv p)) ps

/-- Decrypt the blocks in order. -/
def decrypt (mix : B → B → B) (dec : B → B) : B → List B → List B
  | _, [] => []
  | iv, c :: cs => mix (dec c) iv :: decrypt mix dec c cs

variable {mix : B → B → B} {enc dec : B → B}

theorem length_encrypt (iv : B) (ps : List B) : (encrypt mix enc iv ps).length = ps.length := by
  induction ps generalizing iv with
  | nil => rfl
  | cons p ps ih => simp [encrypt, ih]

theorem decrypt_encrypt (hdec : ∀ b, dec (enc b) = b) (hmix : ∀ a b, mix (mix a b) a = b) (iv : B)
    (ps : List B) : decrypt mix dec iv (encrypt mix enc iv ps) = ps := by
  induction ps generalizing iv with
  | nil => rfl
  | cons p ps ih => rw [encrypt, decrypt, hdec, hmix, ih]

end Chain
