import Mathlib.Data.List.Basic

/-! # Ordered association lists

A list of (key, value) pairs as a map: `find` reads the first pair with a key,
`set` replaces that pair's value where it stands or appends a new pair. Keys may
repeat; only the first pair of a key counts, and `remove` takes only that one
away.

* `find_set_self`, `find_set_ne` — reading after a write;
* `find_remove_ne`, `forall_find_remove_iff` — reading after a removal: a removed
  key is gone when keys do not repeat, and only then;
* `set_find_self` — writing back what is there changes nothing;
* `find_filterMap` — reading through a rewriting of the pairs that keeps keys.
-/

namespace Assoc

variable {κ β : Type*} [DecidableEq κ]

/-- The value of the first pair with a key. -/
def find (key : κ) : List (κ × β) → Option β
  | [] => none
  | (k, v) :: ps => if k = key then some v else find key ps

/-- Replace the value of the first pair with a key, or append a pair. -/
def set (key : κ) (v : β) : List (κ × β) → List (κ × β)
  | [] => [(key, v)]
  | (k, w) :: ps => if k = key then (k, v) :: ps else (k, w) :: set key v ps

/-- Take the first pair with a key away. -/
def remove (key : κ) : List (κ × β) → List (κ × β)
  | [] => []
  | (k, w) :: ps => if k = key then ps else (k, w) :: remove key ps

theorem find_set_self (key : κ) (v : β) (ps : List (κ × β)) : find key (set key v ps) = some v := by
  induction ps with
  | nil => simp [set, find]
  | cons p ps ih =>
    by_cases hk : p.1 = key
    · simp [set, find, hk]
    · simp [set, find, hk, ih]

theorem find_set_ne {key key' : κ} (hne : key' ≠ key) (v : β) (ps : List (κ × β)) :
    find key' (set key v ps) = find key' ps := by
  induction ps with
  | nil => simp [set, find, Ne.symm hne]
  | cons p ps ih =>
    by_cases hk : p.1 = key
    · simp [set, find, hk, Ne.symm hne]
    · simp [set, find, hk, ih]

theorem set_find_self {key : κ} {v : β} {ps : List (κ × β)} (h : find key ps = some v) :
    set key v ps = ps := by
  induction ps with
  | nil => simp [find] at h
  | cons p ps ih =>
    by_cases hk : p.1 = key
    · simp only [find, if_pos hk, Option.some.injEq] at h
      simp only [set, if_pos hk, ← h]
    · simp only [find, if_neg hk] at h
      simp only [set, if_neg hk, ih h]

theorem mem_of_find {key : κ} {v : β} {ps : List (κ × β)} (h : find key ps = some v) :
    (key, v) ∈ ps := by
  induction ps with
  | nil => simp [find] at h
  | cons p ps ih =>
    by_cases hk : p.1 = key
    · simp only [find, if_pos hk, Option.some.injEq] at h
      rw [← h, ← hk]
      exact List.mem_cons_self
    · simp only [find, if_neg hk] at h
      exact List.mem_cons_of_mem _ (ih h)

theorem mem_set {key : κ} {v : β} {p : κ × β} {ps : List (κ × β)} (h : p ∈ set key v ps) :
    p = (key, v) ∨ p ∈ ps := by
  induction ps with
  | nil => exact .inl (List.mem_singleton.mp h)
  | cons q ps ih =>
    by_cases hk : q.1 = key
    · simp only [set, if_pos hk, List.mem_cons] at h
      rcases h with rfl | h
      · exact .inl (by rw [hk])
      · exact .inr (List.mem_cons_of_mem _ h)
    · simp only [set, if_neg hk, List.mem_cons] at h
      rcases h with rfl | h
      · exact .inr List.mem_cons_self
      · rcases ih h with hp | hp
        · exact .inl hp
        · exact .inr (List.mem_cons_of_mem _ hp)

/-- A rewriting that keeps the keys of the pairs it keeps, and that keeps the
pair (`key`, `v`), does not change the value `v` of `key`. -/
theorem find_filterMap {f : κ × β → Option (κ × β)} (hf : ∀ p q, f p = some q → q.1 = p.1)
    {key : κ} {v : β} (hv : f (key, v) = some (key, v)) {ps : List (κ × β)}
    (h : find key ps = some v) : find key (ps.filterMap f) = some v := by
  induction ps with
  | nil => simp [find] at h
  | cons p ps ih =>
    by_cases hk : p.1 = key
    · simp only [find, if_pos hk, Option.some.injEq] at h
      have hp : p = (key, v) := Prod.ext hk h
      simp [hp, hv, find]
    · simp only [find, if_neg hk] at h
      rw [List.filterMap_cons]
      split
      · exact ih h
      · rename_i q hq
        -- the rewritten pair still has another key
        have hq' : q.1 ≠ key := fun heq => hk ((hf p q hq).symm.trans heq)
        simp only [find, if_neg hq']
        exact ih h

theorem find_remove_ne {key key' : κ} (hne : key' ≠ key) (ps : List (κ × β)) :
    find key' (remove key ps) = find key' ps := by
  induction ps with
  | nil => rfl
  | cons p ps ih =>
    by_cases hk : p.1 = key
    · simp [remove, find, hk, Ne.symm hne]
    · simp [remove, find, hk, ih]

theorem find_eq_none_iff (key : κ) (ps : List (κ × β)) :
    find key ps = none ↔ key ∉ ps.map Prod.fst := by
  induction ps with
  | nil => simp [find]
  | cons p ps ih =>
    by_cases hk : p.1 = key
    · simp [find, hk]
    · simp [find, hk, ih, Ne.symm hk]

theorem remove_sublist (key : κ) (ps : List (κ × β)) : (remove key ps).Sublist ps := by
  induction ps with
  | nil => exact List.Sublist.refl _
  | cons p ps ih =>
    by_cases hk : p.1 = key
    · rw [remove, if_pos hk]
      exact List.sublist_cons_self p ps
    · rw [remove, if_neg hk]
      exact ih.cons_cons p

/-- No removed key can still be read if and only if the keys do not repeat. -/
theorem forall_find_remove_iff (ps : List (κ × β)) :
    (∀ key, find key (remove key ps) = none) ↔ (ps.map Prod.fst).Nodup := by
  induction ps with
  | nil => simp [remove, find]
  | cons p ps ih =>
    rw [List.map_cons, List.nodup_cons, ← ih]
    constructor
    · intro h
      have hhead : p.1 ∉ ps.map Prod.fst := by
        have hp := h p.1
        simp only [remove, if_pos] at hp
        exact (find_eq_none_iff _ _).mp hp
      refine ⟨hhead, fun key => ?_⟩
      by_cases hk : p.1 = key
      · -- the key of the first pair does not occur behind it
        rw [find_eq_none_iff, ← hk]
        exact fun hmem => hhead (((remove_sublist p.1 ps).map Prod.fst).subset hmem)
      · have hkey := h key
        simp only [remove, if_neg hk, find] at hkey
        exact hkey
    · rintro ⟨hhead, hrest⟩ key
      by_cases hk : p.1 = key
      · simp only [remove, if_pos hk]
        rw [find_eq_none_iff, ← hk]
        exact hhead
      · simp only [remove, find, if_neg hk]
        exact hrest key

theorem keys_set (key : κ) (v : β) (ps : List (κ × β)) :
    (set key v ps).map Prod.fst =
      if key ∈ ps.map Prod.fst then ps.map Prod.fst else ps.map Prod.fst ++ [key] := by
  induction ps with
  | nil => simp [set]
  | cons p ps ih =>
    by_cases hk : p.1 = key
    · simp [set, hk]
    · simp only [set, if_neg hk, List.map_cons, ih, List.mem_cons, Ne.symm hk, false_or]
      split <;> rfl

/-- A new key comes last. -/
theorem set_of_notMem {key : κ} {ps : List (κ × β)} (h : key ∉ ps.map Prod.fst) (v : β) :
    set key v ps = ps ++ [(key, v)] := by
  induction ps with
  | nil => rfl
  | cons p ps ih =>
    rw [List.map_cons, List.mem_cons, not_or] at h
    simp only [set, if_neg (Ne.symm h.1), ih h.2, List.cons_append]

theorem nodup_keys_set {ps : List (κ × β)} (h : (ps.map Prod.fst).Nodup) (key : κ) (v : β) :
    ((set key v ps).map Prod.fst).Nodup := by
  rw [keys_set]
  split
  · exact h
  · rename_i hkey
    rw [List.nodup_append]
    refine ⟨h, List.pairwise_singleton _ _, ?_⟩
    rintro a ha b hb rfl
    rw [List.mem_singleton] at hb
    exact hkey (hb ▸ ha)

theorem nodup_keys_remove {ps : List (κ × β)} (h : (ps.map Prod.fst).Nodup) (key : κ) :
    ((remove key ps).map Prod.fst).Nodup :=
  h.sublist ((remove_sublist key ps).map Prod.fst)

end Assoc
