import Mathlib.Data.Fintype.Basic
import MqttMsgHub.IniFile

/-! # The counter file

`msgcounter.ini` holds the four message counters of the hub as lines
`key=value` among whatever else stands in the file. `_read_total_msg_count`
takes a missing or malformed value for zero; `_save_total_msg_count` parses the
file again, replaces the four values and writes all pairs back.

* `read_saved` — what a save writes is read back, whatever the file held before;
* `save_then_read` — exactly so, if no value is negative.
-/

namespace MqttMsgHub

/-- The four counters, in the order in which the source handles them. -/
inductive Counter where
  | sent
  | onlineDiscarded
  | offlineDiscarded
  | offlineSent
deriving DecidableEq, Repr

/-- All of them. -/
def Counter.all : List Counter := [.sent, .onlineDiscarded, .offlineDiscarded, .offlineSent]

instance : Fintype Counter where
  elems := ⟨Counter.all, by decide⟩
  complete c := by cases c <;> decide

/-- A value for each counter. -/
abbrev Counts := Counter → CInt

/-- `SENT_MSG_COUNT_KEY`, `ONLINE_DISCARD_COUNT_KEY`, `OFFLINE_DISCARD_COUNT_KEY`,
`OFFLINE_SENT_COUNT_KEY`. -/
def Counter.key : Counter → Text
  | .sent => "sentcount".toList
  | .onlineDiscarded => "onlinediscardcount".toList
  | .offlineDiscarded => "offlinediscardcount".toList
  | .offlineSent => "offlinesentcount".toList

theorem Counter.key_injective {c d : Counter} (h : c.key = d.key) : c = d := by
  cases c <;> cases d <;> first | rfl | exact absurd h (by decide)

/-- The value of a counter from its text, zero for no, an empty or a malformed
one. -/
def countValue (str : Option Text) : CInt :=
  match str with
  | none => 0
  | some s => if !stringIsEmpty (some s) && stringIsNumber s then atoi s else 0

/-- `_read_total_msg_count`: whether it returns `SUCCESS`, and the counts. `none`
where the parser has no defined result. -/
def readTotalMsgCount (file : Option (List Char)) : Option (Bool × Counts) :=
  (parseFile file).map fun r =>
    if r.1 ≤ 0 then (false, fun _ => 0)
    else (true, fun c => countValue (Assoc.find c.key r.2))

/-- `set_value` for one counter. -/
def setCount (v : Counts) (c : Counter) (pairs : List TagValue) : List TagValue :=
  Assoc.set c.key (sprintfD (v c).1) pairs

/-- `_save_total_msg_count`: the file afterwards. -/
def saveTotalMsgCount (file : Option (List Char)) (v : Counts) : Option (Option (List Char)) :=
  -- the file is parsed again, so that other pairs in it are kept
  (parseFile file).map fun r =>
    saveToFile (setCount v .offlineSent (setCount v .offlineDiscarded
      (setCount v .onlineDiscarded (setCount v .sent r.2)))) file

/-! ## A saved file -/

theorem find_setCount_self (v : Counts) (c : Counter) (pairs : List TagValue) :
    Assoc.find c.key (setCount v c pairs) = some (sprintfD (v c).1) :=
  Assoc.find_set_self _ _ _

theorem find_setCount_ne {c d : Counter} (h : d ≠ c) (v : Counts) (pairs : List TagValue) :
    Assoc.find d.key (setCount v c pairs) = Assoc.find d.key pairs :=
  Assoc.find_set_ne (fun hkey => h (Counter.key_injective hkey)) _ _

/-- The line of a counter fits into the buffer of the parser. -/
theorem storable_count (c : Counter) (n : CInt) : Storable (c.key, sprintfD n.1) := by
  have hvalue : ∀ x : Char, x.isDigit = false → x ≠ '-' → x ∉ sprintfD n.1 := by
    intro x hdigit hsign hmem
    rcases mem_sprintfD hmem with h | h
    · rw [hdigit] at h
      cases h
    · exact hsign h
  have hlen := length_sprintfD_le n
  have hkey : c.key.length ≤ 19 ∧ c.key.getLast? ≠ some ' ' ∧ '=' ∉ c.key ∧ '\n' ∉ c.key ∧
      '\x00' ∉ c.key := by
    cases c <;> decide
  rcases hkey with ⟨hkey_len, hlast, heq, hnl, hnul⟩
  constructor
  · cases c <;> exact ⟨_, _, rfl, by decide⟩
  · exact hlast
  · exact heq
  · exact sprintfD_ne_nil _
  · intro hhead
    exact hvalue ' ' (by decide) (by decide) (List.mem_of_head? hhead)
  · rw [List.mem_append, not_or]
    exact ⟨hnl, hvalue _ (by decide) (by decide)⟩
  · rw [List.mem_append, not_or]
    exact ⟨hnul, hvalue _ (by decide) (by decide)⟩
  · show c.key.length + (sprintfD n.1).length + 1 ≤ 1023
    omega

theorem storable_setCount {v : Counts} {c : Counter} {pairs : List TagValue}
    (h : ∀ p ∈ pairs, Storable p) : ∀ p ∈ setCount v c pairs, Storable p := by
  intro p hp
  rcases Assoc.mem_set hp with rfl | hmem
  · exact storable_count c (v c)
  · exact h p hmem

/-- What a count is read back as: a negative one is taken for a malformed
value. -/
def storedCount (n : CInt) : CInt := if 0 ≤ n.1 then n else 0

theorem storedCount_of_nonneg {n : CInt} (h : 0 ≤ n.1) : storedCount n = n := if_pos h

theorem countValue_sprintfD (n : CInt) : countValue (some (sprintfD n.1)) = storedCount n := by
  have hne : (sprintfD n.1).isEmpty = false := by simp [sprintfD_ne_nil]
  rcases lt_or_ge n.1 0 with hneg | hpos
  · have hsign : stringIsNumber (sprintfD n.1) = false := by
      rw [sprintfD_of_neg hneg]
      rfl
    simp [countValue, storedCount, hsign, not_le.mpr hneg]
  · have hdigits : (sprintfD n.1).all Char.isDigit = true :=
      List.all_eq_true.mpr fun c hc => isDigit_of_mem_sprintfD hpos hc
    rw [storedCount_of_nonneg hpos]
    simp [countValue, stringIsEmpty, stringIsNumber, hne, hdigits, atoi_sprintfD]

/-- The line of a counter survives the way through the file. -/
theorem readBack_count (c : Counter) (n : CInt) :
    readBack (c.key, sprintfD n.1) = some (c.key, sprintfD n.1) := by
  have hcr : '\r' ∉ sprintfD n.1 := by
    intro hmem
    rcases mem_sprintfD hmem with h | h
    · exact absurd h (by decide)
    · exact absurd h (by decide)
  rw [readBack, chop_eq_self hcr, if_neg (sprintfD_ne_nil _)]

theorem readBack_key {p q : TagValue} (h : readBack p = some q) : q.1 = p.1 := by
  unfold readBack at h
  split at h
  · cases h
  · cases h
    rfl

/-- Whatever the file held: if the parser gets through it, what is saved is read
back. -/
theorem read_saved {file : Option (List Char)} (hfile : (parseFile file).isSome) (v : Counts) :
    ∃ file', saveTotalMsgCount file v = some file' ∧
      readTotalMsgCount file' = some (true, fun c => storedCount (v c)) := by
  rcases Option.isSome_iff_exists.mp hfile with ⟨⟨size, pairs⟩, hparse⟩
  let pairs' := setCount v .offlineSent (setCount v .offlineDiscarded
    (setCount v .onlineDiscarded (setCount v .sent pairs)))
  have hstorable : ∀ p ∈ pairs', Storable p :=
    storable_setCount (storable_setCount (storable_setCount (storable_setCount
      (storable_of_parseFile hparse))))
  -- each counter is found in the new list, and again when that list is read back
  have hfind : ∀ c : Counter, Assoc.find c.key pairs' = some (sprintfD (v c).1) := by
    intro c
    cases c with
    | sent =>
      rw [find_setCount_ne (by decide), find_setCount_ne (by decide), find_setCount_ne (by decide),
        find_setCount_self]
    | onlineDiscarded =>
      rw [find_setCount_ne (by decide), find_setCount_ne (by decide), find_setCount_self]
    | offlineDiscarded => rw [find_setCount_ne (by decide), find_setCount_self]
    | offlineSent => rw [find_setCount_self]
  have hread : ∀ c : Counter,
      Assoc.find c.key (pairs'.filterMap readBack) = some (sprintfD (v c).1) := fun c =>
    Assoc.find_filterMap (fun _ _ => readBack_key) (readBack_count c (v c)) (hfind c)
  have hpos : 0 < pairs'.length := by
    by_contra hnil
    have hnil' : pairs' = [] := by simpa using hnil
    have hsent := hfind .sent
    rw [hnil'] at hsent
    cases hsent
  have hsize : ¬ ((pairs'.filterMap readBack).length : ℤ) ≤ 0 := by
    intro hle
    have hnil : pairs'.filterMap readBack = [] := by
      rw [← List.length_eq_zero_iff]
      omega
    have hsent := hread .sent
    rw [hnil] at hsent
    cases hsent
  refine ⟨some (pairs'.flatMap writeKeyvalue), ?_, ?_⟩
  · simp only [saveTotalMsgCount, hparse, Option.map_some, saveToFile]
    rw [if_pos hpos]
  · simp only [readTotalMsgCount, parseFile_written hstorable, Option.map_some]
    rw [if_neg hsize]
    have hcounts : (fun c : Counter => countValue (Assoc.find c.key (pairs'.filterMap readBack))) =
        fun c => storedCount (v c) := by
      funext c
      rw [hread c, countValue_sprintfD]
    rw [hcounts]

/-- A save of four non-negative counts, and then a read: the previous file may
be missing or hold anything the parser gets through. -/
theorem save_then_read {file : Option (List Char)}
    (hfile : ∀ text, file = some text → ∀ line ∈ fileLines text, ¬ LacksKey line) {v : Counts}
    (hv : ∀ c, 0 ≤ (v c).1) :
    ∃ file', saveTotalMsgCount file v = some file' ∧ readTotalMsgCount file' = some (true, v) := by
  rcases read_saved ((parseFile_isSome_iff file).mpr hfile) v with ⟨file', hsave, hread⟩
  have hcounts : (fun c => storedCount (v c)) = v := funext fun c => storedCount_of_nonneg (hv c)
  rw [hcounts] at hread
  exact ⟨file', hsave, hread⟩

/-- A comment, a line without `=`, the same counter twice and a line end of
another system. -/
theorem save_then_read_edited :
    ∃ file', saveTotalMsgCount
        (some (['#', '\n', 'x', '\n'] ++ Counter.sent.key ++ ['=', '7', '\r', '\n'] ++
          Counter.sent.key ++ ['=', 'y', '\n', '[']))
        (fun _ => INT_MAX) = some file' ∧
      readTotalMsgCount file' = some (true, fun _ => INT_MAX) :=
  save_then_read
    (by
      rintro text htext
      rw [← Option.some.inj htext]
      decide)
    (by decide)

theorem read_of_save {file file' : Option (List Char)} {v : Counts}
    (hfile : (readTotalMsgCount file).isSome) (hv : ∀ c, 0 ≤ (v c).1)
    (hsave : saveTotalMsgCount file v = some file') : readTotalMsgCount file' = some (true, v) := by
  rw [readTotalMsgCount, Option.isSome_map] at hfile
  rcases read_saved hfile v with ⟨file'', hsave', hread⟩
  have heq : file'' = file' := Option.some.inj (hsave'.symm.trans hsave)
  have hcounts : (fun c => storedCount (v c)) = v := funext fun c => storedCount_of_nonneg (hv c)
  rw [heq, hcounts] at hread
  exact hread

end MqttMsgHub
