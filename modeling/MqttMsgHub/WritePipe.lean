import MqttMsgHub.Lib.Exec
import MqttMsgHub.MsgRevHandler

/-! # The command pipe

`writepipe.c` with its thread pool: `write_pipe_buffer` queues a task, and the
only worker takes the tasks in order and writes each to a FIFO that is opened
with `O_NONBLOCK`. The environment decides how the system calls end. What
POSIX allows for `write` is the side condition of a run: up to `PIPE_BUF`
bytes are written as a whole or not at all, of a longer buffer any part may be
written. The number of bytes written is only logged.

* `framed_inv` — commands of at most `PIPE_BUF` bytes arrive as a whole, in
  order;
* `pipe_framed_iff` — exactly these sequences of commands do in every run.
-/

namespace MqttMsgHub

/-- `PIPE_BUF` of Linux. -/
def PIPE_BUF : ℕ := 4096

/-- `TASK_QUEUE_COUNT`. -/
def TASK_QUEUE_COUNT : ℕ := 2048

/-- What the system calls of one task return: whether the FIFO exists, `mkfifo`,
`open`, and the number of bytes that `write` takes (`none` when it fails). -/
structure PipeEnv where
  fifoExists : Bool
  mkfifoRc : CInt
  openRc : CInt
  written : Option ℕ

inductive PipeEvent where
  /-- `write_pipe_buffer` is called. -/
  | passed (buffer : Text)
  /-- The task queue is full. -/
  | taskRejected (buffer : Text)
  /-- The FIFO cannot be opened. -/
  | notOpened (buffer : Text)
  /-- The part of the buffer that `write` has put into the FIFO. -/
  | wrote (buffer part : Text)
deriving DecidableEq

/-- `g_pipe_fd` and the tasks of the pool. -/
structure PipeState where
  gPipeFd : CInt
  tasks : List Text

/-- `open_write_pipe`: its result and `g_pipe_fd` after it. -/
def openWritePipe (gPipeFd : CInt) (env : PipeEnv) : CInt × CInt :=
  if env.fifoExists = false ∧ env.mkfifoRc.1 < 0 then (env.mkfifoRc, gPipeFd)
  else if env.openRc.1 < 0 then (env.openRc, env.openRc)
  else (0, env.openRc)

/-- `write` on the FIFO. -/
def writeFifo (buffer : Text) (written : Option ℕ) : PipeEvent :=
  .wrote buffer (buffer.take (written.getD 0))

/-- `write_pipe_thread_fun`: `g_pipe_fd` after it, and what it does. -/
def writePipeThreadFun (gPipeFd : CInt) (buffer : Text) (env : PipeEnv) : CInt × PipeEvent :=
  if gPipeFd.1 ≤ 0 then
    let (rc, fd) := openWritePipe gPipeFd env
    if rc.1 < 0 then (fd, .notOpened buffer) else (fd, writeFifo buffer env.written)
  else (gPipeFd, writeFifo buffer env.written)

/-- `write_pipe_buffer`, with `threadpool_add`. -/
def writePipeBuffer (s : PipeState) (buffer : Text) : PipeState × List PipeEvent :=
  if stringIsEmpty (some buffer) then (s, [.passed buffer])
  else if s.tasks.length = TASK_QUEUE_COUNT then (s, [.passed buffer, .taskRejected buffer])
  else ({ s with tasks := s.tasks ++ [buffer] }, [.passed buffer])

/-- A call, or the worker's next task. -/
inductive PipeLabel where
  | writePipeBuffer (buffer : Text)
  | worker (env : PipeEnv)

/-- One step: a call of `write_pipe_buffer`, or an iteration of
`threadpool_thread`. -/
def pipeStep (s : PipeState) : PipeLabel → Option (PipeState × List PipeEvent)
  | .writePipeBuffer buffer => some (writePipeBuffer s buffer)
  | .worker env =>
    match s.tasks with
    | [] => none
    | buffer :: tasks =>
      let (fd, ev) := writePipeThreadFun s.gPipeFd buffer env
      some (⟨fd, tasks⟩, [ev])

/-- What POSIX allows for a `write` of `n` bytes to a FIFO with `O_NONBLOCK`. -/
def PosixWrite (n : ℕ) : Option ℕ → Prop
  | none => True
  | some k => k = n ∨ PIPE_BUF < n ∧ 0 < k ∧ k ≤ n

/-- The worker's `write` is one that POSIX allows. -/
def PosixStep (s : PipeState) : PipeLabel → Prop
  | .writePipeBuffer _ => True
  | .worker env => ∀ buffer ∈ s.tasks.head?, PosixWrite buffer.length env.written

/-- The runs of the pipe from a given `g_pipe_fd`, before the first command. -/
abbrev PipeRuns (fd : CInt) : List PipeEvent → PipeState → Prop :=
  Exec.Runs pipeStep PosixStep ⟨fd, []⟩

/-- The buffer of a call. -/
def PipeEvent.passedBuffer : PipeEvent → Option Text
  | .passed buffer => some buffer
  | _ => none

/-- The bytes that an event adds to the FIFO. -/
def PipeEvent.part : PipeEvent → Text
  | .wrote _ part => part
  | _ => []

/-- The buffers of the calls, in order. -/
def passedBuffers (tr : List PipeEvent) : List Text := tr.filterMap PipeEvent.passedBuffer

/-- The byte stream that the reader receives. -/
def readerStream (tr : List PipeEvent) : Text := tr.flatMap PipeEvent.part

/-- Every command is delivered entirely or not at all: the stream is the
concatenation of some of the buffers. -/
structure Framed (tr : List PipeEvent) : Prop where
  whole : ∀ buffer part, .wrote buffer part ∈ tr → part = [] ∨ part = buffer
  stream : ∃ sub : List Text, sub.Sublist (passedBuffers tr) ∧ readerStream tr = sub.flatten

@[simp] theorem passedBuffers_append (tr ev : List PipeEvent) :
    passedBuffers (tr ++ ev) = passedBuffers tr ++ passedBuffers ev := by
  simp [passedBuffers]

@[simp] theorem readerStream_append (tr ev : List PipeEvent) :
    readerStream (tr ++ ev) = readerStream tr ++ readerStream ev := by
  simp [readerStream]

variable {fd : CInt} {tr ev : List PipeEvent} {s s' : PipeState} {buffer part : Text} {env : PipeEnv}

/-! ## Steps -/

/-- What a call leaves: the buffer is queued or it is not. -/
theorem writePipeBuffer_cases (h : pipeStep s (.writePipeBuffer buffer) = some (s', ev)) :
    passedBuffers ev = [buffer] ∧ readerStream ev = [] ∧ (∀ b p, .wrote b p ∉ ev) ∧
      (s' = s ∨ s' = { s with tasks := s.tasks ++ [buffer] }) := by
  simp only [pipeStep, Option.some.injEq] at h
  unfold writePipeBuffer at h
  split at h
  · cases h
    exact ⟨rfl, rfl, by simp, .inl rfl⟩
  · split at h
    · cases h
      exact ⟨rfl, rfl, by simp, .inl rfl⟩
    · cases h
      exact ⟨rfl, rfl, by simp, .inr rfl⟩

/-- What a task leaves: nothing is written, or what `write` has taken. -/
theorem writePipeThreadFun_cases (fd : CInt) (buffer : Text) (env : PipeEnv) :
    (writePipeThreadFun fd buffer env).2 = .notOpened buffer ∨
      (writePipeThreadFun fd buffer env).2 = writeFifo buffer env.written := by
  unfold writePipeThreadFun
  split
  · simp only
    split
    · exact .inl rfl
    · exact .inr rfl
  · exact .inr rfl

/-- The worker takes the first task, and a part of its buffer goes to the reader. -/
theorem worker_cases (h : pipeStep s (.worker env) = some (s', ev)) :
    ∃ buffer part, s.tasks = buffer :: s'.tasks ∧ passedBuffers ev = [] ∧ readerStream ev = part ∧
      (∀ b p, .wrote b p ∈ ev → b = buffer ∧ p = part) ∧
      (part = [] ∨ part = buffer.take (env.written.getD 0)) := by
  simp only [pipeStep] at h
  split at h
  · cases h
  · rename_i buffer tasks htasks
    simp only [Option.some.injEq, Prod.mk.injEq] at h
    rcases h with ⟨rfl, rfl⟩
    rcases writePipeThreadFun_cases s.gPipeFd buffer env with hev | hev
    · rw [hev]
      exact ⟨buffer, [], htasks, rfl, rfl, by simp, .inl rfl⟩
    · rw [hev]
      exact ⟨buffer, buffer.take (env.written.getD 0), htasks, rfl, by simp [readerStream, writeFifo,
        PipeEvent.part], by simp [writeFifo], .inr rfl⟩

/-- A write that POSIX allows is all or nothing for a short buffer. -/
theorem take_of_posix (hposix : PosixWrite buffer.length env.written)
    (hshort : buffer.length ≤ PIPE_BUF) :
    buffer.take (env.written.getD 0) = [] ∨ buffer.take (env.written.getD 0) = buffer := by
  cases hwritten : env.written with
  | none => exact .inl rfl
  | some k =>
    rw [hwritten] at hposix
    rcases hposix with rfl | ⟨hlong, -⟩
    · exact .inr (List.take_length)
    · exact absurd hlong (not_lt.mpr hshort)

/-! ## Short commands -/

/-- What has arrived and what is still queued are, in order, a part of what was
passed. -/
structure PipeInv (tr : List PipeEvent) (s : PipeState) : Prop where
  whole : ∀ buffer part, .wrote buffer part ∈ tr → part = [] ∨ part = buffer
  stream : ∃ sub : List Text, (sub ++ s.tasks).Sublist (passedBuffers tr) ∧
    readerStream tr = sub.flatten

theorem PipeInv.framed (h : PipeInv tr s) : Framed tr := by
  rcases h.stream with ⟨sub, hsub, hreceived⟩
  exact ⟨h.whole, sub, (List.sublist_append_left _ _).trans hsub, hreceived⟩

/-- A call. -/
theorem PipeInv.call (h : PipeInv tr s)
    (hstep : pipeStep s (.writePipeBuffer buffer) = some (s', ev)) : PipeInv (tr ++ ev) s' := by
  rcases h with ⟨hwhole, sub, hsub, hreceived⟩
  rcases writePipeBuffer_cases hstep with ⟨hpassed, hnothing, hnot, hs'⟩
  refine ⟨?_, sub, ?_, ?_⟩
  · intro b p hmem
    rcases List.mem_append.mp hmem with hold | hnew
    · exact hwhole b p hold
    · exact absurd hnew (hnot b p)
  · rw [passedBuffers_append, hpassed]
    rcases hs' with rfl | rfl
    · exact hsub.trans (List.sublist_append_left _ _)
    · rw [← List.append_assoc]
      exact hsub.append_right [buffer]
  · rw [readerStream_append, hnothing, List.append_nil, hreceived]

/-- A task with a short buffer. -/
theorem PipeInv.task (h : PipeInv tr s) (hshort : ∀ b ∈ s.tasks, b.length ≤ PIPE_BUF)
    (hposix : PosixStep s (.worker env)) (hstep : pipeStep s (.worker env) = some (s', ev)) :
    PipeInv (tr ++ ev) s' := by
  rcases h with ⟨hwhole, sub, hsub, hreceived⟩
  rcases worker_cases hstep with ⟨buffer, part, htasks, hpassed, hpart, hwrote, hcases⟩
  have hallOrNothing : part = [] ∨ part = buffer := by
    rcases hcases with rfl | rfl
    · exact .inl rfl
    · exact take_of_posix (hposix buffer (by simp [htasks])) (hshort buffer (by simp [htasks]))
  rw [htasks] at hsub
  constructor
  · intro b p hmem
    rcases List.mem_append.mp hmem with hold | hnew
    · exact hwhole b p hold
    · rcases hwrote b p hnew with ⟨rfl, rfl⟩
      exact hallOrNothing
  · rw [passedBuffers_append, hpassed, List.append_nil, readerStream_append, hreceived, hpart]
    rcases hallOrNothing with rfl | rfl
    · exact ⟨sub, ((List.sublist_cons_self buffer s'.tasks).append_left sub).trans hsub,
        List.append_nil _⟩
    · refine ⟨sub ++ [part], ?_, List.flatten_concat.symm⟩
      rwa [List.append_assoc]

/-- Short commands arrive as a whole or not at all. -/
theorem framed_inv (hrun : PipeRuns fd tr s)
    (hshort : ∀ b ∈ passedBuffers tr, b.length ≤ PIPE_BUF) : PipeInv tr s := by
  refine Exec.Runs.invariant (H := fun tr => ∀ b ∈ passedBuffers tr, b.length ≤ PIPE_BUF)
    (P := PipeInv) ?_ ?_ ?_ hrun hshort
  · intro tr ev h b hb
    exact h b (by simp [hb])
  · exact ⟨fun b p hmem => absurd hmem List.not_mem_nil, [], List.Sublist.refl _, rfl⟩
  · intro tr s a s' ev _ hH hinv hposix hstep
    cases a with
    | writePipeBuffer buffer => exact hinv.call hstep
    | worker env =>
      refine hinv.task ?_ hposix hstep
      intro b hb
      rcases hinv.stream with ⟨sub, hsub, -⟩
      exact hH b (by simp [hsub.subset (List.mem_append_right sub hb)])

/-! ## Long commands -/

/-- A command that is passed and worked off at once. -/
theorem runs_command (fd : CInt) (hne : buffer ≠ []) (hposix : PosixWrite buffer.length env.written) :
    PipeRuns fd [.passed buffer, (writePipeThreadFun fd buffer env).2]
      ⟨(writePipeThreadFun fd buffer env).1, []⟩ := by
  have hcall : pipeStep ⟨fd, []⟩ (.writePipeBuffer buffer) = some (⟨fd, [buffer]⟩, [.passed buffer]) := by
    simp [pipeStep, writePipeBuffer, stringIsEmpty, hne, TASK_QUEUE_COUNT]
  have htask : pipeStep ⟨fd, [buffer]⟩ (.worker env) =
      some (⟨(writePipeThreadFun fd buffer env).1, []⟩, [(writePipeThreadFun fd buffer env).2]) := rfl
  have hallowed : PosixStep ⟨fd, [buffer]⟩ (.worker env) := by
    intro b hb
    cases hb
    exact hposix
  exact (Exec.Runs.start.next trivial hcall).next hallowed htask

theorem passed_command (fd : CInt) (buffer : Text) (env : PipeEnv) :
    passedBuffers [.passed buffer, (writePipeThreadFun fd buffer env).2] = [buffer] := by
  rcases writePipeThreadFun_cases fd buffer env with hev | hev <;> rw [hev] <;> rfl

/-- Every system call fails. -/
def deafEnv : PipeEnv := ⟨false, ⟨-1, by decide⟩, ⟨-1, by decide⟩, none⟩

/-- The FIFO is there, and `write` takes `k` bytes. -/
def takingEnv (k : ℕ) : PipeEnv := ⟨true, 0, 3, some k⟩

theorem writePipeThreadFun_taking (fd : CInt) (buffer : Text) (k : ℕ) :
    (writePipeThreadFun fd buffer (takingEnv k)).2 = .wrote buffer (buffer.take k) := by
  unfold writePipeThreadFun
  split <;> rfl

/-- Any commands may be passed, and none of them written. -/
theorem runs_deaf (buffers : List Text) (fd : CInt) :
    ∃ tr fd', PipeRuns fd tr ⟨fd', []⟩ ∧ passedBuffers tr = buffers := by
  induction buffers generalizing fd with
  | nil => exact ⟨[], fd, .start, rfl⟩
  | cons buffer buffers ih =>
    cases hbuffer : buffer with
    | nil =>
      have hcall : pipeStep ⟨fd, []⟩ (.writePipeBuffer []) = some (⟨fd, []⟩, [.passed []]) := rfl
      rcases ih fd with ⟨tr, fd', hrun, hpassed⟩
      refine ⟨_, fd', (Exec.Runs.start.next trivial hcall).trans hrun, ?_⟩
      rw [passedBuffers_append, hpassed]
      rfl
    | cons c cs =>
      have hsilent : PosixWrite (c :: cs).length deafEnv.written := trivial
      have hcommand := runs_command fd (List.cons_ne_nil c cs) hsilent
      rcases ih (writePipeThreadFun fd (c :: cs) deafEnv).1 with ⟨tr, fd', hrun, hpassed⟩
      refine ⟨_, fd', hcommand.trans hrun, ?_⟩
      rw [passedBuffers_append, passed_command, hpassed]
      rfl

/-- Of a long command a part may be written, whatever comes before and after it. -/
theorem runs_fragment (fd : CInt) (hlong : PIPE_BUF < buffer.length) (pre post : List Text) :
    ∃ tr s, PipeRuns fd tr s ∧ passedBuffers tr = pre ++ buffer :: post ∧
      .wrote buffer (buffer.take 1) ∈ tr := by
  have hne : buffer ≠ [] := by
    rintro rfl
    exact absurd hlong (by decide)
  have hone : PosixWrite buffer.length (takingEnv 1).written :=
    .inr ⟨hlong, Nat.one_pos, List.length_pos_iff.mpr hne⟩
  rcases runs_deaf pre fd with ⟨tr, fd₁, hrun, hpre⟩
  have hcommand := runs_command fd₁ hne hone
  rcases runs_deaf post (writePipeThreadFun fd₁ buffer (takingEnv 1)).1 with
    ⟨tr', fd₂, hrun', hpost⟩
  refine ⟨_, _, (hrun.trans hcommand).trans hrun', ?_, ?_⟩
  · rw [passedBuffers_append, passedBuffers_append, passed_command, hpre, hpost, List.append_assoc]
    rfl
  · rw [writePipeThreadFun_taking]
    simp

/-- A sequence of commands is delivered command by command in every run exactly
when each has at most `PIPE_BUF` bytes. -/
theorem pipe_framed_iff (fd : CInt) (buffers : List Text) :
    (∀ tr s, PipeRuns fd tr s → passedBuffers tr = buffers → Framed tr) ↔
      ∀ b ∈ buffers, b.length ≤ PIPE_BUF := by
  constructor
  · intro hframed b hb
    by_contra hlong
    rw [not_le] at hlong
    rcases List.append_of_mem hb with ⟨pre, post, rfl⟩
    rcases runs_fragment fd hlong pre post with ⟨tr, s, hrun, hpassed, hmem⟩
    have hlen : (b.take 1).length = 1 := by
      rw [List.length_take]
      unfold PIPE_BUF at hlong
      omega
    -- one byte is neither nothing nor the whole command
    rcases (hframed tr s hrun hpassed).whole b (b.take 1) hmem with hnone | hall
    · rw [hnone] at hlen
      cases hlen
    · rw [hall] at hlen
      unfold PIPE_BUF at hlong
      omega
  · rintro hshort tr s hrun rfl
    exact (framed_inv hrun hshort).framed

/-- The command for a payload of `n` zero bytes, as it is passed to the pipe. -/
def zerosCommand (n : ℕ) : Text := pipeText allTopic [] (encoded (List.replicate n 0))

theorem length_zerosCommand (n : ℕ) : (zerosCommand n).length = (n + 2) / 3 * 4 + 36 := by
  have htopic : allTopic.length = 11 := by decide
  rw [zerosCommand, length_pipeText, length_encoded, List.length_replicate, htopic, encodedLength,
    List.length_nil]
  omega

/-- The lengths of what two commands can give. -/
theorem length_of_sublist_pair {a b : Text} {sub : List Text} (h : sub.Sublist [a, b]) :
    sub.flatten.length = 0 ∨ sub.flatten.length = a.length ∨ sub.flatten.length = b.length ∨
      sub.flatten.length = a.length + b.length := by
  rcases List.sublist_cons_iff.mp h with hb | ⟨sub', rfl, hb⟩
  · rcases List.sublist_singleton.mp hb with rfl | rfl
    · exact .inl rfl
    · exact .inr (.inr (.inl (by simp)))
  · rcases List.sublist_singleton.mp hb with rfl | rfl
    · exact .inr (.inl (by simp))
    · exact .inr (.inr (.inr (by simp)))

/-- Of a command with a payload of 4000 bytes the reader receives the first 4096
bytes, and then the next command. -/
theorem fragment_before_next_command :
    ¬ ∀ (buffers : List Text), (∀ b ∈ buffers, b ≠ []) → ∀ fd tr s, PipeRuns fd tr s →
      passedBuffers tr = buffers →
      ∃ sub : List Text, sub.Sublist buffers ∧ readerStream tr = sub.flatten := by
  intro hclaim
  have hlong := length_zerosCommand 4000
  have hnext := length_zerosCommand 1
  have hne : ∀ n, zerosCommand n ≠ [] := by
    intro n hnil
    have hlen := length_zerosCommand n
    rw [hnil] at hlen
    cases hlen
  have hpart : PosixWrite (zerosCommand 4000).length (takingEnv 4096).written := by
    refine .inr ⟨?_, by decide, ?_⟩ <;> rw [hlong] <;> decide
  have hwhole : PosixWrite (zerosCommand 1).length (takingEnv 40).written := .inl (by rw [hnext])
  have hrun := (runs_command 3 (hne 4000) hpart).trans (runs_command _ (hne 1) hwhole)
  rcases hclaim [zerosCommand 4000, zerosCommand 1] (by simp [hne]) _ _ _ hrun
    (by rw [passedBuffers_append, passed_command, passed_command]; rfl) with ⟨sub, hsub, hreceived⟩
  have hlen := congrArg List.length hreceived
  rw [writePipeThreadFun_taking, writePipeThreadFun_taking] at hlen
  simp only [readerStream, PipeEvent.part, List.cons_append, List.nil_append, List.flatMap_cons,
    List.flatMap_nil, List.length_append, List.length_take, List.length_nil, hlong, hnext] at hlen
  rcases length_of_sublist_pair hsub with h | h | h | h <;> rw [h] at hlen <;> omega

end MqttMsgHub
