import MqttMsgHub.Hub

/-! # Retries in the drain loop

The loop of `send_messages_thread_fun` while the client stays connected and
nothing is enqueued. The result of `MQTTClientWrapper_sendMessage` is a fixed
function `sends` of the message as it stands in its cache file; the clock may
show anything. A message that cannot be parsed is removed, but one that cannot
be sent goes back to the head of the queue, and the next iteration takes the
same message again. Only a put-back that finds the queue full lets the loop go
on.

* `drain_trapped` — a failing message at the head of a queue with room behind it
  keeps the loop for ever;
* `drain_pass` — every other message is left behind in one iteration;
* `drain_completes_iff` — the queues that the loop works off.
-/

namespace MqttMsgHub

open Pool (Alone)

variable {J : Text → Option Json} {sends : Text → Bool} {envs : ℕ → Env} {s s' : Hub}
  {d d' : Directory} {e e' : CacheFileHeader} {q : List CacheFileHeader} {n : ℕ} {ev : List Event}

/-! ## Messages -/

/-- The text of a request that is accepted, at whatever time. -/
def Accepted (J : Text → Option Json) (text : Text) : Prop :=
  ∃ now c v, parseMqttSendRequestBody J text none now = .ok (c, v)

/-- Acceptance does not depend on the clock. -/
theorem Accepted.at_time {text : Text} (h : Accepted J text) (now : CInt64) :
    ∃ c v, parseMqttSendRequestBody J text none now = .ok (c, v) := by
  rcases h with ⟨before, c, v, hparse⟩
  rcases parse_cases hparse with
    ⟨jobj, topic, hJ, htopic, hne, ⟨x, hx, hpayload, -, -⟩ | ⟨members, hm, -, -⟩⟩
  · exact ⟨_, _, parse_of_string none now hJ htopic hne hx hpayload⟩
  · exact ⟨_, _, parse_of_object none now hJ htopic hne hm⟩

/-- The file of an entry holds a message that the sender reads and accepts. -/
structure Holds (J : Text → Option Json) (d : Directory) (e : CacheFileHeader) (text : Text) :
    Prop where
  lookup : d.lookup (getCacheFilePath e) = some text
  ne_nil : text ≠ []
  accepted : Accepted J text

/-- An entry whose message is accepted but cannot be sent. -/
def Failing (J : Text → Option Json) (sends : Text → Bool) (d : Directory) (e : CacheFileHeader) :
    Prop :=
  ∃ text, Holds J d e text ∧ sends text = false

theorem Holds.text_eq {text text' : Text} (h : Holds J d e text)
    (h' : d.lookup (getCacheFilePath e) = some text') : text' = text := by
  rw [h.lookup] at h'
  exact (Option.some.inj h').symm

/-- What an entry holds depends on its file only. -/
theorem Holds.of_lookup {text : Text} (h : Holds J d e text)
    (hsame : d'.lookup (getCacheFilePath e') = d.lookup (getCacheFilePath e)) :
    Holds J d' e' text :=
  ⟨hsame.trans h.lookup, h.ne_nil, h.accepted⟩

/-! ## One iteration -/

/-- The environment's choices: a message is sent or not by `sends`, everything
else is free. -/
def sendChoice (sends : Text → Bool) (envs : ℕ → Env) (n : ℕ) (s : Hub) : Thread → Env
  | .sender (.send e _) =>
    { envs n with sendOk := sends ((s.dir.lookup (getCacheFilePath e)).getD []) }
  | _ => envs n

/-- The loop, started for its `n`-th section in `s`, ends in `s'`. -/
def DrainEnds (J : Text → Option Json) (sends : Text → Bool) (envs : ℕ → Env) (n : ℕ) (s : Hub)
    (ev : List Event) (s' : Hub) : Prop :=
  Alone (sect J) (sendChoice sends envs) n s (.sender .count) ev s'

/-- The loop is a run of the hub with no other thread. -/
theorem DrainEnds.runs (h : DrainEnds J sends envs n s ev s') :
    Exec.Runs (hubStep J) (Pool.Allowed anyCall anySect) ⟨s, [.sender .count]⟩ ev ⟨s', []⟩ :=
  Pool.Alone.runs h fun _ _ _ => trivial

/-- An empty queue ends the loop. -/
theorem drainEnds_of_empty (hq : s.queue = []) :
    DrainEnds J sends envs n s ev s' ↔ ev = [] ∧ s' = { s with isAsyncSending := false } := by
  have hcount : ∀ env, sect J s (.sender .count) env = some (s.goto (.sender .finish) []) := by
    intro env
    simp [sect, sendMessagesThreadFun, hq]
  rw [DrainEnds, Pool.alone_of_silent (hcount _)]
  exact Pool.alone_of_exit rfl

/-- The state in which the sender has taken the head of the queue. -/
def Hub.popped (s : Hub) (q : List CacheFileHeader) : Hub := { s with list := some q }

section Iteration

variable (hl : s.list = some (e :: q)) (hconn : s.connected = true)
include hl hconn

/-- The loop takes the head of the queue. -/
theorem drainEnds_iff_popped :
    DrainEnds J sends envs n s ev s' ↔
      Alone (sect J) (sendChoice sends envs) (n + 3) (s.popped q) (.sender (.fileExists e)) ev s' := by
  have hcount : ∀ env, sect J s (.sender .count) env = some (s.goto (.sender .isConnected) []) := by
    intro env
    simp [sect, sendMessagesThreadFun, Hub.queue, hl]
  have honline : ∀ env, sect J s (.sender .isConnected) env = some (s.goto (.sender .pop) []) := by
    intro env
    simp [sect, sendMessagesThreadFun, hconn]
  have hpop : ∀ env, sect J s (.sender .pop) env =
      some ((s.popped q).goto (.sender (.fileExists e)) []) := by
    intro env
    simp [sect, sendMessagesThreadFun, hl, Hub.popped]
  rw [DrainEnds, Pool.alone_of_silent (hcount _), Pool.alone_of_silent (honline _),
    Pool.alone_of_silent (hpop _)]

end Iteration

/-- The rest of an iteration that unlinks the file. -/
theorem alone_unlink :
    Alone (sect J) (sendChoice sends envs) n s (.sender (.unlink e)) ev s' ↔
      DrainEnds J sends envs (n + 1) { s with dir := s.dir.erase (getCacheFilePath e) } ev s' :=
  Pool.alone_of_silent rfl

/-- A file that is there is read. -/
theorem alone_fileThere {text : Text} (hfile : s.dir.lookup (getCacheFilePath e) = some text) :
    Alone (sect J) (sendChoice sends envs) n s (.sender (.fileExists e)) ev s' ↔
      Alone (sect J) (sendChoice sends envs) (n + 1) s (.sender (.readFile e)) ev s' := by
  apply Pool.alone_of_silent
  simp [sect, sendMessagesThreadFun, hfile, Hub.goto]

/-- A message that is accepted comes to its send. -/
theorem alone_accepted {text : Text} (h : Holds J s.dir e text) :
    ∃ c v, parseMqttSendRequestBody J text none (envs (n + 1)).now = .ok (c, v) ∧
      ∀ ev s', Alone (sect J) (sendChoice sends envs) n s (.sender (.fileExists e)) ev s' ↔
        Alone (sect J) (sendChoice sends envs) (n + 2) s (.sender (.send e c)) ev s' := by
  obtain ⟨c, v, hparse⟩ := h.accepted.at_time (envs (n + 1)).now
  refine ⟨c, v, hparse, fun ev s' => ?_⟩
  rw [alone_fileThere h.lookup]
  apply Pool.alone_of_silent
  cases htext : text with
  | nil => exact absurd htext h.ne_nil
  | cons x xs =>
    rw [htext] at h hparse
    simp [sect, sendMessagesThreadFun, sendChoice, h.lookup, hparse, Hub.goto]

/-- Where an iteration, begun with `e` in the sender's hand, leaves the message
behind: the number of its sections, its events and the directory after it. -/
structure LeavesBehind (J : Text → Option Json) (sends : Text → Bool) (envs : ℕ → Env) (n : ℕ)
    (s : Hub) (e : CacheFileHeader) (m : ℕ) (evs : List Event) (d' : Directory) : Prop where
  goes_on : ∀ ev s', Alone (sect J) (sendChoice sends envs) n s (.sender (.fileExists e)) ev s' ↔
    ∃ ev', ev = evs ++ ev' ∧ DrainEnds J sends envs (n + m) { s with dir := d' } ev' s'
  dir : d' = s.dir ∨ d' = s.dir.erase (getCacheFilePath e) ∧ ¬ Failing J sends s.dir e
  published : ∀ text, Holds J s.dir e text → sends text = true →
    ∃ now c v, parseMqttSendRequestBody J text none now = .ok (c, v) ∧
      .published (.cached e) c ∈ evs

theorem leaves_missing (hfile : s.dir.lookup (getCacheFilePath e) = none) :
    LeavesBehind J sends envs n s e 1 [.fileMissing e] s.dir where
  goes_on := by
    intro ev s'
    apply Pool.alone_of_next
    simp [sect, sendMessagesThreadFun, hfile, Hub.goto]
  dir := .inl rfl
  published := by
    intro text hholds
    rw [hholds.lookup] at hfile
    cases hfile

/-- An empty file, or one that does not parse: it is unlinked. -/
theorem leaves_unreadable {text : Text} {x : Event}
    (hfile : s.dir.lookup (getCacheFilePath e) = some text) (hnot : ¬ Holds J s.dir e text)
    (hread : sect J s (.sender (.readFile e)) (envs (n + 1)) =
      some (s.goto (.sender (.unlink e)) [x])) :
    LeavesBehind J sends envs n s e 3 [x] (s.dir.erase (getCacheFilePath e)) where
  goes_on := by
    intro ev s'
    rw [alone_fileThere hfile, Pool.alone_of_next hread]
    constructor
    · rintro ⟨ev', heq, hrest⟩
      exact ⟨ev', heq, alone_unlink.mp hrest⟩
    · rintro ⟨ev', heq, hrest⟩
      exact ⟨ev', heq, alone_unlink.mpr hrest⟩
  dir := by
    refine .inr ⟨rfl, ?_⟩
    rintro ⟨text', hholds, -⟩
    rw [hholds.text_eq hfile] at hnot
    exact hnot hholds
  published := by
    intro text' hholds
    rw [hholds.text_eq hfile] at hnot
    exact absurd hholds hnot

theorem leaves_sent {text : Text} (h : Holds J s.dir e text) (hsend : sends text = true) :
    ∃ evs, LeavesBehind J sends envs n s e 5 evs (s.dir.erase (getCacheFilePath e)) := by
  obtain ⟨c, v, hparse, hsending⟩ := alone_accepted (n := n) h
  have hsent : sect J s (.sender (.send e c)) (sendChoice sends envs (n + 2) s (.sender (.send e c))) =
      some (s.goto (.sender (.countSent e)) [.published (.cached e) c]) := by
    simp [sect, sendMessagesThreadFun, sendChoice, h.lookup, hsend]
  refine ⟨[.published (.cached e) c, .offlineSent], fun ev s' => ?_, .inr ⟨rfl, ?_⟩, ?_⟩
  · rw [hsending, Pool.alone_of_next hsent]
    constructor
    · rintro ⟨ev₁, rfl, hcount⟩
      obtain ⟨ev₂, rfl, hrest⟩ := (Pool.alone_of_next rfl).mp hcount
      exact ⟨ev₂, rfl, alone_unlink.mp hrest⟩
    · rintro ⟨ev₂, rfl, hrest⟩
      exact ⟨.offlineSent :: ev₂, rfl, (Pool.alone_of_next rfl).mpr ⟨ev₂, rfl, alone_unlink.mpr hrest⟩⟩
  · rintro ⟨text', h', hfail⟩
    rw [h.text_eq h'.lookup, hsend] at hfail
    cases hfail
  · intro text' h' _
    rw [h.text_eq h'.lookup]
    exact ⟨_, c, v, hparse, List.mem_cons_self⟩

theorem leaves_full {text : Text} (h : Holds J s.dir e text) (hsend : sends text = false)
    (hl : s.list = some q) (hfull : s.capacity.1 ≤ q.length) :
    LeavesBehind J sends envs n s e 4 [.thrownAway e] s.dir := by
  obtain ⟨c, v, -, hsending⟩ := alone_accepted (n := n) h
  have hnot : sect J s (.sender (.send e c)) (sendChoice sends envs (n + 2) s (.sender (.send e c))) =
      some (s.goto (.sender (.putBack e)) []) := by
    simp [sect, sendMessagesThreadFun, sendChoice, h.lookup, hsend]
  have hthrown : ∀ env, sect J s (.sender (.putBack e)) env =
      some (s.goto (.sender .count) [.thrownAway e]) := by
    intro env
    simp [sect, sendMessagesThreadFun, hl, not_lt.mpr hfull]
  refine ⟨fun ev s' => ?_, .inl rfl, fun text' h' hsend' => ?_⟩
  · rw [hsending, Pool.alone_of_silent hnot]
    exact Pool.alone_of_next (hthrown _)
  · rw [h.text_eq h'.lookup, hsend] at hsend'
    cases hsend'

/-- A file that holds no message is unlinked. -/
theorem leaves_rejected {text : Text} (hfile : s.dir.lookup (getCacheFilePath e) = some text)
    (hnot : ¬ Holds J s.dir e text) :
    ∃ x, LeavesBehind J sends envs n s e 3 [x] (s.dir.erase (getCacheFilePath e)) := by
  cases htext : text with
  | nil =>
    rw [htext] at hfile hnot
    exact ⟨.readFailed e, leaves_unreadable hfile hnot
      (by simp [sect, sendMessagesThreadFun, hfile])⟩
  | cons y ys =>
    rw [htext] at hfile hnot
    cases hparse : parseMqttSendRequestBody J (y :: ys) none (envs (n + 1)).now with
    | error msg =>
      exact ⟨.parseFailed e, leaves_unreadable hfile hnot
        (by simp [sect, sendMessagesThreadFun, hfile, hparse])⟩
    | ok r => exact absurd ⟨hfile, by simp, _, r.1, r.2, hparse⟩ hnot

/-- One iteration leaves its message behind, unless it cannot be sent and finds
room to go back. -/
theorem drain_pass (hnot : Failing J sends s.dir e → s.capacity.1 ≤ q.length) :
    ∃ m evs d', LeavesBehind J sends envs n (s.popped q) e m evs d' := by
  cases hfile : s.dir.lookup (getCacheFilePath e) with
  | none => exact ⟨_, _, _, leaves_missing hfile⟩
  | some text =>
    by_cases hholds : Holds J s.dir e text
    · cases hsend : sends text with
      | true =>
        obtain ⟨evs, hleaves⟩ := leaves_sent (s := s.popped q) hholds hsend
        exact ⟨_, evs, _, hleaves⟩
      | false => exact ⟨_, _, _, leaves_full hholds hsend rfl (hnot ⟨text, hholds, hsend⟩)⟩
    · obtain ⟨x, hleaves⟩ := leaves_rejected (s := s.popped q) hfile hholds
      exact ⟨_, _, _, hleaves⟩

/-! ## The whole loop -/

/-- The points of an iteration that puts its message back. -/
inductive Retrying (s : Hub) (e : CacheFileHeader) (q : List CacheFileHeader) :
    Hub → Thread → Prop where
  | count : Retrying s e q s (.sender .count)
  | isConnected : Retrying s e q s (.sender .isConnected)
  | pop : Retrying s e q s (.sender .pop)
  | fileExists : Retrying s e q (s.popped q) (.sender (.fileExists e))
  | readFile : Retrying s e q (s.popped q) (.sender (.readFile e))
  | send {c} : Retrying s e q (s.popped q) (.sender (.send e c))
  | putBack : Retrying s e q (s.popped q) (.sender (.putBack e))

/-- A message that cannot be sent, at the head of a queue with room behind it, is
tried again for ever. -/
theorem drain_trapped (hl : s.list = some (e :: q)) (hconn : s.connected = true)
    (hfail : Failing J sends s.dir e) (hroom : (q.length : ℤ) < s.capacity.1) :
    ¬ DrainEnds J sends envs n s ev s' := by
  rcases hfail with ⟨text, hholds, hsend⟩
  have hback : ({ s.popped q with list := some (e :: q) } : Hub) = s := by
    rw [← hl]
    rfl
  refine Pool.not_alone_of_trapped (X := Retrying s e q) (fun n s₁ t h => ?_) .count
  cases h with
  | count =>
    refine ⟨s, .sender .isConnected, [], ?_, .isConnected⟩
    simp [sect, sendMessagesThreadFun, Hub.queue, hl, Hub.goto]
  | isConnected =>
    refine ⟨s, .sender .pop, [], ?_, .pop⟩
    simp [sect, sendMessagesThreadFun, hconn, Hub.goto]
  | pop =>
    refine ⟨s.popped q, .sender (.fileExists e), [], ?_, .fileExists⟩
    simp [sect, sendMessagesThreadFun, hl, Hub.popped, Hub.goto]
  | fileExists =>
    have hfile : (s.popped q).dir.lookup (getCacheFilePath e) = some text := hholds.lookup
    refine ⟨s.popped q, .sender (.readFile e), [], ?_, .readFile⟩
    simp [sect, sendMessagesThreadFun, hfile, Hub.goto]
  | readFile =>
    have hfile : (s.popped q).dir.lookup (getCacheFilePath e) = some text := hholds.lookup
    obtain ⟨c, v, hparse⟩ := hholds.accepted.at_time (envs n).now
    refine ⟨s.popped q, .sender (.send e c), [], ?_, .send⟩
    cases htext : text with
    | nil => exact absurd htext hholds.ne_nil
    | cons x xs =>
      rw [htext] at hfile hparse
      simp [sect, sendMessagesThreadFun, sendChoice, hfile, hparse, Hub.goto]
  | send =>
    have hfile : (s.popped q).dir.lookup (getCacheFilePath e) = some text := hholds.lookup
    refine ⟨s.popped q, .sender (.putBack e), [], ?_, .putBack⟩
    simp [sect, sendMessagesThreadFun, sendChoice, hfile, hsend, Hub.goto]
  | putBack =>
    refine ⟨s, .sender .count, [.putBack e], ?_, .count⟩
    have hlist : (s.popped q).list = some q := rfl
    have hroom' : (q.length : ℤ) < (s.popped q).capacity.1 := hroom
    simp [sect, sendMessagesThreadFun, hlist, hroom', hback, Hub.goto]

/-- Behind every message that cannot be sent there are as many others as the
capacity allows. -/
def WorksOff (J : Text → Option Json) (sends : Text → Bool) (capacity : CInt)
    (q : List CacheFileHeader) (d : Directory) : Prop :=
  ∀ pre e post, q = pre ++ e :: post → Failing J sends d e → capacity.1 ≤ post.length

theorem worksOff_cons {capacity : CInt} :
    WorksOff J sends capacity (e :: q) d ↔
      (Failing J sends d e → capacity.1 ≤ q.length) ∧ WorksOff J sends capacity q d := by
  constructor
  · intro h
    exact ⟨h [] e q rfl, fun pre e' post heq => h (e :: pre) e' post (by rw [heq]; rfl)⟩
  · rintro ⟨hhead, htail⟩ pre e' post heq hfail
    cases pre with
    | nil =>
      cases heq
      exact hhead hfail
    | cons x pre =>
      obtain ⟨-, heq⟩ := List.cons.inj heq
      exact htail pre e' post heq hfail

/-- An iteration does not change which messages fail: the file it unlinks is not
that of a failing one. -/
theorem failing_after (hdir : d' = d ∨ d' = d.erase (getCacheFilePath e) ∧ ¬ Failing J sends d e) :
    Failing J sends d' e' ↔ Failing J sends d e' := by
  rcases hdir with rfl | ⟨rfl, hnot⟩
  · exact Iff.rfl
  · by_cases hpath : getCacheFilePath e' = getCacheFilePath e
    · constructor
      · rintro ⟨text, hholds, -⟩
        have hfile := hholds.lookup
        rw [hpath, AList.lookup_erase] at hfile
        cases hfile
      · rintro ⟨text, hholds, hsend⟩
        exact absurd ⟨text, hholds.of_lookup (by rw [hpath]), hsend⟩ hnot
    · have hsame : (d.erase (getCacheFilePath e)).lookup (getCacheFilePath e') =
          d.lookup (getCacheFilePath e') := AList.lookup_erase_ne hpath
      constructor
      · rintro ⟨text, hholds, hsend⟩
        exact ⟨text, hholds.of_lookup hsame.symm, hsend⟩
      · rintro ⟨text, hholds, hsend⟩
        exact ⟨text, hholds.of_lookup hsame, hsend⟩

theorem worksOff_after {capacity : CInt}
    (hdir : d' = d ∨ d' = d.erase (getCacheFilePath e) ∧ ¬ Failing J sends d e) :
    WorksOff J sends capacity q d' ↔ WorksOff J sends capacity q d := by
  simp only [WorksOff, failing_after hdir]

/-- When the loop ends. -/
theorem drain_ends_iff (hl : s.list = some q) (hconn : s.connected = true) :
    (∃ ev s', DrainEnds J sends envs n s ev s') ↔ WorksOff J sends s.capacity q s.dir := by
  induction q generalizing s n with
  | nil =>
    have hq : s.queue = [] := Hub.queue_of_list hl
    constructor
    · intro _ pre e post heq
      cases pre <;> cases heq
    · intro _
      exact ⟨_, _, (drainEnds_of_empty hq).mpr ⟨rfl, rfl⟩⟩
  | cons e q ih =>
    rw [worksOff_cons]
    by_cases hnot : Failing J sends s.dir e → s.capacity.1 ≤ q.length
    · -- one iteration, then the rest of the queue
      rcases drain_pass hnot with ⟨m, evs, d', (hleaves : LeavesBehind J sends envs (n + 3) _ _ _ _ _)⟩
      have hdir : d' = s.dir ∨ d' = s.dir.erase (getCacheFilePath e) ∧ ¬ Failing J sends s.dir e :=
        hleaves.dir
      have hrest := ih (s := { s.popped q with dir := d' }) (n := n + 3 + m) rfl hconn
      rw [← worksOff_after hdir]
      constructor
      · rintro ⟨ev, s', hends⟩
        obtain ⟨ev', -, hends'⟩ := (hleaves.goes_on ev s').mp
          ((drainEnds_iff_popped hl hconn).mp hends)
        exact ⟨hnot, hrest.mp ⟨ev', s', hends'⟩⟩
      · rintro ⟨-, hworks⟩
        obtain ⟨ev', s', hends'⟩ := hrest.mpr hworks
        exact ⟨evs ++ ev', s', (drainEnds_iff_popped hl hconn).mpr
          ((hleaves.goes_on _ _).mpr ⟨ev', rfl, hends'⟩)⟩
    · rw [Classical.not_imp, not_le] at hnot
      constructor
      · rintro ⟨ev, s', hends⟩
        exact absurd hends (drain_trapped hl hconn hnot.1 hnot.2)
      · rintro ⟨hhead, -⟩
        exact absurd (hhead hnot.1) (not_le.mpr hnot.2)

/-- A message that can be sent has been published, for the entry or for another
one with the same file. -/
def Published (J : Text → Option Json) (q : List CacheFileHeader) (ev : List Event)
    (e : CacheFileHeader) (text : Text) : Prop :=
  ∃ e' ∈ q, getCacheFilePath e' = getCacheFilePath e ∧
    ∃ now c v, parseMqttSendRequestBody J text none now = .ok (c, v) ∧ .published (.cached e') c ∈ ev

/-- What the loop has published when it ends. -/
theorem drain_publishes (hl : s.list = some q) (hconn : s.connected = true)
    (hends : DrainEnds J sends envs n s ev s') :
    ∀ e ∈ q, ∀ text, Holds J s.dir e text → sends text = true → Published J q ev e text := by
  induction q generalizing s n ev with
  | nil =>
    intro e he
    cases he
  | cons e q ih =>
    have hnot := (worksOff_cons.mp ((drain_ends_iff hl hconn).mp ⟨ev, s', hends⟩)).1
    rcases drain_pass hnot with ⟨m, evs, d', (hleaves : LeavesBehind J sends envs (n + 3) _ _ _ _ _)⟩
    obtain ⟨ev', rfl, hends'⟩ := (hleaves.goes_on ev s').mp
      ((drainEnds_iff_popped hl hconn).mp hends)
    intro e₂ he₂ text hholds hsend
    by_cases hpath : getCacheFilePath e₂ = getCacheFilePath e
    · -- the file of this iteration's message
      obtain ⟨now, c, v, hparse, hmem⟩ :=
        hleaves.published text (hholds.of_lookup (by rw [hpath]; rfl)) hsend
      exact ⟨e, List.mem_cons_self, hpath.symm, now, c, v, hparse, List.mem_append_left _ hmem⟩
    · have hmem : e₂ ∈ q := by
        rcases List.mem_cons.mp he₂ with rfl | hmem
        · exact absurd rfl hpath
        · exact hmem
      have hsame : d'.lookup (getCacheFilePath e₂) = s.dir.lookup (getCacheFilePath e₂) := by
        rcases hleaves.dir with rfl | ⟨rfl, -⟩
        · rfl
        · exact AList.lookup_erase_ne hpath
      obtain ⟨e₃, he₃, hpath₃, now, c, v, hparse, hpub⟩ :=
        ih (s := { s.popped q with dir := d' }) rfl hconn hends' e₂ hmem text
          (hholds.of_lookup hsame) hsend
      exact ⟨e₃, List.mem_cons_of_mem _ he₃, hpath₃, now, c, v, hparse,
        List.mem_append_right _ hpub⟩

/-- While the client stays connected, the loop ends and has published every
message that can be sent exactly when behind every message that cannot be sent
there are as many others as the capacity allows. -/
theorem drain_completes_iff (hconn : s.connected = true) :
    (∃ ev s', DrainEnds J sends envs 0 s ev s' ∧
      ∀ e ∈ s.queue, ∀ text, Holds J s.dir e text → sends text = true →
        Published J s.queue ev e text) ↔
    WorksOff J sends s.capacity s.queue s.dir := by
  cases hl : s.list with
  | none =>
    have hq : s.queue = [] := by simp [Hub.queue, hl]
    rw [hq]
    constructor
    · intro _ pre e post heq
      cases pre <;> cases heq
    · intro _
      refine ⟨_, _, (drainEnds_of_empty hq).mpr ⟨rfl, rfl⟩, ?_⟩
      intro e he
      cases he
  | some q =>
    have hq : s.queue = q := Hub.queue_of_list hl
    rw [hq, ← drain_ends_iff hl hconn]
    constructor
    · rintro ⟨ev, s', hends, -⟩
      exact ⟨ev, s', hends⟩
    · rintro ⟨ev, s', hends⟩
      exact ⟨ev, s', hends, drain_publishes hl hconn hends⟩

/-- A request whose topic is not UTF-8: the client library takes it at no time. -/
def badTopicRequest : Json :=
  .object [("topic".toList, .string "\xf4".toList), ("payload".toList, .string "p".toList)]

def badTopicText : Text := jsonObjectToJsonString badTopicRequest

/-- json-c, on the texts of two requests. -/
def badTopicTokener (text : Text) : Option Json :=
  if text = badTopicText then some badTopicRequest else pingTokener text

/-- A connected hub with two cached messages, the first with the bad topic. -/
def badTopicFirst : Hub where
  capacity := 1000
  list := some [⟨8, 1⟩, ⟨8, 2⟩]
  dir := ((∅ : Directory).insert "1-8.cache".toList badTopicText).insert "2-8.cache".toList pingText
  connected := true
  isAsyncSending := true

theorem drain_completes_iff_all_sent :
    ∃ ev s', DrainEnds badTopicTokener (fun _ => true) (fun _ => quietEnv) 0 badTopicFirst ev s' ∧
      ∀ e ∈ badTopicFirst.queue, ∀ text, Holds badTopicTokener badTopicFirst.dir e text →
        true = true → Published badTopicTokener badTopicFirst.queue ev e text := by
  refine (drain_completes_iff rfl).mpr ?_
  rintro pre e post - ⟨text, -, hfail⟩
  cases hfail

/-- A message with a bad topic keeps the one behind it, which could be sent, in the
queue for ever. -/
theorem bad_topic_blocks_queue :
    ¬ ∀ (s : Hub) (sends : Text → Bool) (envs : ℕ → Env), s.connected = true →
      ∃ ev s', DrainEnds badTopicTokener sends envs 0 s ev s' ∧
        ∀ e ∈ s.queue, ∀ text, Holds badTopicTokener s.dir e text → sends text = true →
          Published badTopicTokener s.queue ev e text := by
  intro hclaim
  have hfail : Failing badTopicTokener (fun text => decide (text ≠ badTopicText))
      badTopicFirst.dir ⟨8, 1⟩ :=
    ⟨badTopicText, ⟨by decide, by decide, 7, _, _, rfl⟩, by simp⟩
  rcases hclaim badTopicFirst (fun text => decide (text ≠ badTopicText)) (fun _ => quietEnv) rfl with
    ⟨ev, s', hends, -⟩
  exact drain_trapped rfl rfl hfail (by decide) hends

end MqttMsgHub
