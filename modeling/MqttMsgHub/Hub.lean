import MqttMsgHub.Lib.Pool
import MqttMsgHub.OfflineQueue
import MqttMsgHub.RequestBody

/-! # The hub as a pool of threads

The threads of the hub around the offline queue: HTTP send requests, calls of
`enqueue_offline_message`, the connected callback, calls of
`asyn_send_offline_messages` and the sender threads they create. One atomic
section is what a thread does under one mutex, or one access to the cache
directory or to the MQTT client; everything a thread computes locally belongs
to the section before it. `unlink`, and reading a file that is there, succeed;
the outcome of every other call that may fail is a choice of the environment.

A thread disappears with its last access to the shared state. The log, the
HTTP responses and the two messages that the connected callback publishes
itself leave no trace here. A section of which the C code has no next state
(a NULL dereference, an endless loop) is not enabled.

* `Section`, `Called` — the sections and calls one by one, with the condition
  under which each is taken;
* `section_of_sect`, `called_of_call` — the executable model takes no others.
-/

namespace MqttMsgHub

open Pool (Config Outcome Label)

/-! ## Shared state and threads -/

/-- `g_cacheCapacity`, `g_list` (`none` is NULL), the cache directory,
`mqttClientStatus.connected` and `g_isAsyncSending`. -/
structure Hub where
  capacity : CInt
  list : Option (List CacheFileHeader)
  dir : Directory
  connected : Bool
  isAsyncSending : Bool

/-- The entries of `g_list`. -/
def Hub.queue (s : Hub) : List CacheFileHeader := s.list.getD []

theorem Hub.queue_of_list {s : Hub} {q : List CacheFileHeader} (h : s.list = some q) : s.queue = q := by
  rw [Hub.queue, h, Option.getD_some]

/-- The hub after `load_offline_messages` has gone through the cache files of `d`, which it
does when every name in the cache root fits the buffer of its filter (`load_eq`). -/
def startUp (capacity : CInt) (d : Directory) : Hub where
  capacity := capacity
  list := some (loadNames d).queue
  dir := (loadNames d).dir
  connected := false
  isAsyncSending := false

/-- The hub when `scandir` has failed. -/
def startUpUnlisted (capacity : CInt) (d : Directory) : Hub where
  capacity := capacity
  list := none
  dir := d
  connected := false
  isAsyncSending := false

/-- The arguments of `enqueue_offline_message`; an empty message also stands
for NULL. -/
structure EnqueueCall where
  message : Text
  cachePriority : CInt
  timestamp : CInt64
deriving DecidableEq, Repr

/-- The queue entry of a call. -/
def EnqueueCall.header (call : EnqueueCall) : CacheFileHeader :=
  ⟨call.cachePriority, call.timestamp⟩

inductive RequestPc where
  | isConnected
  | sendMessage
  | sendFailed
deriving DecidableEq, Repr

inductive EnqueuePc where
  | testList
  | initTest
  | initAssign
  | admission
  | countRejected
  | writeFile
  | push
deriving DecidableEq, Repr

inductive AsynPc where
  | count
  | flag
  | create
deriving DecidableEq, Repr

inductive CallbackPc where
  | online
  | count
  | asyn (pc : AsynPc)
  | report
deriving DecidableEq, Repr

inductive SenderPc where
  | created
  | count
  | isConnected
  | pop
  | fileExists (e : CacheFileHeader)
  | readFile (e : CacheFileHeader)
  | send (e : CacheFileHeader) (content : MqttSendContent)
  | countSent (e : CacheFileHeader)
  | unlink (e : CacheFileHeader)
  | putBack (e : CacheFileHeader)
  | finish
deriving DecidableEq, Repr

/-- A thread and the point it has reached. A request carries its parsed content
and the serialised object that goes to the cache. -/
inductive Thread where
  | request (cacheIfSendFailed : Bool) (content : MqttSendContent) (text : Text) (pc : RequestPc)
  | enqueue (call : EnqueueCall) (pc : EnqueuePc)
  | asyn (pc : AsynPc)
  | callback (pc : CallbackPc)
  | sender (pc : SenderPc)
deriving DecidableEq, Repr

/-- Where a published message came from. -/
inductive Source where
  | request
  | cached (e : CacheFileHeader)
deriving DecidableEq, Repr

/-- What a run leaves in its trace: requests and calls, publications, counter
increments, and what happens to queue entries. -/
inductive Event where
  | parsed
  | enqueueCall (call : EnqueueCall)
  | returned (call : EnqueueCall) (errorMsg : Option Text)
  | published (source : Source) (content : MqttSendContent)
  | onlineDiscarded
  | offlineDiscarded
  | offlineSent
  | pushed (e : CacheFileHeader)
  | rejected (e : CacheFileHeader)
  | evicted (e : CacheFileHeader)
  | putBack (e : CacheFileHeader)
  | thrownAway (e : CacheFileHeader)
  | fileMissing (e : CacheFileHeader)
  | readFailed (e : CacheFileHeader)
  | parseFailed (e : CacheFileHeader)
deriving DecidableEq, Repr

/-- The environment's choices for a section: the result of
`MQTTClientWrapper_sendMessage`, `clock_gettime` in nanoseconds, `time`, the
outcome of a file write and of `pthread_create`. -/
structure Env where
  sendOk : Bool
  clock : CInt64
  now : CInt64
  write : FileOutcome
  threadCreated : Bool

/-- What the environment may start. -/
inductive Call where
  | httpRequest (body : Text) (mac : Option Text) (cacheIfSendFailed : Bool) (now : CInt64)
  | enqueueOfflineMessage (call : EnqueueCall)
  | asynSendOfflineMessages
  | onConnect
  | onConnectionLost

/-! ## The sections -/

/-- A section that ends with the thread at another point. -/
def Hub.goto (s : Hub) (t : Thread) (events : List Event) : Outcome Hub Thread Event :=
  ⟨s, [t], events⟩

/-- A section that ends the thread. -/
def Hub.exit (s : Hub) (events : List Event) : Outcome Hub Thread Event :=
  ⟨s, [], events⟩

@[simp] theorem Hub.goto_shared (s : Hub) (t : Thread) (ev : List Event) : (s.goto t ev).shared = s := rfl
@[simp] theorem Hub.goto_threads (s : Hub) (t : Thread) (ev : List Event) : (s.goto t ev).threads = [t] := rfl
@[simp] theorem Hub.goto_events (s : Hub) (t : Thread) (ev : List Event) : (s.goto t ev).events = ev := rfl
@[simp] theorem Hub.exit_shared (s : Hub) (ev : List Event) : (s.exit ev).shared = s := rfl
@[simp] theorem Hub.exit_threads (s : Hub) (ev : List Event) : (s.exit ev).threads = [] := rfl
@[simp] theorem Hub.exit_events (s : Hub) (ev : List Event) : (s.exit ev).events = ev := rfl

/-- Each removed entry is counted while the list is still locked. -/
def evictions (removed : List CacheFileHeader) : List Event :=
  removed.flatMap fun e => [.evicted e, .offlineDiscarded]

theorem mem_evictions {x : Event} {removed : List CacheFileHeader} (h : x ∈ evictions removed) :
    (∃ e ∈ removed, x = .evicted e) ∨ x = .offlineDiscarded := by
  simp only [evictions, List.mem_flatMap, List.mem_cons, List.not_mem_nil, or_false] at h
  rcases h with ⟨e, he, rfl | rfl⟩
  · exact .inl ⟨e, he, rfl⟩
  · exact .inr rfl

/-- `_http_callback_mqtt_send` after a successful parse. -/
def httpCallbackMqttSend (s : Hub) (cacheIfSendFailed : Bool) (content : MqttSendContent)
    (text : Text) (env : Env) : RequestPc → Outcome Hub Thread Event
  | .isConnected =>
    if s.connected then s.goto (.request cacheIfSendFailed content text .sendMessage) []
    else s.goto (.request cacheIfSendFailed content text .sendFailed) []
  | .sendMessage =>
    if env.sendOk then s.exit [.published .request content]
    else s.goto (.request cacheIfSendFailed content text .sendFailed) []
  | .sendFailed =>
    if cacheIfSendFailed then
      -- the serialised object goes to the cache, not the body as it came in
      let call : EnqueueCall := ⟨text, content.cachePriority, env.clock⟩
      s.goto (.enqueue call .testList) [.enqueueCall call]
    else s.exit [.onlineDiscarded]

/-- `enqueue_offline_message`, with `init_list` and `cache_offline_message`. -/
def enqueueOfflineMessage (s : Hub) (call : EnqueueCall) (env : Env) :
    EnqueuePc → Option (Outcome Hub Thread Event)
  | .testList =>
    if s.list.isNone then s.goto (.enqueue call .initTest) []
    else s.goto (.enqueue call .admission) []
  | .initTest =>
    if s.list.isSome then s.goto (.enqueue call .admission) []
    else s.goto (.enqueue call .initAssign) []
  | .initAssign =>
    -- `g_list = list_new()`, without a third test
    ({ s with list := some [] } : Hub).goto (.enqueue call .admission) []
  | .admission =>
    -- decided under the list's mutex, which is released before the file is written
    if canMessageEnterOffineQueue s.capacity s.queue call.cachePriority then
      if call.timestamp.1 ≤ 0 then
        s.exit [.returned call (some ("timestamp ".toList ++ sprintfD call.timestamp.1 ++
          " is invalid, discard it".toList))]
      else if stringIsEmpty (some call.message) then
        s.exit [.returned call (some "message is empty, discard it".toList)]
      else s.goto (.enqueue call .writeFile) []
    else s.goto (.enqueue call .countRejected) [.rejected call.header]
  | .countRejected =>
    s.exit [.offlineDiscarded, .returned call (some
      "offline queue is full, and no message with lower or same priority exists, discard it".toList)]
  | .writeFile =>
    let w := writeFileString s.dir (getCacheFilePath call.header) call.message env.write
    -- `writeSize < 0` never holds of a `size_t`: a failed open goes on to the push
    if w.2 = 0 then
      ({ s with dir := w.1.erase (getCacheFilePath call.header) } : Hub).exit
        [.returned call (some "nothing was written to cache file".toList)]
    else ({ s with dir := w.1 } : Hub).goto (.enqueue call .push) []
  | .push => do
    -- eviction and push under one lock; the admission test is not repeated
    let q ← s.list
    let r ← makeRoom s.capacity q.length q s.dir
    return ({ s with list := some (r.1 ++ [call.header]), dir := r.2.1 } : Hub).exit
      (evictions r.2.2 ++ [.pushed call.header, .returned call none])

/-- `asyn_send_offline_messages`: where it goes on, if it does, and the thread
it creates. -/
def asynSendOfflineMessages (s : Hub) (env : Env) : AsynPc → Option AsynPc × List Thread
  | .count => (if s.queue.length = 0 then none else some .flag, [])
  | .flag => (if s.isAsyncSending then none else some .create, [])
  -- the thread is not known to be sending before it runs
  | .create => (none, if env.threadCreated then [.sender .created] else [])

/-- `on_mqtt_client_connected`. The report of the counters is one point here. -/
def onMqttClientConnected (s : Hub) (env : Env) : CallbackPc → Outcome Hub Thread Event
  | .online => s.goto (.callback .count) []
  | .count =>
    if 0 < s.queue.length then s.goto (.callback (.asyn .count)) [] else s.goto (.callback .report) []
  | .asyn pc =>
    let r := asynSendOfflineMessages s env pc
    ⟨s, .callback (r.1.elim .report .asyn) :: r.2, []⟩
  | .report => s.exit []

/-- `send_messages_thread_fun`. -/
def sendMessagesThreadFun (J : Text → Option Json) (s : Hub) (env : Env) :
    SenderPc → Option (Outcome Hub Thread Event)
  | .created =>
    -- two threads may have been created since the flag was tested
    if s.isAsyncSending then s.exit []
    else ({ s with isAsyncSending := true } : Hub).goto (.sender .count) []
  | .count =>
    if 0 < s.queue.length then s.goto (.sender .isConnected) [] else s.goto (.sender .finish) []
  | .isConnected =>
    if s.connected then s.goto (.sender .pop) [] else s.goto (.sender .finish) []
  | .pop =>
    match s.list with
    | none => none
    | some [] => s.goto (.sender .count) []
    | some (e :: q) => ({ s with list := some q } : Hub).goto (.sender (.fileExists e)) []
  | .fileExists e =>
    -- without its file the entry is freed and nothing is counted
    if (s.dir.lookup (getCacheFilePath e)).isSome then s.goto (.sender (.readFile e)) []
    else s.goto (.sender .count) [.fileMissing e]
  | .readFile e =>
    match s.dir.lookup (getCacheFilePath e) with
    | none => none
    -- a read of size 0
    | some [] => s.goto (.sender (.unlink e)) [.readFailed e]
    | some buffer =>
      match parseMqttSendRequestBody J buffer none env.now with
      | .ok (content, _) => s.goto (.sender (.send e content)) []
      | .error _ => s.goto (.sender (.unlink e)) [.parseFailed e]
  | .send e content =>
    if env.sendOk then s.goto (.sender (.countSent e)) [.published (.cached e) content]
    else s.goto (.sender (.putBack e)) []
  | .countSent e => s.goto (.sender (.unlink e)) [.offlineSent]
  | .unlink e =>
    ({ s with dir := s.dir.erase (getCacheFilePath e) } : Hub).goto (.sender .count) []
  | .putBack e =>
    match s.list with
    | none => none
    | some q =>
      if (q.length : ℤ) < s.capacity.1 then
        ({ s with list := some (e :: q) } : Hub).goto (.sender .count) [.putBack e]
      -- the node is freed; its file stays and no counter is increased
      else s.goto (.sender .count) [.thrownAway e]
  | .finish => ({ s with isAsyncSending := false } : Hub).exit []

/-- The next section of a thread. -/
def sect (J : Text → Option Json) (s : Hub) (t : Thread) (env : Env) :
    Option (Outcome Hub Thread Event) :=
  match t with
  | .request cacheIfSendFailed content text pc =>
    httpCallbackMqttSend s cacheIfSendFailed content text env pc
  | .enqueue call pc => enqueueOfflineMessage s call env pc
  | .asyn pc =>
    let r := asynSendOfflineMessages s env pc
    some ⟨s, r.1.toList.map .asyn ++ r.2, []⟩
  | .callback pc => onMqttClientConnected s env pc
  | .sender pc => sendMessagesThreadFun J s env pc

/-- Calls from outside. A request whose body does not parse is answered at
once; `on_connect` does nothing while the client is flagged connected. -/
def call (J : Text → Option Json) (s : Hub) : Call → Option (Outcome Hub Thread Event)
  | .httpRequest body mac cacheIfSendFailed now =>
    match parseMqttSendRequestBody J body mac now with
    | .ok (content, jobj) =>
      s.goto (.request cacheIfSendFailed content (jsonObjectToJsonString jobj) .isConnected) [.parsed]
    | .error _ => s.exit []
  | .enqueueOfflineMessage c => s.goto (.enqueue c .testList) [.enqueueCall c]
  | .asynSendOfflineMessages => s.goto (.asyn .count) []
  | .onConnect =>
    if s.connected then s.exit []
    else ({ s with connected := true } : Hub).goto (.callback .online) []
  | .onConnectionLost => ({ s with connected := false } : Hub).exit []

/-- One step of the hub. -/
def hubStep (J : Text → Option Json) :
    Config Hub Thread → Label Call Env → Option (Config Hub Thread × List Event) :=
  Pool.step (call J) (sect J)

/-- The runs from a state without threads, with every call meeting `callOk` and
every section `sectOk`. -/
abbrev HubRuns (J : Text → Option Json) (callOk : Call → Prop)
    (sectOk : Hub → List Thread → Thread → Env → Prop) (s₀ : Hub) :
    List Event → Config Hub Thread → Prop :=
  Exec.Runs (hubStep J) (Pool.Allowed callOk sectOk) ⟨s₀, []⟩

/-- No condition on the calls. -/
def anyCall : Call → Prop := fun _ => True

/-- No condition on the sections. -/
def anySect : Hub → List Thread → Thread → Env → Prop := fun _ _ _ _ => True

instance : DecidablePred anyCall := fun _ => isTrue trivial

instance (s : Hub) (ts : List Thread) (t : Thread) (env : Env) : Decidable (anySect s ts t env) :=
  isTrue trivial

/-! ## A small run -/

/-- An environment in which everything succeeds. -/
def quietEnv : Env := ⟨true, 7, 7, .ok, true⟩

/-- A hub with room for one message, before the first. -/
def roomForOne : Hub where
  capacity := 1
  list := some []
  dir := ∅
  connected := false
  isAsyncSending := false

/-- A message of priority 9 is cached and taken by the sender, one of priority 1
takes its place in the queue, and the send fails. -/
def overtakingRun : List (Pool.Label Call Env) :=
  .call (.enqueueOfflineMessage ⟨pingText, 9, 1⟩) ::
    List.replicate 4 (.run 0 quietEnv) ++
  .call .onConnect :: List.replicate 5 (.run 0 quietEnv) ++ List.replicate 6 (.run 1 quietEnv) ++
  .call (.enqueueOfflineMessage ⟨pingText, 1, 2⟩) ::
    List.replicate 4 (.run 2 quietEnv) ++
  [.run 1 { quietEnv with sendOk := false }]

/-! ## What a section does -/

/-- The sections of `asyn_send_offline_messages`, for a caller that goes on at
`next` (`none` when the function returns). -/
inductive AsynSection (s : Hub) (env : Env) : AsynPc → Option AsynPc → List Thread → Prop where
  | noMessages : s.queue = [] → AsynSection s env .count none []
  | messages : s.queue ≠ [] → AsynSection s env .count (some .flag) []
  | sending : s.isAsyncSending = true → AsynSection s env .flag none []
  | notSending : s.isAsyncSending = false → AsynSection s env .flag (some .create) []
  | created : env.threadCreated = true → AsynSection s env .create none [.sender .created]
  | notCreated : env.threadCreated = false → AsynSection s env .create none []

/-- The sections, one by one. -/
inductive Section (J : Text → Option Json) (s : Hub) (env : Env) :
    Thread → Outcome Hub Thread Event → Prop where
  | requestOnline {b c x} : s.connected = true →
      Section J s env (.request b c x .isConnected) (s.goto (.request b c x .sendMessage) [])
  | requestOffline {b c x} : s.connected = false →
      Section J s env (.request b c x .isConnected) (s.goto (.request b c x .sendFailed) [])
  | requestSent {b c x} : env.sendOk = true →
      Section J s env (.request b c x .sendMessage) (s.exit [.published .request c])
  | requestNotSent {b c x} : env.sendOk = false →
      Section J s env (.request b c x .sendMessage) (s.goto (.request b c x .sendFailed) [])
  | requestCached {c x} :
      Section J s env (.request true c x .sendFailed)
        (s.goto (.enqueue ⟨x, c.cachePriority, env.clock⟩ .testList)
          [.enqueueCall ⟨x, c.cachePriority, env.clock⟩])
  | requestDiscarded {c x} :
      Section J s env (.request false c x .sendFailed) (s.exit [.onlineDiscarded])
  | listNull {k} : s.list = none →
      Section J s env (.enqueue k .testList) (s.goto (.enqueue k .initTest) [])
  | listSet {k q} : s.list = some q →
      Section J s env (.enqueue k .testList) (s.goto (.enqueue k .admission) [])
  | initNull {k} : s.list = none →
      Section J s env (.enqueue k .initTest) (s.goto (.enqueue k .initAssign) [])
  | initSet {k q} : s.list = some q →
      Section J s env (.enqueue k .initTest) (s.goto (.enqueue k .admission) [])
  | initList {k} :
      Section J s env (.enqueue k .initAssign)
        (({ s with list := some [] } : Hub).goto (.enqueue k .admission) [])
  | admitted {k} : canMessageEnterOffineQueue s.capacity s.queue k.cachePriority = true →
      0 < k.timestamp.1 → k.message ≠ [] →
      Section J s env (.enqueue k .admission) (s.goto (.enqueue k .writeFile) [])
  | invalid {k msg} : k.timestamp.1 ≤ 0 ∨ k.message = [] →
      Section J s env (.enqueue k .admission) (s.exit [.returned k (some msg)])
  | rejected {k} : canMessageEnterOffineQueue s.capacity s.queue k.cachePriority = false →
      Section J s env (.enqueue k .admission)
        (s.goto (.enqueue k .countRejected) [.rejected k.header])
  | countRejected {k msg} :
      Section J s env (.enqueue k .countRejected)
        (s.exit [.offlineDiscarded, .returned k (some msg)])
  | written {k d n} :
      writeFileString s.dir (getCacheFilePath k.header) k.message env.write = (d, n) → n ≠ 0 →
      Section J s env (.enqueue k .writeFile)
        (({ s with dir := d } : Hub).goto (.enqueue k .push) [])
  | notWritten {k d msg} :
      writeFileString s.dir (getCacheFilePath k.header) k.message env.write = (d, 0) →
      Section J s env (.enqueue k .writeFile)
        (({ s with dir := d.erase (getCacheFilePath k.header) } : Hub).exit
          [.returned k (some msg)])
  | push {k q q' d' removed} : s.list = some q →
      makeRoom s.capacity q.length q s.dir = some (q', d', removed) →
      Section J s env (.enqueue k .push)
        (({ s with list := some (q' ++ [k.header]), dir := d' } : Hub).exit
          (evictions removed ++ [.pushed k.header, .returned k none]))
  | asyn {pc next new} : AsynSection s env pc next new →
      Section J s env (.asyn pc) ⟨s, next.toList.map .asyn ++ new, []⟩
  | callbackOnline :
      Section J s env (.callback .online) (s.goto (.callback .count) [])
  | callbackSome : s.queue ≠ [] →
      Section J s env (.callback .count) (s.goto (.callback (.asyn .count)) [])
  | callbackNone : s.queue = [] →
      Section J s env (.callback .count) (s.goto (.callback .report) [])
  | callbackAsyn {pc next new} : AsynSection s env pc next new →
      Section J s env (.callback (.asyn pc)) ⟨s, .callback (next.elim .report .asyn) :: new, []⟩
  | callbackReport :
      Section J s env (.callback .report) (s.exit [])
  | senderRefused : s.isAsyncSending = true →
      Section J s env (.sender .created) (s.exit [])
  | senderStarted : s.isAsyncSending = false →
      Section J s env (.sender .created)
        (({ s with isAsyncSending := true } : Hub).goto (.sender .count) [])
  | senderSome : s.queue ≠ [] →
      Section J s env (.sender .count) (s.goto (.sender .isConnected) [])
  | senderNone : s.queue = [] →
      Section J s env (.sender .count) (s.goto (.sender .finish) [])
  | senderOnline : s.connected = true →
      Section J s env (.sender .isConnected) (s.goto (.sender .pop) [])
  | senderOffline : s.connected = false →
      Section J s env (.sender .isConnected) (s.goto (.sender .finish) [])
  | popNone : s.list = some [] →
      Section J s env (.sender .pop) (s.goto (.sender .count) [])
  | popSome {e q} : s.list = some (e :: q) →
      Section J s env (.sender .pop)
        (({ s with list := some q } : Hub).goto (.sender (.fileExists e)) [])
  | fileThere {e x} : s.dir.lookup (getCacheFilePath e) = some x →
      Section J s env (.sender (.fileExists e)) (s.goto (.sender (.readFile e)) [])
  | fileMissing {e} : s.dir.lookup (getCacheFilePath e) = none →
      Section J s env (.sender (.fileExists e)) (s.goto (.sender .count) [.fileMissing e])
  | readFailed {e} : s.dir.lookup (getCacheFilePath e) = some [] →
      Section J s env (.sender (.readFile e)) (s.goto (.sender (.unlink e)) [.readFailed e])
  | read {e x c v} : s.dir.lookup (getCacheFilePath e) = some x → x ≠ [] →
      parseMqttSendRequestBody J x none env.now = .ok (c, v) →
      Section J s env (.sender (.readFile e)) (s.goto (.sender (.send e c)) [])
  | parseFailed {e x msg} : s.dir.lookup (getCacheFilePath e) = some x → x ≠ [] →
      parseMqttSendRequestBody J x none env.now = .error msg →
      Section J s env (.sender (.readFile e)) (s.goto (.sender (.unlink e)) [.parseFailed e])
  | senderSent {e c} : env.sendOk = true →
      Section J s env (.sender (.send e c))
        (s.goto (.sender (.countSent e)) [.published (.cached e) c])
  | senderNotSent {e c} : env.sendOk = false →
      Section J s env (.sender (.send e c)) (s.goto (.sender (.putBack e)) [])
  | countSent {e} :
      Section J s env (.sender (.countSent e)) (s.goto (.sender (.unlink e)) [.offlineSent])
  | unlink {e} :
      Section J s env (.sender (.unlink e))
        (({ s with dir := s.dir.erase (getCacheFilePath e) } : Hub).goto (.sender .count) [])
  | putBack {e q} : s.list = some q → (q.length : ℤ) < s.capacity.1 →
      Section J s env (.sender (.putBack e))
        (({ s with list := some (e :: q) } : Hub).goto (.sender .count) [.putBack e])
  | thrownAway {e q} : s.list = some q → s.capacity.1 ≤ q.length →
      Section J s env (.sender (.putBack e)) (s.goto (.sender .count) [.thrownAway e])
  | finish :
      Section J s env (.sender .finish)
        (({ s with isAsyncSending := false } : Hub).exit [])

/-- The calls, one by one. -/
inductive Called (J : Text → Option Json) (s : Hub) : Call → Outcome Hub Thread Event → Prop where
  | accepted {body mac b now c v} : parseMqttSendRequestBody J body mac now = .ok (c, v) →
      Called J s (.httpRequest body mac b now)
        (s.goto (.request b c (jsonObjectToJsonString v) .isConnected) [.parsed])
  | refused {body mac b now} : Called J s (.httpRequest body mac b now) (s.exit [])
  | enqueue {k} :
      Called J s (.enqueueOfflineMessage k) (s.goto (.enqueue k .testList) [.enqueueCall k])
  | asyn : Called J s .asynSendOfflineMessages (s.goto (.asyn .count) [])
  | connected : s.connected = false →
      Called J s .onConnect (({ s with connected := true } : Hub).goto (.callback .online) [])
  | connectedAgain : s.connected = true → Called J s .onConnect (s.exit [])
  | connectionLost : Called J s .onConnectionLost (({ s with connected := false } : Hub).exit [])

variable {J : Text → Option Json} {s : Hub} {t : Thread} {env : Env}
  {r : Outcome Hub Thread Event}

theorem section_of_request {b : Bool} {c : MqttSendContent} {x : Text} (pc : RequestPc) :
    Section J s env (.request b c x pc) (httpCallbackMqttSend s b c x env pc) := by
  cases pc with
  | isConnected =>
    simp only [httpCallbackMqttSend]
    split
    · rename_i hc
      exact .requestOnline hc
    · rename_i hc
      exact .requestOffline (by simpa using hc)
  | sendMessage =>
    simp only [httpCallbackMqttSend]
    split
    · rename_i hs
      exact .requestSent hs
    · rename_i hs
      exact .requestNotSent (by simpa using hs)
  | sendFailed =>
    cases b with
    | true => exact .requestCached
    | false => exact .requestDiscarded

theorem section_of_admission {k : EnqueueCall}
    (h : enqueueOfflineMessage s k env .admission = some r) :
    Section J s env (.enqueue k .admission) r := by
  simp only [enqueueOfflineMessage] at h
  split at h
  · rename_i hcan
    split at h
    · rename_i hts
      cases h
      exact .invalid (.inl hts)
    · rename_i hts
      split at h
      · rename_i hmsg
        cases h
        exact .invalid (.inr (by simpa [stringIsEmpty] using hmsg))
      · rename_i hmsg
        cases h
        exact .admitted hcan (not_le.mp hts) (by simpa [stringIsEmpty] using hmsg)
  · rename_i hcan
    cases h
    exact .rejected (by simpa using hcan)

theorem section_of_enqueue {k : EnqueueCall} {pc : EnqueuePc}
    (h : enqueueOfflineMessage s k env pc = some r) : Section J s env (.enqueue k pc) r := by
  cases pc with
  | testList =>
    cases hl : s.list with
    | none =>
      simp only [enqueueOfflineMessage, hl, Option.isNone_none, if_true] at h
      cases h
      exact .listNull hl
    | some q =>
      simp only [enqueueOfflineMessage, hl, Option.isNone_some, Bool.false_eq_true, if_false] at h
      cases h
      exact .listSet hl
  | initTest =>
    cases hl : s.list with
    | none =>
      simp only [enqueueOfflineMessage, hl, Option.isSome_none, Bool.false_eq_true, if_false] at h
      cases h
      exact .initNull hl
    | some q =>
      simp only [enqueueOfflineMessage, hl, Option.isSome_some, if_true] at h
      cases h
      exact .initSet hl
  | initAssign =>
    cases h
    exact .initList
  | admission => exact section_of_admission h
  | countRejected =>
    cases h
    exact .countRejected
  | writeFile =>
    simp only [enqueueOfflineMessage] at h
    split at h
    · rename_i hn
      cases h
      exact .notWritten (Prod.ext rfl hn)
    · rename_i hn
      cases h
      exact .written rfl hn
  | push =>
    simp only [enqueueOfflineMessage, Option.bind_eq_bind, Option.bind_eq_some_iff,
      Option.pure_def, Option.some.injEq] at h
    rcases h with ⟨q, hl, ⟨q', d', removed⟩, hroom, rfl⟩
    exact .push hl hroom

theorem section_of_asyn (pc : AsynPc) :
    AsynSection s env pc (asynSendOfflineMessages s env pc).1 (asynSendOfflineMessages s env pc).2 := by
  cases pc with
  | count =>
    simp only [asynSendOfflineMessages]
    split
    · rename_i hq
      exact .noMessages (List.length_eq_zero_iff.mp hq)
    · rename_i hq
      exact .messages (by simpa using hq)
  | flag =>
    simp only [asynSendOfflineMessages]
    split
    · rename_i hf
      exact .sending hf
    · rename_i hf
      exact .notSending (by simpa using hf)
  | create =>
    simp only [asynSendOfflineMessages]
    split
    · rename_i hc
      exact .created hc
    · rename_i hc
      exact .notCreated (by simpa using hc)

theorem section_of_callback (pc : CallbackPc) :
    Section J s env (.callback pc) (onMqttClientConnected s env pc) := by
  cases pc with
  | online => exact .callbackOnline
  | count =>
    simp only [onMqttClientConnected]
    split
    · rename_i hq
      exact .callbackSome (List.length_pos_iff.mp hq)
    · rename_i hq
      exact .callbackNone (by simpa using hq)
  | asyn pc => exact .callbackAsyn (section_of_asyn pc)
  | report => exact .callbackReport

theorem section_of_sender {pc : SenderPc} (h : sendMessagesThreadFun J s env pc = some r) :
    Section J s env (.sender pc) r := by
  cases pc with
  | created =>
    simp only [sendMessagesThreadFun] at h
    split at h
    · rename_i hf
      cases h
      exact .senderRefused hf
    · rename_i hf
      cases h
      exact .senderStarted (by simpa using hf)
  | count =>
    simp only [sendMessagesThreadFun] at h
    split at h
    · rename_i hq
      cases h
      exact .senderSome (List.length_pos_iff.mp hq)
    · rename_i hq
      cases h
      exact .senderNone (by simpa using hq)
  | isConnected =>
    simp only [sendMessagesThreadFun] at h
    split at h
    · rename_i hc
      cases h
      exact .senderOnline hc
    · rename_i hc
      cases h
      exact .senderOffline (by simpa using hc)
  | pop =>
    simp only [sendMessagesThreadFun] at h
    split at h
    · cases h
    · rename_i hl
      cases h
      exact .popNone hl
    · rename_i e q hl
      cases h
      exact .popSome hl
  | fileExists e =>
    simp only [sendMessagesThreadFun] at h
    split at h
    · rename_i hf
      cases h
      rcases Option.isSome_iff_exists.mp hf with ⟨x, hx⟩
      exact .fileThere hx
    · rename_i hf
      cases h
      exact .fileMissing (by simpa using hf)
  | readFile e =>
    simp only [sendMessagesThreadFun] at h
    split at h
    · cases h
    · rename_i hx
      cases h
      exact .readFailed hx
    · rename_i x hne hx
      split at h
      · rename_i c v hparse
        cases h
        exact .read hx hne hparse
      · rename_i msg hparse
        cases h
        exact .parseFailed hx hne hparse
  | send e c =>
    simp only [sendMessagesThreadFun] at h
    split at h
    · rename_i hs
      cases h
      exact .senderSent hs
    · rename_i hs
      cases h
      exact .senderNotSent (by simpa using hs)
  | countSent e =>
    cases h
    exact .countSent
  | unlink e =>
    cases h
    exact .unlink
  | putBack e =>
    simp only [sendMessagesThreadFun] at h
    split at h
    · cases h
    · rename_i q hl
      split at h
      · rename_i hroom
        cases h
        exact .putBack hl hroom
      · rename_i hfull
        cases h
        exact .thrownAway hl (not_lt.mp hfull)
  | finish =>
    cases h
    exact .finish

theorem called_of_call {i : Call} (h : call J s i = some r) : Called J s i r := by
  cases i with
  | httpRequest body mac b now =>
    simp only [call] at h
    split at h
    · rename_i c v hparse
      cases h
      exact .accepted hparse
    · cases h
      exact .refused
  | enqueueOfflineMessage k =>
    cases h
    exact .enqueue
  | asynSendOfflineMessages =>
    cases h
    exact .asyn
  | onConnect =>
    simp only [call] at h
    split at h
    · rename_i hc
      cases h
      exact .connectedAgain hc
    · rename_i hc
      cases h
      exact .connected (by simpa using hc)
  | onConnectionLost =>
    cases h
    exact .connectionLost

/-- A section of the pool is one of the list. -/
theorem section_of_sect (h : sect J s t env = some r) : Section J s env t r := by
  cases t with
  | request b c x pc =>
    cases h
    exact section_of_request pc
  | enqueue k pc => exact section_of_enqueue h
  | asyn pc =>
    cases h
    exact .asyn (section_of_asyn pc)
  | callback pc =>
    cases h
    exact section_of_callback pc
  | sender pc => exact section_of_sender h

end MqttMsgHub
