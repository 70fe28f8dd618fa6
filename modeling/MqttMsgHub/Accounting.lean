import MqttMsgHub.StrayFiles

/-! # Message accounting

Every message that enters the hub, with a request or from the cache at
start-up, is published, or counted as discarded, or still somewhere in the
hub: in a request, in the queue, in the sender's hand. The balance holds after
every step of a run in which

* every put-back finds room (a full one drops its entry without counting it),
* every message that goes to the cache gets a positive timestamp (another one
  is refused without counting it), and
* no file at start-up has a name without priority (such a file is loaded under
  the default priority, and the sender then looks for a file that does not
  exist).

The exits through a missing, empty or unreadable file are closed by
`FilesInv` and by what the files hold: the serialised object of a request that
has been parsed before.

* `message_accounting` — the balance;
* `overtaken_message_lost` — a full put-back breaks it.
-/

namespace MqttMsgHub

open Pool (total Outcome)

variable {tr ev : List Event} {s s₀ : Hub} {ts : List Thread} {J : Text → Option Json}
  {env : Env} {t : Thread} {i : Call} {r : Outcome Hub Thread Event} {d : Directory}
  {e : CacheFileHeader} {p : Pool.Config Hub Thread} {capacity : CInt}

/-! ## Cached messages -/

/-- The tokener reads back the object of every accepted request from its
serialised text. -/
def ReadsBack (J : Text → Option Json) : Prop :=
  ∀ body mac now c v, parseMqttSendRequestBody J body mac now = .ok (c, v) →
    J (jsonObjectToJsonString v) = some v

/-- A text that the hub writes to its cache: the object of an accepted request. -/
def CachedMessage (J : Text → Option Json) (content : Text) : Prop :=
  ∃ body mac now c v, parseMqttSendRequestBody J body mac now = .ok (c, v) ∧
    content = jsonObjectToJsonString v

/-- A cached message is accepted when it is read again. -/
theorem CachedMessage.parses {content : Text} (h : CachedMessage J content) (hJ : ReadsBack J)
    (now : CInt64) : ∃ c v, parseMqttSendRequestBody J content none now = .ok (c, v) := by
  rcases h with ⟨body, mac, before, c, v, hparse, rfl⟩
  exact ⟨c, v, parse_serialised hparse (hJ _ _ _ _ _ hparse) now⟩

theorem CachedMessage.ne_nil {content : Text} (h : CachedMessage J content) : content ≠ [] := by
  rcases h with ⟨body, mac, now, c, v, hparse, rfl⟩
  rcases parse_cases hparse with
    ⟨jobj, topic, -, -, -, ⟨s, hs, -, -, rfl⟩ | ⟨members, hm, -, rfl⟩⟩
  · rcases object_of_get hs with ⟨ms, rfl, -⟩
    simp [jsonObjectToJsonString]
  · rcases object_of_get hm with ⟨ms, rfl, -⟩
    simp [jsonObjectToJsonString, jsonObjectObjectAdd]

/-! ## Start-up -/

/-- Every cache file was written by the hub, for an accepted request. -/
def HoldsCachedMessages (J : Text → Option Json) (d : Directory) : Prop :=
  ∀ n content, d.lookup n = some content → hasCacheSuffix n = true →
    ∃ e, getCacheFilePath e = n ∧ 0 < e.timestamp.1 ∧ CachedMessage J content

/-- No cache file was written for a negative priority. -/
def NamesPriorities (d : Directory) : Prop :=
  ∀ e, (d.lookup (getCacheFilePath e)).isSome → 0 < e.timestamp.1 → 0 ≤ e.cachePriority.1

/-- The names that are scanned are those of the entries loaded for them. -/
theorem scanned_name (hheld : HoldsCachedMessages J d) (hnames : NamesPriorities d) {n : Text}
    (hn : n ∈ cacheNames d) :
    ∃ e content, getCacheFilePath e = n ∧ 0 < e.timestamp.1 ∧ loadable n = some e ∧
      d.lookup n = some content ∧ CachedMessage J content := by
  rcases mem_cacheNames.mp hn with ⟨hkey, hfilter⟩
  have hsome : (d.lookup n).isSome := AList.lookup_isSome.mpr (AList.mem_keys.mpr hkey)
  rcases Option.isSome_iff_exists.mp hsome with ⟨content, hcontent⟩
  rcases hheld n content hcontent hfilter with ⟨e, rfl, hpos, hcached⟩
  refine ⟨e, content, rfl, hpos, ?_, hcontent, hcached⟩
  rw [loadable_path hpos, if_pos (hnames e hsome hpos)]

/-- After start-up every entry has its file, which holds a cached message. -/
theorem startUp_backed (hheld : HoldsCachedMessages J d) (hnames : NamesPriorities d)
    (he : e ∈ (startUp capacity d).queue) :
    Backed (startUp capacity d) [] (startUp capacity d).dir e ∧
      ∀ content, (startUp capacity d).dir.lookup (getCacheFilePath e) = some content →
        CachedMessage J content := by
  have hdir : (startUp capacity d).dir = d := by
    apply load_dir
    intro n hn
    rcases scanned_name hheld hnames hn with ⟨x, _, -, -, hload, -⟩
    simp [hload]
  have hmem := he
  simp only [Hub.queue, startUp, Option.getD_some, load_queue, List.mem_filterMap] at hmem
  rcases hmem with ⟨n, hn, hload⟩
  rcases scanned_name hheld hnames hn with ⟨x, content, rfl, hpos, hload', hcontent, hcached⟩
  have hx : x = e := Option.some.inj (hload'.symm.trans hload)
  subst hx
  rw [hdir]
  refine ⟨⟨hpos, content, hcontent, hcached.ne_nil, .inr ⟨he, ?_⟩⟩, fun content' h' => ?_⟩
  · rw [hdir, hcontent]
  · rw [hcontent, Option.some.injEq] at h'
    exact h' ▸ hcached

/-! ## Requests -/

/-- The serialised object that a request carries. -/
def Thread.texts : Thread → List Text
  | .request _ _ x _ => [x]
  | _ => []

/-- The thread has found no list. -/
def Thread.inInit : Thread → Bool
  | .enqueue _ .initTest => true
  | .enqueue _ .initAssign => true
  | _ => false

/-- The thread is about to send its message to the cache. -/
def Thread.caches : Thread → Bool
  | .request true _ _ .sendFailed => true
  | _ => false

/-- The calls of the running hub: `enqueue_offline_message` is called by requests
only. -/
def fromRequests : Call → Prop
  | .enqueueOfflineMessage _ => False
  | _ => True

/-- File operations succeed, every put-back finds room, every message that goes
to the cache gets a positive timestamp. -/
def accounted : Hub → List Thread → Thread → Env → Prop := fun s _ t env =>
  env.write = .ok ∧ (t.putsBack = true → (s.queue.length : ℤ) < s.capacity.1) ∧
    (t.caches = true → 0 < env.clock.1)

/-- The list is there, and what is on its way to the cache are cached messages
with positive timestamps. -/
structure RequestsInv (J : Text → Option Json) (tr : List Event) (s : Hub) (ts : List Thread) :
    Prop where
  listSet : s.list.isSome
  noInit : ∀ t ∈ ts, t.inInit = false
  texts : ∀ t ∈ ts, ∀ x ∈ t.texts, CachedMessage J x
  calls : ∀ k ∈ enqueueCalls tr, 0 < k.timestamp.1 ∧ CachedMessage J k.message

theorem RequestsInv.step {s' : Hub} {new : List Thread} (old : List Thread)
    (h : RequestsInv J tr s (old ++ ts)) (hlist : s'.list.isSome)
    (hnew : ∀ u ∈ new, u.inInit = false ∧ ∀ x ∈ u.texts, CachedMessage J x)
    (hcalls : ∀ k ∈ enqueueCalls ev, 0 < k.timestamp.1 ∧ CachedMessage J k.message) :
    RequestsInv J (tr ++ ev) s' (new ++ ts) where
  listSet := hlist
  noInit := by
    intro u hu
    rcases List.mem_append.mp hu with hu | hu
    · exact (hnew u hu).1
    · exact h.noInit u (List.mem_append_right old hu)
  texts := by
    intro u hu
    rcases List.mem_append.mp hu with hu | hu
    · exact (hnew u hu).2
    · exact h.texts u (List.mem_append_right old hu)
  calls := by
    intro k hk
    rw [enqueueCalls_append] at hk
    rcases List.mem_append.mp hk with hk | hk
    · exact h.calls k hk
    · exact hcalls k hk

theorem RequestsInv.of_perm {us : List Thread} (hperm : ts.Perm us) (h : RequestsInv J tr s ts) :
    RequestsInv J tr s us :=
  ⟨h.listSet, fun t ht => h.noInit t (hperm.mem_iff.mpr ht),
    fun t ht => h.texts t (hperm.mem_iff.mpr ht), h.calls⟩

theorem requests_called (h : RequestsInv J tr s ts) (hok : fromRequests i) (hr : Called J s i r) :
    RequestsInv J (tr ++ r.events) r.shared (r.threads ++ ts) := by
  cases hr with
  | @accepted body mac b now c v hparse =>
    refine RequestsInv.step [] h h.listSet ?_ (by simp [Event.enqueued])
    simpa [Thread.inInit, Thread.texts] using ⟨body, mac, now, c, v, hparse, rfl⟩
  | enqueue => cases hok
  | _ => exact RequestsInv.step [] h h.listSet (by simp [Thread.inInit, Thread.texts]) (by simp)

theorem requests_section (h : RequestsInv J tr s (t :: ts)) (hok : accounted s ts t env)
    (hr : Section J s env t r) : RequestsInv J (tr ++ r.events) r.shared (r.threads ++ ts) := by
  have hlist := h.listSet
  have htext := h.texts _ List.mem_cons_self
  cases hr with
  | requestOnline hc =>
    exact h.step [_] hlist (by simpa [Thread.inInit, Thread.texts] using htext) (by simp)
  | requestOffline hc =>
    exact h.step [_] hlist (by simpa [Thread.inInit, Thread.texts] using htext) (by simp)
  | requestNotSent hs =>
    exact h.step [_] hlist (by simpa [Thread.inInit, Thread.texts] using htext) (by simp)
  | requestCached =>
    refine h.step [_] hlist (by simp [Thread.inInit, Thread.texts]) ?_
    simpa [Event.enqueued] using ⟨hok.2.2 rfl, htext _ (by simp [Thread.texts])⟩
  | listNull hl => simp [hl] at hlist
  | initNull hl => simp [hl] at hlist
  | asyn ha =>
    cases ha <;> exact h.step [_] hlist (by simp [Thread.inInit, Thread.texts]) (by simp)
  | callbackAsyn ha =>
    cases ha <;> exact h.step [_] hlist (by simp [Thread.inInit, Thread.texts]) (by simp)
  | _ =>
    exact h.step [_] (by simp [hlist]) (by simp [Thread.inInit, Thread.texts])
      (by simp [Event.enqueued])

theorem requests_inv (hrun : HubRuns J fromRequests accounted (startUp capacity d) tr p) :
    RequestsInv J tr p.shared p.threads := by
  refine Pool.invariant (P := RequestsInv J) (fun _ _ _ _ => RequestsInv.of_perm) ?_ ?_ ?_ hrun
  · exact ⟨rfl, by simp, by simp, by simp⟩
  · intro tr s ts i r hinv hok hr
    exact requests_called hinv hok (called_of_call hr)
  · intro tr s t ts env r hinv hok hr
    exact requests_section hinv hok (section_of_sect hr)

/-! ## The balance -/

/-- A request body that parsed. -/
def Event.parses : Event → ℕ
  | .parsed => 1
  | _ => 0

/-- A successful `MQTTClientWrapper_sendMessage` for a request or a cached
message. -/
def Event.publishes : Event → ℕ
  | .published _ _ => 1
  | _ => 0

/-- An increment of the counter of messages discarded online. -/
def Event.countsOnline : Event → ℕ
  | .onlineDiscarded => 1
  | _ => 0

/-- An increment of the counter of messages discarded offline. -/
def Event.countsOffline : Event → ℕ
  | .offlineDiscarded => 1
  | _ => 0

/-- A request whose message is neither published nor counted nor queued yet. -/
def Thread.inProgress : Thread → ℕ
  | .request _ _ _ _ => 1
  | .enqueue _ _ => 1
  | _ => 0

/-- What came in is what went out and what is still there. -/
def Balanced (loaded : ℕ) (tr : List Event) (s : Hub) (ts : List Thread) : Prop :=
  total Event.parses tr + loaded =
    total Event.publishes tr + total Event.countsOnline tr + total Event.countsOffline tr +
      s.queue.length + total (fun t => t.held.length) ts + total Thread.inProgress ts

theorem total_evictions (removed : List CacheFileHeader) :
    total Event.parses (evictions removed) = 0 ∧ total Event.publishes (evictions removed) = 0 ∧
      total Event.countsOnline (evictions removed) = 0 ∧
      total Event.countsOffline (evictions removed) = removed.length := by
  induction removed with
  | nil => simp [evictions]
  | cons e removed ih =>
    rcases ih with ⟨hparse, hpub, honline, hoffline⟩
    have hcons : evictions (e :: removed) = .evicted e :: .offlineDiscarded :: evictions removed := rfl
    simp only [hcons, Pool.total_cons, hparse, hpub, honline, hoffline, Event.parses,
      Event.publishes, Event.countsOnline, Event.countsOffline, List.length_cons]
    omega

/-- What the files hold can be sent. -/
theorem Backed.parses (h : Backed s₀ tr d e) (hJ : ReadsBack J)
    (hstart : ∀ e ∈ s₀.queue, ∀ content, s₀.dir.lookup (getCacheFilePath e) = some content →
      CachedMessage J content)
    (hcalls : ∀ k ∈ enqueueCalls tr, 0 < k.timestamp.1 ∧ CachedMessage J k.message) {x : Text}
    (hx : d.lookup (getCacheFilePath e) = some x) (now : CInt64) :
    ∃ c v, parseMqttSendRequestBody J x none now = .ok (c, v) := by
  rcases h.file with ⟨content, hfile, -, horigin⟩
  have hcontent : content = x := Option.some.inj (hfile.symm.trans hx)
  subst hcontent
  rcases horigin with ⟨k, hk, -, rfl⟩ | ⟨he, hlookup⟩
  · exact (hcalls k (mem_enqueueCalls.mpr hk)).2.parses hJ now
  · exact (hstart e he content hlookup).parses hJ now

theorem balanced_section {n : ℕ} (h : Balanced n tr s (t :: ts))
    (hfiles : FilesInv s₀ tr s (t :: ts)) (hreq : RequestsInv J tr s (t :: ts))
    (hJ : ReadsBack J)
    (hstart : ∀ e ∈ s₀.queue, ∀ content, s₀.dir.lookup (getCacheFilePath e) = some content →
      CachedMessage J content)
    (hok : accounted s ts t env) (hr : Section J s env t r) :
    Balanced n (tr ++ r.events) r.shared (r.threads ++ ts) := by
  have hmine := hfiles.threads _ List.mem_cons_self
  unfold Balanced at h ⊢
  cases hr with
  -- no thread found the list missing
  | initList => simpa [Thread.inInit] using hreq.noInit _ List.mem_cons_self
  | @invalid k msg hbad =>
    -- the call was made with a positive timestamp and a message
    rcases hreq.calls k (mem_enqueueCalls.mpr (hmine.called k (by simp [Thread.calls]))) with
      ⟨hpos, hmsg⟩
    rcases hbad with hts | hempty
    · omega
    · exact absurd hempty hmsg.ne_nil
  | @notWritten k d msg hw =>
    simp only [hok.1, writeFileString, Prod.mk.injEq, List.length_eq_zero_iff] at hw
    exact absurd hw.2 (hmine.checked k (by simp [Thread.toWrite])).2
  | @push k q q' d' removed hl hroom =>
    -- every evicted entry is counted, and the new one leaves the request
    have hlen := (makeRoom_spec hroom).perm.length_eq
    rcases total_evictions removed with ⟨hparse, hpub, honline, hoffline⟩
    simp [Thread.held, Thread.inProgress, Hub.queue, hl, hparse, hpub, honline, hoffline,
      Event.parses, Event.publishes, Event.countsOnline, Event.countsOffline] at h hlen ⊢
    omega
  | popSome hl =>
    -- one message less in the queue, one more in the sender's hand
    simp [Thread.held, Thread.inProgress, Hub.queue, hl] at h ⊢
    omega
  | @fileMissing e hf =>
    exact absurd hf (hmine.filed e (by simp [Thread.filed, Thread.entries])).not_missing
  | @readFailed e hf =>
    exact absurd hf (hmine.filed e (by simp [Thread.filed, Thread.entries])).not_empty
  | @parseFailed e x msg hf hne hp =>
    -- what is in the file was accepted before it was cached
    have hback := hmine.filed e (by simp [Thread.filed, Thread.entries])
    rcases hback.parses hJ hstart hreq.calls hf env.now with ⟨c, v, hparse⟩
    rw [hparse] at hp
    cases hp
  | putBack hl hroom =>
    simp [Thread.held, Thread.inProgress, Hub.queue, hl, Event.parses, Event.publishes,
      Event.countsOnline, Event.countsOffline] at h ⊢
    omega
  | thrownAway hl hfull =>
    -- excluded: every put-back finds room
    have hroom := hok.2.1 rfl
    simp only [Hub.queue, hl, Option.getD_some] at hroom
    omega
  | asyn ha => cases ha <;> simpa [Thread.held, Thread.inProgress] using h
  | callbackAsyn ha => cases ha <;> simpa [Thread.held, Thread.inProgress] using h
  | _ =>
    simp [Thread.held, Thread.inProgress, Hub.queue, Event.parses, Event.publishes,
      Event.countsOnline, Event.countsOffline] at h ⊢
    omega

theorem balanced_called {n : ℕ} (h : Balanced n tr s ts) (hok : fromRequests i)
    (hr : Called J s i r) : Balanced n (tr ++ r.events) r.shared (r.threads ++ ts) := by
  unfold Balanced at h ⊢
  cases hr with
  | enqueue => cases hok
  | _ =>
    simp [Thread.held, Thread.inProgress, Hub.queue, Event.parses, Event.publishes,
      Event.countsOnline, Event.countsOffline] at h ⊢
    omega

/-- In every run of the hub from a start-up with previously cached messages, with
distinct timestamps and successful file operations: as long as every
put-back finds room and the timestamps are positive, the requests and loaded
entries are those published, those counted as discarded, those in the queue,
the one in the sender's hand and those still in progress. -/
theorem message_accounting (hJ : ReadsBack J) (hheld : HoldsCachedMessages J d)
    (hnames : NamesPriorities d)
    (hrun : HubRuns J fromRequests accounted (startUp capacity d) tr p)
    (hdistinct : (stamps (startUp capacity d).queue tr).Nodup) :
    Balanced (loadNames d).addedCount tr p.shared p.threads := by
  have hbacked : ∀ e ∈ (startUp capacity d).queue,
      Backed (startUp capacity d) [] (startUp capacity d).dir e :=
    fun e he => (startUp_backed hheld hnames he).1
  have hstart : ∀ e ∈ (startUp capacity d).queue, ∀ content,
      (startUp capacity d).dir.lookup (getCacheFilePath e) = some content →
        CachedMessage J content :=
    fun e he => (startUp_backed hheld hnames he).2
  -- the balance rests on the files being there and on what they hold
  refine Pool.invariant_relative (H := fun tr => (stamps (startUp capacity d).queue tr).Nodup)
    (Q := fun tr s ts => FilesInv (startUp capacity d) tr s ts ∧ RequestsInv J tr s ts)
    (P := Balanced (loadNames d).addedCount) stamps_nodup_of_append
    ?_ ?_ ?_ ?_ ?_ ?_ hrun hdistinct
  · intro tr p hrun hnodup
    exact ⟨files_inv (fun _ _ _ _ hok => hok.1) hbacked hrun hnodup, requests_inv hrun⟩
  · rintro tr s ts us hperm ⟨hfiles, hreq⟩
    exact ⟨hfiles.of_perm hperm, hreq.of_perm hperm⟩
  · intro tr s ts us hperm hbal
    unfold Balanced at hbal ⊢
    rw [← Pool.total_of_perm _ hperm, ← Pool.total_of_perm _ hperm]
    exact hbal
  · simp [Balanced, load_addedCount, Hub.queue, startUp]
  · intro tr s ts i r _ _ hbal hok hr
    exact balanced_called hbal hok (called_of_call hr)
  · rintro tr s t ts env r - ⟨hfiles, hreq⟩ hbal hok hr
    exact balanced_section hbal hfiles hreq hJ hstart hok (section_of_sect hr)

/-! ## A message that is lost -/

theorem pingTokener_readsBack : ReadsBack pingTokener := by
  intro body mac now c v hparse
  rcases parse_cases hparse with ⟨jobj, topic, hJ, -, -, ⟨s, -, -, -, rfl⟩ | ⟨members, hm, -, -⟩⟩
  · have hping : v = pingRequest := by
      unfold pingTokener at hJ
      split at hJ
      · exact (Option.some.inj hJ).symm
      · cases hJ
    rw [hping]
    exact if_pos rfl
  · unfold pingTokener at hJ
    split at hJ
    · rw [← Option.some.inj hJ] at hm
      cases hm
    · cases hJ

/-- Two requests are cached, the second while the sender holds the first
message, and the send of the first one fails. -/
def losingRun : List (Pool.Label Call Env) :=
  .call (.httpRequest pingText none true 7) ::
    List.replicate 6 (.run 0 { quietEnv with clock := 1 }) ++
  .call .onConnect :: List.replicate 5 (.run 0 quietEnv) ++ List.replicate 6 (.run 1 quietEnv) ++
  .call (.httpRequest pingText none true 7) ::
    List.replicate 7 (.run 2 { quietEnv with sendOk := false, clock := 2 }) ++
  [.run 1 { quietEnv with sendOk := false }]

instance : DecidablePred fromRequests := fun i =>
  match i with
  | .enqueueOfflineMessage _ => isFalse id
  | .httpRequest _ _ _ _ => isTrue trivial
  | .asynSendOfflineMessages => isTrue trivial
  | .onConnect => isTrue trivial
  | .onConnectionLost => isTrue trivial

instance (s : Hub) (ts : List Thread) (t : Thread) (env : Env) : Decidable (accounted s ts t env) :=
  inferInstanceAs (Decidable (_ ∧ _ ∧ _))

theorem losingRun_executes : (Exec.run (hubStep pingTokener) (Pool.Allowed fromRequests accounted)
    ⟨startUp 1 ∅, []⟩ losingRun).isSome := by decide

theorem message_accounting_losingRun :
    ∃ tr p, HubRuns pingTokener fromRequests accounted (startUp 1 ∅) tr p ∧
      total Event.parses tr = 2 ∧ Balanced 0 tr p.shared p.threads := by
  have hrun := Exec.runs_of_isSome losingRun_executes
  exact ⟨_, _, hrun, by decide, message_accounting pingTokener_readsBack
    (fun n content h => by simp at h) (fun e h => by simp at h) hrun (by decide)⟩

theorem losingRun_putBack : (Exec.run (hubStep pingTokener) (Pool.Allowed fromRequests filesSucceed)
    ⟨startUp 1 ∅, []⟩ (losingRun ++ [.run 1 quietEnv])).isSome := by decide

/-- The put-back that follows loses the first message: two requests have
parsed, one message is left, none was published or counted. -/
theorem overtaken_message_lost :
    ¬ ∀ (J : Text → Option Json) (capacity : CInt) (d : Directory) (tr : List Event)
      (p : Pool.Config Hub Thread), ReadsBack J → HoldsCachedMessages J d → 1 ≤ capacity.1 →
      HubRuns J fromRequests filesSucceed (startUp capacity d) tr p →
      (stamps (startUp capacity d).queue tr).Nodup →
      Balanced (loadNames d).addedCount tr p.shared p.threads := by
  intro hclaim
  have hbal := hclaim pingTokener 1 ∅ _ _ pingTokener_readsBack
    (fun n content h => by simp at h) (by decide) (Exec.runs_of_isSome losingRun_putBack) (by decide)
  unfold Balanced at hbal
  revert hbal
  decide

end MqttMsgHub
