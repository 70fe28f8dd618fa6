import MqttMsgHub.CacheFile
import MqttMsgHub.Json

/-! # Send requests

`parse_mqtt_send_request_body` reads a send request: topic, payload, quality
of service and cache priority. A payload that is a JSON object is completed in
place with the device's serial number, the client's MAC address and the time.
The hub parses the same message a second time when it takes it back from its
cache file, where the serialised object of the first parse is kept.

json-c's tokener is a parameter `J` (`json_tokener_parse`).

* `completePayload_of_complete` — a completed payload stays as it is;
* `parse_serialised` — the second parse gives the first one's result again;
* `cached_message_as_live` — so a cached message is published as it would have
  been at once.
-/

namespace MqttMsgHub

/-! ## Names and defaults -/

def JSON_NODE_FROM_MODULE_KEY : Text := "from".toList
def JSON_NODE_MQTT_TOPIC_KEY : Text := "topic".toList
def JSON_NODE_MQTT_PAYLOAD_KEY : Text := "payload".toList
def JSON_NODE_MQTT_QOS_KEY : Text := "qos".toList
def JSON_NODE_MQTT_CACHE_PRIORITY : Text := "cache_priority".toList
def JSON_NODE_SN_KEY : Text := "sn".toList
def JSON_NODE_MAC_KEY : Text := "mac".toList
def JSON_NODE_TIME_KEY : Text := "time".toList

/-- `QOS0`. -/
def QOS0 : CInt := 0

/-- `get_device_sn`. -/
def getDeviceSn : Text := "SN0000000001".toList

/-- `mqtt_send_content`; a missing sender is the NULL pointer. -/
structure MqttSendContent where
  fromModule : Option Text
  topic : Text
  payload : Text
  qos : CInt
  cachePriority : CInt
deriving DecidableEq, Repr

/-! ## The payload object -/

/-- Add a member unless the key is already there, whatever its value. -/
def addIfAbsent (jso : Json) (key : Text) (val : Json) : Json :=
  match jsonObjectObjectGetEx jso key with
  | some _ => jso
  | none => jsonObjectObjectAdd jso key val

/-- Device sn, mac and time of an object payload, each if not present. -/
def completePayload (jsubobj : Json) (fromMacAddr : Option Text) (now : CInt64) : Json :=
  let jsubobj := addIfAbsent jsubobj JSON_NODE_SN_KEY (.string getDeviceSn)
  let jsubobj :=
    if stringIsEmpty fromMacAddr then jsubobj
    else addIfAbsent jsubobj JSON_NODE_MAC_KEY (.string (fromMacAddr.getD []))
  addIfAbsent jsubobj JSON_NODE_TIME_KEY (.int now)

theorem addIfAbsent_of_present {jso : Json} {key : Text} (val : Json)
    (h : (jsonObjectObjectGetEx jso key).isSome) : addIfAbsent jso key val = jso := by
  rcases Option.isSome_iff_exists.mp h with ⟨v, hv⟩
  simp only [addIfAbsent, hv]

/-- An object stays an object. -/
theorem addIfAbsent_object (members : List (Text × Json)) (key : Text) (val : Json) :
    ∃ members', addIfAbsent (.object members) key val = .object members' := by
  unfold addIfAbsent
  split
  · exact ⟨members, rfl⟩
  · exact ⟨_, rfl⟩

theorem present_addIfAbsent (members : List (Text × Json)) (key : Text) (val : Json) :
    (jsonObjectObjectGetEx (addIfAbsent (.object members) key val) key).isSome := by
  unfold addIfAbsent
  split
  · rename_i v hv
    simp [hv]
  · simp

theorem present_addIfAbsent_of_present {jso : Json} {key' : Text} (key : Text) (val : Json)
    (h : (jsonObjectObjectGetEx jso key').isSome) :
    (jsonObjectObjectGetEx (addIfAbsent jso key val) key').isSome := by
  unfold addIfAbsent
  split
  · exact h
  · rename_i hnone
    have hne : key' ≠ key := by
      rintro rfl
      simp [hnone] at h
    rwa [get_add_ne jso hne]

/-- What a completed object has. -/
theorem completePayload_object (members : List (Text × Json)) (mac : Option Text) (now : CInt64) :
    ∃ members', completePayload (.object members) mac now = .object members' ∧
      (jsonObjectObjectGetEx (.object members') JSON_NODE_SN_KEY).isSome ∧
      (jsonObjectObjectGetEx (.object members') JSON_NODE_TIME_KEY).isSome := by
  rcases addIfAbsent_object members JSON_NODE_SN_KEY (.string getDeviceSn) with ⟨m₁, hm₁⟩
  have hsn : (jsonObjectObjectGetEx (.object m₁) JSON_NODE_SN_KEY).isSome := by
    rw [← hm₁]
    exact present_addIfAbsent _ _ _
  -- the MAC step keeps the serial number, whether or not it adds something
  have hmac : ∃ m₂, (if stringIsEmpty mac then Json.object m₁
      else addIfAbsent (.object m₁) JSON_NODE_MAC_KEY (.string (mac.getD []))) = .object m₂ ∧
      (jsonObjectObjectGetEx (.object m₂) JSON_NODE_SN_KEY).isSome := by
    split
    · exact ⟨m₁, rfl, hsn⟩
    · rcases addIfAbsent_object m₁ JSON_NODE_MAC_KEY (.string (mac.getD [])) with ⟨m₂, hm₂⟩
      refine ⟨m₂, hm₂, ?_⟩
      rw [← hm₂]
      exact present_addIfAbsent_of_present _ _ hsn
  rcases hmac with ⟨m₂, hm₂, hsn₂⟩
  rcases addIfAbsent_object m₂ JSON_NODE_TIME_KEY (.int now) with ⟨m₃, hm₃⟩
  refine ⟨m₃, ?_, ?_, ?_⟩
  · simp only [completePayload, hm₁, hm₂, hm₃]
  · rw [← hm₃]
    exact present_addIfAbsent_of_present _ _ hsn₂
  · rw [← hm₃]
    exact present_addIfAbsent _ _ _

/-- Without a MAC address, an object with serial number and time is complete. -/
theorem completePayload_of_complete {jso : Json} (now : CInt64)
    (hsn : (jsonObjectObjectGetEx jso JSON_NODE_SN_KEY).isSome)
    (htime : (jsonObjectObjectGetEx jso JSON_NODE_TIME_KEY).isSome) :
    completePayload jso none now = jso := by
  simp only [completePayload, addIfAbsent_of_present _ hsn, stringIsEmpty, if_true,
    addIfAbsent_of_present _ htime]

/-! ## The request -/

/-- `parse_mqtt_send_request_body`: the content and the JSON object, which the
completion of the payload has changed in place, or the text of
`errorMessage`. A NULL `fromMacAddr` is `none`, `now` is `time(NULL)`. -/
def parseMqttSendRequestBody (J : Text → Option Json) (body : Text) (fromMacAddr : Option Text)
    (now : CInt64) : Except Text (MqttSendContent × Json) :=
  match J body with
  | none => .error "Parse JSON error: (null)".toList
  | some jobj =>
    -- a missing sender, qos or priority is no error
    let fromModule := (jsonHelperGetString jobj JSON_NODE_FROM_MODULE_KEY).toOption
    let qos := (jsonHelperGetInt jobj JSON_NODE_MQTT_QOS_KEY).toOption.getD QOS0
    let cachePriority :=
      (jsonHelperGetInt jobj JSON_NODE_MQTT_CACHE_PRIORITY).toOption.getD
        VALUE_CACHE_PRIORITY_DEFAULT
    match jsonHelperGetString jobj JSON_NODE_MQTT_TOPIC_KEY with
    | .error errorMessage => .error errorMessage
    | .ok topic =>
      if stringIsEmpty (some topic) then .error "topic is empty".toList
      else
        match jsonObjectObjectGetEx jobj JSON_NODE_MQTT_PAYLOAD_KEY with
        | some (.string s) =>
          if stringIsEmpty (some (jsonObjectGetString s)) then .error "payload is empty".toList
          else .ok (⟨fromModule, topic, jsonObjectGetString s, qos, cachePriority⟩, jobj)
        | some (.object members) =>
          let jsubobj := completePayload (.object members) fromMacAddr now
          .ok (⟨fromModule, topic, jsonObjectToJsonString jsubobj, qos, cachePriority⟩,
            jsonObjectObjectAdd jobj JSON_NODE_MQTT_PAYLOAD_KEY jsubobj)
        | some _ => .error "node 'payload' is not a string or JSON object".toList
        | none => .error "no json node 'payload'".toList

/-- The fields that are read from a request object besides its payload. -/
def envelope (jobj : Json) (topic payload : Text) : MqttSendContent :=
  ⟨(jsonHelperGetString jobj JSON_NODE_FROM_MODULE_KEY).toOption, topic, payload,
    (jsonHelperGetInt jobj JSON_NODE_MQTT_QOS_KEY).toOption.getD QOS0,
    (jsonHelperGetInt jobj JSON_NODE_MQTT_CACHE_PRIORITY).toOption.getD
      VALUE_CACHE_PRIORITY_DEFAULT⟩

/-- When a request is accepted, and with what result. -/
theorem parse_cases {J : Text → Option Json} {body : Text} {mac : Option Text} {now : CInt64}
    {c : MqttSendContent} {v : Json} (h : parseMqttSendRequestBody J body mac now = .ok (c, v)) :
    ∃ jobj topic, J body = some jobj ∧
      jsonHelperGetString jobj JSON_NODE_MQTT_TOPIC_KEY = .ok topic ∧ topic ≠ [] ∧
      ((∃ s, jsonObjectObjectGetEx jobj JSON_NODE_MQTT_PAYLOAD_KEY = some (.string s) ∧
          jsonObjectGetString s ≠ [] ∧ c = envelope jobj topic (jsonObjectGetString s) ∧ v = jobj) ∨
        ∃ members, jsonObjectObjectGetEx jobj JSON_NODE_MQTT_PAYLOAD_KEY = some (.object members) ∧
          c = envelope jobj topic (jsonObjectToJsonString (completePayload (.object members) mac now)) ∧
          v = jsonObjectObjectAdd jobj JSON_NODE_MQTT_PAYLOAD_KEY
            (completePayload (.object members) mac now)) := by
  unfold parseMqttSendRequestBody at h
  split at h
  · cases h
  · rename_i jobj hJ
    dsimp only at h
    split at h
    · cases h
    · rename_i topic htopic
      refine ⟨jobj, topic, hJ, htopic, ?_⟩
      split at h
      · cases h
      · rename_i hne
        refine ⟨by simpa [stringIsEmpty] using hne, ?_⟩
        split at h
        · rename_i s hs
          split at h
          · cases h
          · rename_i hpayload
            cases h
            exact .inl ⟨s, hs, by simpa [stringIsEmpty] using hpayload, rfl, rfl⟩
        · rename_i members hmembers
          cases h
          exact .inr ⟨members, hmembers, rfl, rfl⟩
        · cases h
        · cases h

theorem parse_of_string {J : Text → Option Json} {body : Text} {jobj : Json} {topic s : Text}
    (mac : Option Text) (now : CInt64) (hJ : J body = some jobj)
    (htopic : jsonHelperGetString jobj JSON_NODE_MQTT_TOPIC_KEY = .ok topic) (hne : topic ≠ [])
    (hs : jsonObjectObjectGetEx jobj JSON_NODE_MQTT_PAYLOAD_KEY = some (.string s))
    (hpayload : jsonObjectGetString s ≠ []) :
    parseMqttSendRequestBody J body mac now =
      .ok (envelope jobj topic (jsonObjectGetString s), jobj) := by
  simp [parseMqttSendRequestBody, hJ, htopic, hne, hs, hpayload, stringIsEmpty, envelope]

theorem parse_of_object {J : Text → Option Json} {body : Text} {jobj : Json} {topic : Text}
    {members : List (Text × Json)} (mac : Option Text) (now : CInt64) (hJ : J body = some jobj)
    (htopic : jsonHelperGetString jobj JSON_NODE_MQTT_TOPIC_KEY = .ok topic) (hne : topic ≠ [])
    (hm : jsonObjectObjectGetEx jobj JSON_NODE_MQTT_PAYLOAD_KEY = some (.object members)) :
    parseMqttSendRequestBody J body mac now =
      .ok (envelope jobj topic (jsonObjectToJsonString (completePayload (.object members) mac now)),
        jsonObjectObjectAdd jobj JSON_NODE_MQTT_PAYLOAD_KEY
          (completePayload (.object members) mac now)) := by
  simp [parseMqttSendRequestBody, hJ, htopic, hne, hm, stringIsEmpty, envelope]

/-- The payload is not among the fields of the envelope. -/
theorem envelope_add_payload (jobj v : Json) (topic payload : Text) :
    envelope (jsonObjectObjectAdd jobj JSON_NODE_MQTT_PAYLOAD_KEY v) topic payload =
      envelope jobj topic payload := by
  have hfrom : JSON_NODE_FROM_MODULE_KEY ≠ JSON_NODE_MQTT_PAYLOAD_KEY := by decide
  have hqos : JSON_NODE_MQTT_QOS_KEY ≠ JSON_NODE_MQTT_PAYLOAD_KEY := by decide
  have hprio : JSON_NODE_MQTT_CACHE_PRIORITY ≠ JSON_NODE_MQTT_PAYLOAD_KEY := by decide
  simp only [envelope, getString_add_ne jobj hfrom, getInt_add_ne jobj hqos,
    getInt_add_ne jobj hprio]

/-- Parsing the serialised result of a parse again, without a MAC address and at
any later time, gives the same result, provided the tokener reads that text
back. -/
theorem parse_serialised {J : Text → Option Json} {body : Text} {mac : Option Text}
    {now : CInt64} {c : MqttSendContent} {v : Json}
    (hparse : parseMqttSendRequestBody J body mac now = .ok (c, v))
    (hround : J (jsonObjectToJsonString v) = some v) (later : CInt64) :
    parseMqttSendRequestBody J (jsonObjectToJsonString v) none later = .ok (c, v) := by
  rcases parse_cases hparse with
    ⟨jobj, topic, -, htopic, hne, ⟨s, hs, hpayload, rfl, rfl⟩ | ⟨members, hm, rfl, rfl⟩⟩
  · -- a string payload leaves the object as it is
    exact parse_of_string none later hround htopic hne hs hpayload
  · rcases completePayload_object members mac now with ⟨members', heq, hsn, htime⟩
    rcases object_of_get hm with ⟨ms, rfl, -⟩
    have htopic' : jsonHelperGetString
        (jsonObjectObjectAdd (.object ms) JSON_NODE_MQTT_PAYLOAD_KEY (.object members'))
        JSON_NODE_MQTT_TOPIC_KEY = .ok topic := by
      rw [getString_add_ne _ (by decide), htopic]
    have hdone := completePayload_of_complete later hsn htime
    rw [heq] at hround ⊢
    rw [parse_of_object none later hround htopic' hne (get_add_self ms _ _), hdone,
      envelope_add_payload, add_get_self (get_add_self ms _ _)]

/-- A message that goes through the cache is published with the topic, payload,
quality of service and priority that it would have had when it came in. -/
theorem cached_message_as_live {J : Text → Option Json} {body : Text} {mac : Option Text}
    {now : CInt64} {c : MqttSendContent} {v : Json}
    (hparse : parseMqttSendRequestBody J body mac now = .ok (c, v))
    (hround : J (jsonObjectToJsonString v) = some v) (later : CInt64) :
    ∃ c' v', parseMqttSendRequestBody J (jsonObjectToJsonString v) none later = .ok (c', v') ∧
      c'.topic = c.topic ∧ c'.payload = c.payload ∧ c'.qos = c.qos ∧
      c'.cachePriority = c.cachePriority :=
  ⟨c, v, parse_serialised hparse hround later, rfl, rfl, rfl, rfl⟩

/-- A request with an object payload that has neither serial number nor time. -/
def sampleRequest : Json :=
  .object [("topic".toList, .string "t/1".toList), ("payload".toList, .object [("a".toList, .null)])]

/-- The same request after its first parse, from a client with a MAC address. -/
def sampleCompleted : Json :=
  .object [("topic".toList, .string "t/1".toList), ("payload".toList, .object
    [("a".toList, .null), ("sn".toList, .string getDeviceSn), ("mac".toList, .string "02".toList),
      ("time".toList, .int 5)])]

/-- json-c on the texts of the two. -/
def sampleTokener (text : Text) : Option Json :=
  if text = jsonObjectToJsonString sampleRequest then some sampleRequest
  else if text = jsonObjectToJsonString sampleCompleted then some sampleCompleted
  else none

theorem cached_message_as_live_sample :
    ∃ c, parseMqttSendRequestBody sampleTokener (jsonObjectToJsonString sampleRequest)
        (some "02".toList) 5 = .ok (c, sampleCompleted) ∧
      ∃ c' v', parseMqttSendRequestBody sampleTokener (jsonObjectToJsonString sampleCompleted) none
          9 = .ok (c', v') ∧
        c'.topic = c.topic ∧ c'.payload = c.payload ∧ c'.qos = c.qos ∧
        c'.cachePriority = c.cachePriority := by
  have hfirst : ∃ c, parseMqttSendRequestBody sampleTokener (jsonObjectToJsonString sampleRequest)
      (some "02".toList) 5 = .ok (c, sampleCompleted) := ⟨_, rfl⟩
  rcases hfirst with ⟨c, hc⟩
  exact ⟨c, hc, cached_message_as_live hc rfl _⟩

/-- A request with a string payload, which a parse leaves as it is. -/
def pingRequest : Json :=
  .object [("topic".toList, .string "t".toList), ("payload".toList, .string "p".toList)]

def pingText : Text := jsonObjectToJsonString pingRequest

/-- json-c, on the text of that one request. -/
def pingTokener (text : Text) : Option Json :=
  if text = pingText then some pingRequest else none

end MqttMsgHub
