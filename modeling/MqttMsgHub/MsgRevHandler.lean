import MqttMsgHub.Base64
import MqttMsgHub.RequestBody

/-! # Received commands

`msg_received_handler` of `msgrevhandler.c` takes a message on one of the two
command topics, encodes its payload and hands a JSON text to the FIFO. The
buffers it prints into have the sizes that the source gives them; a string
that does not fit is undefined behaviour.

* `forwardPayload_eq` — what is handed over, for every topic;
* `commands_forwarded` — for the subscribed topics the text is an object from
  which the payload can be decoded.
-/

namespace MqttMsgHub

/-- `CAT_TOPIC(MAIN_TOPIC, CMD_SUB_TOPIC)`. -/
def cmdTopic : Text := "hub/cmd".toList

/-- `CMD_ALL_SUB_TOPIC`. -/
def CMD_ALL_SUB_TOPIC : Text := "ALL".toList

/-- The topic for all devices. -/
def allTopic : Text := cmdTopic ++ '/' :: CMD_ALL_SUB_TOPIC

/-- The topic for this device. -/
def snTopic : Text := cmdTopic ++ '/' :: getDeviceSn

/-- The topics that `MQTTClientWrapper_subscribe` subscribes to. -/
def subscribedTopics : List Text := [allTopic, snTopic]

/-- `deviceSNSubJson`: the member for the serial number, with the format of the
source. -/
def snMember (sn : Text) : Text :=
  ['"'] ++ JSON_NODE_SN_KEY ++ ['"', ':', '"'] ++ sn ++ ['"', ',']

/-- The text on the pipe, with the format of the source. -/
def pipeText (topic deviceSNSubJson base64payload : Text) : Text :=
  ['\x7b', '"'] ++ JSON_NODE_MQTT_TOPIC_KEY ++ ['"', ':', '"'] ++ topic ++ ['"', ','] ++
    deviceSNSubJson ++ ['"'] ++ JSON_NODE_MQTT_PAYLOAD_KEY ++ ['"', ':', '"'] ++ base64payload ++
    ['"', '\x7d']

/-- The second half of `msg_received_handler`: its result, and the text that it
passes to `write_pipe_buffer`, if it does. -/
def forwardPayload (topic deviceSNSubJson : Text) (payload : Option (List UInt8))
    (payloadLen : CInt) : Option (Bool × Option Text) :=
  match payload with
  | none => some (true, none)
  | some bytes =>
    if 0 < payloadLen.1 then do
      let base64size := calcBase64EncryptedSize payloadLen.1.toNat
      let base64payload ← base64Encrypt bytes payloadLen.1.toNat base64size
      if stringIsEmpty (some base64payload) then return (true, none)
      else
        let pipeBuffer ← intoBuffer (base64size + 1 + topic.length + 256)
          (pipeText topic deviceSNSubJson base64payload)
        return (true, some pipeBuffer)
    else some (true, none)

/-- `msg_received_handler`. -/
def msgReceivedHandler (topic : Text) (payload : Option (List UInt8)) (payloadLen : CInt) :
    Option (Bool × Option Text) :=
  match strstr topic cmdTopic, strrchr '/' topic with
  | none, _ => some (false, none)
  | some _, none => some (false, none)
  | some _, some splitter => do
    -- the part behind the last '/'
    let topicTail ← intoBuffer 64 (splitter.drop 1)
    if stringEqualsIgnoreCase topicTail getDeviceSn then
      let deviceSNSubJson ← intoBuffer 64 (snMember (stringUpperCase topicTail))
      forwardPayload topic deviceSNSubJson payload payloadLen
    else if stringEqualsIgnoreCase topicTail CMD_ALL_SUB_TOPIC then
      forwardPayload topic [] payload payloadLen
    else return (false, none)

/-! ## The text -/

variable {payload : List UInt8} {payloadLen : CInt} {topic sub s : Text}

/-- Characters that JSON does not escape. -/
def Plain (s : Text) : Prop := ∀ c ∈ s, jsonEscapeChar c = [c]

instance (s : Text) : Decidable (Plain s) := List.decidableBAll (fun c => jsonEscapeChar c = [c]) s

theorem Plain.quote_eq (h : Plain s) : jsonQuote s = '"' :: s ++ ['"'] := by
  have hflat : s.flatMap jsonEscapeChar = s := by
    induction s with
    | nil => rfl
    | cons c s ih =>
      rw [List.flatMap_cons, h c List.mem_cons_self, ih fun x hx => h x (List.mem_cons_of_mem _ hx)]
      rfl
  rw [jsonQuote, hflat]

theorem base64Digit_plain : ∀ v < 64, jsonEscapeChar (base64Digit v) = [base64Digit v] := by decide

theorem encoded_plain (inp : List UInt8) : Plain (encoded inp) := by
  intro c hc
  rw [encoded, List.mem_append, digits, List.mem_map, List.mem_replicate] at hc
  rcases hc with ⟨k, -, rfl⟩ | ⟨-, rfl⟩
  · exact base64Digit_plain _ (sextet_lt inp k)
  · decide

/-- The object that a command is forwarded as. -/
def commandObject (topic : Text) (sn : Option Text) (base64payload : Text) : Json :=
  .object ((JSON_NODE_MQTT_TOPIC_KEY, .string topic) ::
    (sn.toList.map fun sn => (JSON_NODE_SN_KEY, .string sn)) ++
      [(JSON_NODE_MQTT_PAYLOAD_KEY, .string base64payload)])

/-- The text that is printed is the object. -/
theorem pipeText_eq {base64payload : Text} (htopic : Plain topic) (hpayload : Plain base64payload) :
    pipeText topic [] base64payload =
      jsonObjectToJsonString (commandObject topic none base64payload) := by
  have hkey : Plain JSON_NODE_MQTT_TOPIC_KEY := by decide
  have hkey' : Plain JSON_NODE_MQTT_PAYLOAD_KEY := by decide
  simp [commandObject, jsonObjectToJsonString, jsonMembers, htopic.quote_eq, hpayload.quote_eq,
    hkey.quote_eq, hkey'.quote_eq, pipeText]

theorem pipeText_sn_eq {sn base64payload : Text} (htopic : Plain topic) (hsn : Plain sn)
    (hpayload : Plain base64payload) :
    pipeText topic (snMember sn) base64payload =
      jsonObjectToJsonString (commandObject topic (some sn) base64payload) := by
  have hkey : Plain JSON_NODE_MQTT_TOPIC_KEY := by decide
  have hkey' : Plain JSON_NODE_MQTT_PAYLOAD_KEY := by decide
  have hkey'' : Plain JSON_NODE_SN_KEY := by decide
  simp [commandObject, jsonObjectToJsonString, jsonMembers, htopic.quote_eq, hpayload.quote_eq,
    hkey.quote_eq, hkey'.quote_eq, hkey''.quote_eq, hsn.quote_eq, pipeText, snMember]

theorem length_pipeText (topic sub base64payload : Text) :
    (pipeText topic sub base64payload).length =
      topic.length + sub.length + base64payload.length + 25 := by
  have hkey : JSON_NODE_MQTT_TOPIC_KEY.length = 5 := by decide
  have hkey' : JSON_NODE_MQTT_PAYLOAD_KEY.length = 7 := by decide
  simp only [pipeText, List.length_append, List.length_cons, List.length_nil, hkey, hkey']
  omega

/-- What is handed to the pipe, whatever the topic: the buffers are large enough. -/
theorem forwardPayload_eq (hlen : payloadLen.1 = payload.length) (hpos : 0 < payloadLen.1)
    (hsub : sub.length < 64) :
    forwardPayload topic sub (some payload) payloadLen =
        some (true, some (pipeText topic sub (encoded payload))) ∧
      (encoded payload).length < calcBase64EncryptedSize payload.length ∧
      (pipeText topic sub (encoded payload)).length <
        calcBase64EncryptedSize payload.length + 1 + topic.length + 256 := by
  have hint := payloadLen.2
  have hn : payloadLen.1.toNat = payload.length := by omega
  have hne : payload ≠ [] := by
    rintro rfl
    simp only [List.length_nil] at hn
    omega
  have hfits : encodedLength payload.length < calcBase64EncryptedSize payload.length :=
    encoded_fits (by omega)
  have hencrypt := base64Encrypt_eq hne (by omega) hfits
  have hpositive : 0 < encodedLength payload.length := by
    unfold encodedLength
    omega
  have hbuffer : (pipeText topic sub (encoded payload)).length <
      calcBase64EncryptedSize payload.length + 1 + topic.length + 256 := by
    rw [length_pipeText, length_encoded]
    omega
  have hnotEmpty : stringIsEmpty (some (encoded payload)) = false := by
    rw [← length_encoded, List.length_pos_iff] at hpositive
    simpa [stringIsEmpty] using hpositive
  refine ⟨?_, by rwa [length_encoded], hbuffer⟩
  simp [forwardPayload, hpos, hn, hencrypt, hnotEmpty, intoBuffer, hbuffer]

/-! ## The two topics -/

theorem msgReceivedHandler_all (payload : Option (List UInt8)) (payloadLen : CInt) :
    msgReceivedHandler allTopic payload payloadLen = forwardPayload allTopic [] payload payloadLen := by
  have hstr : strstr allTopic cmdTopic = some allTopic := by decide
  have htail : strrchr '/' allTopic = some ('/' :: CMD_ALL_SUB_TOPIC) := by decide
  have hcopy : intoBuffer 64 CMD_ALL_SUB_TOPIC = some CMD_ALL_SUB_TOPIC := by decide
  have hsn : stringEqualsIgnoreCase CMD_ALL_SUB_TOPIC getDeviceSn = false := by decide
  have hall : stringEqualsIgnoreCase CMD_ALL_SUB_TOPIC CMD_ALL_SUB_TOPIC = true := by decide
  simp [msgReceivedHandler, hstr, htail, hcopy, hsn, hall]

theorem msgReceivedHandler_sn (payload : Option (List UInt8)) (payloadLen : CInt) :
    msgReceivedHandler snTopic payload payloadLen =
      forwardPayload snTopic (snMember getDeviceSn) payload payloadLen := by
  have hstr : strstr snTopic cmdTopic = some snTopic := by decide
  have htail : strrchr '/' snTopic = some ('/' :: getDeviceSn) := by decide
  have hcopy : intoBuffer 64 getDeviceSn = some getDeviceSn := by decide
  have hsn : stringEqualsIgnoreCase getDeviceSn getDeviceSn = true := by decide
  have hupper : stringUpperCase getDeviceSn = getDeviceSn := by decide
  have hmember : intoBuffer 64 (snMember getDeviceSn) = some (snMember getDeviceSn) := by decide
  simp [msgReceivedHandler, hstr, htail, hcopy, hsn, hupper, hmember]

/-- The payload can be decoded from its text, into every buffer with room for it. -/
def DecodesTo (base64payload : Text) (payload : List UInt8) : Prop :=
  ∀ buf : Buffer, payload.length ≤ buf.size → ∃ out,
    base64Decrypt base64payload base64payload.length buf = some (.ok, out, payload.length) ∧
      out.bytes payload.length = payload

theorem encoded_decodesTo (h : payload.length < 4294967296) : DecodesTo (encoded payload) payload := by
  intro buf hsize
  have hmax : encodedLength payload.length < 18446744073709551616 := by
    unfold encodedLength
    omega
  rcases base64Decrypt_encoded hsize hmax with ⟨out, hdecrypt, hbytes, -⟩
  rw [length_encoded]
  exact ⟨out, hdecrypt, hbytes⟩

/-- Every non-empty payload on a subscribed topic is handed to the pipe in a JSON
object, from which it can be decoded byte for byte; the serial number is there
for the device's own topic only, and both buffers are large enough. -/
theorem commands_forwarded (htopic : topic ∈ subscribedTopics)
    (hlen : payloadLen.1 = payload.length) (hpos : 0 < payloadLen.1) :
    ∃ text obj base64payload,
      msgReceivedHandler topic (some payload) payloadLen = some (true, some text) ∧
      text = jsonObjectToJsonString obj ∧
      jsonObjectObjectGetEx obj JSON_NODE_MQTT_TOPIC_KEY = some (.string topic) ∧
      jsonObjectObjectGetEx obj JSON_NODE_SN_KEY =
        (if topic = snTopic then some (.string getDeviceSn) else none) ∧
      jsonObjectObjectGetEx obj JSON_NODE_MQTT_PAYLOAD_KEY = some (.string base64payload) ∧
      DecodesTo base64payload payload ∧
      base64payload.length < calcBase64EncryptedSize payload.length ∧
      text.length < calcBase64EncryptedSize payload.length + 1 + topic.length + 256 := by
  have hdecodes : DecodesTo (encoded payload) payload := by
    apply encoded_decodesTo
    have hint := payloadLen.2
    omega
  have hplain := encoded_plain payload
  simp only [subscribedTopics, List.mem_cons, List.not_mem_nil, or_false] at htopic
  rcases htopic with rfl | rfl
  · have hsub : ([] : Text).length < 64 := by decide
    rcases forwardPayload_eq hlen hpos hsub with ⟨hforward, hbase64, hbuffer⟩
    refine ⟨_, commandObject allTopic none (encoded payload), encoded payload,
      (msgReceivedHandler_all _ _).trans hforward, pipeText_eq (by decide) hplain, rfl, ?_, rfl,
      hdecodes, hbase64, hbuffer⟩
    rw [if_neg (by decide)]
    rfl
  · have hsub : (snMember getDeviceSn).length < 64 := by decide
    rcases forwardPayload_eq hlen hpos hsub with ⟨hforward, hbase64, hbuffer⟩
    refine ⟨_, commandObject snTopic (some getDeviceSn) (encoded payload), encoded payload,
      (msgReceivedHandler_sn _ _).trans hforward, pipeText_sn_eq (by decide) (by decide) hplain, rfl,
      ?_, rfl, hdecodes, hbase64, hbuffer⟩
    rw [if_pos rfl]
    rfl

theorem commands_forwarded_two :
    ∃ text obj base64payload,
      msgReceivedHandler snTopic (some [255, 0]) 2 = some (true, some text) ∧
      text = jsonObjectToJsonString obj ∧
      jsonObjectObjectGetEx obj JSON_NODE_SN_KEY = some (.string getDeviceSn) ∧
      jsonObjectObjectGetEx obj JSON_NODE_MQTT_PAYLOAD_KEY = some (.string base64payload) ∧
      DecodesTo base64payload [255, 0] := by
  have hsnTopic : snTopic ∈ subscribedTopics := by decide
  have hlen : (2 : CInt).1 = ([255, 0] : List UInt8).length := by decide
  rcases commands_forwarded hsnTopic hlen (by decide) with
    ⟨text, obj, base64payload, hhandler, htext, -, hsn, hpayload, hdec, -⟩
  rw [if_pos rfl] at hsn
  exact ⟨text, obj, base64payload, hhandler, htext, hsn, hpayload, hdec⟩

end MqttMsgHub
