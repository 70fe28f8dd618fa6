import Mathlib.Data.List.DropRight
import Mathlib.Data.List.Infix
import MqttMsgHub.MsgRevHandler

/-! # The topics that are taken for commands

A command is published on `hub/cmd/ALL` or on `hub/cmd/` and the serial number
of the device. `msg_received_handler` does not compare the topic with these: it
looks for `hub/cmd` anywhere in the topic, and compares what stands behind the
last `/` with the two names. In between there can be more levels, in front of it
other characters, and a last level of more than 63 characters does not fit into
the buffer it is copied to.

* `msgReceivedHandler_addressed`, `msgReceivedHandler_ignored` — what the handler
  does with a topic, by its last level;
* `accepts_exactly_iff` — on which topics this is right.
-/

namespace MqttMsgHub

/-! ## Command topics -/

/-- A name for this device, in any mixture of cases: its serial number, or the
name for all devices. -/
def NamesDevice (tail : Text) : Prop :=
  tail.map Char.toLower = getDeviceSn.map Char.toLower ∨
    tail.map Char.toLower = CMD_ALL_SUB_TOPIC.map Char.toLower
deriving Decidable

/-- The command topic, and one more level that names this device. -/
def IsCommandTopic (topic : Text) : Prop :=
  ∃ tail, topic = cmdTopic ++ '/' :: tail ∧ '/' ∉ tail ∧ NamesDevice tail

/-- The last level of a topic. -/
def lastLevel (topic : Text) : Text := topic.rtakeWhile (· != '/')

/-- The handler returns `TRUE` on a command topic, and on any other topic
`FALSE`, without writing to the pipe. -/
def AcceptsExactly (topic : Text) (payload : Option (List UInt8)) (payloadLen : CInt) : Prop :=
  (IsCommandTopic topic ∧ ∃ out, msgReceivedHandler topic payload payloadLen = some (true, out)) ∨
    (¬ IsCommandTopic topic ∧ msgReceivedHandler topic payload payloadLen = some (false, none))

variable {topic tail s t : Text} {payload : Option (List UInt8)} {payloadLen : CInt}

/-! ## The two searches -/

theorem strstr_isSome_iff (s t : Text) : (strstr s t).isSome ↔ t <:+: s := by
  induction s with
  | nil =>
    unfold strstr
    split
    · rename_i h
      rw [List.isPrefixOf_iff_prefix] at h
      simp [h.isInfix]
    · rename_i h
      rw [List.isPrefixOf_iff_prefix, List.prefix_nil] at h
      simp [h]
  | cons c s ih =>
    unfold strstr
    rw [List.infix_cons_iff, ← ih]
    split
    · rename_i h
      rw [List.isPrefixOf_iff_prefix] at h
      simp [h]
    · rename_i h
      rw [List.isPrefixOf_iff_prefix] at h
      simp [h]

theorem slash_notMem_lastLevel (topic : Text) : '/' ∉ lastLevel topic := by
  intro hmem
  have hne := List.mem_rtakeWhile_imp hmem
  simp at hne

theorem lastLevel_append (h : '/' ∉ t) (s : Text) : lastLevel (s ++ '/' :: t) = t := by
  have hreverse : (s ++ '/' :: t).reverse = t.reverse ++ '/' :: s.reverse := by simp
  have hall : ∀ x ∈ t.reverse, (x != '/') = true := by
    intro x hx
    rw [bne_iff_ne]
    rintro rfl
    exact h (List.mem_reverse.mp hx)
  rw [lastLevel, List.rtakeWhile, hreverse, List.takeWhile_append_of_pos hall]
  simp

/-- The last `/` is in front of the last level. -/
theorem exists_append_lastLevel (h : '/' ∈ topic) : ∃ init, topic = init ++ '/' :: lastLevel topic := by
  have hsplit : topic.rdropWhile (· != '/') ++ lastLevel topic = topic :=
    List.rdropWhile_append_rtakeWhile
  have hne : topic.rdropWhile (· != '/') ≠ [] := by
    rw [Ne, List.rdropWhile_eq_nil_iff]
    intro hall
    simpa using hall '/' h
  have hlast := List.rdropWhile_last_not (· != '/') topic hne
  have hslash : (topic.rdropWhile (· != '/')).getLast hne = '/' := by simpa using hlast
  refine ⟨(topic.rdropWhile (· != '/')).dropLast, ?_⟩
  conv_lhs => rw [← hsplit, ← List.dropLast_append_getLast hne, hslash]
  simp

theorem strrchr_eq (h : '/' ∈ topic) : strrchr '/' topic = some ('/' :: lastLevel topic) := by
  rcases exists_append_lastLevel h with ⟨init, hinit⟩
  have hfound := strrchr_append (slash_notMem_lastLevel topic) init
  rwa [← hinit] at hfound

/-! ## What the handler does -/

/-- The buffers of the second half are large enough for a payload of the given
length, and the handler returns `TRUE`. -/
theorem forwardPayload_true (hpayload : ∀ bytes, payload = some bytes → payloadLen.1 = bytes.length)
    (hsub : s.length < 64) : ∃ out, forwardPayload topic s payload payloadLen = some (true, out) := by
  cases payload with
  | none => exact ⟨none, rfl⟩
  | some bytes =>
    by_cases hpos : 0 < payloadLen.1
    · exact ⟨_, (forwardPayload_eq (hpayload bytes rfl) hpos hsub).1⟩
    · exact ⟨none, if_neg hpos⟩

/-- The member for a serial number in any mixture of cases fits into its buffer. -/
theorem length_snMember_lt (h : tail.map Char.toLower = getDeviceSn.map Char.toLower) :
    (snMember (stringUpperCase tail)).length < 64 := by
  have hlen : tail.length = getDeviceSn.length := by
    rw [← List.length_map (f := Char.toLower), h, List.length_map]
  have hconst : (snMember getDeviceSn).length < 64 := by decide
  simp only [snMember, stringUpperCase, List.length_append, List.length_map, hlen] at hconst ⊢
  exact hconst

theorem stringEqualsIgnoreCase_iff (s t : Text) :
    stringEqualsIgnoreCase s t = true ↔ s.map Char.toLower = t.map Char.toLower := beq_iff_eq

section Handler

variable (hcmd : cmdTopic <:+: topic)

include hcmd

theorem msgReceivedHandler_eq :
    msgReceivedHandler topic payload payloadLen =
      (intoBuffer 64 (lastLevel topic)).bind fun topicTail =>
        if stringEqualsIgnoreCase topicTail getDeviceSn then
          (intoBuffer 64 (snMember (stringUpperCase topicTail))).bind fun deviceSNSubJson =>
            forwardPayload topic deviceSNSubJson payload payloadLen
        else if stringEqualsIgnoreCase topicTail CMD_ALL_SUB_TOPIC then
          forwardPayload topic [] payload payloadLen
        else some (false, none) := by
  rcases Option.isSome_iff_exists.mp ((strstr_isSome_iff topic cmdTopic).mpr hcmd) with ⟨rest, hstr⟩
  have hslash : '/' ∈ topic := hcmd.subset (by decide)
  simp only [msgReceivedHandler, hstr, strrchr_eq hslash, List.drop_one, List.tail_cons]
  rfl

/-- A last level that names this device. -/
theorem msgReceivedHandler_addressed (hfits : (lastLevel topic).length ≤ 63)
    (hname : NamesDevice (lastLevel topic))
    (hpayload : ∀ bytes, payload = some bytes → payloadLen.1 = bytes.length) :
    ∃ out, msgReceivedHandler topic payload payloadLen = some (true, out) := by
  have hcopy : intoBuffer 64 (lastLevel topic) = some (lastLevel topic) :=
    if_pos (Nat.lt_succ_of_le hfits)
  rw [msgReceivedHandler_eq hcmd, hcopy, Option.bind_some]
  by_cases hsn : (lastLevel topic).map Char.toLower = getDeviceSn.map Char.toLower
  · have hmember := length_snMember_lt hsn
    rw [if_pos ((stringEqualsIgnoreCase_iff _ _).mpr hsn), intoBuffer, if_pos hmember,
      Option.bind_some]
    exact forwardPayload_true hpayload hmember
  · have hall := hname.resolve_left hsn
    rw [if_neg (mt (stringEqualsIgnoreCase_iff _ _).mp hsn),
      if_pos ((stringEqualsIgnoreCase_iff _ _).mpr hall)]
    exact forwardPayload_true hpayload (by decide)

/-- A last level that does not. -/
theorem msgReceivedHandler_ignored (hfits : (lastLevel topic).length ≤ 63)
    (hname : ¬ NamesDevice (lastLevel topic)) :
    msgReceivedHandler topic payload payloadLen = some (false, none) := by
  have hcopy : intoBuffer 64 (lastLevel topic) = some (lastLevel topic) :=
    if_pos (Nat.lt_succ_of_le hfits)
  rw [NamesDevice, not_or] at hname
  rw [msgReceivedHandler_eq hcmd, hcopy, Option.bind_some,
    if_neg (mt (stringEqualsIgnoreCase_iff _ _).mp hname.1),
    if_neg (mt (stringEqualsIgnoreCase_iff _ _).mp hname.2)]

/-- A last level that does not fit into `topicTail`. -/
theorem msgReceivedHandler_overflows (hlong : ¬ (lastLevel topic).length ≤ 63) :
    msgReceivedHandler topic payload payloadLen = none := by
  have hcopy : intoBuffer 64 (lastLevel topic) = none := if_neg (by omega)
  rw [msgReceivedHandler_eq hcmd, hcopy, Option.bind_none]

end Handler

theorem IsCommandTopic.isInfix (h : IsCommandTopic topic) : cmdTopic <:+: topic := by
  rcases h with ⟨tail, rfl, -, -⟩
  exact (List.prefix_append _ _).isInfix

theorem isCommandTopic_iff :
    IsCommandTopic topic ↔
      topic = cmdTopic ++ '/' :: lastLevel topic ∧ NamesDevice (lastLevel topic) := by
  constructor
  · rintro ⟨tail, htopic, hslash, hname⟩
    have htail : lastLevel topic = tail := by rw [htopic, lastLevel_append hslash]
    rw [htail]
    exact ⟨htopic, hname⟩
  · rintro ⟨htopic, hname⟩
    exact ⟨lastLevel topic, htopic, slash_notMem_lastLevel topic, hname⟩

/-- The handler tells command topics from others, except where `hub/cmd` stands in
a topic whose last level is too long, or names this device and does not follow
directly behind a `hub/cmd` at the start. -/
theorem accepts_exactly_iff
    (hpayload : ∀ bytes, payload = some bytes → payloadLen.1 = bytes.length) :
    AcceptsExactly topic payload payloadLen ↔
      (cmdTopic <:+: topic → (lastLevel topic).length ≤ 63 ∧
        (NamesDevice (lastLevel topic) → topic = cmdTopic ++ '/' :: lastLevel topic)) := by
  unfold AcceptsExactly
  by_cases hcmd : cmdTopic <:+: topic
  · simp only [hcmd, true_imp_iff]
    by_cases hfits : (lastLevel topic).length ≤ 63
    · by_cases hname : NamesDevice (lastLevel topic)
      · rcases msgReceivedHandler_addressed hcmd hfits hname hpayload with ⟨out, hout⟩
        simp [hout, isCommandTopic_iff, hfits, hname]
      · have hout : msgReceivedHandler topic payload payloadLen = some (false, none) :=
          msgReceivedHandler_ignored hcmd hfits hname
        simp [hout, isCommandTopic_iff, hfits, hname]
    · have hout : msgReceivedHandler topic payload payloadLen = none :=
        msgReceivedHandler_overflows hcmd hfits
      simp [hout, hfits]
  · have hout : msgReceivedHandler topic payload payloadLen = some (false, none) := by
      rw [← strstr_isSome_iff, Option.not_isSome_iff_eq_none] at hcmd
      simp only [msgReceivedHandler, hcmd]
    have hno : ¬ IsCommandTopic topic := fun h => hcmd h.isInfix
    simp [hout, hno, hcmd]

/-- A command for all devices, in lower case. -/
theorem accepts_exactly_all :
    AcceptsExactly (cmdTopic ++ ['/', 'a', 'l', 'l']) (some [65]) 1 ↔
      (cmdTopic <:+: cmdTopic ++ ['/', 'a', 'l', 'l'] →
        (lastLevel (cmdTopic ++ ['/', 'a', 'l', 'l'])).length ≤ 63 ∧
        (NamesDevice (lastLevel (cmdTopic ++ ['/', 'a', 'l', 'l'])) →
          cmdTopic ++ ['/', 'a', 'l', 'l'] =
            cmdTopic ++ '/' :: lastLevel (cmdTopic ++ ['/', 'a', 'l', 'l']))) :=
  accepts_exactly_iff (by rintro bytes ⟨⟩; rfl)

/-- `xhub/cmd/ALL` is no command topic, and what is published there is forwarded
like a command. -/
theorem other_topic_accepted :
    ¬ IsCommandTopic ('x' :: allTopic) ∧
      (∃ text, msgReceivedHandler ('x' :: allTopic) (some [65]) 1 = some (true, some text)) ∧
      ¬ AcceptsExactly ('x' :: allTopic) (some [65]) 1 := by
  have hno : ¬ IsCommandTopic ('x' :: allTopic) := by
    rintro ⟨tail, htopic, -, -⟩
    have hprefix : cmdTopic <+: 'x' :: allTopic := by
      rw [htopic]
      exact List.prefix_append _ _
    exact absurd hprefix (by decide)
  have hout : msgReceivedHandler ('x' :: allTopic) (some [65]) 1 =
      some (true, some (pipeText ('x' :: allTopic) [] ['Q', 'Q', '=', '='])) := by
    decide
  refine ⟨hno, ⟨_, hout⟩, ?_⟩
  rintro (⟨hyes, -⟩ | ⟨-, hfalse⟩)
  · exact hno hyes
  · rw [hout] at hfalse
    cases hfalse

end MqttMsgHub
