import NonosSdk.Proof.Mqtt.Packet

/-!
# What `mqtt_msg_publish` builds

`fini_message` writes the remaining length in at most two bytes, which is the
format's up to 16383 (`finiMessage_encode_iff`). In a buffer of at most 16386
bytes, such as the client's, what `mqtt_msg_publish` builds is therefore a
PUBLISH packet (`mqttMsgPublish_eq`), and the functions that read messages read
its fields back, whatever follows it in the buffer (`publish_round_trip`): but
for an empty payload at the end of the buffer, where `mqtt_get_publish_data`
returns `NULL` and `mqtt_get_id` returns 0.
-/

namespace Nonos

open Spec (MqttPublish encodeLength be16)

theorem nextMessageId_ne_zero (id : BitVec 16) : nextMessageId id ≠ 0 := by
  unfold nextMessageId
  split <;> bv_omega

theorem appendString_eq (c : MqttConnection) (message string : List Byte) :
    appendString c message string =
      if c.bufferLength < 5 + message.length + string.length then none
      else some (message ++ (be16 string.length ++ string)) := by
  have hlow : BitVec.ofNat 8 (string.length &&& 0xff) = BitVec.ofNat 8 string.length := by
    rw [show 0xff = 2 ^ 8 - 1 from rfl, Nat.and_two_pow_sub_one_eq_mod]
    exact BitVec.eq_of_toNat_eq (by simp)
  rw [appendString, hlow, Nat.shiftRight_eq_div_pow, mqttMaxFixedHeaderSize, List.append_assoc]
  split_ifs <;> first | rfl | omega

theorem be16_word (id : BitVec 16) : [(id >>> 8).setWidth 8, (id &&& 0xff).setWidth 8] = be16 id.toNat := by
  have hhigh : (id >>> 8).setWidth 8 = BitVec.ofNat 8 (id.toNat / 256) := by
    apply BitVec.eq_of_toNat_eq
    rw [BitVec.toNat_setWidth, BitVec.toNat_ushiftRight, BitVec.toNat_ofNat, Nat.shiftRight_eq_div_pow]
  have hlow : (id &&& 0xff).setWidth 8 = BitVec.ofNat 8 id.toNat := by
    apply BitVec.eq_of_toNat_eq
    rw [BitVec.toNat_setWidth, BitVec.toNat_and, BitVec.toNat_ofNat,
      show (0xff : BitVec 16).toNat = 2 ^ 8 - 1 from rfl, Nat.and_two_pow_sub_one_eq_mod, Nat.mod_mod]
  rw [hhigh, hlow]
  rfl

/-- A fresh identifier, if there is room for it. -/
theorem appendMessageId_zero (c : MqttConnection) (message : List Byte) :
    appendMessageId c message 0 =
      if c.bufferLength < 5 + message.length then (0, message, { c with messageId := nextMessageId c.messageId })
      else (nextMessageId c.messageId, message ++ be16 (nextMessageId c.messageId).toNat,
        { c with messageId := nextMessageId c.messageId }) := by
  rw [appendMessageId, if_pos rfl, if_pos rfl, be16_word, mqttMaxFixedHeaderSize]
  dsimp only
  split_ifs <;> first | rfl | omega

/-- The identifier of a message being acknowledged, if there is room for it. -/
theorem appendMessageId_ne_zero (c : MqttConnection) (message : List Byte) {id : BitVec 16} (h : id ≠ 0) :
    appendMessageId c message id =
      if c.bufferLength < 5 + message.length then (0, message, c) else (id, message ++ be16 id.toNat, c) := by
  rw [appendMessageId, if_neg h, if_neg h, be16_word, mqttMaxFixedHeaderSize]
  split_ifs <;> first | rfl | omega

/-- `fini_message` writes the format's packet exactly up to 16383 bytes after the length. -/
theorem finiMessage_encode_iff {p : MqttPublish} (hdup : p.dup = false) :
    finiMessage p.body mqttMsgTypePublish 0 p.qos.val p.retain.toNat = p.encode ↔ p.body.length < 16384 := by
  have hheader : BitVec.ofNat 8 (((mqttMsgTypePublish &&& 0x0f) <<< 4) ||| ((0 &&& 1) <<< 3) |||
      ((p.qos.val &&& 3) <<< 1) ||| (p.retain.toNat &&& 1)) = p.header := by
    have hall : ∀ (qos : Fin 3) (retain : Bool),
        BitVec.ofNat 8 (((mqttMsgTypePublish &&& 0x0f) <<< 4) ||| ((0 &&& 1) <<< 3) ||| ((qos.val &&& 3) <<< 1) |||
          (retain.toNat &&& 1)) = BitVec.ofNat 8 (48 + false.toNat * 8 + qos.val * 2 + retain.toNat) := by decide
    rw [MqttPublish.header, hdup]
    exact hall p.qos p.retain
  have hor : BitVec.ofNat 8 (0x80 ||| p.body.length % 128) = BitVec.ofNat 8 (128 + p.body.length % 128) := by
    have := Nat.two_pow_add_eq_or_of_lt (Nat.mod_lt p.body.length (show 0 < 2 ^ 7 by decide)) 1
    exact congrArg (BitVec.ofNat 8) this.symm
  rw [finiMessage, MqttPublish.encode, hheader, hor]
  rcases Nat.lt_or_ge p.body.length 128 with h1 | h1
  · rw [if_neg (by omega), encodeLength_small h1]
    exact iff_of_true rfl (by omega)
  · rw [if_pos (by omega), encodeLength_large h1]
    rcases Nat.lt_or_ge p.body.length 16384 with h2 | h2
    · rw [encodeLength_small (show p.body.length / 128 < 128 by omega)]
      exact iff_of_true rfl h2
    · refine iff_of_false (fun he => ?_) (by omega)
      have hlen := congrArg List.length he
      have hpos := length_encodeLength_pos (p.body.length / 128 / 128)
      rw [encodeLength_large (show 128 ≤ p.body.length / 128 by omega)] at hlen
      simp only [List.length_cons, List.length_append] at hlen
      omega

/-- What `mqtt_msg_publish` is asked to publish. -/
def published (c : MqttConnection) (topic data : List Byte) (qos : Fin 3) (retain : Bool) : MqttPublish :=
  ⟨false, qos, retain, topic, if qos.val = 0 then 0 else nextMessageId c.messageId, data⟩

/-- The identifier, where `mqtt_msg_publish` puts one. -/
theorem published_id (c : MqttConnection) (message topic data : List Byte) (qos : Fin 3) (retain : Bool) :
    let r := if qos.val > 0 then appendMessageId c message 0 else (0, message, c)
    let idBytes := (published c topic data qos retain).idBytes
    r.2.2.bufferLength = c.bufferLength ∧
      if c.bufferLength < 3 + message.length + idBytes.length ∧ qos ≠ 0 then qos.val > 0 ∧ r.1 = 0
      else ¬ (qos.val > 0 ∧ r.1 = 0) ∧ r.2.1 = message ++ idBytes := by
  have hid := length_idBytes (published c topic data qos retain)
  have hqos : (published c topic data qos retain).qos = qos := rfl
  rw [hqos] at hid
  dsimp only
  by_cases hq : qos = 0
  · have hq0 : ¬ qos.val > 0 := by rw [hq]; decide
    have hbytes : (published c topic data qos retain).idBytes = [] := if_pos hq
    rw [if_neg hq0, if_neg (fun h => h.2 hq), hbytes, List.append_nil]
    exact ⟨rfl, fun h => hq0 h.1, rfl⟩
  · have hq0 : qos.val > 0 := Nat.pos_of_ne_zero fun h => hq (Fin.ext h)
    have hbytes : (published c topic data qos retain).idBytes = be16 (nextMessageId c.messageId).toNat := by
      rw [MqttPublish.idBytes, hqos, if_neg hq]
      exact congrArg (fun id : BitVec 16 => be16 id.toNat) (if_neg (Nat.ne_of_gt hq0))
    rw [if_neg hq] at hid
    rw [if_pos hq0, appendMessageId_zero, hid]
    by_cases hroom : c.bufferLength < 5 + message.length
    · rw [if_pos hroom, if_pos ⟨by omega, hq⟩]
      exact ⟨rfl, hq0, rfl⟩
    · rw [if_neg hroom, if_neg (by omega), hbytes]
      exact ⟨rfl, fun h => nextMessageId_ne_zero _ h.2, rfl⟩

/-- It builds the packet, if there is a topic and the packet fits. -/
theorem mqttMsgPublish_eq (c : MqttConnection) (hc : c.bufferLength ≤ 16386) (topic data : List Byte) (qos : Fin 3)
    (retain : Bool) :
    (mqttMsgPublish c topic data qos.val retain.toNat).1 =
      if topic = [] ∨ c.bufferLength < 3 + (published c topic data qos retain).body.length then []
      else (published c topic data qos retain).encode := by
  have hlen := length_body (published c topic data qos retain)
  have hfini := finiMessage_encode_iff (p := published c topic data qos retain) rfl
  have htopic : (published c topic data qos retain).topic = topic := rfl
  have hdata : (published c topic data qos retain).payload = data := rfl
  rw [htopic, hdata] at hlen
  unfold mqttMsgPublish
  by_cases ht : topic = []
  · rw [if_pos ht, if_pos (Or.inl ht)]
  rw [if_neg ht, appendString_eq, List.length_nil, List.nil_append]
  by_cases hs : c.bufferLength < 5 + 0 + topic.length
  · rw [if_pos hs, if_pos (Or.inr (by omega))]
  rw [if_neg hs]
  obtain ⟨hbl, hid⟩ := published_id c (be16 topic.length ++ topic) topic data qos retain
  dsimp only
  generalize (if qos.val > 0 then appendMessageId c (be16 topic.length ++ topic) 0
    else (0, be16 topic.length ++ topic, c)) = r at hbl hid
  obtain ⟨id, message, c'⟩ := r
  dsimp only at hbl hid ⊢
  rw [List.length_append, length_be16] at hid
  split at hid
  · rename_i hroom
    rw [if_pos hid, if_pos (Or.inr (by omega))]
  · have hbody : message ++ data = (published c topic data qos retain).body := by
      rw [hid.2, MqttPublish.body, htopic, hdata]
      simp only [List.append_assoc]
    have hbl' : mqttMaxFixedHeaderSize + message.length + data.length = 3 + (message ++ data).length := by
      rw [List.length_append, mqttMaxFixedHeaderSize, Nat.add_assoc]
    rw [if_neg hid.1, hbl', hbl, hbody]
    by_cases hfit : c.bufferLength < 3 + (published c topic data qos retain).body.length
    · rw [if_pos hfit, if_pos (Or.inr hfit)]
    · rw [if_neg hfit, if_neg (not_or.mpr ⟨ht, hfit⟩)]
      exact hfini.mpr (by omega)

/-- A message is refused exactly if it has no topic or does not fit, and otherwise read back field by field from
any buffer that starts with it. -/
theorem publish_round_trip (c : MqttConnection) (hc : c.bufferLength ≤ 16386) (topic data : List Byte) (qos : Fin 3)
    (retain : Bool) :
    let m := (mqttMsgPublish c topic data qos.val retain.toNat).1
    (m = [] ↔ topic = [] ∨ c.bufferLength < 3 + (published c topic data qos retain).body.length) ∧
      (m ≠ [] → ∀ (b : Mem Byte) (L : Nat), b.Holds 0 m → m.length ≤ L →
        (mqttGetType b = mqttMsgTypePublish ∧ mqttGetDup b = 0 ∧ mqttGetQos b = qos.val ∧
          mqttGetRetain b = retain.toNat ∧ mqttGetTotalLength b L = m.length) ∧
        (∃ i, mqttGetPublishTopic b L = (some i, topic.length) ∧ b.cells i topic.length = topic) ∧
        (∃ i, mqttGetPublishData b L = (if data = [] ∧ L = m.length then none else some i, data.length) ∧
          b.cells i data.length = data) ∧
        mqttGetId b L = if qos = 0 ∨ data = [] ∧ L = m.length then 0 else nextMessageId c.messageId) := by
  intro m
  have hm : m = _ := mqttMsgPublish_eq c hc topic data qos retain
  have hbody := length_body (published c topic data qos retain)
  have htopic : (published c topic data qos retain).topic = topic := rfl
  by_cases hfail : topic = [] ∨ c.bufferLength < 3 + (published c topic data qos retain).body.length
  · rw [if_pos hfail] at hm
    exact ⟨iff_of_true hm hfail, fun hne => absurd hm hne⟩
  · rw [if_neg hfail] at hm
    have hne : m ≠ [] := by rw [hm]; exact List.cons_ne_nil _ _
    obtain ⟨ht, hfit⟩ := not_or.mp hfail
    refine ⟨iff_of_false hne hfail, fun _ b L hb hL => ?_⟩
    rw [hm] at hb hL ⊢
    have ht16 : (published c topic data qos retain).topic.length < 65536 := by omega
    have hends : L = payloadAt (published c topic data qos retain) ↔
        data = [] ∧ L = (published c topic data qos retain).encode.length := by
      have hlen := length_encode_eq (published c topic data qos retain)
      rw [show (published c topic data qos retain).payload = data from rfl] at hlen
      rw [← List.length_eq_zero_iff]
      omega
    have hfields := header_fields (published c topic data qos retain)
    rw [← (packetAt hb).header] at hfields
    obtain ⟨hdata, hcells⟩ := mqttGetPublishData_encode hb hL ht ht16
    obtain ⟨hget, htop⟩ := mqttGetPublishTopic_encode hb hL ht ht16
    simp only [hends] at hdata
    refine ⟨⟨hfields.1, hfields.2.1, hfields.2.2.1, hfields.2.2.2, mqttGetTotalLength_encode hb hL⟩,
      ⟨_, hget, htop⟩, ⟨_, hdata, hcells⟩, ?_⟩
    have hqos : (published c topic data qos retain).qos = qos := rfl
    have hid : (published c topic data qos retain).id = if qos.val = 0 then 0 else nextMessageId c.messageId := rfl
    rw [mqttGetId_encode hb hL ht ht16]
    simp only [hends, hqos, hid]
    by_cases hq : qos = 0
    · rw [if_pos (Or.inl hq), if_pos (Or.inl hq)]
    · have hq0 : ¬ qos.val = 0 := fun h => hq (Fin.ext h)
      rw [if_neg hq0]

/-- A reading, published at QoS 1 by a client with the buffer it has. -/
theorem publish_round_trip_reading : (1024 : Nat) ≤ 16386 ∧
    let m := (mqttMsgPublish ⟨6, 1024⟩ [0x74, 0x2F, 0x31] [0x32, 0x35] 1 0).1
    (m = [] ↔ ([0x74, 0x2F, 0x31] : List Byte) = [] ∨
        1024 < 3 + (published ⟨6, 1024⟩ [0x74, 0x2F, 0x31] [0x32, 0x35] 1 false).body.length) ∧
      (m ≠ [] → ∀ (b : Mem Byte) (L : Nat), b.Holds 0 m → m.length ≤ L →
        (mqttGetType b = mqttMsgTypePublish ∧ mqttGetDup b = 0 ∧ mqttGetQos b = 1 ∧
          mqttGetRetain b = 0 ∧ mqttGetTotalLength b L = m.length) ∧
        (∃ i, mqttGetPublishTopic b L = (some i, 3) ∧ b.cells i 3 = [0x74, 0x2F, 0x31]) ∧
        (∃ i, mqttGetPublishData b L = (if ([0x32, 0x35] : List Byte) = [] ∧ L = m.length then none else some i, 2) ∧
          b.cells i 2 = [0x32, 0x35]) ∧
        mqttGetId b L = if (1 : Fin 3) = 0 ∨ ([0x32, 0x35] : List Byte) = [] ∧ L = m.length then 0 else 7) :=
  ⟨by decide, publish_round_trip ⟨6, 1024⟩ (by decide) [0x74, 0x2F, 0x31] [0x32, 0x35] 1 false⟩

example : (mqttMsgPublish ⟨6, 1024⟩ [0x74, 0x2F, 0x31] [0x32, 0x35] 1 0).1 =
    [0x32, 9, 0, 3, 0x74, 0x2F, 0x31, 0, 7, 0x32, 0x35] := by decide

end Nonos
