import NonosSdk.Framework.Mem

/-!
# MQTT messages (`esp_mqtt_proj/mqtt/mqtt_msg.c`)

A message is built in the connection's buffer from the third byte on, and
`fini_message` puts the fixed header before it: `message` is the bytes after
those three, so that `message.length` of the source is three more. A message is
given by its bytes, and the one of length 0 that `fail_message` returns by
`[]`. The functions that read a message take the buffer as the bytes from its
start. Strings are the bytes before the terminating zero.

Left out: `mqtt_msg_connect` and its strings; in the loops over the remaining
length the shifts by 32 and more, undefined in C, that a length of six bytes
would reach.
-/

namespace Nonos

/-- `mqtt_connection_t`. -/
structure MqttConnection where
  messageId : BitVec 16
  bufferLength : Nat

/-- `MQTT_MAX_FIXED_HEADER_SIZE` -/
def mqttMaxFixedHeaderSize : Nat := 3

/-- `enum mqtt_message_type`, the types used here. -/
def mqttMsgTypeConnect : Nat := 1
def mqttMsgTypeConnack : Nat := 2
def mqttMsgTypePublish : Nat := 3
def mqttMsgTypePuback : Nat := 4
def mqttMsgTypePubrec : Nat := 5
def mqttMsgTypePubrel : Nat := 6
def mqttMsgTypePubcomp : Nat := 7
def mqttMsgTypeSubscribe : Nat := 8
def mqttMsgTypeSuback : Nat := 9
def mqttMsgTypeUnsubscribe : Nat := 10
def mqttMsgTypeUnsuback : Nat := 11
def mqttMsgTypePingreq : Nat := 12
def mqttMsgTypePingresp : Nat := 13

/-! ## Building messages -/

/-- `append_string`: `none` for -1. -/
def appendString (c : MqttConnection) (message string : List Byte) : Option (List Byte) :=
  if mqttMaxFixedHeaderSize + message.length + string.length + 2 > c.bufferLength then none
  else some (message ++ [BitVec.ofNat 8 (string.length >>> 8), BitVec.ofNat 8 (string.length &&& 0xff)] ++ string)

/-- The `while` of `append_message_id`, which a second turn ends. -/
def nextMessageId (id : BitVec 16) : BitVec 16 := if id + 1 = 0 then id + 2 else id + 1

/-- `append_message_id`: the identifier it returns, 0 if there is no room. -/
def appendMessageId (c : MqttConnection) (message : List Byte) (messageId : BitVec 16) :
    BitVec 16 × List Byte × MqttConnection :=
  let c := if messageId = 0 then { c with messageId := nextMessageId c.messageId } else c
  let messageId := if messageId = 0 then c.messageId else messageId
  if mqttMaxFixedHeaderSize + message.length + 2 > c.bufferLength then (0, message, c)
  else (messageId, message ++ [(messageId >>> 8).setWidth 8, (messageId &&& 0xff).setWidth 8], c)

/-- `fini_message`. -/
def finiMessage (message : List Byte) (type dup qos retain : Nat) : List Byte :=
  let remainingLength := message.length
  let header := BitVec.ofNat 8
    (((type &&& 0x0f) <<< 4) ||| ((dup &&& 1) <<< 3) ||| ((qos &&& 3) <<< 1) ||| (retain &&& 1))
  if remainingLength > 127 then
    header :: BitVec.ofNat 8 (0x80 ||| (remainingLength % 128)) :: BitVec.ofNat 8 (remainingLength / 128) :: message
  else header :: BitVec.ofNat 8 remainingLength :: message

/-- `mqtt_msg_publish`: the message, and what it leaves in `*message_id` if it gets
that far. -/
def mqttMsgPublish (c : MqttConnection) (topic data : List Byte) (qos retain : Nat) :
    List Byte × Option (BitVec 16) × MqttConnection :=
  if topic = [] then ([], none, c)
  else
    match appendString c [] topic with
    | none => ([], none, c)
    | some message =>
      let (messageId, message, c) := if qos > 0 then appendMessageId c message 0 else (0, message, c)
      if qos > 0 ∧ messageId = 0 then ([], some messageId, c)
      else if mqttMaxFixedHeaderSize + message.length + data.length > c.bufferLength then ([], some messageId, c)
      else (finiMessage (message ++ data) mqttMsgTypePublish 0 qos retain, some messageId, c)

/-- The messages that are a type, a QoS and a packet identifier. -/
def mqttMsgAck (type qos : Nat) (c : MqttConnection) (messageId : BitVec 16) : List Byte × MqttConnection :=
  let (messageId, message, c) := appendMessageId c [] messageId
  if messageId = 0 then ([], c) else (finiMessage message type 0 qos 0, c)

/-- `mqtt_msg_puback`. -/
def mqttMsgPuback : MqttConnection → BitVec 16 → List Byte × MqttConnection := mqttMsgAck mqttMsgTypePuback 0

/-- `mqtt_msg_pubrec`. -/
def mqttMsgPubrec : MqttConnection → BitVec 16 → List Byte × MqttConnection := mqttMsgAck mqttMsgTypePubrec 0

/-- `mqtt_msg_pubrel`. -/
def mqttMsgPubrel : MqttConnection → BitVec 16 → List Byte × MqttConnection := mqttMsgAck mqttMsgTypePubrel 1

/-- `mqtt_msg_pubcomp`. -/
def mqttMsgPubcomp : MqttConnection → BitVec 16 → List Byte × MqttConnection := mqttMsgAck mqttMsgTypePubcomp 0

/-- `mqtt_msg_subscribe`. -/
def mqttMsgSubscribe (c : MqttConnection) (topic : List Byte) (qos : Nat) :
    List Byte × Option (BitVec 16) × MqttConnection :=
  if topic = [] then ([], none, c)
  else
    let (messageId, message, c) := appendMessageId c [] 0
    if messageId = 0 then ([], some messageId, c)
    else
      match appendString c message topic with
      | none => ([], some messageId, c)
      | some message =>
        if mqttMaxFixedHeaderSize + message.length + 1 > c.bufferLength then ([], some messageId, c)
        else (finiMessage (message ++ [BitVec.ofNat 8 qos]) mqttMsgTypeSubscribe 0 1 0, some messageId, c)

/-- `mqtt_msg_unsubscribe`. -/
def mqttMsgUnsubscribe (c : MqttConnection) (topic : List Byte) : List Byte × Option (BitVec 16) × MqttConnection :=
  if topic = [] then ([], none, c)
  else
    let (messageId, message, c) := appendMessageId c [] 0
    if messageId = 0 then ([], some messageId, c)
    else
      match appendString c message topic with
      | none => ([], some messageId, c)
      | some message => (finiMessage message mqttMsgTypeUnsubscribe 0 1 0, some messageId, c)

/-- `mqtt_msg_pingreq`. -/
def mqttMsgPingreq : List Byte := finiMessage [] mqttMsgTypePingreq 0 0 0

/-- `mqtt_msg_pingresp`. -/
def mqttMsgPingresp : List Byte := finiMessage [] mqttMsgTypePingresp 0 0 0

/-! ## Reading messages -/

section

variable (buffer : Mem Byte)

/-- `mqtt_get_type`. -/
def mqttGetType : Nat := ((buffer 0 &&& 0xf0) >>> 4).toNat

/-- `mqtt_get_dup`. -/
def mqttGetDup : Nat := ((buffer 0 &&& 0x08) >>> 3).toNat

/-- `mqtt_get_qos`. -/
def mqttGetQos : Nat := ((buffer 0 &&& 0x06) >>> 1).toNat

/-- `mqtt_get_retain`. -/
def mqttGetRetain : Nat := (buffer 0 &&& 0x01).toNat

/-- The loop over the remaining length, with `n` bytes from `i` on: `i` and `totlen`
after it. -/
def remainingLoop : Nat → Nat → Nat → Nat × Nat
  | 0, i, totlen => (i, totlen)
  | n + 1, i, totlen =>
    let totlen := totlen + (buffer i &&& 0x7f).toNat <<< (7 * (i - 1))
    if buffer i &&& 0x80 = 0 then (i + 1, totlen) else remainingLoop n (i + 1) totlen

/-- `mqtt_get_total_length`. -/
def mqttGetTotalLength (length : Nat) : Nat :=
  let (i, totlen) := remainingLoop buffer (length - 1) 1 0
  totlen + i

/-- Two bytes of the buffer, the high one first. -/
def bufferWord (i : Nat) : Nat := (buffer i).toNat <<< 8 ||| (buffer (i + 1)).toNat

/-- `mqtt_get_publish_topic`: where the topic is (`none` for `NULL`), and `*length` after it. -/
def mqttGetPublishTopic (length : Nat) : Option Nat × Nat :=
  let (i, _) := remainingLoop buffer (length - 1) 1 0
  if i + 2 ≥ length then (none, length)
  else
    let topiclen := bufferWord buffer i
    let i := i + 2
    if i + topiclen > length then (none, length) else (some i, topiclen)

/-- `mqtt_get_publish_data`: where the data is (`none` for `NULL`), and `*length` after it. -/
def mqttGetPublishData (blength : Nat) : Option Nat × Nat :=
  let (i, totlen) := remainingLoop buffer (blength - 1) 1 0
  let totlen := totlen + i
  if i + 2 ≥ blength then (none, 0)
  else
    let topiclen := bufferWord buffer i
    let i := i + 2
    if i + topiclen ≥ blength then (none, 0)
    else
      let i := i + topiclen
      if mqttGetQos buffer > 0 ∧ i + 2 ≥ blength then (none, 0)
      else
        let i := if mqttGetQos buffer > 0 then i + 2 else i
        if totlen < i then (none, 0)
        else if totlen ≤ blength then (some i, totlen - i) else (some i, blength - i)

/-- `mqtt_get_id`. -/
def mqttGetId (length : Nat) : BitVec 16 :=
  if length < 1 then 0
  else
    let type := mqttGetType buffer
    if type = mqttMsgTypePublish then
      let (i, _) := remainingLoop buffer (length - 1) 1 0
      if i + 2 ≥ length then 0
      else
        let topiclen := bufferWord buffer i
        let i := i + 2
        if i + topiclen ≥ length then 0
        else
          let i := i + topiclen
          if mqttGetQos buffer > 0 then if i + 2 ≥ length then 0 else BitVec.ofNat 16 (bufferWord buffer i)
          else 0
    else if type ∈ [mqttMsgTypePuback, mqttMsgTypePubrec, mqttMsgTypePubrel, mqttMsgTypePubcomp, mqttMsgTypeSuback,
        mqttMsgTypeUnsuback, mqttMsgTypeSubscribe] then
      if length ≥ 4 ∧ buffer 1 &&& 0x80 = 0 then BitVec.ofNat 16 (bufferWord buffer 2) else 0
    else 0

end

end Nonos
