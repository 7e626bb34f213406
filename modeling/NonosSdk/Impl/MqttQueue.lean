import NonosSdk.Framework.Mem

/-!
# The message queue of the MQTT client (`esp_mqtt_proj/mqtt`: `ringbuf.c`, `proto.c`, `queue.c`)

Outgoing MQTT messages wait in a byte ring, each as a frame: `0x7E`, the
message with `0x7D`, `0x7E` and `0x7F` escaped, `0x7F`. Pointers into the ring
are addresses in the memory its storage is in. A parser's output buffer is
given by the first `dataLen` bytes of it, which is all its users read.
`PROTO_Init` leaves `isBegin` as it finds it on the stack; it is an argument
here.

Left out: `PROTO_Add` and `PROTO_Parse`, which nothing calls, and the parser's
callback, which is `NULL` for every parser in use.
-/

namespace Nonos

/-- `RINGBUF`. -/
structure MqttRingbuf where
  mem : Mem Byte
  pO : Nat
  pR : Nat
  pW : Nat
  fillCnt : Nat
  size : Nat

/-- `RINGBUF_Init`. -/
def ringbufInit (mem : Mem Byte) (buf size : Nat) : Option MqttRingbuf :=
  if size < 2 then none
  else some { mem, pO := buf, pR := buf, pW := buf, fillCnt := 0, size }

/-- `RINGBUF_Put`: `none` for -1. -/
def ringbufPut (r : MqttRingbuf) (c : Byte) : Option MqttRingbuf :=
  if r.fillCnt ≥ r.size then none
  else
    let pW := r.pW + 1
    some { r with fillCnt := r.fillCnt + 1, mem := Function.update r.mem r.pW c,
                  pW := if pW ≥ r.pO + r.size then r.pO else pW }

/-- `RINGBUF_Get`: the character, or `none` for -1. -/
def ringbufGet (r : MqttRingbuf) : Option (Byte × MqttRingbuf) :=
  if r.fillCnt ≤ 0 then none
  else
    let pR := r.pR + 1
    some (r.mem r.pR, { r with fillCnt := r.fillCnt - 1,
                               pR := if pR ≥ r.pO + r.size then r.pO else pR })

/-- `PROTO_PARSER`, with the `dataLen` bytes in its buffer. -/
structure ProtoParser where
  data : List Byte
  bufSize : Nat
  isEsc : Bool
  isBegin : Byte

/-- `PROTO_Init`, on a parser whose `isBegin` is `isBegin`. -/
def protoInit (isBegin : Byte) (bufSize : Nat) : ProtoParser :=
  { data := [], bufSize, isEsc := false, isBegin }

/-- `PROTO_ParseByte`, and whether it returns 0. -/
def protoParseByte (p : ProtoParser) (value : Byte) : Bool × ProtoParser :=
  if value = 0x7D then (false, { p with isEsc := true })
  else if value = 0x7E then (false, { p with data := [], isEsc := false, isBegin := 1 })
  else if value = 0x7F then (true, { p with isBegin := 0 })
  else if p.isBegin = 0 then (false, p)
  else
    let byte := if p.isEsc then value ^^^ 0x20 else value
    (false, { p with isEsc := false,
                     data := if p.data.length < p.bufSize then p.data ++ [byte] else p.data })

/-- The loop of `PROTO_ParseRb`, for that many iterations at most. -/
def protoParseLoop : Nat → MqttRingbuf → ProtoParser → Option (List Byte) × MqttRingbuf
  | 0, rb, _ => (none, rb)
  | n + 1, rb, p =>
    match ringbufGet rb with
    | none => (none, rb)
    | some (c, rb) =>
      let (done, p) := protoParseByte p c
      if done then (some p.data, rb) else protoParseLoop n rb p

/-- `PROTO_ParseRb`: the bytes it leaves in `bufOut`, or `none` for -1. Every
iteration takes a byte, so the last one possible finds the ring empty. -/
def protoParseRb (rb : MqttRingbuf) (isBegin : Byte) (maxBufLen : Nat) : Option (List Byte) × MqttRingbuf :=
  protoParseLoop (rb.fillCnt + 1) rb (protoInit isBegin maxBufLen)

/-- The characters that `PROTO_AddRb` puts for one of the packet. -/
def protoEscape (c : Byte) : List Byte :=
  if c = 0x7D ∨ c = 0x7E ∨ c = 0x7F then [0x7D, c ^^^ 0x20] else [c]

/-- Calls of `RINGBUF_Put` up to the first that fails, and whether none does. -/
def ringbufPuts : MqttRingbuf → List Byte → Bool × MqttRingbuf
  | rb, [] => (true, rb)
  | rb, c :: cs =>
    match ringbufPut rb c with
    | none => (false, rb)
    | some rb => ringbufPuts rb cs

/-- The loop of `PROTO_AddRb`, with `i` counting what it has put. -/
def protoAddLoop : MqttRingbuf → BitVec 16 → List Byte → Option (BitVec 16) × MqttRingbuf
  | rb, i, [] => (some i, rb)
  | rb, i, c :: packet =>
    match ringbufPuts rb (protoEscape c) with
    | (false, rb) => (none, rb)
    | (true, rb) => protoAddLoop rb (i + BitVec.ofNat 16 (protoEscape c).length) packet

/-- `PROTO_AddRb`: what it returns, an `I16`. -/
def protoAddRb (rb : MqttRingbuf) (packet : List Byte) : Int × MqttRingbuf :=
  match ringbufPut rb 0x7E with
  | none => (-1, rb)
  | some rb =>
    match protoAddLoop rb 2 packet with
    | (none, rb) => (-1, rb)
    | (some i, rb) =>
      match ringbufPut rb 0x7F with
      | none => (-1, rb)
      | some rb => (i.toInt, rb)

/-- `QUEUE_Init`. -/
def queueInit (mem : Mem Byte) (buf bufferSize : Nat) : Option MqttRingbuf := ringbufInit mem buf bufferSize

/-- `QUEUE_Puts`. -/
def queuePuts (queue : MqttRingbuf) (buffer : List Byte) : Int × MqttRingbuf := protoAddRb queue buffer

/-- `QUEUE_Gets`. -/
def queueGets (queue : MqttRingbuf) (isBegin : Byte) (maxLen : Nat) : Option (List Byte) × MqttRingbuf :=
  protoParseRb queue isBegin maxLen

/-- `QUEUE_IsEmpty`. -/
def queueIsEmpty (queue : MqttRingbuf) : Bool := decide (queue.fillCnt ≤ 0)

/-- `QUEUE_BUFFER_SIZE` -/
def queueBufferSize : Nat := 2048

/-- `MQTT_BUF_SIZE` -/
def mqttBufSize : Nat := 1024

/-- The loop of `MQTT_Publish`, `MQTT_Subscribe`, `MQTT_UnSubscribe` and `MQTT_Ping`
that queues a message, for that many iterations at most: messages are thrown away from
the front until it fits, and `FALSE` is returned if there is none left. The parser of
the `QUEUE_Gets` with `n` iterations to go finds `isBegin n` on the stack. -/
def mqttQueueLoop (isBegin : Nat → Byte) (message : List Byte) : Nat → MqttRingbuf → Option (Bool × MqttRingbuf)
  | 0, _ => none
  | n + 1, queue =>
    match queuePuts queue message with
    | (-1, queue) =>
      match queueGets queue (isBegin n) mqttBufSize with
      | (none, queue) => some (false, queue)
      | (some _, queue) => mqttQueueLoop isBegin message n queue
    | (_, queue) => some (true, queue)

end Nonos
