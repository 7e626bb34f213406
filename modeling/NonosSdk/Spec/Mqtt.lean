import NonosSdk.Framework.Mem

/-!
# The MQTT PUBLISH packet

A fixed header byte (type 3, DUP, QoS, RETAIN), the length of what follows in
groups of seven bits, the lowest first, the topic with its length, the packet
identifier if the QoS is not 0, and the payload.
-/

namespace Nonos.Spec

/-- A length in groups of seven bits, each but the last with bit 7 set. -/
def encodeLength (n : Nat) : List Byte :=
  if n < 128 then [BitVec.ofNat 8 n] else BitVec.ofNat 8 (128 + n % 128) :: encodeLength (n / 128)

/-- Two bytes, the high one first. -/
def be16 (n : Nat) : List Byte := [BitVec.ofNat 8 (n / 256), BitVec.ofNat 8 n]

/-- What a PUBLISH packet says. -/
structure MqttPublish where
  dup : Bool
  qos : Fin 3
  retain : Bool
  topic : List Byte
  id : BitVec 16
  payload : List Byte

namespace MqttPublish

variable (p : MqttPublish)

/-- The first byte. -/
def header : Byte :=
  BitVec.ofNat 8 (48 + p.dup.toNat * 8 + p.qos.val * 2 + p.retain.toNat)

/-- The packet identifier, if there is one. -/
def idBytes : List Byte := if p.qos = 0 then [] else be16 p.id.toNat

/-- What the length counts. -/
def body : List Byte := be16 p.topic.length ++ (p.topic ++ (p.idBytes ++ p.payload))

/-- The packet. -/
def encode : List Byte := p.header :: (encodeLength p.body.length ++ p.body)

end MqttPublish

end Nonos.Spec
