import NonosSdk.Impl.MqttMsg
import NonosSdk.Spec.Mqtt

/-!
# PUBLISH packets, read

`remainingLoop_encode`: the loops over the remaining length read it back,
whatever its size. A buffer that starts with a packet is read back field by
field (`mqttGetPublishTopic_encode`, `mqttGetPublishData_encode`,
`mqttGetId_encode`), whatever follows the packet.
-/

namespace Nonos

open Spec (MqttPublish encodeLength be16)

/-! ## The remaining length -/

theorem group_bits {r : Nat} (h : r < 128) :
    ((BitVec.ofNat 8 r &&& 0x7f).toNat = r ∧ BitVec.ofNat 8 r &&& 0x80 = 0) ∧
      (BitVec.ofNat 8 (128 + r) &&& 0x7f).toNat = r ∧ BitVec.ofNat 8 (128 + r) &&& 0x80 ≠ 0 := by
  have hall : ∀ x : Fin 128, ((BitVec.ofNat 8 x.val &&& 0x7f).toNat = x.val ∧ BitVec.ofNat 8 x.val &&& 0x80 = 0) ∧
      (BitVec.ofNat 8 (128 + x.val) &&& 0x7f).toNat = x.val ∧ BitVec.ofNat 8 (128 + x.val) &&& 0x80 ≠ 0 := by decide
  exact hall ⟨r, h⟩

theorem encodeLength_small {n : Nat} (h : n < 128) : encodeLength n = [BitVec.ofNat 8 n] := by
  rw [encodeLength, if_pos h]

theorem encodeLength_large {n : Nat} (h : 128 ≤ n) :
    encodeLength n = BitVec.ofNat 8 (128 + n % 128) :: encodeLength (n / 128) := by
  rw [encodeLength, if_neg (by omega)]

theorem length_encodeLength_pos (n : Nat) : 0 < (encodeLength n).length := by
  rcases Nat.lt_or_ge n 128 with h | h
  · rw [encodeLength_small h]; exact Nat.one_pos
  · rw [encodeLength_large h]; exact Nat.succ_pos _

/-- The loop reads the length back and stops after it. -/
theorem remainingLoop_encode (b : Mem Byte) (n : Nat) {i k tot : Nat} (h : b.Holds i (encodeLength n)) (hi : 1 ≤ i)
    (hk : (encodeLength n).length ≤ k) :
    remainingLoop b k i tot = (i + (encodeLength n).length, tot + n <<< (7 * (i - 1))) := by
  induction n using Nat.strongRecOn generalizing i k tot with
  | ind n ih =>
    rcases Nat.lt_or_ge n 128 with hn | hn
    · obtain ⟨⟨hlow, hstop⟩, -⟩ := group_bits hn
      rw [encodeLength_small hn] at h hk ⊢
      obtain ⟨hb, -⟩ := Mem.holds_cons.mp h
      obtain ⟨k, rfl⟩ := Nat.exists_eq_succ_of_ne_zero (show k ≠ 0 by simp at hk; omega)
      rw [remainingLoop, hb, if_pos hstop, hlow]
      rfl
    · obtain ⟨-, hlow, hgo⟩ := group_bits (Nat.mod_lt n (show 0 < 128 by decide))
      rw [encodeLength_large hn] at h hk ⊢
      obtain ⟨hb, hrest⟩ := Mem.holds_cons.mp h
      rw [List.length_cons] at hk ⊢
      obtain ⟨k, rfl⟩ := Nat.exists_eq_succ_of_ne_zero (show k ≠ 0 by omega)
      rw [remainingLoop, hb, if_neg hgo, hlow, ih (n / 128) (by omega) hrest (by omega) (by omega)]
      -- the groups read so far and those to come make up the length
      have hpow : 2 ^ (7 * (i + 1 - 1)) = 128 * 2 ^ (7 * (i - 1)) := by
        obtain ⟨j, rfl⟩ := Nat.exists_eq_add_of_le hi
        rw [show 7 * (1 + j + 1 - 1) = 7 + 7 * (1 + j - 1) by omega, Nat.pow_add]
      have hsum : n % 128 * 2 ^ (7 * (i - 1)) + n / 128 * (128 * 2 ^ (7 * (i - 1))) = n * 2 ^ (7 * (i - 1)) := by
        rw [← Nat.mul_assoc, ← Nat.add_mul, Nat.mul_comm (n / 128), Nat.mod_add_div]
      rw [Nat.shiftLeft_eq, Nat.shiftLeft_eq, Nat.shiftLeft_eq, hpow, Nat.add_assoc tot, hsum]
      exact congrArg (·, _) (by omega)

/-! ## Reading a packet -/

theorem bufferWord_be16 {b : Mem Byte} {i n : Nat} (h : b.Holds i (be16 n)) (hn : n < 65536) : bufferWord b i = n := by
  obtain ⟨h1, h2⟩ := Mem.holds_cons.mp h
  obtain ⟨h2, -⟩ := Mem.holds_cons.mp h2
  rw [bufferWord, h1, h2, BitVec.toNat_ofNat, BitVec.toNat_ofNat, Nat.shiftLeft_eq, Nat.mul_comm,
    ← Nat.two_pow_add_eq_or_of_lt (Nat.mod_lt n (by decide)), Nat.mod_eq_of_lt (show n / 256 < 2 ^ 8 by omega)]
  exact Nat.div_add_mod n 256

@[simp] theorem length_be16 (n : Nat) : (be16 n).length = 2 := rfl

/-- Where the parts of a packet are. -/
structure PacketAt (b : Mem Byte) (p : MqttPublish) (l : Nat) : Prop where
  length : l = (encodeLength p.body.length).length
  header : b 0 = p.header
  remaining : b.Holds 1 (encodeLength p.body.length)
  topicLength : b.Holds (1 + l) (be16 p.topic.length)
  topic : b.Holds (1 + l + 2) p.topic
  id : b.Holds (1 + l + 2 + p.topic.length) p.idBytes
  payload : b.Holds (1 + l + 2 + p.topic.length + p.idBytes.length) p.payload

theorem packetAt {b : Mem Byte} {p : MqttPublish} (h : b.Holds 0 p.encode) :
    PacketAt b p (encodeLength p.body.length).length := by
  obtain ⟨h0, h⟩ := Mem.holds_cons.mp h
  obtain ⟨hrem, h⟩ := Mem.holds_append.mp h
  obtain ⟨htl, h⟩ := Mem.holds_append.mp h
  obtain ⟨ht, h⟩ := Mem.holds_append.mp h
  obtain ⟨hid, hp⟩ := Mem.holds_append.mp h
  exact ⟨rfl, h0, hrem, htl, ht, hid, hp⟩

theorem length_body (p : MqttPublish) :
    p.body.length = 2 + p.topic.length + p.idBytes.length + p.payload.length := by
  simp only [MqttPublish.body, List.length_append, length_be16]
  omega

theorem length_encode (p : MqttPublish) :
    p.encode.length = 1 + (encodeLength p.body.length).length + p.body.length := by
  simp only [MqttPublish.encode, List.length_cons, List.length_append]
  omega

theorem length_idBytes (p : MqttPublish) : p.idBytes.length = if p.qos = 0 then 0 else 2 := by
  unfold MqttPublish.idBytes
  split <;> rfl

/-- The fields of the first byte. -/
theorem header_fields (p : MqttPublish) :
    ((p.header &&& 0xf0) >>> 4).toNat = mqttMsgTypePublish ∧ ((p.header &&& 0x08) >>> 3).toNat = p.dup.toNat ∧
      ((p.header &&& 0x06) >>> 1).toNat = p.qos.val ∧ (p.header &&& 0x01).toNat = p.retain.toNat := by
  have hall : ∀ (dup retain : Bool) (qos : Fin 3),
      let header := BitVec.ofNat 8 (48 + dup.toNat * 8 + qos.val * 2 + retain.toNat)
      ((header &&& 0xf0) >>> 4).toNat = mqttMsgTypePublish ∧ ((header &&& 0x08) >>> 3).toNat = dup.toNat ∧
        ((header &&& 0x06) >>> 1).toNat = qos.val ∧ (header &&& 0x01).toNat = retain.toNat := by decide
  exact hall p.dup p.retain p.qos

section

variable {b : Mem Byte} {p : MqttPublish} {L : Nat}

theorem remainingLoop_packet (h : b.Holds 0 p.encode) (hL : p.encode.length ≤ L) :
    remainingLoop b (L - 1) 1 0 = (1 + (encodeLength p.body.length).length, p.body.length) := by
  have hlen := length_encode p
  rw [remainingLoop_encode b _ (packetAt h).remaining (Nat.le_refl 1) (by omega)]
  simp

theorem mqttGetTotalLength_encode (h : b.Holds 0 p.encode) (hL : p.encode.length ≤ L) :
    mqttGetTotalLength b L = p.encode.length := by
  rw [mqttGetTotalLength, remainingLoop_packet h hL, length_encode]
  dsimp only
  omega

theorem mqttGetQos_encode (h : b.Holds 0 p.encode) : mqttGetQos b = p.qos.val := by
  rw [mqttGetQos, (packetAt h).header]
  exact (header_fields p).2.2.1

theorem mqttGetType_encode (h : b.Holds 0 p.encode) : mqttGetType b = mqttMsgTypePublish := by
  rw [mqttGetType, (packetAt h).header]
  exact (header_fields p).1

/-- Where the topic starts. -/
def topicAt (p : MqttPublish) : Nat := 1 + (encodeLength p.body.length).length + 2

/-- Where the payload starts. -/
def payloadAt (p : MqttPublish) : Nat := topicAt p + p.topic.length + p.idBytes.length

theorem length_encode_eq (p : MqttPublish) : p.encode.length = payloadAt p + p.payload.length := by
  rw [length_encode, payloadAt, topicAt, length_body]
  omega

/-- The topic is read back. -/
theorem mqttGetPublishTopic_encode (h : b.Holds 0 p.encode) (hL : p.encode.length ≤ L) (ht : p.topic ≠ [])
    (ht16 : p.topic.length < 65536) :
    mqttGetPublishTopic b L = (some (topicAt p), p.topic.length) ∧ b.cells (topicAt p) p.topic.length = p.topic := by
  have hpos := List.length_pos_iff.mpr ht
  have hlen := length_encode_eq p
  rw [payloadAt, topicAt] at hlen
  refine ⟨?_, (packetAt h).topic⟩
  rw [mqttGetPublishTopic, remainingLoop_packet h hL]
  dsimp only
  rw [if_neg (by omega), bufferWord_be16 (packetAt h).topicLength ht16, if_neg (by omega)]
  rfl

/-- And the payload, but for an empty one where the buffer ends. -/
theorem mqttGetPublishData_encode (h : b.Holds 0 p.encode) (hL : p.encode.length ≤ L) (ht : p.topic ≠ [])
    (ht16 : p.topic.length < 65536) :
    mqttGetPublishData b L = (if L = payloadAt p then none else some (payloadAt p), p.payload.length) ∧
      b.cells (payloadAt p) p.payload.length = p.payload := by
  have hpos := List.length_pos_iff.mpr ht
  have hlen := length_encode_eq p
  have hbody := length_body p
  have henc := length_encode p
  have hid := length_idBytes p
  have hat : payloadAt p = 1 + (encodeLength p.body.length).length + 2 + p.topic.length + p.idBytes.length := rfl
  refine ⟨?_, (packetAt h).payload⟩
  rw [mqttGetPublishData, remainingLoop_packet h hL]
  dsimp only
  rw [if_neg (by omega), bufferWord_be16 (packetAt h).topicLength ht16, mqttGetQos_encode h]
  by_cases hq : p.qos = 0
  · have hq0 : ¬ p.qos.val > 0 := by rw [hq]; decide
    rw [if_pos hq] at hid
    by_cases hend : L = payloadAt p
    · rw [if_pos (by omega), if_pos hend, show p.payload.length = 0 by omega]
    · rw [if_neg (by omega), if_neg (fun hc => hq0 hc.1), if_neg hq0, if_neg (by omega), if_neg hend,
        if_pos (by omega)]
      exact congrArg₂ Prod.mk (congrArg some (by omega)) (by omega)
  · have hq0 : p.qos.val > 0 := Nat.pos_of_ne_zero fun hc => hq (Fin.ext hc)
    rw [if_neg hq] at hid
    rw [if_neg (by omega)]
    by_cases hend : L = payloadAt p
    · rw [if_pos ⟨hq0, by omega⟩, if_pos hend, show p.payload.length = 0 by omega]
    · rw [if_neg (by omega), if_pos hq0, if_neg (by omega), if_neg hend, if_pos (by omega)]
      exact congrArg₂ Prod.mk (congrArg some (by omega)) (by omega)

/-- And the packet identifier, with the same exception. -/
theorem mqttGetId_encode (h : b.Holds 0 p.encode) (hL : p.encode.length ≤ L) (ht : p.topic ≠ [])
    (ht16 : p.topic.length < 65536) :
    mqttGetId b L = if p.qos = 0 ∨ L = payloadAt p then 0 else p.id := by
  have hpos := List.length_pos_iff.mpr ht
  have hlen := length_encode_eq p
  have hid := length_idBytes p
  have hat : payloadAt p = 1 + (encodeLength p.body.length).length + 2 + p.topic.length + p.idBytes.length := rfl
  rw [mqttGetId, if_neg (by omega), mqttGetType_encode h, if_pos rfl, remainingLoop_packet h hL]
  dsimp only
  rw [if_neg (by omega), bufferWord_be16 (packetAt h).topicLength ht16, mqttGetQos_encode h]
  by_cases hq : p.qos = 0
  · have hq0 : ¬ p.qos.val > 0 := by rw [hq]; decide
    rw [if_neg hq0, if_pos (Or.inl hq), ite_self]
  · have hq0 : p.qos.val > 0 := Nat.pos_of_ne_zero fun hc => hq (Fin.ext hc)
    have hbytes : p.idBytes = be16 p.id.toNat := if_neg hq
    rw [if_neg hq] at hid
    rw [if_neg (by omega), if_pos hq0]
    by_cases hend : L = payloadAt p
    · rw [if_pos (by omega), if_pos (Or.inr hend)]
    · have hword := (packetAt h).id
      rw [hbytes] at hword
      rw [if_neg (by omega), if_neg (by simp [hq, hend]), bufferWord_be16 hword p.id.isLt, BitVec.ofNat_toNat,
        BitVec.setWidth_eq]

end

end Nonos
