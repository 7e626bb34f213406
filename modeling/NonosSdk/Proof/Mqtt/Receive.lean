import NonosSdk.Proof.Mqtt.RoundTrip
import NonosSdk.Impl.MqttClient

/-!
# Several messages in one segment

`mqtt_tcpclient_recv` copies what is left of a segment into `in_buffer`, acts on
the message it starts with and, if that is a PUBLISH, goes on behind it. One turn
is `readPacket_publish`. By induction on the packets, a segment of PUBLISH packets
shorter than the buffer delivers each of them once, in order, and queues the
answers that their QoS asks for, whatever the buffer held before
(`recv_publishes`). Only the last one can have its payload reported as `NULL`: an
empty one, where the buffer ends.
-/

namespace Nonos

open Spec (MqttPublish encodeLength be16)

namespace Mem

/-- A list copied into memory is held there. -/
theorem store_holds (m : Mem Byte) (a : Nat) (xs : List Byte) : (m.store a (xs.getD · 0) xs.length).Holds a xs := by
  refine List.ext_getElem (length_cells _ _ _) fun i hi hi' => ?_
  simp only [cells, List.getElem_map, List.getElem_range]
  rw [store, if_pos (by omega), Nat.add_sub_cancel_left]
  exact (List.getElem_eq_getD 0).symm

end Mem

/-- What `mqtt_tcpclient_recv` relies on: there is a topic, its length fits in two bytes, and a packet that asks
for an answer has an identifier. -/
structure Acceptable (p : MqttPublish) : Prop where
  topic : p.topic ≠ []
  topicLength : p.topic.length < 65536
  id : p.qos ≠ 0 → p.id ≠ 0

/-- The answer to a packet: PUBACK at QoS 1, PUBREC at QoS 2. -/
def answerTo (p : MqttPublish) : Option (List Byte) :=
  match p.qos with
  | 0 => none
  | 1 => some (0x40 :: 2 :: be16 p.id.toNat)
  | 2 => some (0x50 :: 2 :: be16 p.id.toNat)

/-- What the application is told of a packet with `rest` bytes behind it. -/
def eventOf (p : MqttPublish) (rest : Nat) : MqttEventData where
  topic := some p.topic
  topicLength := p.topic.length
  data := if p.payload = [] ∧ rest = 0 then none else some p.payload
  dataLength := p.payload.length

/-- The packets of a segment. -/
def segment (ps : List MqttPublish) : List Byte := ps.flatMap MqttPublish.encode

/-- What the application is told of a segment. -/
def eventsOf : List MqttPublish → List MqttOut
  | [] => []
  | p :: ps => .dataCb (eventOf p (segment ps).length) :: eventsOf ps

/-- The queue after the answers to a segment. -/
def queueAnswers (q : MqttRingbuf) (ps : List MqttPublish) : MqttRingbuf :=
  (ps.filterMap answerTo).foldl (fun q m => (queuePuts q m).2) q

theorem queueAnswers_cons (q : MqttRingbuf) (p : MqttPublish) (ps : List MqttPublish) :
    queueAnswers q (p :: ps) = queueAnswers (queueAnswers q [p]) ps := by
  rw [queueAnswers, queueAnswers, queueAnswers, ← List.foldl_append, ← List.filterMap_append]
  rfl

theorem mqttMsgAck_eq {c : MqttConnection} (hc : 5 ≤ c.bufferLength) (type qos : Nat) {id : BitVec 16} (hid : id ≠ 0) :
    mqttMsgAck type qos c id = (finiMessage (be16 id.toNat) type 0 qos 0, c) := by
  rw [mqttMsgAck, appendMessageId_ne_zero c [] hid, List.length_nil, if_neg (Nat.not_lt.mpr hc)]
  exact if_neg hid

/-- `QUEUE_Puts` of the answer to a packet, by its QoS. -/
theorem queueAnswer_publish (c : MqttClient) (hc : 5 ≤ c.mqttConnection.bufferLength) {p : MqttPublish}
    (hid : p.qos ≠ 0 → p.id ≠ 0) :
    (if p.qos.val = 1 then c.queueAnswer (mqttMsgPuback c.mqttConnection p.id)
      else if p.qos.val = 2 then c.queueAnswer (mqttMsgPubrec c.mqttConnection p.id) else c) =
      { c with msgQueue := queueAnswers c.msgQueue [p] } := by
  obtain ⟨dup, qos, retain, topic, id, payload⟩ := p
  dsimp only at hid ⊢
  match qos with
  | 0 => rfl
  | 1 =>
    rw [if_pos (show (1 : Fin 3).val = 1 from rfl), mqttMsgPuback, mqttMsgAck_eq hc _ _ (hid (by decide))]
    rfl
  | 2 =>
    rw [if_neg (by decide), if_pos (show (2 : Fin 3).val = 2 from rfl), mqttMsgPubrec, mqttMsgAck_eq hc _ _ (hid (by decide))]
    rfl

section

variable {p : MqttPublish} {rest : Nat} {xs : List Byte}

/-- `deliver_publish` tells the application of the packet the buffer starts with. -/
theorem deliverPublish_encode (c : MqttClient) (h : c.inBuffer.Holds 0 p.encode) (hp : Acceptable p) :
    c.deliverPublish (p.encode.length + rest) = c.emit (.dataCb (eventOf p rest)) := by
  have hL : p.encode.length ≤ p.encode.length + rest := Nat.le_add_right _ _
  obtain ⟨htopic, htcells⟩ := mqttGetPublishTopic_encode h hL hp.topic hp.topicLength
  obtain ⟨hdata, hdcells⟩ := mqttGetPublishData_encode h hL hp.topic hp.topicLength
  have hend : p.encode.length + rest = payloadAt p ↔ p.payload = [] ∧ rest = 0 := by
    rw [length_encode_eq, ← List.length_eq_zero_iff]
    omega
  rw [MqttClient.deliverPublish, htopic, hdata, eventOf]
  simp only [hend, Option.map_some, htcells]
  congr 3
  split_ifs
  · rfl
  · rw [Option.map_some, hdcells]

/-- The packet the buffer starts with is answered and delivered. -/
theorem recvData_publish (c : MqttClient) (hc : 5 ≤ c.mqttConnection.bufferLength) (h : c.inBuffer.Holds 0 p.encode)
    (hp : Acceptable p) (hlen : p.encode.length + rest < mqttBufSize) :
    c.recvData (mqttGetType c.inBuffer) (mqttGetQos c.inBuffer) (mqttGetId c.inBuffer mqttBufSize)
        (p.encode.length + rest) =
      { c with msgQueue := queueAnswers c.msgQueue [p], out := c.out ++ [.dataCb (eventOf p rest)] } := by
  -- the identifier is looked for in the whole buffer, which is longer than the packet
  have hid : mqttGetId c.inBuffer mqttBufSize = if p.qos = 0 then 0 else p.id := by
    have hend := length_encode_eq p
    rw [mqttGetId_encode h (by omega) hp.topic hp.topicLength]
    simp only [show ¬ mqttBufSize = payloadAt p by omega, or_false]
  have hanswer : (if p.qos.val = 1 then c.queueAnswer (mqttMsgPuback c.mqttConnection (mqttGetId c.inBuffer mqttBufSize))
      else if p.qos.val = 2 then c.queueAnswer (mqttMsgPubrec c.mqttConnection (mqttGetId c.inBuffer mqttBufSize))
      else c) = { c with msgQueue := queueAnswers c.msgQueue [p] } := by
    rw [← queueAnswer_publish c hc hp.id]
    by_cases hq : p.qos = 0
    · rw [hq]
      rfl
    · rw [hid, if_neg hq]
  rw [MqttClient.recvData, mqttGetType_encode h, if_pos rfl, mqttGetQos_encode h]
  dsimp only
  rw [hanswer]
  exact deliverPublish_encode _ h hp

/-- One turn of `mqtt_tcpclient_recv`. -/
theorem readPacket_publish (c : MqttClient) (hc : 5 ≤ c.mqttConnection.bufferLength) (hp : Acceptable p)
    (hstate : c.connState = .mqttData ∨ c.connState = .mqttKeepaliveSend)
    (hlen : p.encode.length + xs.length < mqttBufSize) (n : Nat) :
    ∃ inBuffer, MqttClient.readPacket (n + 1) c (p.encode ++ xs) =
      let c := { c with inBuffer, msgQueue := queueAnswers c.msgQueue [p],
                        out := c.out ++ [.dataCb (eventOf p xs.length)] }
      if xs = [] then c else MqttClient.readPacket n c xs := by
  have hpos : 0 < p.encode.length := Nat.succ_pos _
  have hsplit : (p.encode ++ xs).length = p.encode.length + xs.length := List.length_append
  refine ⟨c.inBuffer.store 0 ((p.encode ++ xs).getD · 0) (p.encode ++ xs).length, ?_⟩
  have hholds := (Mem.holds_append.mp (Mem.store_holds c.inBuffer 0 (p.encode ++ xs))).1
  rw [MqttClient.readPacket, if_pos ⟨by omega, by omega⟩]
  generalize c.inBuffer.store 0 ((p.encode ++ xs).getD · 0) (p.encode ++ xs).length = b at hholds
  have htype := mqttGetType_encode hholds
  have htotal := mqttGetTotalLength_encode (L := p.encode.length + xs.length) hholds (Nat.le_add_right _ _)
  have hact := recvData_publish { c with inBuffer := b } hc hholds hp hlen
  have hmore : (mqttGetType b = mqttMsgTypePublish ∧ p.encode.length < p.encode.length + xs.length) ↔ ¬ xs = [] := by
    rw [← List.length_eq_zero_iff]
    omega
  dsimp only at hact ⊢
  rw [hsplit, hact, htotal, List.drop_left]
  by_cases hx : xs = []
  · rw [if_pos hx, if_neg (mt hmore.mp (not_not.mpr hx))]
    rcases hstate with h | h <;> rw [h]
  · rw [if_neg hx, if_pos (hmore.mpr hx)]
    rcases hstate with h | h <;> rw [h]

theorem length_le_segment (ps : List MqttPublish) : ps.length ≤ (segment ps).length := by
  induction ps with
  | nil => exact Nat.zero_le _
  | cons p ps ih =>
    have hpos : 0 < p.encode.length := Nat.succ_pos _
    rw [segment, List.flatMap_cons, List.length_append, List.length_cons]
    rw [segment] at ih
    omega

/-- `READPACKET` over a segment. -/
theorem readPacket_publishes (ps : List MqttPublish) (hne : ps ≠ []) (hps : ∀ p ∈ ps, Acceptable p)
    (hlen : (segment ps).length < mqttBufSize) {n : Nat} (hn : ps.length ≤ n) (c : MqttClient)
    (hc : 5 ≤ c.mqttConnection.bufferLength) (hstate : c.connState = .mqttData ∨ c.connState = .mqttKeepaliveSend) :
    ∃ inBuffer, MqttClient.readPacket n c (segment ps) =
      { c with inBuffer, msgQueue := queueAnswers c.msgQueue ps, out := c.out ++ eventsOf ps } := by
  induction ps generalizing n c with
  | nil => exact absurd rfl hne
  | cons p ps ih =>
    obtain ⟨n, rfl⟩ := Nat.exists_eq_add_of_lt (Nat.lt_of_lt_of_le (Nat.succ_pos ps.length) hn)
    have hsegment : segment (p :: ps) = p.encode ++ segment ps := List.flatMap_cons
    rw [hsegment, List.length_append] at hlen
    obtain ⟨inBuffer, hturn⟩ := readPacket_publish c hc (hps p List.mem_cons_self) hstate hlen (0 + n)
    rw [hsegment, hturn]
    dsimp only
    by_cases hnil : ps = []
    · rw [hnil, if_pos (by rfl)]
      exact ⟨inBuffer, rfl⟩
    · have hrest : segment ps ≠ [] := fun h => by
        obtain ⟨q, hq⟩ := List.exists_mem_of_ne_nil ps hnil
        exact List.cons_ne_nil _ _ (List.flatMap_eq_nil_iff.mp h q hq)
      rw [if_neg hrest]
      have hle : ps.length ≤ 0 + n := by
        rw [List.length_cons] at hn
        omega
      have hps' : ∀ q ∈ ps, Acceptable q := fun q hq => hps q (List.mem_cons_of_mem p hq)
      obtain ⟨inBuffer', hread⟩ := ih hnil hps' (by omega) hle
        { c with inBuffer, msgQueue := queueAnswers c.msgQueue [p],
                 out := c.out ++ [.dataCb (eventOf p (segment ps).length)] } hc hstate
      refine ⟨inBuffer', ?_⟩
      rw [hread, queueAnswers_cons c.msgQueue p ps, eventsOf, List.append_assoc]
      rfl

/-- A segment of PUBLISH packets shorter than `in_buffer`: the application is told of each packet once and in
order, the answers that the packets ask for go to the queue in that order, and `MQTT_Task` is posted. -/
theorem recv_publishes (c : MqttClient) (hc : 5 ≤ c.mqttConnection.bufferLength)
    (hstate : c.connState = .mqttData ∨ c.connState = .mqttKeepaliveSend) (ps : List MqttPublish) (hne : ps ≠ [])
    (hps : ∀ p ∈ ps, Acceptable p) (hlen : (segment ps).length < mqttBufSize) :
    ∃ inBuffer, c.mqttTcpclientRecv (segment ps) =
      { c with inBuffer, keepAliveTick := 0, posted := true, msgQueue := queueAnswers c.msgQueue ps,
               out := c.out ++ eventsOf ps } := by
  obtain ⟨inBuffer, hread⟩ := readPacket_publishes ps hne hps hlen (Nat.le_succ_of_le (length_le_segment ps))
    { c with keepAliveTick := 0 } hc hstate
  refine ⟨inBuffer, ?_⟩
  rw [MqttClient.mqttTcpclientRecv, hread]
  rfl

/-- Two packets in one segment, at QoS 1 and with an empty payload at QoS 0, received by a client that has
connected. -/
theorem recv_publishes_two :
    let p : MqttPublish := ⟨false, 1, false, [0x61], 7, [0x31]⟩
    let p' : MqttPublish := ⟨false, 0, true, [0x62], 0, []⟩
    ∃ c inBuffer, mqttInitClient 120 true (fun _ => 0) 0 = some c ∧
      { c with connState := .mqttData }.mqttTcpclientRecv (segment [p, p']) =
        { c with connState := .mqttData, inBuffer, keepAliveTick := 0, posted := true,
                 msgQueue := queueAnswers c.msgQueue [p, p'], out := c.out ++ eventsOf [p, p'] } := by
  intro p p'
  have hps : ∀ q ∈ [p, p'], Acceptable q := by
    intro q hq
    rcases List.mem_pair.mp hq with rfl | rfl <;> exact ⟨by decide, by decide, by decide⟩
  have hlen : (segment [p, p']).length < mqttBufSize := by
    simp [segment, MqttPublish.encode, encodeLength, MqttPublish.body, MqttPublish.idBytes, be16, mqttBufSize, p, p']
  obtain ⟨c, hc⟩ : ∃ c, mqttInitClient 120 true (fun _ => 0) 0 = some c := ⟨_, rfl⟩
  have hlength : 5 ≤ c.mqttConnection.bufferLength := by
    obtain rfl := Option.some.inj hc
    decide
  obtain ⟨inBuffer, hrecv⟩ := recv_publishes { c with connState := .mqttData } hlength (Or.inl rfl) [p, p']
    (List.cons_ne_nil _ _) hps hlen
  exact ⟨c, inBuffer, hc, hrecv⟩

example : eventsOf [⟨false, 1, false, [0x61], 7, [0x31]⟩, ⟨false, 0, true, [0x62], 0, []⟩] =
    [.dataCb ⟨some [0x61], 1, some [0x31], 1⟩, .dataCb ⟨some [0x62], 1, none, 0⟩] := by decide

end

end Nonos
