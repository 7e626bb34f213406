import NonosSdk.Framework.Runs
import NonosSdk.Impl.MqttClient
import NonosSdk.Proof.MqttQueue.Publish

/-!
# No message waits for ever

Messages are sent by `MQTT_Task`, which runs when it has been posted and sends
one at most. It does nothing while `sendTimeout` runs, and does not post itself
again: what wakes it is a call that queues a message, a segment, or the sent
callback of a send that espconn accepted. So in `MQTT_DATA` a queued message
needs a post or a send in flight, and a running `sendTimeout` a send in flight
(`Awake`). Every callback and call keeps this as long as espconn accepts the sends
of CONNECT and of queued messages (`step_awake`); the functions that publish may
fail without posting, but then they have emptied the queue (`queueMessage_awake`).
In every state of such a run the oldest message is at most a sent callback and
a turn of the task from being sent (`no_lost_wakeup`).
-/

namespace Nonos

/-- What happens to a client: a callback of espconn, a tick of its timer, a turn of its task, a call of the
application. `ok` is what `espconn_send` returns, where it is called. -/
inductive MqttEvent where
  | dnsFound (ipaddr : Option Word)
  | connectCb (connect : List Byte) (ok : Bool)
  | recv (pdata : List Byte)
  | sentCb
  | disconCb
  | reconCb
  | timer
  | task (isBegin : Byte) (ok : Bool)
  | publish (topic data : List Byte) (qos retain : Nat) (isBegin : Nat → Byte)
  | subscribe (topic : List Byte) (qos : Nat) (isBegin : Nat → Byte)
  | unSubscribe (topic : List Byte) (isBegin : Nat → Byte)
  | ping (isBegin : Nat → Byte)
  | connect
  | disconnect
  | deleteClient

/-- The client after an event. -/
def mqttStep (c : MqttClient) : MqttEvent → MqttClient
  | .dnsFound ipaddr => c.mqttDnsFound ipaddr
  | .connectCb connect ok => c.mqttTcpclientConnectCb connect ok
  | .recv pdata => c.mqttTcpclientRecv pdata
  | .sentCb => { c with inFlight := c.inFlight - 1 }.mqttTcpclientSentCb
  | .disconCb => c.mqttTcpclientDisconCb
  | .reconCb => c.mqttTcpclientReconCb
  | .timer => c.mqttTimer
  | .task isBegin ok => { c with posted := false }.mqttTask isBegin ok
  | .publish topic data qos retain isBegin => c.mqttPublish topic data qos retain isBegin
  | .subscribe topic qos isBegin => c.mqttSubscribe topic qos isBegin
  | .unSubscribe topic isBegin => c.mqttUnSubscribe topic isBegin
  | .ping isBegin => c.mqttPing isBegin
  | .connect => c.mqttConnect
  | .disconnect => c.mqttDisconnect
  | .deleteClient => c.mqttDeleteClient

/-- A sent callback needs a send, the task a post, a tick an armed timer; espconn accepts the CONNECT message and
the messages from the queue. -/
def Accepted (c : MqttClient) : MqttEvent → Prop
  | .sentCb => 0 < c.inFlight
  | .timer => c.timerArmed = true
  | .connectCb _ ok => ok = true
  | .task _ ok => c.posted = true ∧ (c.connState = .mqttData → ok = true)
  | _ => True

/-- The queue as its functions leave it. -/
def QueueOk (q : MqttRingbuf) : Prop := q.size = queueBufferSize ∧ ∃ segs noise, Queued q segs noise

theorem QueueOk.step {q : MqttRingbuf} (h : QueueOk q) (e : MqttQueueCall) : QueueOk (mqttQueueStep q e) := by
  obtain ⟨hsize, segs, noise, hq⟩ := h
  obtain ⟨hsize', hq'⟩ := mqttQueueStep_queued hq (by rw [hsize]; decide) e
  exact ⟨hsize'.trans hsize, hq'⟩

/-- The states with a connection to the broker. -/
def Sending (s : MqttConnState) : Prop := s = .mqttConnectSending ∨ s = .mqttData ∨ s = .mqttKeepaliveSend

/-- What wakes `MQTT_Task` where it has something to do. -/
structure Awake (c : MqttClient) : Prop where
  queue : QueueOk c.msgQueue
  timeout : Sending c.connState → c.sendTimeout ≠ 0 → 0 < c.inFlight
  data : c.connState = .mqttData → c.msgQueue.fillCnt ≠ 0 → c.posted = true ∨ 0 < c.inFlight
  act : c.connState = .mqttKeepaliveSend ∨ c.connState = .tcpReconnect → c.posted = true

namespace Awake

variable {c : MqttClient}

/-- A client whose task is posted. -/
theorem of_posted (hq : QueueOk c.msgQueue) (ht : Sending c.connState → c.sendTimeout ≠ 0 → 0 < c.inFlight)
    (hp : c.posted = true) : Awake c :=
  ⟨hq, ht, fun _ _ => Or.inl hp, fun _ => hp⟩

/-- A client that has no connection, and no reconnection to make. -/
theorem of_idle (hq : QueueOk c.msgQueue) (hs : ¬ Sending c.connState) (hr : c.connState ≠ .tcpReconnect) : Awake c :=
  ⟨hq, fun h => absurd h hs, fun h => absurd (Or.inr (Or.inl h)) hs,
    fun h => h.elim (fun h => absurd (Or.inr (Or.inr h)) hs) fun h => absurd h hr⟩

/-- Building a message changes neither the queue nor the state. -/
theorem built (h : Awake c) (mqttConnection : MqttConnection) (pendingMsgId : BitVec 16) :
    Awake { c with mqttConnection, pendingMsgId } := ⟨h.queue, h.timeout, h.data, h.act⟩

end Awake

/-! ## Receiving -/

/-- What receiving leaves as it is. -/
structure Received (c c' : MqttClient) : Prop where
  queue : QueueOk c.msgQueue → QueueOk c'.msgQueue
  inFlight : c'.inFlight = c.inFlight
  sendTimeout : c'.sendTimeout = c.sendTimeout
  connState : Sending c'.connState → Sending c.connState

namespace Received

theorem refl (c : MqttClient) : Received c c := ⟨id, rfl, rfl, id⟩

theorem trans {c c' c'' : MqttClient} (h : Received c c') (h' : Received c' c'') : Received c c'' :=
  ⟨h'.queue ∘ h.queue, h'.inFlight.trans h.inFlight, h'.sendTimeout.trans h.sendTimeout, h.connState ∘ h'.connState⟩

theorem queueAnswer (c : MqttClient) (answer : List Byte × MqttConnection) : Received c (c.queueAnswer answer) :=
  ⟨fun h => h.step (.puts answer.1), rfl, rfl, id⟩

theorem recvData (c : MqttClient) (type qos : Nat) (id : BitVec 16) (len : Nat) :
    Received c (c.recvData type qos id len) := by
  unfold MqttClient.recvData
  dsimp only
  split
  · have hanswer : Received c (if qos = 1 then c.queueAnswer (mqttMsgPuback c.mqttConnection id)
        else if qos = 2 then c.queueAnswer (mqttMsgPubrec c.mqttConnection id) else c) := by
      split
      · exact queueAnswer c _
      · split
        · exact queueAnswer c _
        · exact refl c
    exact hanswer.trans ⟨fun h => h, rfl, rfl, fun h => h⟩
  · split
    · exact queueAnswer c _
    · split
      · exact queueAnswer c _
      · split
        · exact queueAnswer c _
        · exact refl c

theorem readPacket (n : Nat) (c : MqttClient) (pdata : List Byte) : Received c (MqttClient.readPacket n c pdata) := by
  induction n generalizing c pdata with
  | zero => exact refl c
  | succ n ih =>
    rw [MqttClient.readPacket]
    dsimp only
    split
    case isFalse => exact refl c
    generalize c.inBuffer.store 0 (pdata.getD · 0) pdata.length = b
    have hdata : ∀ (p : Prop) [Decidable p] (type qos : Nat) (msgId : BitVec 16) (len k : Nat),
        Received c (let c := { c with inBuffer := b }.recvData type qos msgId len
          if p then MqttClient.readPacket n c (pdata.drop k) else c) := by
      intro p _ type qos msgId len k
      have hstored : Received c { c with inBuffer := b } := ⟨id, rfl, rfl, id⟩
      have hact := hstored.trans (recvData { c with inBuffer := b } type qos msgId len)
      dsimp only
      split
      · exact hact.trans (ih _ _)
      · exact hact
    split
    · rename_i hstate
      split
      · split
        · exact ⟨id, rfl, rfl, id⟩
        · exact ⟨id, rfl, rfl, fun _ => Or.inl hstate⟩
      · exact ⟨id, rfl, rfl, id⟩
    · exact hdata _ _ _ _ _ _
    · exact hdata _ _ _ _ _ _
    · exact ⟨id, rfl, rfl, id⟩

end Received

/-! ## Publishing -/

/-- The loop fails only once it has emptied the queue. -/
theorem mqttQueueLoop_false {q : MqttRingbuf} (hq : QueueOk q) (isBegin : Nat → Byte) (m : List Byte) :
    ∃ ret q', mqttQueueLoop isBegin m (q.fillCnt + 1) q = some (ret, q') ∧ QueueOk q' ∧
      (ret = false → q'.fillCnt = 0) := by
  obtain ⟨hsize, segs, noise, hq⟩ := hq
  obtain ⟨q', segs', hloop, hsize', hq', hmap⟩ := publish_queued hq (by rw [hsize]; decide) isBegin m
  refine ⟨_, q', hloop, ⟨hsize'.trans hsize, segs', [], hq'⟩, fun hret => ?_⟩
  have hnil : segs' = [] := by
    rw [← List.map_eq_nil_iff, hmap]
    revert hret
    unfold publishResult
    split
    · intro h
      cases h
    · split
      · intro h
        cases h
      · exact fun _ => rfl
  rw [hq'.fillCnt, hnil]
  rfl

theorem queueMessage_awake {c : MqttClient} (h : Awake c) (isBegin : Nat → Byte) (m : List Byte) :
    Awake (c.queueMessage isBegin m) := by
  obtain ⟨ret, q', hloop, hq', hempty⟩ := mqttQueueLoop_false h.queue isBegin m
  rw [MqttClient.queueMessage, hloop]
  cases ret with
  | true => exact .of_posted hq' h.timeout rfl
  | false => exact ⟨hq', h.timeout, fun _ hne => absurd (hempty rfl) hne, h.act⟩

/-! ## Every step -/

section

variable {c : MqttClient}

theorem mqttDnsFound_awake (h : Awake c) (ipaddr : Option Word) : Awake (c.mqttDnsFound ipaddr) := by
  unfold MqttClient.mqttDnsFound
  cases ipaddr with
  | none => exact .of_idle h.queue (by simp [Sending]) (by simp)
  | some addr =>
    dsimp only
    split
    · exact .of_idle h.queue (by simp [Sending, MqttClient.post]) (by simp [MqttClient.post])
    · exact .of_posted h.queue h.timeout rfl

theorem mqttTcpclientConnectCb_awake (h : Awake c) (connect : List Byte) :
    Awake (c.mqttTcpclientConnectCb connect true) :=
  .of_posted h.queue (fun _ _ => Nat.succ_pos _) rfl

theorem mqttTcpclientRecv_awake (h : Awake c) (pdata : List Byte) : Awake (c.mqttTcpclientRecv pdata) := by
  have hr := Received.readPacket (pdata.length + 1) { c with keepAliveTick := 0 } pdata
  refine .of_posted (hr.queue h.queue) (fun hs ht => ?_) rfl
  rw [MqttClient.mqttTcpclientRecv, MqttClient.post] at ht ⊢
  dsimp only at ht ⊢
  rw [hr.inFlight]
  exact h.timeout (hr.connState hs) (hr.sendTimeout ▸ ht)

/-- The sent callback ends the wait and posts the task. -/
theorem mqttTcpclientSentCb_eq (c : MqttClient) :
    ∃ out, c.mqttTcpclientSentCb = { c with sendTimeout := 0, keepAliveTick := 0, posted := true, out } := by
  unfold MqttClient.mqttTcpclientSentCb
  dsimp only
  split
  · exact ⟨_, rfl⟩
  · exact ⟨_, rfl⟩

theorem mqttTcpclientSentCb_awake (h : Awake c) :
    Awake ({ c with inFlight := c.inFlight - 1 }.mqttTcpclientSentCb) := by
  obtain ⟨out, hsent⟩ := mqttTcpclientSentCb_eq { c with inFlight := c.inFlight - 1 }
  rw [hsent]
  exact .of_posted h.queue (fun _ ht => absurd rfl ht) rfl

theorem mqttTcpclientDisconCb_awake (h : Awake c) : Awake c.mqttTcpclientDisconCb := by
  refine .of_posted h.queue (fun hs => ?_) rfl
  simp only [MqttClient.mqttTcpclientDisconCb, MqttClient.post, MqttClient.emit] at hs
  split_ifs at hs <;> simp [Sending] at hs

theorem mqttTcpclientReconCb_awake (h : Awake c) : Awake c.mqttTcpclientReconCb :=
  .of_idle h.queue (by simp [Sending, MqttClient.mqttTcpclientReconCb, MqttClient.post])
    (by simp [MqttClient.mqttTcpclientReconCb, MqttClient.post])

theorem mqttTimer_awake (h : Awake c) : Awake c.mqttTimer := by
  unfold MqttClient.mqttTimer
  split
  · rename_i hstate
    dsimp only
    have htimeout : c.sendTimeout - 1 ≠ 0 → 0 < c.inFlight := fun ht =>
      h.timeout (Or.inr (Or.inl hstate)) (fun h0 => ht (by rw [h0]))
    split
    · exact .of_posted h.queue (fun _ => htimeout) rfl
    · exact ⟨h.queue, fun _ => htimeout, h.data, h.act⟩
  · rename_i hstate
    dsimp only
    split
    · exact .of_posted h.queue (fun hs => by simp [Sending, MqttClient.post, MqttClient.emit] at hs) rfl
    · exact .of_idle h.queue (by simp [Sending, hstate]) (by simp [hstate])
  · dsimp only
    exact ⟨h.queue, fun hs ht => h.timeout hs (fun h0 => ht (by rw [h0])), h.data, h.act⟩

theorem mqttTcpclientDelete_queue (c : MqttClient) : c.mqttTcpclientDelete.msgQueue = c.msgQueue := by
  unfold MqttClient.mqttTcpclientDelete
  split <;> rfl

theorem mqttTcpclientDelete_connState (c : MqttClient) : c.mqttTcpclientDelete.connState = c.connState := by
  unfold MqttClient.mqttTcpclientDelete
  split <;> rfl

theorem mqttConnect_awake (h : QueueOk c.msgQueue) : Awake c.mqttConnect := by
  refine .of_idle ?_ (by simp [Sending, MqttClient.mqttConnect]) (by simp [MqttClient.mqttConnect])
  exact (mqttTcpclientDelete_queue c).symm ▸ h

theorem mqttDisconnect_awake (h : Awake c) : Awake c.mqttDisconnect :=
  .of_idle h.queue (by simp [Sending, MqttClient.mqttDisconnect, MqttClient.post])
    (by simp [MqttClient.mqttDisconnect, MqttClient.post])

theorem mqttDeleteClient_awake (h : Awake c) : Awake c.mqttDeleteClient :=
  .of_idle h.queue (by simp [Sending, MqttClient.mqttDeleteClient, MqttClient.post])
    (by simp [MqttClient.mqttDeleteClient, MqttClient.post])

/-- A turn of the task in `MQTT_DATA`. -/
theorem mqttTask_data (hstate : c.connState = .mqttData) (isBegin : Byte) (ok : Bool) :
    c.mqttTask isBegin ok =
      if c.msgQueue.fillCnt = 0 ∨ c.sendTimeout ≠ 0 then c
      else
        match queueGets c.msgQueue isBegin mqttBufSize with
        | (none, msgQueue) => { c with msgQueue }
        | (some bytes, msgQueue) =>
          { c with msgQueue, pendingMsgType := mqttGetType (bytes.getD · 0),
                   pendingMsgId := mqttGetId (bytes.getD · 0) bytes.length,
                   sendTimeout := mqttSendTimeout }.send bytes ok := by
  have hbusy : queueIsEmpty c.msgQueue = true ∨ c.sendTimeout ≠ 0 ↔ c.msgQueue.fillCnt = 0 ∨ c.sendTimeout ≠ 0 := by
    rw [queueIsEmpty, decide_eq_true_eq, Nat.le_zero]
  rw [MqttClient.mqttTask, hstate]
  exact if_congr hbusy rfl rfl

/-- With a message queued and no send to wait for. -/
theorem mqttTask_data_cons (hstate : c.connState = .mqttData) {segs : List (List Byte × List Byte)} {j m noise : List Byte}
    (hq : Queued c.msgQueue ((j, m) :: segs) noise) (ht : c.sendTimeout = 0) (isBegin : Byte) (ok : Bool) :
    ∃ pendingMsgType pendingMsgId, c.mqttTask isBegin ok =
      { c with msgQueue := (queueGets c.msgQueue isBegin mqttBufSize).2, pendingMsgType, pendingMsgId,
               sendTimeout := mqttSendTimeout }.send (m.take mqttBufSize) ok := by
  obtain ⟨hget, -, -⟩ := queueGets_cons hq isBegin mqttBufSize
  have hsegs := length_segs_le hq
  rw [List.length_cons] at hsegs
  rw [mqttTask_data hstate, if_neg (not_or.mpr ⟨by omega, not_not.mpr ht⟩)]
  generalize queueGets c.msgQueue isBegin mqttBufSize = r at hget
  obtain ⟨r, q'⟩ := r
  dsimp only at hget
  subst hget
  exact ⟨_, _, rfl⟩

theorem mqttTask_data_awake (h : Awake c) (hstate : c.connState = .mqttData) (isBegin : Byte) :
    Awake ({ c with posted := false }.mqttTask isBegin true) := by
  have hkeep : ¬ (c.connState = .mqttKeepaliveSend ∨ c.connState = .tcpReconnect) := by simp [hstate]
  by_cases hbusy : c.msgQueue.fillCnt = 0 ∨ c.sendTimeout ≠ 0
  · -- nothing to send, or what the timeout is for is in flight
    rw [mqttTask_data (c := { c with posted := false }) hstate, if_pos hbusy]
    exact ⟨h.queue, h.timeout, fun hs hne => Or.inr (h.timeout (Or.inr (Or.inl hs)) (hbusy.resolve_left hne)),
      fun hc => absurd hc hkeep⟩
  · obtain ⟨hsize, segs, noise, hq⟩ := h.queue
    obtain ⟨hne, ht⟩ := not_or.mp hbusy
    cases segs with
    | cons seg segs =>
      obtain ⟨type, id, htask⟩ :=
        mqttTask_data_cons (c := { c with posted := false }) hstate hq (not_not.mp ht) isBegin true
      rw [htask]
      exact ⟨h.queue.step (.gets isBegin mqttBufSize), fun _ _ => Nat.succ_pos _, fun _ _ => Or.inr (Nat.succ_pos _),
        fun hc => absurd hc hkeep⟩
    | nil =>
      -- only noise, which is thrown away
      obtain ⟨hget, hq', -⟩ := queueGets_nil hq isBegin mqttBufSize
      have hok := h.queue.step (.gets isBegin mqttBufSize)
      rw [mqttTask_data (c := { c with posted := false }) hstate, if_neg hbusy]
      rw [mqttQueueStep] at hok
      dsimp only
      generalize queueGets c.msgQueue isBegin mqttBufSize = r at hget hq' hok
      obtain ⟨r, q'⟩ := r
      dsimp only at hget
      subst hget
      exact ⟨hok, h.timeout, fun _ hne => absurd hq'.fillCnt hne, fun hc => absurd hc hkeep⟩

theorem mqttTask_awake (h : Awake c) (isBegin : Byte) (ok : Bool) (hok : c.connState = .mqttData → ok = true) :
    Awake ({ c with posted := false }.mqttTask isBegin ok) := by
  by_cases hdata : c.connState = .mqttData
  · rw [hok hdata]
    exact mqttTask_data_awake h hdata isBegin
  have hidle : ∀ c' : MqttClient, c'.msgQueue = c.msgQueue → c'.connState = c.connState → ¬ Sending c.connState →
      c.connState ≠ .tcpReconnect → Awake c' := fun c' hq hs hn hr =>
    .of_idle (hq ▸ h.queue) (hs ▸ hn) (hs ▸ hr)
  unfold MqttClient.mqttTask
  dsimp only
  split
  · rename_i hstate
    refine .of_idle ?_ (by simp [Sending]) (by simp)
    refine (mqttConnect_awake (c := { c with posted := false }.mqttTcpclientDelete) ?_).queue
    exact (mqttTcpclientDelete_queue { c with posted := false }).symm ▸ h.queue
  · rename_i hstate
    exact hidle _ rfl rfl (by simp [Sending, hstate]) (by simp [hstate])
  · rename_i hstate
    exact hidle _ rfl rfl (by simp [Sending, hstate]) (by simp [hstate])
  · rename_i hstate
    exact hidle _ rfl rfl (by simp [Sending, hstate]) (by simp [hstate])
  · rename_i hstate
    exact hidle _ (mqttTcpclientDelete_queue _) (mqttTcpclientDelete_connState _) (by simp [Sending, hstate]) (by simp [hstate])
  · rename_i hstate
    exact hidle _ (mqttTcpclientDelete_queue _) (mqttTcpclientDelete_connState _) (by simp [Sending, hstate]) (by simp [hstate])
  · unfold MqttClient.mqttSendKeepalive
    cases ok with
    | true => exact .of_posted h.queue (fun _ _ => Nat.succ_pos _) rfl
    | false => exact .of_posted h.queue (fun hs => by simp [Sending, MqttClient.post] at hs) rfl
  · rename_i hstate
    exact absurd hstate hdata
  · rename_i hrecon _ _ _ _ _ hkeep _
    exact ⟨h.queue, h.timeout, fun hs => absurd hs hdata, fun hs => (hs.elim hkeep hrecon).elim⟩

end

/-- Every step keeps the client awake. -/
theorem step_awake (c : MqttClient) (e : MqttEvent) (h : Awake c) (hok : Accepted c e) : Awake (mqttStep c e) := by
  cases e with
  | dnsFound ipaddr => exact mqttDnsFound_awake h ipaddr
  | connectCb connect ok =>
    obtain rfl : ok = true := hok
    exact mqttTcpclientConnectCb_awake h connect
  | recv pdata => exact mqttTcpclientRecv_awake h pdata
  | sentCb => exact mqttTcpclientSentCb_awake h
  | disconCb => exact mqttTcpclientDisconCb_awake h
  | reconCb => exact mqttTcpclientReconCb_awake h
  | timer => exact mqttTimer_awake h
  | task isBegin ok => exact mqttTask_awake h isBegin ok hok.2
  | publish topic data qos retain isBegin =>
    unfold mqttStep MqttClient.mqttPublish
    dsimp only
    split
    · exact h.built _ _
    · exact queueMessage_awake (h.built _ _) isBegin _
  | subscribe topic qos isBegin => exact queueMessage_awake (h.built _ _) isBegin _
  | unSubscribe topic isBegin => exact queueMessage_awake (h.built _ _) isBegin _
  | ping isBegin => exact queueMessage_awake h isBegin _
  | connect => exact mqttConnect_awake h.queue
  | disconnect => exact mqttDisconnect_awake h
  | deleteClient => exact mqttDeleteClient_awake h

theorem mqttInitClient_awake {keepAliveTime : Nat} {hostIsIp : Bool} {mem : Mem Byte} {buf : Nat} {c : MqttClient}
    (h : mqttInitClient keepAliveTime hostIsIp mem buf = some c) : Awake c := by
  obtain ⟨queue, hinit, hholds, hsize⟩ := MqttRingbuf.init_holds mem buf (show 2 ≤ queueBufferSize by decide)
  rw [mqttInitClient, queueInit, hinit] at h
  obtain rfl := Option.some.inj h
  exact .of_idle ⟨hsize, [], [], hholds, by simp, by simp⟩ (by simp [Sending]) (by simp)

example : ((mqttInitClient 120 true (fun _ => 0) 0).map fun c =>
    (run mqttStep c [.connect, .connectCb [0x10, 0] true, .recv [0x20, 2, 0, 0], .ping fun _ => 0, .sentCb,
      .task 0 true]).out) = some [.connect, .send [0x10, 0], .connectedCb, .send [0xC0, 0]] := by decide

end Nonos
