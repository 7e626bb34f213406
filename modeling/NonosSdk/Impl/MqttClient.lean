import NonosSdk.Impl.MqttMsg
import NonosSdk.Impl.MqttQueue

/-!
# The MQTT client (`esp_mqtt_proj/mqtt/mqtt.c`)

The client's state, its callbacks, its timer, its task and the functions an
application calls. What they ask of the rest of the system is in `out`:
calls of espconn and of the application's callbacks, in order. The task's
queue has one place (`MQTT_TASK_QUEUE_SIZE`), so `system_os_post` posts unless
an event waits already. `inFlight` counts the sends whose sent callback espconn
owes. Inputs of a function that are not in the state are its arguments: what
`espconn_send` returns, what a parser finds on the stack.

Left out: `security`, by which `espconn_secure_*` is called in place of
`espconn_*`; `outbound_message`, which is read only where it has just been set,
and `message_length`, likewise; the strings of the CONNECT message, which is an
argument; the memory that `mqtt_client_delete` frees; the debug output.
-/

namespace Nonos

/-- `tConnState`, the states that are set. -/
inductive MqttConnState where
  | wifiInit | tcpDisconnecting | tcpDisconnected | tcpReconnectDisconnecting | tcpReconnectReq | tcpReconnect
  | tcpConnecting | mqttConnectSending | mqttData | mqttKeepaliveSend | mqttDeleting | mqttDeleted
  deriving DecidableEq, Repr

/-- `mqtt_event_data_t`, as the application reads it: `none` for `NULL`. -/
structure MqttEventData where
  topic : Option (List Byte)
  topicLength : Nat
  data : Option (List Byte)
  dataLength : Nat
  deriving DecidableEq, Repr

/-- What the client asks of espconn and of the application. -/
inductive MqttOut where
  | connect | gethostbyname | disconnect | deletePcon | deleteClient
  | send (bytes : List Byte)
  | connectedCb | disconnectedCb | publishedCb | timeoutCb
  | dataCb (event : MqttEventData)
  deriving DecidableEq, Repr

/-- `MQTT_Client`, and what waits for it. -/
structure MqttClient where
  connState : MqttConnState
  mqttConnection : MqttConnection
  msgQueue : MqttRingbuf
  inBuffer : Mem Byte
  pendingMsgType : Nat
  pendingMsgId : BitVec 16
  keepAliveTick : Nat
  reconnectTick : Nat
  sendTimeout : Nat
  /-- `connect_info->keepalive` -/
  keepalive : Nat
  ip : Word
  /-- `UTILS_StrToIP` takes `host` for an address. -/
  hostIsIp : Bool
  pCon : Bool
  timerArmed : Bool
  posted : Bool
  inFlight : Nat
  out : List MqttOut

/-- `MQTT_SEND_TIMOUT` -/
def mqttSendTimeout : Nat := 5

/-- `MQTT_RECONNECT_TIMEOUT` -/
def mqttReconnectTimeout : Nat := 5

/-- `MQTT_InitClient`, after `MQTT_InitConnection`, with the queue's storage at `buf`. -/
def mqttInitClient (keepAliveTime : Nat) (hostIsIp : Bool) (mem : Mem Byte) (buf : Nat) : Option MqttClient :=
  (queueInit mem buf queueBufferSize).map fun msgQueue =>
    { connState := .wifiInit, mqttConnection := { messageId := 0, bufferLength := mqttBufSize }, msgQueue,
      inBuffer := fun _ => 0, pendingMsgType := 0, pendingMsgId := 0, keepAliveTick := 0, reconnectTick := 0,
      sendTimeout := 0, keepalive := keepAliveTime, ip := 0, hostIsIp, pCon := false, timerArmed := false,
      posted := true, inFlight := 0, out := [] }

namespace MqttClient

variable (c : MqttClient)

/-- `system_os_post` of the client's task. -/
def post : MqttClient := { c with posted := true }

/-- A call that leaves the client as it is. -/
def emit (o : MqttOut) : MqttClient := { c with out := c.out ++ [o] }

/-- `espconn_send`, which returns `ESPCONN_OK` if `ok`. -/
def send (bytes : List Byte) (ok : Bool) : MqttClient :=
  { c.emit (.send bytes) with inFlight := if ok then c.inFlight + 1 else c.inFlight }

/-- `deliver_publish`, of the message in `in_buffer`. -/
def deliverPublish (length : Nat) : MqttClient :=
  let (topic, topicLength) := mqttGetPublishTopic c.inBuffer length
  let (data, dataLength) := mqttGetPublishData c.inBuffer length
  c.emit (.dataCb { topic := topic.map (c.inBuffer.cells · topicLength), topicLength,
                    data := data.map (c.inBuffer.cells · dataLength), dataLength })

/-- `QUEUE_Puts` of an answer, whose failure is only reported. -/
def queueAnswer (answer : List Byte × MqttConnection) : MqttClient :=
  { c with mqttConnection := answer.2, msgQueue := (queuePuts c.msgQueue answer.1).2 }

/-- The `switch` over the type of a message received in `MQTT_DATA` or
`MQTT_KEEPALIVE_SEND`; the cases left out only report. -/
def recvData (msgType msgQos : Nat) (msgId : BitVec 16) (len : Nat) : MqttClient :=
  if msgType = mqttMsgTypePublish then
    let c :=
      if msgQos = 1 then c.queueAnswer (mqttMsgPuback c.mqttConnection msgId)
      else if msgQos = 2 then c.queueAnswer (mqttMsgPubrec c.mqttConnection msgId)
      else c
    c.deliverPublish len
  else if msgType = mqttMsgTypePubrec then c.queueAnswer (mqttMsgPubrel c.mqttConnection msgId)
  else if msgType = mqttMsgTypePubrel then c.queueAnswer (mqttMsgPubcomp c.mqttConnection msgId)
  else if msgType = mqttMsgTypePingreq then c.queueAnswer (mqttMsgPingresp, c.mqttConnection)
  else c

/-- `READPACKET` in `mqtt_tcpclient_recv`, with `n` bytes left at most. A message is
two bytes long at least, so every turn but the first leaves fewer. -/
def readPacket : Nat → MqttClient → List Byte → MqttClient
  | 0, c, _ => c
  | n + 1, c, pdata =>
    let len := pdata.length
    if len < mqttBufSize ∧ len > 0 then
      let c := { c with inBuffer := c.inBuffer.store 0 (pdata.getD · 0) len }
      let msgType := mqttGetType c.inBuffer
      let msgQos := mqttGetQos c.inBuffer
      let msgId := mqttGetId c.inBuffer mqttBufSize
      match c.connState with
      | .mqttConnectSending =>
        if msgType = mqttMsgTypeConnack then
          if c.pendingMsgType ≠ mqttMsgTypeConnect then c.emit .disconnect
          else { c with connState := .mqttData }.emit .connectedCb
        else c
      | .mqttData | .mqttKeepaliveSend =>
        let messageLength := mqttGetTotalLength c.inBuffer len
        let c := c.recvData msgType msgQos msgId len
        if msgType = mqttMsgTypePublish ∧ messageLength < len then readPacket n c (pdata.drop messageLength) else c
      | _ => c
    else c

/-- `mqtt_tcpclient_recv`. -/
def mqttTcpclientRecv (pdata : List Byte) : MqttClient :=
  (readPacket (pdata.length + 1) { c with keepAliveTick := 0 } pdata).post

/-- `mqtt_dns_found`. -/
def mqttDnsFound (ipaddr : Option Word) : MqttClient :=
  match ipaddr with
  | none => { c with connState := .tcpReconnectReq }
  | some addr =>
    if c.ip = 0 ∧ addr ≠ 0 then ({ c.emit .connect with connState := .tcpConnecting }).post else c.post

/-- `mqtt_send_keepalive`. -/
def mqttSendKeepalive (ok : Bool) : MqttClient :=
  let c := { c with pendingMsgType := mqttMsgTypePingreq, pendingMsgId := 0, sendTimeout := mqttSendTimeout }
  let c := c.send mqttMsgPingreq ok
  if ok then ({ c with keepAliveTick := 0, connState := .mqttData }).post
  else ({ c with connState := .tcpReconnectDisconnecting }).post

/-- `mqtt_tcpclient_delete`. -/
def mqttTcpclientDelete : MqttClient :=
  if c.pCon then { c.emit .deletePcon with pCon := false, inFlight := 0 } else c

/-- `mqtt_tcpclient_sent_cb`. -/
def mqttTcpclientSentCb : MqttClient :=
  let c := { c with sendTimeout := 0, keepAliveTick := 0 }
  (if (c.connState = .mqttData ∨ c.connState = .mqttKeepaliveSend) ∧ c.pendingMsgType = mqttMsgTypePublish
    then c.emit .publishedCb else c).post

/-- `mqtt_timer`. -/
def mqttTimer : MqttClient :=
  let c :=
    match c.connState with
    | .mqttData =>
      let c := { c with keepAliveTick := c.keepAliveTick + 1 }
      if c.keepAliveTick > c.keepalive then ({ c with connState := .mqttKeepaliveSend }).post else c
    | .tcpReconnectReq =>
      let c := { c with reconnectTick := c.reconnectTick + 1 }
      if c.reconnectTick > mqttReconnectTimeout
        then (({ c with reconnectTick := 0, connState := .tcpReconnect }).post).emit .timeoutCb
      else c
    | _ => c
  { c with sendTimeout := c.sendTimeout - 1 }

/-- `mqtt_tcpclient_discon_cb`; the connection's sends are gone with it. -/
def mqttTcpclientDisconCb : MqttClient :=
  let connState :=
    if c.connState = .tcpDisconnecting then .tcpDisconnected
    else if c.connState = .mqttDeleting then .mqttDeleted
    else .tcpReconnectReq
  (({ c with connState, inFlight := 0 }).emit .disconnectedCb).post

/-- `mqtt_tcpclient_connect_cb`, with the message `mqtt_msg_connect` builds. -/
def mqttTcpclientConnectCb (connect : List Byte) (ok : Bool) : MqttClient :=
  let buffer : Mem Byte := (connect.getD · 0)
  let c := { c with mqttConnection := { messageId := 0, bufferLength := mqttBufSize },
                    pendingMsgType := mqttGetType buffer, pendingMsgId := mqttGetId buffer connect.length,
                    sendTimeout := mqttSendTimeout }
  ({ c.send connect ok with connState := .mqttConnectSending }).post

/-- `mqtt_tcpclient_recon_cb`. -/
def mqttTcpclientReconCb : MqttClient := ({ c with connState := .tcpReconnectReq, inFlight := 0 }).post

/-- The loop that queues a message, and `system_os_post` if it succeeds. -/
def queueMessage (isBegin : Nat → Byte) (message : List Byte) : MqttClient :=
  match mqttQueueLoop isBegin message (c.msgQueue.fillCnt + 1) c.msgQueue with
  | none => c
  | some (false, msgQueue) => { c with msgQueue }
  | some (true, msgQueue) => ({ c with msgQueue }).post

/-- `MQTT_Publish`. -/
def mqttPublish (topic data : List Byte) (qos retain : Nat) (isBegin : Nat → Byte) : MqttClient :=
  let (message, messageId, mqttConnection) := mqttMsgPublish c.mqttConnection topic data qos retain
  let c := { c with mqttConnection, pendingMsgId := messageId.getD c.pendingMsgId }
  if message = [] then c else c.queueMessage isBegin message

/-- `MQTT_Subscribe`. -/
def mqttSubscribe (topic : List Byte) (qos : Nat) (isBegin : Nat → Byte) : MqttClient :=
  let (message, messageId, mqttConnection) := mqttMsgSubscribe c.mqttConnection topic qos
  ({ c with mqttConnection, pendingMsgId := messageId.getD c.pendingMsgId }).queueMessage isBegin message

/-- `MQTT_UnSubscribe`. -/
def mqttUnSubscribe (topic : List Byte) (isBegin : Nat → Byte) : MqttClient :=
  let (message, messageId, mqttConnection) := mqttMsgUnsubscribe c.mqttConnection topic
  ({ c with mqttConnection, pendingMsgId := messageId.getD c.pendingMsgId }).queueMessage isBegin message

/-- `MQTT_Ping`. -/
def mqttPing (isBegin : Nat → Byte) : MqttClient := c.queueMessage isBegin mqttMsgPingreq

/-- `MQTT_Connect`. -/
def mqttConnect : MqttClient :=
  let c := c.mqttTcpclientDelete
  let c := { c with pCon := true, keepAliveTick := 0, reconnectTick := 0, timerArmed := true }
  { c.emit (if c.hostIsIp then .connect else .gethostbyname) with connState := .tcpConnecting }

/-- `MQTT_Task`, once its event has been taken from the queue. -/
def mqttTask (isBegin : Byte) (ok : Bool) : MqttClient :=
  match c.connState with
  | .tcpReconnect => { c.mqttTcpclientDelete.mqttConnect with connState := .tcpConnecting }
  | .mqttDeleting | .tcpDisconnecting | .tcpReconnectDisconnecting => c.emit .disconnect
  | .tcpDisconnected => c.mqttTcpclientDelete
  | .mqttDeleted => c.mqttTcpclientDelete.emit .deleteClient
  | .mqttKeepaliveSend => c.mqttSendKeepalive ok
  | .mqttData =>
    if queueIsEmpty c.msgQueue ∨ c.sendTimeout ≠ 0 then c
    else
      match queueGets c.msgQueue isBegin mqttBufSize with
      | (none, msgQueue) => { c with msgQueue }
      | (some bytes, msgQueue) =>
        let buffer : Mem Byte := (bytes.getD · 0)
        let c := { c with msgQueue, pendingMsgType := mqttGetType buffer,
                          pendingMsgId := mqttGetId buffer bytes.length, sendTimeout := mqttSendTimeout }
        c.send bytes ok
  | _ => c

/-- `MQTT_Disconnect`. -/
def mqttDisconnect : MqttClient := { ({ c with connState := .tcpDisconnecting }).post with timerArmed := false }

/-- `MQTT_DeleteClient`. -/
def mqttDeleteClient : MqttClient := { ({ c with connState := .mqttDeleting }).post with timerArmed := false }

end MqttClient

end Nonos
