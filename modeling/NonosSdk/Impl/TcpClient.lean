import NonosSdk.Impl.RingBuffer

/-!
# The cloud client (`app/user/user_tcp_client.c`)

The client's static variables, the part of espconn, of smartconfig
(`user_smartconfig.c`) and of the key (`user_key.c`) that they interact with,
and the functions that change them. Every call of `espconn_connect` carries
its outcome: whether it starts an attempt, if no connection exists.

Left out: what Xlink does with `setServerStatus`, `xsdk_closeTCP` and
`process_tcp_data` (its status reports are events of their own), the debug
output, the Wi-Fi calls of smartconfig (the Wi-Fi's answers are inputs here),
and `user_tcp_send`, which changes none of this state.
-/

namespace Nonos

/-- What espconn holds for `user_tcp_client`. -/
inductive Link where
  | none
  | connecting
  | connected
  | closing
  deriving DecidableEq, Repr

/-- `XLINK_APP_STATUS`. -/
inductive XlinkAppStatus where
  | proTestcomplete
  | connectServer
  | disconnctServer
  | appConnect
  | appDisconnect
  | appTimeout
  | loginSuccess
  deriving DecidableEq, Repr

/-- `sc_status`. -/
inductive ScStatus where
  | wait
  | findChannel
  | gettingSsidPswd
  | link
  | linkOver
  deriving DecidableEq, Repr

/-- `wifi_get_opmode`. -/
inductive WifiMode where
  | null
  | station
  | softap
  | stationap
  deriving DecidableEq, Repr

/-- `wifi_station_get_connect_status`. -/
inductive StationStatus where
  | idle
  | connecting
  | wrongPassword
  | noApFound
  | connectFail
  | gotIp
  deriving DecidableEq, Repr

/-- What `user_tcp_func_process` asks of the Wi-Fi and of the clock. -/
structure Wifi where
  mode : WifiMode
  status : StationStatus
  ip : Word
  time : Word

/-- `TCP_SEND_BUFFER_SIZE`. -/
def tcpSendBufferSize : Word := 1024

/-- The client: its static variables, its connection, and what it has passed
to Xlink. `tcp_send_buffer` is at `sendBuffer`, in the memory of `ring`. -/
structure TcpClient where
  sendBuffer : Nat
  ring : RbState
  reconnCnt : BitVec 8
  isConnectServer : Bool
  flagDnsDiscovery : Bool
  isDnsFound : Bool
  remoteIp : Word
  /-- `dns_timer` is armed. -/
  dnsTimer : Bool
  /-- `espconn_gethostbyname` queries without an answer yet. -/
  queries : Nat
  /-- `user_tcp_client.proto.tcp->remote_ip`. -/
  peerIp : Word
  link : Link
  /-- The addresses of the `espconn_connect` calls. -/
  connects : List Word
  smartconfigStatus : Bool
  /-- `sc_timer` is armed. -/
  scTimer : Bool
  gpio12 : Bool
  /-- The payloads of the `XlinkSendTcpPipe2` calls. -/
  pipe2 : List (List Byte)
  /-- The times of the `XlinkSystemLoop` calls. -/
  loopTimes : List Word
  /-- `user_tcp_func_process` is inside `XlinkSystemLoop`. -/
  inLoop : Bool

namespace TcpClient

variable (c : TcpClient)

/-! ## espconn -/

/-- `espconn_connect`: refused while a connection exists (its local port is
in use); otherwise it starts an attempt, or fails at once (`ok = false`). -/
def espconnConnect (ok : Bool) : TcpClient :=
  { c with connects := c.connects ++ [c.peerIp],
           link := if c.link = .none ∧ ok then .connecting else c.link }

/-- `espconn_disconnect`: closes an attempt or a connection; nothing without
one, or while it is closing. -/
def espconnDisconnect : TcpClient :=
  { c with link := match c.link with
      | .connecting | .connected => .closing
      | l => l }

/-! ## Reconnecting -/

/-- `user_tcp_reconnect`. -/
def userTcpReconnect (ok : Bool) : TcpClient :=
  if c.smartconfigStatus then { c with reconnCnt := 0 }
  else
    let c := { c with reconnCnt := c.reconnCnt + 1 }
    let c := c.espconnDisconnect
    if c.reconnCnt > 5 then
      { c with reconnCnt := 0, isDnsFound := false, isConnectServer := false, flagDnsDiscovery := false }
    else c.espconnConnect ok

/-- `user_tcp_status`. -/
def userTcpStatus (status : XlinkAppStatus) (ok : Bool) : TcpClient :=
  match status with
  | .disconnctServer => { c with isConnectServer := false }.userTcpReconnect ok
  | .loginSuccess => { c with isConnectServer := true }
  | .appConnect | .appDisconnect | .appTimeout | .connectServer | .proTestcomplete => c

/-! ## Name resolution -/

/-- `user_tcp_dns_found`; `none` is the `NULL` address. -/
def userTcpDnsFound (ip : Option Word) (ok : Bool) : TcpClient :=
  let c := { c with reconnCnt := 0, isConnectServer := false, flagDnsDiscovery := false }
  match ip with
  | none => c
  | some addr =>
    if addr = 0 then c
    else { c with remoteIp := addr, dnsTimer := false, isDnsFound := true, peerIp := addr }.espconnConnect ok

/-- `user_tcp_dns_check_cb`, run by `dns_timer`. -/
def userTcpDnsCheckCb : TcpClient := { c with queries := c.queries + 1 }

/-- `user_tcp_start_dns`. -/
def userTcpStartDns : TcpClient := { c with remoteIp := 0, dnsTimer := true }

/-! ## The uplink -/

/-- `user_tcp_send_pipe`. -/
def userTcpSendPipe (pbuf : Nat → Byte) (len : BitVec 16) : TcpClient :=
  if c.isConnectServer then { c with ring := (userRbPut c.ring pbuf (len.setWidth 32)).2 } else c

/-- `user_rb_get( &tcp_rb_send, tcp_send_buffer, len )`, and the toggling of
pin 12 before it. -/
def sendLoopGet (len : Word) : TcpClient :=
  { c with gpio12 := !c.gpio12, ring := (userRbGet c.ring c.sendBuffer len).2 }

/-- `XlinkSendTcpPipe2( tcp_send_buffer, len )`. -/
def xlinkSendTcpPipe2 (len : Word) : TcpClient :=
  { c with pipe2 := c.pipe2 ++ [c.ring.mem.cells c.sendBuffer len.toNat] }

/-- `user_tcp_send_loop`. -/
def userTcpSendLoop : TcpClient :=
  if c.isConnectServer then
    let len := userRbUnreadSize c.ring.rb
    if len = 0 then c else (c.sendLoopGet len).xlinkSendTcpPipe2 len
  else c

/-! ## The periodic task -/

/-- `user_tcp_func_process` up to the call of `XlinkSystemLoop`; `inLoop` if it
makes that call. -/
def funcProcessHead (w : Wifi) : TcpClient :=
  if w.mode = .station then
    if w.status = .gotIp ∧ w.ip ≠ 0 then
      let c :=
        if c.flagDnsDiscovery = false ∧ c.isDnsFound = false then
          { c with flagDnsDiscovery := true, reconnCnt := 0 }.userTcpStartDns
        else c
      { c with loopTimes := c.loopTimes ++ [w.time / 1000000], inLoop := true }
    else c
  else { c with reconnCnt := 0, isConnectServer := false, flagDnsDiscovery := false, isDnsFound := false }

/-- `user_tcp_func_process` after `XlinkSystemLoop` has returned. -/
def funcProcessTail : TcpClient := { c.userTcpSendLoop with inLoop := false }

/-- `user_tcp_func_process`, where `XlinkSystemLoop` reports the statuses
`calls`. -/
def userTcpFuncProcess (w : Wifi) (calls : List (XlinkAppStatus × Bool)) : TcpClient :=
  let c := c.funcProcessHead w
  if c.inLoop then (calls.foldl (fun c s => c.userTcpStatus s.1 s.2) c).funcProcessTail else c

/-! ## Callbacks of espconn -/

/-- `user_tcp_connect_cb`: the attempt has succeeded. -/
def userTcpConnectCb : TcpClient := { c with link := .connected, reconnCnt := 0 }

/-- `user_tcp_disconnect_cb`: the connection is gone. -/
def userTcpDisconnectCb (ok : Bool) : TcpClient := { c with link := .none }.userTcpReconnect ok

/-- `user_tcp_reconnect_cb`: the attempt has failed, or the connection has
broken. -/
def userTcpReconnectCb (ok : Bool) : TcpClient := { c with link := .none }.userTcpReconnect ok

/-! ## The key and smartconfig -/

/-- `user_tcp_disconnect`. -/
def userTcpDisconnect : TcpClient := c.espconnDisconnect

/-- `user_smartconfig_start`. -/
def userSmartconfigStart : TcpClient := { c with smartconfigStatus := true, scTimer := true }

/-- `user_smartconfig_timeout_cb`. -/
def userSmartconfigTimeoutCb : TcpClient := { c with scTimer := false, smartconfigStatus := false }

/-- `user_smartconfig_done`. -/
def userSmartconfigDone (status : ScStatus) : TcpClient :=
  match status with
  | .linkOver => { c with scTimer := false, smartconfigStatus := false }
  | .wait | .findChannel | .gettingSsidPswd | .link => c

/-- `user_key_short_press`. -/
def userKeyShortPress : TcpClient := c.userTcpDisconnect.userSmartconfigStart

end TcpClient

/-- The static variables at start, and `user_tcp_client_init`; the address of
`tcp_send_buffer` is `buf`. -/
def userTcpClientInit (m : Mem Byte) (buf : Nat) : TcpClient where
  sendBuffer := buf
  ring := userRbInit ⟨m, ⟨0, 0, 0, 0, false⟩⟩ buf tcpSendBufferSize
  reconnCnt := 0
  isConnectServer := false
  flagDnsDiscovery := false
  isDnsFound := false
  remoteIp := 0
  dnsTimer := false
  queries := 0
  peerIp := 0
  link := .none
  connects := []
  smartconfigStatus := false
  scTimer := false
  gpio12 := false
  pipe2 := []
  loopTimes := []
  inLoop := false

/-! ## Events -/

/-- What can happen to the client. `ok` is the outcome of the `espconn_connect`
that the event may lead to. -/
inductive TcpEvent where
  /-- `user_tcp_func_process`, up to `XlinkSystemLoop`. -/
  | tick (w : Wifi)
  /-- `XlinkSystemLoop` returns. -/
  | loopEnd
  /-- Xlink reports a status, from its loop or on data from the server. -/
  | status (s : XlinkAppStatus) (ok : Bool)
  /-- `dns_timer` fires. -/
  | dnsTimer
  /-- A query is answered. -/
  | dnsFound (ip : Option Word) (ok : Bool)
  | connectCb
  | disconnectCb (ok : Bool)
  | reconnectCb (ok : Bool)
  | keyShortPress
  | smartconfigDone (s : ScStatus)
  /-- `sc_timer` fires. -/
  | smartconfigTimeout
  /-- A Modbus frame from the UART interrupt. -/
  | sendPipe (pbuf : Nat → Byte) (len : BitVec 16)

namespace TcpClient

/-- When an event can happen: a timer fires while it is armed, an answer follows
a query, espconn calls back as its link allows, and inside `XlinkSystemLoop`
only Xlink and the UART interrupt get to run. -/
def Enabled (c : TcpClient) : TcpEvent → Prop
  | .status _ _ | .sendPipe _ _ => True
  | .loopEnd => c.inLoop = true
  | .tick _ | .keyShortPress | .smartconfigDone _ => c.inLoop = false
  | .dnsTimer => c.inLoop = false ∧ c.dnsTimer = true
  | .dnsFound _ _ => c.inLoop = false ∧ 0 < c.queries
  | .connectCb => c.inLoop = false ∧ c.link = .connecting
  | .disconnectCb _ => c.inLoop = false ∧ (c.link = .connected ∨ c.link = .closing)
  | .reconnectCb _ => c.inLoop = false ∧ (c.link = .connecting ∨ c.link = .connected)
  | .smartconfigTimeout => c.inLoop = false ∧ c.scTimer = true

instance (c : TcpClient) : (e : TcpEvent) → Decidable (c.Enabled e)
  | .status _ _ | .sendPipe _ _ => inferInstanceAs (Decidable True)
  | .loopEnd => inferInstanceAs (Decidable (_ = _))
  | .tick _ | .keyShortPress | .smartconfigDone _ => inferInstanceAs (Decidable (_ = _))
  | .dnsTimer | .dnsFound _ _ | .connectCb | .disconnectCb _ | .reconnectCb _ | .smartconfigTimeout =>
    inferInstanceAs (Decidable (_ ∧ _))

/-- The code that runs on an event. -/
def handle (c : TcpClient) : TcpEvent → TcpClient
  | .tick w => c.funcProcessHead w
  | .loopEnd => c.funcProcessTail
  | .status s ok => c.userTcpStatus s ok
  | .dnsTimer => c.userTcpDnsCheckCb
  | .dnsFound ip ok => { c with queries := c.queries - 1 }.userTcpDnsFound ip ok
  | .connectCb => c.userTcpConnectCb
  | .disconnectCb ok => c.userTcpDisconnectCb ok
  | .reconnectCb ok => c.userTcpReconnectCb ok
  | .keyShortPress => c.userKeyShortPress
  | .smartconfigDone s => c.userSmartconfigDone s
  | .smartconfigTimeout => c.userSmartconfigTimeoutCb
  | .sendPipe pbuf len => c.userTcpSendPipe pbuf len

/-- An event that cannot happen is skipped. -/
def step (c : TcpClient) (e : TcpEvent) : TcpClient := if c.Enabled e then c.handle e else c

end TcpClient

end Nonos
