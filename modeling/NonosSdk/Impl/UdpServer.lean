import NonosSdk.Framework.Mem

/-!
# The LAN server (`app/user/user_udp_server.c`)

One espconn structure holds the peer of the last datagram, of Xlink's own
replies and of the responses from the bus. `UdpServer` has its `remote_ip` and
`remote_port`, what goes to the bus and what is passed to `XlinkSendUdpPipe`.
Addresses go through `ip_address_t`, a union of the word and its bytes, lowest
first. A buffer with its length is the list of its bytes; `NULL` is `none`.
-/

namespace Nonos

/-- `uint8 remote_ip[4]`. -/
structure IpBytes where
  byte0 : Byte
  byte1 : Byte
  byte2 : Byte
  byte3 : Byte
  deriving DecidableEq, Repr

/-- `ip_address_t`: the word of four bytes. -/
def IpBytes.ip (b : IpBytes) : Word := b.byte3 ++ b.byte2 ++ b.byte1 ++ b.byte0

/-- `ip_address_t`: the bytes of a word. -/
def IpBytes.ofIp (ip : Word) : IpBytes where
  byte0 := ip.extractLsb' 0 8
  byte1 := ip.extractLsb' 8 8
  byte2 := ip.extractLsb' 16 8
  byte3 := ip.extractLsb' 24 8

/-- A LAN peer, as espconn reports it (`remot_info`). -/
structure Peer where
  remoteIp : IpBytes
  remotePort : BitVec 16
  deriving DecidableEq, Repr

/-- `xlink_addr`. -/
structure XlinkAddr where
  sAddr : Word
  sinPort : BitVec 16
  deriving DecidableEq, Repr

structure UdpServer where
  remoteIp : IpBytes
  remotePort : Word
  /-- `user_udp_recv_pipe_cb` is `modbus_send`. -/
  recvPipeCb : Bool
  /-- `user_config.process_udp_data` is set. -/
  processUdpData : Bool
  /-- `process_udp_data` is running, for a datagram from this address. -/
  processing : Option XlinkAddr
  /-- The buffers given to `modbus_send`. -/
  requests : List (List Byte)
  /-- The calls of `XlinkSendUdpPipe`. -/
  pipes : List (List Byte × XlinkAddr)

namespace UdpServer

variable (u : UdpServer)

/-- `user_udp_server_init`; `UDP_REMOTE_PORT` is 6000. -/
def userUdpServerInit : UdpServer := { u with remoteIp := ⟨0, 0, 0, 0⟩, remotePort := 6000 }

/-- `user_udp_pipe_cb`; the address is not used. -/
def userUdpPipeCb (buffer : List Byte) : UdpServer :=
  if u.recvPipeCb then { u with requests := u.requests ++ [buffer] } else u

/-- The address in the espconn structure. -/
def remoteAddr : XlinkAddr := ⟨u.remoteIp.ip, u.remotePort.setWidth 16⟩

/-- `user_udp_recv_cb`, up to the call of `process_udp_data`; `info` is what
`espconn_get_connection_info` finds. -/
def userUdpRecvCb (pdata : Option (List Byte)) (info : Option Peer) : UdpServer :=
  match pdata, info with
  | none, _ | some [], _ | some (_ :: _), none => u
  | some (_ :: _), some premote =>
    let u := { u with remoteIp := premote.remoteIp, remotePort := premote.remotePort.setWidth 32 }
    if u.processUdpData then { u with processing := some u.remoteAddr } else u

/-- `user_udp_send`. -/
def userUdpSend (addr : XlinkAddr) : UdpServer :=
  { u with remoteIp := .ofIp addr.sAddr, remotePort := addr.sinPort.setWidth 32 }

/-- `user_udp_send_pipe`. -/
def userUdpSendPipe (pbuf : List Byte) : UdpServer :=
  { u with pipes := u.pipes ++ [(pbuf, u.remoteAddr)] }

end UdpServer

/-- What can happen to the server. -/
inductive UdpEvent where
  /-- A datagram. -/
  | recv (pdata : Option (List Byte)) (info : Option Peer)
  /-- Xlink takes the datagram being processed for a pipe request. -/
  | pipe (buffer : List Byte)
  /-- `process_udp_data` returns. -/
  | processed
  /-- Xlink sends. -/
  | send (addr : XlinkAddr)
  /-- `user_net_send_pipe`, on a response from the bus. -/
  | respond (pbuf : List Byte)

/-- An event that cannot happen is skipped: datagrams are processed one by one,
and Xlink calls `udp_pipe` only while it processes one. -/
def UdpServer.step (u : UdpServer) : UdpEvent → UdpServer
  | .recv pdata info => if u.processing = none then u.userUdpRecvCb pdata info else u
  | .pipe buffer => if u.processing = none then u else u.userUdpPipeCb buffer
  | .processed => { u with processing := none }
  | .send addr => u.userUdpSend addr
  | .respond pbuf => u.userUdpSendPipe pbuf

end Nonos
