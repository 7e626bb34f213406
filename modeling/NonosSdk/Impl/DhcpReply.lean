import NonosSdk.Framework.Writes
import NonosSdk.Impl.DhcpOptions

/-!
# The replies of the DHCP server (`lwip/app/dhcpserver.c`)

`handle_dhcp` copies a datagram into a message that it allocates at `m`, and makes the
reply in its place; `mem` is the heap. There is memory for the message and for the
pbuf of the reply, as the code assumes of the leases. The configuration has `USE_DNS`,
and a class C network.
-/

namespace Nonos

namespace DhcpsMsg

/-- The offset of `xid` in a `struct dhcps_msg`. -/
def xid : Nat := 4

/-- The offset of `secs`. -/
def secs : Nat := 8

/-- The offset of `flags`. -/
def flags : Nat := 10

/-- The offset of `yiaddr`. -/
def yiaddr : Nat := 16

/-- The offset of `siaddr`. -/
def siaddr : Nat := 20

/-- The offset of `giaddr`. -/
def giaddr : Nat := 24

/-- The offset of `sname`. -/
def sname : Nat := 44

/-- The offset of `file`. -/
def file : Nat := 108

/-- `sizeof(struct dhcps_msg)` -/
def size : Nat := 548

end DhcpsMsg

/-- `DHCP_REPLY` -/
def dhcpReply : Byte := 2

/-- `DHCP_HTYPE_ETHERNET` -/
def dhcpHtypeEthernet : Byte := 1

/-- `BOOTP_BROADCAST` -/
def bootpBroadcast : BitVec 16 := 0x8000

/-- `DHCPOFFER` -/
def dhcpOffer : Byte := 2

/-- `DHCPACK` -/
def dhcpAck : Byte := 5

/-- `DHCPNAK` -/
def dhcpNak : Byte := 6

/-- `DHCP_OPTION_SUBNET_MASK` -/
def dhcpOptionSubnetMask : Byte := 1

/-- `DHCP_OPTION_ROUTER` -/
def dhcpOptionRouter : Byte := 3

/-- `DHCP_OPTION_DNS_SERVER` -/
def dhcpOptionDnsServer : Byte := 6

/-- `DHCP_OPTION_INTERFACE_MTU` -/
def dhcpOptionInterfaceMtu : Byte := 26

/-- `DHCP_OPTION_BROADCAST_ADDRESS` -/
def dhcpOptionBroadcastAddress : Byte := 28

/-- `DHCP_OPTION_PERFORM_ROUTER_DISCOVERY` -/
def dhcpOptionPerformRouterDiscovery : Byte := 31

/-- `DHCP_OPTION_LEASE_TIME` -/
def dhcpOptionLeaseTime : Byte := 51

/-- `DHCP_OPTION_SERVER_ID` -/
def dhcpOptionServerId : Byte := 54

/-- What the server says of the network. -/
structure DhcpsNet where
  serverAddress : Word
  /-- The gateway of `SOFTAP_IF`. -/
  gw : Word
  offer : Byte

/-- `dhcps_router_enabled`; `OFFER_ROUTER` is 1. -/
def dhcpsRouterEnabled (offer : Byte) : Bool := offer &&& 1 ≠ 0

/-- The memory, and `optptr`. -/
abbrev OptCursor := Mem Byte × Nat

/-- `add_msg_type` -/
def addMsgType (optptr : OptCursor) (type : Byte) : OptCursor := Mem.emit optptr [dhcpOptionMsgType, 1, type]

/-- `add_offer_options` -/
def addOfferOptions (net : DhcpsNet) (dhcpsLeaseTime : Word) (optptr : OptCursor) : OptCursor :=
  let ipadd := le32 net.serverAddress
  let time := dhcpsLeaseTime * 60
  let optptr := Mem.emit optptr [dhcpOptionSubnetMask, 4, 255, 255, 255, 0]
  let optptr := Mem.emit optptr [dhcpOptionLeaseTime, 4, ((time >>> 24) &&& 0xFF).setWidth 8,
    ((time >>> 16) &&& 0xFF).setWidth 8, ((time >>> 8) &&& 0xFF).setWidth 8, (time &&& 0xFF).setWidth 8]
  let optptr := Mem.emit optptr ([dhcpOptionServerId, 4] ++ ipadd)
  let optptr := if dhcpsRouterEnabled net.offer then Mem.emit optptr ([dhcpOptionRouter, 4] ++ le32 net.gw) else optptr
  let optptr := Mem.emit optptr ([dhcpOptionDnsServer, 4] ++ ipadd)
  let optptr := Mem.emit optptr ([dhcpOptionBroadcastAddress, 4] ++ ipadd.take 3 ++ [255])
  let optptr := Mem.emit optptr [dhcpOptionInterfaceMtu, 2, 0x02, 0x40]
  let optptr := Mem.emit optptr [dhcpOptionPerformRouterDiscovery, 1, 0x00]
  Mem.emit optptr [43, 6, 0x01, 4, 0x00, 0x00, 0x00, 0x02]

/-- `add_end` -/
def addEnd (optptr : OptCursor) : OptCursor := Mem.emit optptr [dhcpOptionEnd]

/-- `create_msg` -/
def createMsg (clientAddress : Word) (mem : Mem Byte) (m : Nat) : Mem Byte :=
  -- `op`, `htype`, `hlen` and `hops`
  let mem := mem.put m [dhcpReply, dhcpHtypeEthernet, 6, 0]
  let mem := mem.put (m + DhcpsMsg.secs) [0, 0]
  -- `htons`
  let mem := mem.put (m + DhcpsMsg.flags) [(bootpBroadcast >>> 8).setWidth 8, bootpBroadcast.setWidth 8]
  let mem := mem.put (m + DhcpsMsg.yiaddr) (le32 clientAddress)
  let mem := mem.memset (m + DhcpsMsg.ciaddr) 0 4
  let mem := mem.memset (m + DhcpsMsg.siaddr) 0 4
  let mem := mem.memset (m + DhcpsMsg.giaddr) 0 4
  let mem := mem.memset (m + DhcpsMsg.sname) 0 64
  let mem := mem.memset (m + DhcpsMsg.file) 0 128
  let mem := mem.memset (m + DhcpsMsg.options) 0 312
  mem.put (m + DhcpsMsg.options) (le32 magicCookie)

/-- `send_offer`, up to the pbuf. -/
def sendOffer (net : DhcpsNet) (dhcpsLeaseTime clientAddress : Word) (mem : Mem Byte) (m : Nat) : Mem Byte :=
  let optptr := addMsgType (createMsg clientAddress mem m, m + DhcpsMsg.options + 4) dhcpOffer
  (addEnd (addOfferOptions net dhcpsLeaseTime optptr)).1

/-- `send_nak`, up to the pbuf. -/
def sendNak (clientAddress : Word) (mem : Mem Byte) (m : Nat) : Mem Byte :=
  let optptr := addMsgType (createMsg clientAddress mem m, m + DhcpsMsg.options + 4) dhcpNak
  (addEnd optptr).1

/-- `send_ack`, up to the pbuf. -/
def sendAck (net : DhcpsNet) (dhcpsLeaseTime clientAddress : Word) (mem : Mem Byte) (m : Nat) : Mem Byte :=
  let optptr := addMsgType (createMsg clientAddress mem m, m + DhcpsMsg.options + 4) dhcpAck
  (addEnd (addOfferOptions net dhcpsLeaseTime optptr)).1

/-- The reply to a message, and its bytes. -/
def dhcpsReply (net : DhcpsNet) (dhcpsLeaseTime clientAddress : Word) (mem : Mem Byte) (m : Nat) (ret : Option DhcpdState) :
    Option (List Byte) :=
  match ret with
  | some .offer => some ((sendOffer net dhcpsLeaseTime clientAddress mem m).cells m DhcpsMsg.size)
  | some .ack => some ((sendAck net dhcpsLeaseTime clientAddress mem m).cells m DhcpsMsg.size)
  | some .nak => some ((sendNak clientAddress mem m).cells m DhcpsMsg.size)
  | _ => none

/-- The message of `handle_dhcp`, with these bytes copied into it. -/
def dhcpsReceived (mem : Mem Byte) (m : Nat) (data : List Byte) : Mem Byte := (mem.memset m 0 DhcpsMsg.size).put m data

/-- `handle_dhcp`, for the pbufs of a datagram: the bytes of the reply, if there is one, `client_address`, and the
leases. Only the first two pbufs are copied; there is no result if they do not fit the message, which is written
past its end. -/
def handleDhcp (net : DhcpsNet) (s : DhcpServer) (clientAddress : Word) (mem : Mem Byte) (m : Nat)
    (p : List (List Byte)) : Option (Option (List Byte) × Word × DhcpServer) :=
  let data := (p.take 2).flatten
  if data.length > DhcpsMsg.size then none
  else
    let tlen := BitVec.ofNat 16 p.flatten.length
    let mem := dhcpsReceived mem m data
    let (ret, clientAddress, s) := parseMsg s clientAddress mem m (tlen - 240)
    some (dhcpsReply net s.dhcpsLeaseTime clientAddress mem m ret, clientAddress, s)

end Nonos
