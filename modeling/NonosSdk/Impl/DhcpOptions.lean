import NonosSdk.Framework.Record
import NonosSdk.Impl.DhcpServer

/-!
# The options of a DHCP message (`lwip/app/dhcpserver.c`)

`parse_options` and `parse_msg`. A pointer is an address in a byte memory, and
`client_address` is a word as in `ip.addr`. The loop also yields the values of `optptr`
and the addresses it has read; `os_memcmp` reads all four bytes.
-/

namespace Nonos

/-- `DHCPS_STATE_OFFER` and so on. -/
inductive DhcpdState where
  | offer
  | decline
  | ack
  | nak
  | idle
  | release
  deriving DecidableEq

/-- `DHCP_OPTION_REQ_IPADDR` -/
def dhcpOptionReqIpaddr : Byte := 50

/-- `DHCP_OPTION_MSG_TYPE` -/
def dhcpOptionMsgType : Byte := 53

/-- `DHCP_OPTION_END` -/
def dhcpOptionEnd : Byte := 255

/-- `DHCPDISCOVER` -/
def dhcpDiscover : BitVec 16 := 1

/-- `DHCPREQUEST` -/
def dhcpRequest : BitVec 16 := 3

/-- `DHCPDECLINE` -/
def dhcpDecline : BitVec 16 := 4

/-- `DHCPRELEASE` -/
def dhcpRelease : BitVec 16 := 7

/-- `magic_cookie` -/
def magicCookie : Word := 0x63538263

/-- `type` and `s.state` of `parse_options`. -/
structure DhcpsParse where
  type : BitVec 16
  state : DhcpdState
  deriving DecidableEq

/-- What the loop of `parse_options` leaves. -/
structure OptionsWalk extends DhcpsParse where
  /-- The values of `optptr` in the loop. -/
  visits : List Nat
  /-- The addresses read. -/
  reads : List Nat

/-- The `switch` of the loop. -/
def parseOption (client : Word) (mem : Mem Byte) (optptr : Nat) (v : DhcpsParse) : DhcpsParse :=
  if mem optptr = dhcpOptionMsgType then { v with type := (mem (optptr + 2)).setWidth 16 }
  else if mem optptr = dhcpOptionReqIpaddr then
    if mem.cells (optptr + 2) 4 = le32 client then { v with state := .ack } else { v with state := .nak }
  else v

/-- The addresses that the `switch` reads. -/
def optionReads (mem : Mem Byte) (optptr : Nat) : List Nat :=
  if mem optptr = dhcpOptionMsgType then [optptr, optptr + 2]
  else if mem optptr = dhcpOptionReqIpaddr then [optptr, optptr + 2, optptr + 3, optptr + 4, optptr + 5]
  else [optptr]

/-- The loop of `parse_options`, with as many iterations left as `fuel`. -/
def parseOptionsLoop (client : Word) (mem : Mem Byte) (limit : Nat) : Nat → Nat → DhcpsParse → OptionsWalk
  | 0, _, v => ⟨v, [], []⟩
  | fuel + 1, optptr, v =>
    if optptr < limit then
      if mem optptr = dhcpOptionEnd then ⟨v, [optptr], [optptr]⟩
      else
        let w := parseOptionsLoop client mem limit fuel (optptr + (mem (optptr + 1)).toNat + 2)
          (parseOption client mem optptr v)
        { w with visits := optptr :: w.visits, reads := optionReads mem optptr ++ (optptr + 1) :: w.reads }
    else ⟨v, [], []⟩

/-- `parse_options` up to its second `switch`. There is no iteration if `len` is negative,
and an iteration takes two bytes at least. -/
def optionsWalk (client : Word) (mem : Mem Byte) (optptr : Nat) (len : BitVec 16) : OptionsWalk :=
  parseOptionsLoop client mem (optptr + len.toInt.toNat) len.toInt.toNat optptr ⟨0, .idle⟩

/-- The second `switch` of `parse_options`. -/
def parseResult (renew : Bool) (s : DhcpsParse) : DhcpdState :=
  if s.type = dhcpDiscover then .offer
  else if s.type = dhcpRequest then
    if s.state = .ack ∨ s.state = .nak then s.state
    else if renew then .ack else .nak
  else if s.type = dhcpDecline then .idle
  else if s.type = dhcpRelease then .release
  else s.state

/-- `parse_options` -/
def parseOptions (client : Word) (renew : Bool) (mem : Mem Byte) (optptr : Nat) (len : BitVec 16) : DhcpdState :=
  parseResult renew (optionsWalk client mem optptr len).toDhcpsParse

/-- The word at `a`. -/
def loadWord (mem : Mem Byte) (a : Nat) : Word := mem (a + 3) ++ mem (a + 2) ++ mem (a + 1) ++ mem a

/-- The hardware address at `a`. -/
def loadMac (mem : Mem Byte) (a : Nat) : BitVec 48 :=
  mem a ++ mem (a + 1) ++ mem (a + 2) ++ mem (a + 3) ++ mem (a + 4) ++ mem (a + 5)

namespace DhcpsMsg

/-- The offset of `ciaddr` in a `struct dhcps_msg`. -/
def ciaddr : Nat := 12

/-- The offset of `chaddr`. -/
def chaddr : Nat := 28

/-- The offset of `options`. -/
def options : Nat := 236

end DhcpsMsg

/-- `parse_msg`, for the message at `m`, and `client_address` after it; no state is a 0. -/
def parseMsg (s : DhcpServer) (clientAddress : Word) (mem : Mem Byte) (m : Nat) (len : BitVec 16) :
    Option DhcpdState × Word × DhcpServer :=
  if mem.cells (m + DhcpsMsg.options) 4 = le32 magicCookie then
    let ip := loadWord mem (m + DhcpsMsg.ciaddr)
    let mac := loadMac mem (m + DhcpsMsg.chaddr)
    let (clientAddress, s) := s.wifiSoftapDhcpsClientUpdate mac (some ip)
    let ret := parseOptions clientAddress s.renew mem (m + DhcpsMsg.options + 4) len
    if ret = .release then (some ret, ip, s.wifiSoftapDhcpsClientLeave mac ip true)
    else (some ret, clientAddress, s)
  else (none, clientAddress, s)

end Nonos
