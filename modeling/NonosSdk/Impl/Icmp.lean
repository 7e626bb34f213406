import NonosSdk.Impl.InetChksum

/-!
# Echo requests (`lwip/core/ipv4/icmp.c`)

What `icmp_input` does with an echo request: its checks, and the reply, made in
place of the request. `accepted` is whether the request came to an address of
the interface rather than to a broadcast or multicast one.

Left out: a reply for which no pbuf can be had, and the move to a pbuf with room
for the link header, which keeps the bytes.
-/

namespace Nonos

/-- `ICMP_ER` -/
def icmpEr : Byte := 0
/-- `ICMP_ECHO` -/
def icmpEcho : Byte := 8
/-- `ICMP_TTL` -/
def icmpTtl : Byte := 128

/-- A 16-bit field in memory. -/
def halfBytes (h : BitVec 16) : List Byte := [h.setWidth 8, (h >>> 8).setWidth 8]

/-- The bytes of an address in memory. -/
def addrBytes (addr : Word) : List Byte :=
  [addr.setWidth 8, (addr >>> 8).setWidth 8, (addr >>> 16).setWidth 8, (addr >>> 24).setWidth 8]

/-- `struct ip_hdr`, its fields as they are loaded. -/
structure IpHdr where
  vHlTos : BitVec 16
  len : BitVec 16
  id : BitVec 16
  offset : BitVec 16
  ttl : Byte
  proto : Byte
  chksum : BitVec 16
  src : Word
  dest : Word

/-- The header in memory. -/
def IpHdr.bytes (h : IpHdr) : List Byte :=
  halfBytes h.vHlTos ++ halfBytes h.len ++ halfBytes h.id ++ halfBytes h.offset ++ [h.ttl, h.proto] ++
    halfBytes h.chksum ++ (addrBytes h.src ++ addrBytes h.dest)

/-- The checksum of the reply, from that of the request. -/
def icmpAdjust (chksum : BitVec 16) : BitVec 16 :=
  if chksum ≥ htons (0xffff - (icmpEcho.setWidth 16 <<< 8)) then chksum + (htons (icmpEcho.setWidth 16 <<< 8) + 1)
  else chksum + htons (icmpEcho.setWidth 16 <<< 8)

/-- The header of the reply; `IP_HLEN` bytes are summed. -/
def icmpReplyHdr (payload : Nat) (iphdr : IpHdr) : IpHdr :=
  let iphdr := { iphdr with src := iphdr.dest, dest := iphdr.src, ttl := icmpTtl, chksum := 0 }
  { iphdr with chksum := inetChksum payload iphdr.bytes }

/-- `icmp_input`: the header and the data of the reply to an echo request. -/
def icmpInput (accepted : Bool) (payload : Nat) (iphdr : IpHdr) (p : List Pbuf) : Option (IpHdr × List Byte) :=
  match pbufData p with
  | type :: code :: c0 :: c1 :: data =>
    if type = icmpEcho then
      if !accepted then none
      else if (pbufData p).length < 8 then none
      else if inetChksumPbuf p ≠ 0 then none
      else some (icmpReplyHdr payload iphdr, icmpEr :: code :: (halfBytes (icmpAdjust (c1 ++ c0)) ++ data))
    else none
  | _ => none

end Nonos
