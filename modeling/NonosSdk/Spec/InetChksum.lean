import NonosSdk.Framework.Mem

/-!
# The Internet checksum

The bytes are taken as 16-bit words in network order, a last odd byte with a
zero behind it, and the words are added with the carry brought round. TCP and
UDP add the words of a pseudo-header: the addresses, the protocol and the length
of what follows.
-/

namespace Nonos.Spec

/-- The words of a byte string. -/
def netWords : List Byte → List Nat
  | [] => []
  | [b] => [b.toNat * 256]
  | b :: c :: bs => (b.toNat * 256 + c.toNat) :: netWords bs

/-- Addition with the carry brought round. -/
def onesAdd (a b : Nat) : Nat := if a + b < 65536 then a + b else a + b - 65535

/-- The sum of a byte string. -/
def inetSum (bs : List Byte) : Nat := (netWords bs).foldl onesAdd 0

/-- The pseudo-header; the addresses are as they are in the packet. -/
def pseudoHeader (src dest : List Byte) (proto : Byte) (length : BitVec 16) : List Byte :=
  src ++ dest ++ [0, proto, (length >>> 8).setWidth 8, length.setWidth 8]

end Nonos.Spec
