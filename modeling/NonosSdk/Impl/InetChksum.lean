import NonosSdk.Framework.Mem

/-!
# Checksums of lwIP (`lwip/core/ipv4/inet_chksum.c`)

The three versions of `lwip_standard_chksum`, of which `LWIP_CHKSUM_ALGORITHM`
selects the second, and the checksums of packets that are built on it. The data
are given by their address, of which only the alignment counts, and their bytes.
The processor is little-endian.

Left out: `LWIP_CHKSUM_COPY`, which `LWIP_CHECKSUM_ON_COPY` leaves out.
-/

namespace Nonos

/-- `LWIP_PLATFORM_HTONS` -/
def lwipPlatformHtons (n : Word) : BitVec 16 := (((n &&& 0xff) <<< 8) ||| ((n >>> 8) &&& 0xff)).setWidth 16

/-- `htons`. -/
def htons (n : BitVec 16) : BitVec 16 := lwipPlatformHtons (n.setWidth 32)

/-- `FOLD_U32T` -/
def foldU32t (u : Word) : Word := (u >>> 16) + (u &&& 0xffff)

/-- `SWAP_BYTES_IN_WORD` -/
def swapBytesInWord (w : Word) : Word := (lwipPlatformHtons w).setWidth 32

/-- A 16-bit load. -/
def load16 (b0 b1 : Byte) : Word := (b1 ++ b0 : BitVec 16).setWidth 32

/-- A 32-bit load. -/
def load32 (b0 b1 b2 b3 : Byte) : Word := b3 ++ b2 ++ b1 ++ b0

/-- The loop of the first version, over network words: `acc`, and the bytes left. -/
def chksumNetLoop (acc : Word) : List Byte → Word × List Byte
  | b0 :: b1 :: rest =>
    let src : BitVec 16 := (b0.setWidth 16 <<< 8) ||| b1.setWidth 16
    chksumNetLoop (acc + src.setWidth 32) rest
  | rest => (acc, rest)

/-- `lwip_standard_chksum`, version 1. -/
def lwipStandardChksum1 (data : List Byte) : BitVec 16 :=
  let (acc, rest) := chksumNetLoop 0 data
  let acc : Word := match rest with
    | b :: _ => acc + (b.setWidth 16 <<< 8 : BitVec 16).setWidth 32
    | [] => acc
  let acc := (acc >>> 16) + (acc &&& 0xffff)
  let acc := if acc &&& 0xffff0000 ≠ 0 then (acc >>> 16) + (acc &&& 0xffff) else acc
  htons (acc.setWidth 16)

/-- The loop of the other versions over 16-bit words. -/
def chksumLoop (sum : Word) : List Byte → Word × List Byte
  | b0 :: b1 :: rest => chksumLoop (sum + load16 b0 b1) rest
  | rest => (sum, rest)

/-- The byte before the first aligned word, which goes to the high byte of `t`. -/
def chksumHead (odd : Bool) : List Byte → Byte × List Byte
  | b :: rest => if odd then (b, rest) else (0, b :: rest)
  | [] => (0, [])

/-- The end of both: a last byte goes to the low byte of `t`, the ends are added. -/
def chksumEnd (odd : Bool) (t1 : Byte) (sum : Word) (rest : List Byte) : BitVec 16 :=
  let sum := sum + load16 (rest.headD 0) t1
  let sum := foldU32t (foldU32t sum)
  (if odd then swapBytesInWord sum else sum).setWidth 16

/-- `lwip_standard_chksum`, version 2. -/
def lwipStandardChksum2 (dataptr : Nat) (data : List Byte) : BitVec 16 :=
  let odd := decide (dataptr % 2 = 1)
  let (t1, data) := chksumHead odd data
  let (sum, rest) := chksumLoop 0 data
  chksumEnd odd t1 sum rest

/-- A 32-bit addition that adds the carry back. -/
def addCarry (sum l : Word) : Word :=
  let tmp := sum + l
  if tmp < sum then tmp + 1 else tmp

/-- The loop of the third version, over 8 bytes at a time. -/
def chksumLongLoop (sum : Word) : List Byte → Word × List Byte
  | b0 :: b1 :: b2 :: b3 :: b4 :: b5 :: b6 :: b7 :: rest =>
    chksumLongLoop (addCarry (addCarry sum (load32 b0 b1 b2 b3)) (load32 b4 b5 b6 b7)) rest
  | rest => (sum, rest)

/-- The word before the first 4-byte boundary, from `ps`. -/
def chksumWord (ps : Nat) : List Byte → Word × List Byte
  | b0 :: b1 :: rest => if ps % 4 ≠ 0 then (load16 b0 b1, rest) else (0, b0 :: b1 :: rest)
  | rest => (0, rest)

/-- `lwip_standard_chksum`, version 3. -/
def lwipStandardChksum3 (dataptr : Nat) (data : List Byte) : BitVec 16 :=
  let odd := decide (dataptr % 2 = 1)
  let (t1, rest) := chksumHead odd data
  let ps := if odd ∧ data ≠ [] then dataptr + 1 else dataptr
  let (sum, rest) := chksumWord ps rest
  let (sum, rest) := chksumLongLoop sum rest
  let (sum, rest) := chksumLoop (foldU32t sum) rest
  chksumEnd odd t1 sum rest

/-- `LWIP_CHKSUM` -/
def lwipChksum : Nat → List Byte → BitVec 16 := lwipStandardChksum2

/-- A pbuf: `payload`, and the `len` bytes there. -/
structure Pbuf where
  payload : Nat
  bytes : List Byte
  len_lt : bytes.length < 2 ^ 16

/-- The bytes of a packet. -/
def pbufData (p : List Pbuf) : List Byte := p.flatMap Pbuf.bytes

/-- `inet_chksum`. -/
def inetChksum (dataptr : Nat) (data : List Byte) : BitVec 16 := ~~~ lwipChksum dataptr data

/-- One turn of the loops over the pbufs of a packet, of which `chklen` bytes count: `acc` and `swapped`. -/
def chksumPbuf (acc : Word) (swapped : Bool) (q : Pbuf) (chklen : Nat) : Word × Bool :=
  let acc := foldU32t (acc + (lwipChksum q.payload (q.bytes.take chklen)).setWidth 32)
  if q.bytes.length % 2 ≠ 0 then (swapBytesInWord acc, !swapped) else (acc, swapped)

/-- The loop over all of a packet. -/
def chksumPbufs : List Pbuf → Word → Bool → Word
  | [], acc, swapped => if swapped then swapBytesInWord acc else acc
  | q :: p, acc, swapped =>
    let (acc, swapped) := chksumPbuf acc swapped q q.bytes.length
    chksumPbufs p acc swapped

/-- The loop over the first `chksumLen` bytes of it. -/
def chksumPbufsPartial : List Pbuf → Nat → Word → Bool → Word
  | [], _, acc, swapped => if swapped then swapBytesInWord acc else acc
  | q :: p, chksumLen, acc, swapped =>
    if chksumLen > 0 then
      let chklen := min q.bytes.length chksumLen
      let (acc, swapped) := chksumPbuf acc swapped q chklen
      chksumPbufsPartial p (chksumLen - chklen) acc swapped
    else if swapped then swapBytesInWord acc else acc

/-- `inet_chksum_pbuf`. -/
def inetChksumPbuf (p : List Pbuf) : BitVec 16 := ~~~ ((chksumPbufs p 0 false).setWidth 16 : BitVec 16)

/-- What is added for the pseudo-header, and the end of the two functions that add it. Addresses are in network
byte order. -/
def chksumPseudo (acc src dest : Word) (proto : Byte) (protoLen : BitVec 16) : BitVec 16 :=
  let acc := acc + (src &&& 0xffff)
  let acc := acc + ((src >>> 16) &&& 0xffff)
  let acc := acc + (dest &&& 0xffff)
  let acc := acc + ((dest >>> 16) &&& 0xffff)
  let acc := acc + (htons (proto.setWidth 16)).setWidth 32
  let acc := acc + (htons protoLen).setWidth 32
  let acc := foldU32t (foldU32t acc)
  ~~~ ((acc &&& 0xffff).setWidth 16 : BitVec 16)

/-- `inet_chksum_pseudo`. -/
def inetChksumPseudo (p : List Pbuf) (src dest : Word) (proto : Byte) (protoLen : BitVec 16) : BitVec 16 :=
  chksumPseudo (chksumPbufs p 0 false) src dest proto protoLen

/-- `inet_chksum_pseudo_partial`. -/
def inetChksumPseudoPartial (p : List Pbuf) (src dest : Word) (proto : Byte) (protoLen : BitVec 16)
    (chksumLen : Nat) : BitVec 16 :=
  chksumPseudo (chksumPbufsPartial p chksumLen 0 false) src dest proto protoLen

end Nonos
