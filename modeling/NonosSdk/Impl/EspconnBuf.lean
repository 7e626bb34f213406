import NonosSdk.Framework.Mem

/-!
# The read buffer of espconn (`lwip/app/espconn_buf.c`)

A byte ring of `size` cells, one of which stays unused: `head` is where the next
byte goes, `tail` where the oldest one is. A write that does not fit overwrites
the oldest bytes. Pointers are addresses in the memory the ring is in. What is
copied in and out is outside of it and is given by its bytes.

`lwIP_ASSERT` returns from the function it fails in. Left out: the allocation in
`ringbuf_new` that fails, and `ringbuf_free`.
-/

namespace Nonos

/-- `struct ringbuf_t`. -/
structure EspconnRingbuf where
  mem : Mem Byte
  buf : Nat
  head : Nat
  tail : Nat
  size : Nat

/-- `ringbuf_reset`. -/
def ringbufReset (rb : EspconnRingbuf) : EspconnRingbuf := { rb with head := rb.buf, tail := rb.buf }

/-- `ringbuf_new`, with the memory `os_zalloc` finds at `buf`. -/
def ringbufNew (mem : Mem Byte) (buf capacity : Nat) : EspconnRingbuf :=
  ringbufReset { mem := mem.memset buf 0 (capacity + 1), buf, head := 0, tail := 0, size := capacity + 1 }

/-- `ringbuf_buffer_size`. -/
def ringbufBufferSize (rb : EspconnRingbuf) : Nat := rb.size

/-- `ringbuf_capacity`. -/
def ringbufCapacity (rb : EspconnRingbuf) : Nat := ringbufBufferSize rb - 1

/-- `ringbuf_end`. -/
def ringbufEnd (rb : EspconnRingbuf) : Nat := rb.buf + ringbufBufferSize rb

/-- `ringbuf_bytes_free`. -/
def ringbufBytesFree (rb : EspconnRingbuf) : Nat :=
  if rb.head ≥ rb.tail then ringbufCapacity rb - (rb.head - rb.tail) else rb.tail - rb.head - 1

/-- `ringbuf_bytes_used`. -/
def ringbufBytesUsed (rb : EspconnRingbuf) : Nat := ringbufCapacity rb - ringbufBytesFree rb

/-- `ringbuf_is_full`. -/
def ringbufIsFull (rb : EspconnRingbuf) : Bool := decide (ringbufBytesFree rb = 0)

/-- `ringbuf_is_empty`. -/
def ringbufIsEmpty (rb : EspconnRingbuf) : Bool := decide (ringbufBytesFree rb = ringbufCapacity rb)

/-- `ringbuf_nextp`, of a pointer into the buffer. -/
def ringbufNextp (rb : EspconnRingbuf) (p : Nat) : Nat := rb.buf + (p + 1 - rb.buf) % ringbufBufferSize rb

/-- `memchr`: the offset of the first `c` of the list. -/
def memchr (xs : List Byte) (c : Byte) : Option Nat := if c ∈ xs then some (xs.idxOf c) else none

/-- `ringbuf_findchr`, with `n` calls at most. -/
def ringbufFindchrLoop (rb : EspconnRingbuf) (c : Byte) : Nat → Nat → Nat
  | 0, offset => offset
  | n + 1, offset =>
    let bytesUsed := ringbufBytesUsed rb
    if offset ≥ bytesUsed then bytesUsed
    else
      let start := rb.buf + (rb.tail - rb.buf + offset) % ringbufBufferSize rb
      let len := min (ringbufEnd rb - start) (bytesUsed - offset)
      match memchr (rb.mem.cells start len) c with
      | some found => offset + found
      | none => ringbufFindchrLoop rb c n (offset + len)

/-- `ringbuf_findchr`. Every call but the last passes a byte at least. -/
def ringbufFindchr (rb : EspconnRingbuf) (c : Byte) (offset : Nat) : Nat :=
  ringbufFindchrLoop rb c (ringbufBytesUsed rb + 1) offset

/-- The loop of `ringbuf_memset` and `ringbuf_memcpy_into`, for `n` turns at most. A
turn writes a byte at least. -/
def ringbufWriteLoop : Nat → EspconnRingbuf → List Byte → EspconnRingbuf
  | 0, dst, _ => dst
  | n + 1, dst, src =>
    if src.length = 0 then dst
    else
      let bufend := ringbufEnd dst
      let len := min (bufend - dst.head) src.length
      let head := dst.head + len
      ringbufWriteLoop n
        { dst with mem := dst.mem.store dst.head (src.getD · 0) len, head := if head = bufend then dst.buf else head }
        (src.drop len)

/-- What both do with `overflow`, which they have looked at before. -/
def ringbufOverflow (dst : EspconnRingbuf) (overflow : Prop) [Decidable overflow] : EspconnRingbuf :=
  if overflow then { dst with tail := ringbufNextp dst dst.head } else dst

/-- `ringbuf_memset`. -/
def ringbufMemset (dst : EspconnRingbuf) (c : Byte) (len : Nat) : EspconnRingbuf :=
  let count := min len (ringbufBufferSize dst)
  ringbufOverflow (ringbufWriteLoop count dst (List.replicate count c)) (count > ringbufBytesFree dst)

/-- `ringbuf_memcpy_into`. -/
def ringbufMemcpyInto (dst : EspconnRingbuf) (src : List Byte) : EspconnRingbuf :=
  ringbufOverflow (ringbufWriteLoop src.length dst src) (src.length > ringbufBytesFree dst)

/-- The loop of `ringbuf_memcpy_from`, for `n` turns at most: the bytes it copies. -/
def ringbufReadLoop : Nat → EspconnRingbuf → Nat → List Byte × EspconnRingbuf
  | 0, src, _ => ([], src)
  | n + 1, src, count =>
    if count = 0 then ([], src)
    else
      let bufend := ringbufEnd src
      let len := min (bufend - src.tail) count
      let tail := src.tail + len
      let (rest, src') := ringbufReadLoop n { src with tail := if tail = bufend then src.buf else tail } (count - len)
      (src.mem.cells src.tail len ++ rest, src')

/-- `ringbuf_memcpy_from`: `none` for `NULL`. -/
def ringbufMemcpyFrom (src : EspconnRingbuf) (count : Nat) : Option (List Byte) × EspconnRingbuf :=
  if count > ringbufBytesUsed src then (none, src)
  else
    let (dst, src) := ringbufReadLoop count src count
    (some dst, src)

end Nonos
