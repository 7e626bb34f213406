import NonosSdk.Framework.Mem

/-!
# The ring buffer (`app/user/user_ringbuffer.c`)

`ringbuf_t` and its operations, on a memory that also holds the storage
(`pbuf`) and the destination of a read; `put`'s source is the caller's
buffer, given by its content. Index arithmetic is C's on `uint32_t`. The
`lock` field is set up by `user_rb_init` and read by no operation here.
-/

namespace Nonos

/-- `ringbuf_t`. -/
structure Ringbuf where
  pbuf : Nat
  head : Word
  tail : Word
  size : Word
  lock : Bool

/-- A ring and the memory its storage is in. -/
structure RbState where
  mem : Mem Byte
  rb : Ringbuf

/-- `user_rb_init`, on a `p_rb` that is not `NULL`; address 0 is `NULL`. -/
def userRbInit (s : RbState) (pbuf : Nat) (size : Word) : RbState :=
  if pbuf = 0 ∨ size = 0 then s
  else { mem := s.mem.memset pbuf 0 size.toNat,
         rb := { pbuf, size, head := 0, tail := 0, lock := false } }

/-- `user_rb_unread_size`. -/
def userRbUnreadSize (rb : Ringbuf) : Word :=
  if rb.head ≥ rb.tail then rb.head - rb.tail else rb.size + rb.head - rb.tail

/-- `user_rb_reset`. -/
def userRbReset (s : RbState) : RbState :=
  { mem := s.mem.memset s.rb.pbuf 0 s.rb.size.toNat, rb := { s.rb with head := 0, tail := 0 } }

/-- `if( sz > len ) sz = len;` -/
def clamp (sz len : Word) : Word := if sz > len then len else sz

/-- `if( i >= size ) i -= size;` -/
def foldIndex (size i : Word) : Word := if i ≥ size then i - size else i

/-- `user_rb_put`: the accepted count and the new state. -/
def userRbPut (s : RbState) (src : Nat → Byte) (len : Word) : Word × RbState :=
  let rb := s.rb
  if rb.head ≥ rb.tail then
    let sz := clamp (rb.size + rb.tail - rb.head) len
    let rz := rb.size - rb.head
    let mem :=
      if rz ≥ sz then s.mem.store (rb.pbuf + rb.head.toNat) src sz.toNat
      else (s.mem.store (rb.pbuf + rb.head.toNat) src rz.toNat).store rb.pbuf
        (fun i => src (rz.toNat + i)) (sz - rz).toNat
    (sz, { mem, rb := { rb with head := foldIndex rb.size (rb.head + sz) } })
  else
    let sz := clamp (rb.tail - rb.head) len
    let mem := s.mem.store (rb.pbuf + rb.head.toNat) src sz.toNat
    (sz, { mem, rb := { rb with head := foldIndex rb.size (rb.head + sz) } })

/-- `memcpy( p_rb->pbuf + cell, src + off, count )` -/
structure PutCopy where
  cell : Word
  off : Word
  count : Word
  deriving DecidableEq, Repr

/-- The copies of `user_rb_put`, in order. -/
def Ringbuf.putCopies (rb : Ringbuf) (len : Word) : List PutCopy :=
  if rb.head ≥ rb.tail then
    let sz := clamp (rb.size + rb.tail - rb.head) len
    let rz := rb.size - rb.head
    if rz ≥ sz then [⟨rb.head, 0, sz⟩] else [⟨rb.head, 0, rz⟩, ⟨0, rz, sz - rz⟩]
  else [⟨rb.head, 0, clamp (rb.tail - rb.head) len⟩]

/-- `user_rb_get`: the delivered count and the new state. -/
def userRbGet (s : RbState) (des : Nat) (len : Word) : Word × RbState :=
  let rb := s.rb
  if rb.head ≥ rb.tail then
    let sz := clamp (rb.head - rb.tail) len
    let mem := s.mem.memcpy des (rb.pbuf + rb.tail.toNat) sz.toNat
    (sz, { mem, rb := { rb with tail := foldIndex rb.size (rb.tail + sz) } })
  else
    let sz := clamp (rb.size + rb.head - rb.tail) len
    let rz := rb.size - rb.tail
    let mem :=
      if rz ≥ sz then s.mem.memcpy des (rb.pbuf + rb.tail.toNat) sz.toNat
      else (s.mem.memcpy des (rb.pbuf + rb.tail.toNat) rz.toNat).memcpy (des + rz.toNat) rb.pbuf
        (sz - rz).toNat
    (sz, { mem, rb := { rb with tail := foldIndex rb.size (rb.tail + sz) } })

/-! ## `user_rb_get`, statement by statement -/

/-- The statements of `user_rb_get`, in the order of the source. -/
inductive GetPc where
  /-- `if( p_rb->head >= p_rb->tail )` -/
  | test
  /-- `sz = p_rb->head - p_rb->tail;` -/
  | linSz
  /-- `if( sz > len )` -/
  | linCmp
  /-- `sz = len;` -/
  | linClamp
  /-- `memcpy( des, p_rb->pbuf + p_rb->tail, sz );` -/
  | linCopy
  /-- `sz = p_rb->size + p_rb->head - p_rb->tail;` -/
  | wrapSz
  /-- `rz = p_rb->size - p_rb->tail;` -/
  | wrapRz
  /-- `if( sz > len )` -/
  | wrapCmp
  /-- `sz = len;` -/
  | wrapClamp
  /-- `if( rz >= sz )` -/
  | split
  /-- `memcpy( des, p_rb->pbuf + p_rb->tail, sz );` -/
  | copyAll
  /-- `memcpy( des, p_rb->pbuf + p_rb->tail, rz );` -/
  | copyEnd
  /-- `memcpy( des + rz, p_rb->pbuf, sz - rz );` -/
  | copyStart
  /-- `p_rb->tail += sz;` -/
  | tailAdd
  /-- `if( p_rb->tail >= p_rb->size )` -/
  | tailCmp
  /-- `p_rb->tail -= p_rb->size;` -/
  | tailSub
  /-- `return sz;` -/
  | ret
  deriving DecidableEq, Repr

/-- `user_rb_get` before its statement `pc`. -/
structure GetState where
  st : RbState
  pc : GetPc
  sz : Word
  rz : Word

/-- A call of `user_rb_get`; its locals are not set yet. -/
def GetState.enter (s : RbState) : GetState := ⟨s, .test, 0, 0⟩

/-- One statement. -/
def getStep (des : Nat) (len : Word) (g : GetState) : GetState :=
  let rb := g.st.rb
  match g.pc with
  | .test => { g with pc := if rb.head ≥ rb.tail then .linSz else .wrapSz }
  | .linSz => { g with sz := rb.head - rb.tail, pc := .linCmp }
  | .linCmp => { g with pc := if g.sz > len then .linClamp else .linCopy }
  | .linClamp => { g with sz := len, pc := .linCopy }
  | .linCopy =>
    { g with st.mem := g.st.mem.memcpy des (rb.pbuf + rb.tail.toNat) g.sz.toNat, pc := .tailAdd }
  | .wrapSz => { g with sz := rb.size + rb.head - rb.tail, pc := .wrapRz }
  | .wrapRz => { g with rz := rb.size - rb.tail, pc := .wrapCmp }
  | .wrapCmp => { g with pc := if g.sz > len then .wrapClamp else .split }
  | .wrapClamp => { g with sz := len, pc := .split }
  | .split => { g with pc := if g.rz ≥ g.sz then .copyAll else .copyEnd }
  | .copyAll =>
    { g with st.mem := g.st.mem.memcpy des (rb.pbuf + rb.tail.toNat) g.sz.toNat, pc := .tailAdd }
  | .copyEnd =>
    { g with st.mem := g.st.mem.memcpy des (rb.pbuf + rb.tail.toNat) g.rz.toNat, pc := .copyStart }
  | .copyStart =>
    { g with st.mem := g.st.mem.memcpy (des + g.rz.toNat) rb.pbuf (g.sz - g.rz).toNat, pc := .tailAdd }
  | .tailAdd => { g with st.rb.tail := rb.tail + g.sz, pc := .tailCmp }
  | .tailCmp => { g with pc := if rb.tail ≥ rb.size then .tailSub else .ret }
  | .tailSub => { g with st.rb.tail := rb.tail - rb.size, pc := .ret }
  | .ret => g

end Nonos
