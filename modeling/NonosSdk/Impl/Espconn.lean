import NonosSdk.Framework.Mem

/-!
# The TCP send queue of espconn (`lwip/app/espconn.c`, `espconn_tcp.c`)

The packets of one established connection, from `espconn_sent` to
`sent_callback`, and the part of lwIP that they pass through. A buffer of the list
is known by its address, so `ptail` can be followed, or not if its buffer is gone.
lwIP's answers in the course of one call are inputs (`LwipCall`): it may refuse
`tcp_write` at any length, with `ERR_MEM` or another error, and `tcp_output` may return
anything. It keeps `snd_buf`, and `snd_queuelen` is 0 while nothing is unacknowledged.

Left out: `espconn->state`, the message to the espconn task in copy mode, and the
debug output.
-/

namespace Nonos

/-- `espconn_buf`, at `addr`; `pnext` is the next one in the list. -/
structure EspconnBuf where
  addr : Nat
  payload : Nat
  punsent : Nat
  unsent : BitVec 16
  len : BitVec 16
  totLen : BitVec 16

/-- The connection's `tcp_pcb`. -/
structure TcpPcb where
  /-- `tcp_sndbuf`: the free space of the send buffer. -/
  sndBuf : BitVec 16
  unacked : Nat
  /-- What `tcp_write` has accepted: addresses and lengths. -/
  written : List (Nat × Nat)

/-- The connection: its part of `comon_pkt`, and the calls of `sent_callback`, with the
payload and the length of the packet just removed. -/
structure EspconnMsg where
  pbuf : List EspconnBuf
  ptail : Option Nat
  pbufNum : Byte
  /-- `packet_info.sent_length` -/
  sentLength : BitVec 16
  writeFlag : Bool
  /-- `espconn_copy_disabled` -/
  copyDisabled : Bool
  pcb : TcpPcb
  sentCallback : List (Nat × BitVec 16)

/-- What an attempt of `tcp_write` returns and, if that is `ERR_OK`, the `tcp_output` that
follows. -/
structure TcpAttempt where
  tcpWrite : Int
  tcpOutput : Int
  deriving DecidableEq

/-- lwIP during one call. -/
structure LwipCall where
  mss : BitVec 16
  mss_pos : 0 < mss.toNat
  nagleDisabled : Bool
  /-- `snd_queuelen`, if there is unacknowledged data. -/
  queuelen : BitVec 16
  /-- The attempts of `tcp_write`. Those beyond these fail with `ERR_MEM`. -/
  tries : List TcpAttempt

/-- `TCP_SND_QUEUELEN` -/
def tcpSndQueuelen : BitVec 16 := 8

/-- `ERR_MEM` and `ESPCONN_MEM`. -/
def errMem : Int := -1

/-- `ESPCONN_MAXNUM` -/
def espconnMaxnum : Int := -7

/-- `ESPCONN_ARG` -/
def espconnArg : Int := -12

/-- `tcp_write`, when it succeeds. -/
def TcpPcb.tcpWrite (p : TcpPcb) (psent : Nat) (len : BitVec 16) : TcpPcb where
  sndBuf := p.sndBuf - len
  unacked := p.unacked + len.toNat
  written := p.written ++ [(psent, len.toNat)]

/-- The remote host acknowledges `len` bytes. -/
def TcpPcb.tcpAcked (p : TcpPcb) (len : BitVec 16) : TcpPcb :=
  { p with sndBuf := p.sndBuf + len, unacked := p.unacked - len.toNat }

/-- `pcb->snd_queuelen` -/
def TcpPcb.sndQueuelen (p : TcpPcb) (call : LwipCall) : BitVec 16 := if p.unacked = 0 then 0 else call.queuelen

namespace EspconnMsg

variable (m : EspconnMsg)

/-- `espconn_pbuf_create` -/
def espconnPbufCreate (pinsert : EspconnBuf) : EspconnMsg := { m with pbuf := m.pbuf ++ [pinsert] }

/-- `espconn_tcp_get_buf_count`, a `uint8`. -/
def espconnTcpGetBufCount : Byte := BitVec.ofNat 8 m.pbuf.length

/-- `*ptail`, if it is in the list. -/
def tail? : Option EspconnBuf := m.pbuf.find? fun b => m.ptail = some b.addr

/-- `ptail->pnext` -/
def tailNext : Option Nat :=
  ((m.pbuf.dropWhile fun b => m.ptail ≠ some b.addr).drop 1).head?.map (·.addr)

/-- A change of `*ptail`. -/
def updateTail (f : EspconnBuf → EspconnBuf) : EspconnMsg :=
  { m with pbuf := m.pbuf.map fun b => if m.ptail = some b.addr then f b else b }

/-- The attempts of `espconn_tcp_sent`: the last error of `tcp_write`, or the length written
and what `tcp_output` returns; and the tries left. -/
def tcpTries : List TcpAttempt → BitVec 16 → Except Int (BitVec 16 × Int) × List TcpAttempt
  | [], _ => (.error errMem, [])
  | a :: tries, len =>
    if a.tcpWrite = 0 then (.ok (len, a.tcpOutput), tries)
    else if a.tcpWrite = errMem then
      let len := if len < 3 then len - 1 else len / 2
      if len > 0 then tcpTries tries len else (.error errMem, tries)
    else (.error a.tcpWrite, tries)

/-- `espconn_tcp_sent` -/
def espconnTcpSent (mss : BitVec 16) (tries : List TcpAttempt) (psent : Nat) (length : BitVec 16) :
    Int × List TcpAttempt × EspconnMsg :=
  if psent = 0 ∨ length = 0 then (espconnArg, tries, m)
  else
    let len := if m.pcb.sndBuf < length then m.pcb.sndBuf else length
    let len := if len.toNat > 2 * mss.toNat then BitVec.ofNat 16 (2 * mss.toNat) else len
    match tcpTries tries len with
    | (.error err, tries) => (err, tries, m)
    | (.ok (len, err), tries) =>
      let m := { m with pcb := m.pcb.tcpWrite psent len }.updateTail fun b =>
        { b with punsent := psent + len.toNat, unsent := length - len }
      (err, tries, if m.copyDisabled ∧ length - len = 0 then { m with writeFlag := true } else m)

/-- The loop of `espconn_tcp_write`, for at most `n` iterations. -/
def writeLoop (mss : BitVec 16) : Nat → Int → List TcpAttempt → EspconnMsg → Int × EspconnMsg
  | 0, err, _, m => (err, m)
  | n + 1, err, tries, m =>
    if m.pcb.sndBuf = 0 then (err, m)
    else
      match m.tail? with
      | none => (err, m)
      | some b =>
        if b.unsent = 0 then writeLoop mss n err tries { m with ptail := m.tailNext }
        else
          let (err, tries, m) := m.espconnTcpSent mss tries b.punsent b.unsent
          if err ≠ 0 then (err, m) else writeLoop mss n err tries m

/-- More iterations than the loop can make: each moves `ptail` on or sends a byte. -/
def writeBound : Nat := (m.pbuf.map fun b => b.unsent.toNat + 1).sum + 1

/-- `espconn_tcp_write` -/
def espconnTcpWrite (call : LwipCall) : Int × EspconnMsg :=
  if call.nagleDisabled ∧ m.pcb.sndQueuelen call ≥ tcpSndQueuelen then (errMem, m)
  else writeLoop call.mss m.writeBound 0 call.tries m

/-- The loop of `espconn_tcp_finish`, over `pbuf`, with `len` bytes left over. -/
def finishLoop : BitVec 16 → List EspconnBuf → EspconnMsg → EspconnMsg
  | _, [], m => { m with pbuf := [] }
  | len, premove :: pbuf, m =>
    let premove := { premove with totLen := premove.totLen + len }
    if premove.totLen ≥ premove.len then
      let len := premove.totLen - premove.len
      finishLoop len pbuf
        { m with sentLength := len, sentCallback := m.sentCallback ++ [(premove.payload, premove.len)] }
    else { m with pbuf := premove :: pbuf }

/-- `espconn_tcp_finish` -/
def espconnTcpFinish (call : LwipCall) : EspconnMsg :=
  let (_, m) := m.espconnTcpWrite call
  finishLoop 0 m.pbuf m

/-- `espconn_client_sent` -/
def espconnClientSent (len : BitVec 16) (call : LwipCall) : EspconnMsg :=
  { m with pbuf := m.pbuf.modifyHead fun b => { b with totLen := b.totLen + len },
           sentLength := len }.espconnTcpFinish call

/-- `espconn_sent` for this connection; `alloc` is what `os_zalloc` returns. -/
def espconnSent (psent : Nat) (length : BitVec 16) (alloc : Option Nat) (call : LwipCall) :
    Int × EspconnMsg :=
  if psent = 0 ∨ length = 0 then (espconnArg, m)
  else if m.writeFlag then
    if if m.copyDisabled then m.pcb.sndQueuelen call ≥ tcpSndQueuelen
        else m.espconnTcpGetBufCount ≥ m.pbufNum then (espconnMaxnum, m)
    else
      match alloc with
      | none => (errMem, m)
      | some addr =>
        let m := m.espconnPbufCreate
          { addr, payload := psent, punsent := psent, unsent := length, len := length, totLen := 0 }
        let m := if m.ptail = none then { m with ptail := some addr } else m
        let m := if m.copyDisabled then { m with writeFlag := false } else m
        m.espconnTcpWrite call
  else (espconnArg, m)

end EspconnMsg

end Nonos
