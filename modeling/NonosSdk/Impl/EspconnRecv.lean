import NonosSdk.Impl.Espconn
import NonosSdk.Impl.EspconnBuf

/-!
# Receiving on an espconn TCP connection (`lwip/app/espconn_tcp.c`, `espconn.c`)

What arrives is passed to `recv_callback` if there is one. Otherwise it goes to
the connection's read buffer, from which `espconn_recv` takes it, and the
window is held: what has arrived is counted in `recv_holded_buf_Len`, and lwIP
opens the window by as much when the hold ends. `tcpWnd` is the value of the
register `TCP_WND` stands for. A packet is given by the payloads of its pbufs. A
call that `recv_callback` makes is an event after the one it is called in.

Left out: an allocation that fails, after which `espconn_client_recv` writes
through `NULL`; `espconn->state` and the closing of a connection, where `p` is
`NULL`; `tcp_update_rcv_ann_wnd` and the acknowledgement in `tcp_recved`. The loop
over the pbufs frees the packet before it looks at the second one; the model
finds that one as it was.
-/

namespace Nonos

/-- What `espconn_msg` and its `pcb` have for receiving, and the calls of
`recv_callback`. -/
structure EspconnRecv where
  /-- `recv_callback` is not `NULL`. -/
  recvCallback : Bool
  readbuf : Option EspconnRingbuf
  recvHoldFlag : Bool
  recvHoldedBufLen : BitVec 16
  /-- `pcommon.recv_check` -/
  recvCheck : Nat
  /-- `pcb->rcv_wnd` -/
  rcvWnd : BitVec 16
  called : List (List Byte)

section

variable (tcpWnd : Nat) (c : EspconnRecv)

/-- `tcp_recved`. -/
def tcpRecved (len : BitVec 16) : EspconnRecv :=
  let rcvWnd := c.rcvWnd + len
  { c with rcvWnd := if rcvWnd.toNat > tcpWnd then BitVec.ofNat 16 tcpWnd else rcvWnd }

/-- `espconn_recv_hold`. -/
def espconnRecvHold : EspconnRecv :=
  if c.recvHoldFlag = false then { c with recvHoldFlag := true, recvHoldedBufLen := 0 } else c

/-- `espconn_recv_unhold`. -/
def espconnRecvUnhold : EspconnRecv :=
  if c.recvHoldFlag = true then
    { tcpRecved tcpWnd c c.recvHoldedBufLen with recvHoldedBufLen := 0, recvHoldFlag := false }
  else c

/-- `espconn_lock_recv`, with the memory `ringbuf_new` finds. -/
def espconnLockRecv (mem : Mem Byte) (buf : Nat) : EspconnRecv :=
  if c.recvCallback = false then
    espconnRecvHold { c with readbuf := some (c.readbuf.getD (ringbufNew mem buf tcpWnd)) }
  else c

/-- `espconn_client_recv` of a packet. -/
def espconnClientRecv (p : List (List Byte)) (mem : Mem Byte) (buf : Nat) : EspconnRecv :=
  let c := espconnLockRecv tcpWnd c mem buf
  let totLen := BitVec.ofNat 16 p.flatten.length
  let c := if c.recvHoldFlag = false then tcpRecved tcpWnd c totLen
    else { c with recvHoldedBufLen := c.recvHoldedBufLen + totLen }
  if c.recvCallback = true then
    if totLen ≠ 0 then { c with called := c.called ++ [p.flatten] } else c
  else { c with readbuf := c.readbuf.map fun rb => p.foldl ringbufMemcpyInto rb }

/-- `espconn_server_recv` of a packet. -/
def espconnServerRecv (p : List (List Byte)) (mem : Mem Byte) (buf : Nat) : EspconnRecv :=
  let c := espconnClientRecv tcpWnd c p mem buf
  if c.recvCallback = true then { c with recvCheck := 0 } else c

/-- `espconn_recv`: what it returns, and what it copies to `mem`. -/
def espconnRecv (len : Nat) : Int × List Byte × EspconnRecv :=
  if len = 0 then (espconnArg, [], c)
  else
    match c.readbuf with
    | none => (0, [], c)
    | some readbuf =>
      let bytesUsed := ringbufBytesUsed readbuf
      if bytesUsed ≠ 0 then
        let len := if len > bytesUsed then bytesUsed else len
        let (mem, readbuf) := ringbufMemcpyFrom readbuf len
        ((BitVec.ofNat 16 len).toInt, mem.getD [], espconnRecvUnhold tcpWnd { c with readbuf := some readbuf })
      else (0, [], c)

/-- `espconn_regist_recvcb`. -/
def espconnRegistRecvcb (recvCb : Bool) : EspconnRecv := { c with recvCallback := recvCb }

end

end Nonos
