import NonosSdk.Framework.Runs
import NonosSdk.Proof.UartBuffer.Cells
import NonosSdk.Spec.Fifo

/-!
# The buffered driver as two queues

Any calls of `tx_buff_enq`, `tx_start_uart_buffer`, `Uart_rx_buff_enq` and
`rx_buff_deq` after `uart_init`, each finding any count in its FIFO
(`UartCall`), with what went in and out (`UartRun`). They refine two queues of
`Spec.Fifo` (`run_refines`): a block enters the transmit queue if it fits, a
FIFO the receive queue if that leaves a cell free, which is what lets
`rx_buff_deq` tell an empty buffer from a full one.
-/

namespace Nonos

/-- The count of a FIFO. -/
abbrev FifoCount := Fin (uartFifoLen + 1)

/-- The content of the receive FIFO. -/
abbrev RxFifo := { fifo : List Byte // fifo.length ≤ uartFifoLen }

/-- A call, with its arguments and what it finds. -/
inductive UartCall where
  | txBuffEnq (pdata : Nat → Byte) (dataLen : BitVec 16) (init : Option UartBuffer)
  | txStartUartBuffer (txFifoLen : FifoCount)
  | uartRxBuffEnq (fifo : RxFifo)
  | rxBuffDeq (dataLen : BitVec 16)

/-- The block of a `tx_buff_enq`. -/
def block (pdata : Nat → Byte) (dataLen : BitVec 16) : List Byte := (List.range dataLen.toNat).map pdata

/-- There is `Space` for the block. -/
def UartDriver.fits (d : UartDriver) (dataLen : BitVec 16) : Bool := d.pTxBuffer.any (dataLen ≤ ·.space)

/-- The driver, and what has gone through the buffers. -/
structure UartRun where
  driver : UartDriver
  /-- The blocks that fitted. -/
  enqueued : List Byte
  /-- What `Uart_rx_buff_enq` has read from the FIFO. -/
  fifoRead : List Byte
  /-- What `rx_buff_deq` has returned. -/
  returned : List Byte

namespace UartRun

/-- Before any call. -/
def start (d : UartDriver) : UartRun := ⟨d, [], [], []⟩

def step (r : UartRun) : UartCall → UartRun
  | .txBuffEnq pdata dataLen init =>
    { r with driver := r.driver.txBuffEnq pdata dataLen init,
             enqueued := r.enqueued ++ if r.driver.fits dataLen then block pdata dataLen else [] }
  | .txStartUartBuffer txFifoLen =>
    { r with driver := r.driver.txStartUartBuffer (BitVec.ofNat 8 txFifoLen) }
  | .uartRxBuffEnq fifo =>
    let (read, driver) := r.driver.uartRxBuffEnq fifo
    { r with driver, fifoRead := r.fifoRead ++ read }
  | .rxBuffDeq dataLen =>
    let (bytes, driver) := r.driver.rxBuffDeq dataLen
    { r with driver, returned := r.returned ++ bytes }

end UartRun

/-- The two queues. -/
structure UartQueues where
  tx : Spec.Fifo Byte
  rx : Spec.Fifo Byte

/-- A call, on the queues: each holds at most `size` bytes, the receive queue
one less. -/
def UartQueues.step (size : Nat) (q : UartQueues) : UartCall → UartQueues
  | .txBuffEnq pdata dataLen _ =>
    let fits := if q.tx.items.length + dataLen.toNat ≤ size then block pdata dataLen else []
    { q with tx := q.tx.enqueue fits }
  | .txStartUartBuffer txFifoLen => { q with tx := q.tx.dequeue (uartFifoLen - txFifoLen) }
  | .uartRxBuffEnq fifo =>
    let fits := if q.rx.items.length + fifo.1.length < size then fifo.1 else []
    { q with rx := q.rx.enqueue fits }
  | .rxBuffDeq dataLen => { q with rx := q.rx.dequeue dataLen.toNat }

/-- `b` is a buffer of `size` bytes that holds `items`. -/
def Buffers (size : Nat) (b : Option UartBuffer) (items : List Byte) : Prop :=
  ∃ u o, b = some u ∧ u.size = size ∧ u.Holds o items

/-- The driver and the queues it stands for. -/
structure UartRun.Refines (size : Nat) (r : UartRun) (q : UartQueues) : Prop where
  tx : Buffers size r.driver.pTxBuffer q.tx.items
  rx : Buffers size r.driver.pRxBuffer q.rx.items
  /-- The receive buffer always has a free cell. -/
  free : q.rx.items.length < size
  enqueued : r.enqueued = q.tx.accepted
  txFifo : r.driver.txFifo = q.tx.delivered
  fifoRead : r.fifoRead = q.rx.accepted
  returned : r.returned = q.rx.delivered

/-! ## One call -/

/-- `tx_start_uart_buffer` writes as many of the first bytes as the FIFO has room for. -/
theorem txStartUartBuffer_eq {d : UartDriver} {size : Nat} {items : List Byte}
    (h : Buffers size d.pTxBuffer items) (level : FifoCount) :
    (d.txStartUartBuffer (BitVec.ofNat 8 level)).txFifo = d.txFifo ++ items.take (uartFifoLen - level) ∧
      Buffers size (d.txStartUartBuffer (BitVec.ofNat 8 level)).pTxBuffer (items.drop (uartFifoLen - level)) ∧
      (d.txStartUartBuffer (BitVec.ofNat 8 level)).pRxBuffer = d.pRxBuffer := by
  obtain ⟨b, o, hb, rfl, h⟩ := h
  have hl : level.1 ≤ 128 := Nat.le_of_lt_succ level.2
  have hlevel : (BitVec.ofNat 8 level.1).toNat = level := by
    rw [BitVec.toNat_ofNat, Nat.mod_eq_of_lt (by omega)]
  have hremain : (BitVec.ofNat 8 uartFifoLen - BitVec.ofNat 8 level).toNat = uartFifoLen - level := by
    rw [BitVec.toNat_sub_of_le (by rw [BitVec.le_def, hlevel]; exact hl), hlevel]; rfl
  have hused := h.toNat_used
  unfold UartDriver.txStartUartBuffer
  rw [hb]
  dsimp only
  generalize (b.uartBuffSize - b.space.setWidth 32).setWidth 16 = dataLen at hused ⊢
  generalize BitVec.ofNat 8 uartFifoLen - BitVec.ofNat 8 level = remain at hremain ⊢
  have hremain16 : (remain.setWidth 16).toNat = remain.toNat := BitVec.toNat_setWidth_of_le (by omega)
  rw [← hremain]
  split <;> rename_i hgt <;> rw [gt_iff_lt, BitVec.lt_def, hremain16] at hgt
  · obtain ⟨hbytes, hh⟩ := h.txFifoInsert (show remain.toNat ≤ items.length by omega)
    exact ⟨congrArg _ hbytes, ⟨_, _, rfl, UartBuffer.size_txFifoInsert .., hh⟩, rfl⟩
  · have hdata : (dataLen.setWidth 8).toNat = items.length := by
      unfold uartFifoLen at hremain
      rw [BitVec.toNat_setWidth, Nat.mod_eq_of_lt (by omega), hused]
    obtain ⟨hbytes, hh⟩ := h.txFifoInsert (show (dataLen.setWidth 8).toNat ≤ items.length by omega)
    rw [hdata] at hbytes hh
    rw [List.take_of_length_le (i := remain.toNat) (by omega),
      List.drop_of_length_le (i := remain.toNat) (by omega)]
    rw [List.take_length] at hbytes
    rw [List.drop_length] at hh
    exact ⟨congrArg _ hbytes, ⟨_, _, rfl, UartBuffer.size_txFifoInsert .., hh⟩, rfl⟩

/-- `tx_buff_enq` appends the block if it fits. -/
theorem txBuffEnq_eq {d : UartDriver} {size : Nat} {items : List Byte}
    (h : Buffers size d.pTxBuffer items) (pdata : Nat → Byte) (dataLen : BitVec 16)
    (init : Option UartBuffer) :
    d.fits dataLen = decide (items.length + dataLen.toNat ≤ size) ∧
      Buffers size (d.txBuffEnq pdata dataLen init).pTxBuffer
        (items ++ if items.length + dataLen.toNat ≤ size then block pdata dataLen else []) := by
  obtain ⟨b, o, hb, rfl, h⟩ := h
  have hs := h.space
  have hfit : dataLen ≤ b.space ↔ items.length + dataLen.toNat ≤ b.size := by
    rw [BitVec.le_def]; omega
  refine ⟨by simp [UartDriver.fits, hb, hfit], ?_⟩
  simp only [UartDriver.txBuffEnq, hb, hfit]
  split
  · rename_i hle
    exact ⟨_, o, rfl, UartBuffer.size_uartBufCpy .., h.uartBufCpy pdata (by omega)⟩
  · exact ⟨_, o, rfl, rfl, by rwa [List.append_nil]⟩

/-- `Uart_rx_buff_enq` appends the content of the FIFO if that leaves a cell free. -/
theorem uartRxBuffEnq_eq {d : UartDriver} {size : Nat} {items : List Byte}
    (h : Buffers size d.pRxBuffer items) (fifo : RxFifo) :
    let read := if items.length + fifo.1.length < size then fifo.1 else []
    (d.uartRxBuffEnq fifo).1 = read ∧ Buffers size (d.uartRxBuffEnq fifo).2.pRxBuffer (items ++ read) := by
  obtain ⟨b, o, hb, rfl, h⟩ := h
  have hs := h.space
  obtain ⟨hread, hh⟩ := h.uartRxBuffEnq fifo.2
  have hfit : fifo.1.length < b.space.toNat ↔ items.length + fifo.1.length < b.size := by omega
  simp only [hfit] at hread hh
  simp only [UartDriver.uartRxBuffEnq, hb]
  refine ⟨hread, ?_⟩
  split
  · rename_i hge
    rw [ge_iff_le, BitVec.le_def, UartBuffer.Holds.toNat_fifoLen fifo.2] at hge
    rw [if_neg (by omega), List.append_nil]
    exact ⟨_, o, hb, rfl, h⟩
  · exact ⟨_, o, rfl, UartBuffer.size_uartRxBuffEnq .., hh⟩

/-- `rx_buff_deq` of a buffer that is not full returns the first bytes. -/
theorem rxBuffDeq_eq {d : UartDriver} {size : Nat} {items : List Byte}
    (h : Buffers size d.pRxBuffer items) (hfree : items.length < size) (dataLen : BitVec 16) :
    (d.rxBuffDeq dataLen).1 = items.take dataLen.toNat ∧
      Buffers size (d.rxBuffDeq dataLen).2.pRxBuffer (items.drop dataLen.toNat) := by
  obtain ⟨b, o, hb, rfl, h⟩ := h
  have hs := h.space
  obtain ⟨hbytes, o', hh⟩ := h.rxBuffDeq (by omega) dataLen
  simp only [UartDriver.rxBuffDeq, hb]
  exact ⟨hbytes, _, o', rfl, UartBuffer.size_rxBuffDeq .., hh⟩

/-! ## Runs -/

/-- The receive calls leave the transmit side alone. -/
theorem pTxBuffer_uartRxBuffEnq (d : UartDriver) (fifo : List Byte) :
    (d.uartRxBuffEnq fifo).2.pTxBuffer = d.pTxBuffer ∧ (d.uartRxBuffEnq fifo).2.txFifo = d.txFifo := by
  unfold UartDriver.uartRxBuffEnq
  split
  · exact ⟨rfl, rfl⟩
  · dsimp only
    split <;> exact ⟨rfl, rfl⟩

theorem pTxBuffer_rxBuffDeq (d : UartDriver) (n : BitVec 16) :
    (d.rxBuffDeq n).2.pTxBuffer = d.pTxBuffer ∧ (d.rxBuffDeq n).2.txFifo = d.txFifo := by
  unfold UartDriver.rxBuffDeq
  split <;> exact ⟨rfl, rfl⟩

theorem UartRun.Refines.step {size : Nat} {r : UartRun} {q : UartQueues} (h : r.Refines size q)
    (c : UartCall) : (r.step c).Refines size (q.step size c) := by
  cases c with
  | txBuffEnq pdata dataLen init =>
    obtain ⟨hfits, hb⟩ := txBuffEnq_eq h.tx pdata dataLen init
    refine ⟨hb, h.rx, h.free, ?_, h.txFifo, h.fifoRead, h.returned⟩
    simp only [UartRun.step, UartQueues.step, Spec.Fifo.enqueue, hfits, h.enqueued, decide_eq_true_eq]
  | txStartUartBuffer txFifoLen =>
    obtain ⟨hbytes, hb, hrx⟩ := txStartUartBuffer_eq h.tx txFifoLen
    refine ⟨hb, hrx ▸ h.rx, h.free, h.enqueued, ?_, h.fifoRead, h.returned⟩
    rw [UartRun.step, hbytes, h.txFifo]
    rfl
  | uartRxBuffEnq fifo =>
    obtain ⟨hread, hb⟩ := uartRxBuffEnq_eq h.rx fifo
    obtain ⟨htx, hfifo⟩ := pTxBuffer_uartRxBuffEnq r.driver fifo
    refine ⟨htx ▸ h.tx, hb, ?_, h.enqueued, hfifo.trans h.txFifo, ?_, h.returned⟩
    · have hfree := h.free
      simp only [UartQueues.step, Spec.Fifo.enqueue, List.length_append]
      split
      · assumption
      · exact hfree
    · simp only [UartRun.step, UartQueues.step, Spec.Fifo.enqueue, hread, h.fifoRead]
  | rxBuffDeq dataLen =>
    obtain ⟨hbytes, hb⟩ := rxBuffDeq_eq h.rx h.free dataLen
    obtain ⟨htx, hfifo⟩ := pTxBuffer_rxBuffDeq r.driver dataLen
    refine ⟨htx ▸ h.tx, hb, ?_, h.enqueued, hfifo.trans h.txFifo, h.fifoRead, ?_⟩
    · have hfree := h.free
      simp only [UartQueues.step, Spec.Fifo.dequeue, List.length_drop]
      omega
    · simp only [UartRun.step, UartQueues.step, Spec.Fifo.dequeue, hbytes, h.returned]

/-- Both buffers empty, after a `uart_init` that has created them. -/
theorem start_refines (d : UartDriver) {txHeap rxHeap : Word} (htx : uartBufferSize < txHeap)
    (hrx : uartBufferSize < rxHeap) (txMem rxMem : Mem Byte) (txAddr rxAddr : Nat) :
    (UartRun.start (d.uartInit txHeap rxHeap txMem rxMem txAddr rxAddr)).Refines uartBufferSize.toNat
      ⟨.empty, .empty⟩ := by
  have hbuf : ∀ {heap : Word} (mem : Mem Byte) (addr : Nat), uartBufferSize < heap →
      Buffers uartBufferSize.toNat (uartBufInit uartBufferSize heap mem addr) [] := by
    intro heap mem addr hlt
    obtain ⟨b, hb, hs, hh⟩ := UartBuffer.uartBufInit_holds mem addr (by decide) (by decide) hlt
    exact ⟨b, 0, hb, hs, hh⟩
  exact ⟨hbuf txMem txAddr htx, hbuf rxMem rxAddr hrx, by decide, rfl, rfl, rfl, rfl⟩

/-- The driver refines the two queues. -/
theorem run_refines (d : UartDriver) {txHeap rxHeap : Word} (htx : uartBufferSize < txHeap)
    (hrx : uartBufferSize < rxHeap) (txMem rxMem : Mem Byte) (txAddr rxAddr : Nat) (calls : List UartCall) :
    (run UartRun.step (.start (d.uartInit txHeap rxHeap txMem rxMem txAddr rxAddr)) calls).Refines
      uartBufferSize.toNat (run (UartQueues.step uartBufferSize.toNat) ⟨.empty, .empty⟩ calls) :=
  Along.sim (P := fun _ _ => True) (fun _ _ c h _ => h.step c)
    (start_refines d htx hrx txMem rxMem txAddr rxAddr) (Along.of_mem (fun _ _ _ => trivial) _)

/-- Both pointers are inside the buffer, and `Space` is its size less the bytes
from `pOutPos` to `pInPos`, which are `items`. -/
structure UartBuffer.Keeps (b : UartBuffer) (items : List Byte) : Prop where
  pInPos : b.pUartBuff ≤ b.pInPos ∧ b.pInPos < b.endPos
  pOutPos : b.pUartBuff ≤ b.pOutPos ∧ b.pOutPos < b.endPos
  space : b.space.toNat = b.size - items.length
  reaches : b.pInPos = b.pUartBuff + wrap b.size (b.pOutPos - b.pUartBuff + items.length)
  items : b.mem.ringRead b.pUartBuff b.size (b.pOutPos - b.pUartBuff) items.length = items

theorem UartBuffer.Holds.keeps {b : UartBuffer} {o : Nat} {items : List Byte} (h : b.Holds o items) :
    b.Keeps items := by
  have hin := h.pInPos
  have hlt := h.in_lt
  have hout := h.pOutPos
  have ho := h.lt
  have hs := h.space
  have hend := endPos_eq b
  have hoff : b.pOutPos - b.pUartBuff = o := by omega
  exact ⟨by omega, by omega, by omega, hoff ▸ hin, hoff ▸ h.read⟩

/-- Nothing is lost, repeated or reordered on either way. -/
structure UartRun.IsTwoFifos (r : UartRun) : Prop where
  /-- What has been written to the FIFO and what is buffered are the blocks that fitted. -/
  tx : ∃ b items, r.driver.pTxBuffer = some b ∧ b.size = uartBufferSize.toNat ∧ b.Keeps items ∧
    r.driver.txFifo ++ items = r.enqueued
  /-- What has been returned and what is buffered is what was read from the FIFO. -/
  rx : ∃ b items, r.driver.pRxBuffer = some b ∧ b.size = uartBufferSize.toNat ∧ b.Keeps items ∧
    r.returned ++ items = r.fifoRead
  /-- A `tx_start_uart_buffer` fills the FIFO to 128 bytes at most. -/
  room : ∀ level : FifoCount, ∃ bytes,
    (r.step (.txStartUartBuffer level)).driver.txFifo = r.driver.txFifo ++ bytes ∧
      level + bytes.length ≤ uartFifoLen

/-- After any calls, the driver is two first-in, first-out queues. -/
theorem buffered_uart_is_two_fifos (d : UartDriver) {txHeap rxHeap : Word} (htx : uartBufferSize < txHeap)
    (hrx : uartBufferSize < rxHeap) (txMem rxMem : Mem Byte) (txAddr rxAddr : Nat) (calls : List UartCall) :
    (run UartRun.step (.start (d.uartInit txHeap rxHeap txMem rxMem txAddr rxAddr)) calls).IsTwoFifos := by
  have h := run_refines d htx hrx txMem rxMem txAddr rxAddr calls
  obtain ⟨tx, o, htx', hts, ht⟩ := h.tx
  obtain ⟨rx, o', hrx', hrs, hr⟩ := h.rx
  refine ⟨⟨tx, _, htx', hts, ht.keeps, ?_⟩, ⟨rx, _, hrx', hrs, hr.keeps, ?_⟩, fun level => ?_⟩
  · rw [h.txFifo, h.enqueued, Spec.Fifo.law]
  · rw [h.returned, h.fifoRead, Spec.Fifo.law]
  · refine ⟨_, (txStartUartBuffer_eq h.tx level).1, ?_⟩
    have hl := level.2
    rw [List.length_take]
    omega

/-- Four bytes enqueued, of which a FIFO with one free cell takes the first. -/
theorem four_bytes_buffered :
    let d : UartDriver := ⟨none, none, false, false, []⟩
    let r := run UartRun.step (.start (d.uartInit 40960 40000 (fun _ => 0) (fun _ => 0) 0x1000 0x2000))
      [.txBuffEnq (fun i => BitVec.ofNat 8 (i + 1)) 4 none, .txStartUartBuffer 127]
    r.IsTwoFifos ∧ r.enqueued = [1, 2, 3, 4] ∧ r.driver.txFifo = [1] :=
  ⟨buffered_uart_is_two_fifos _ (by decide) (by decide) _ _ _ _ _, by decide, by decide⟩

end Nonos
