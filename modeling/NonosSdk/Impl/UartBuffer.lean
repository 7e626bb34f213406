import NonosSdk.Framework.Mem

/-!
# The buffered UART driver (`app/driver/uart.c` with `UART_BUFF_EN`)

The transmit and the receive buffer between the application and the hardware
FIFOs of UART0. Pointers into a buffer are addresses in the memory its
storage is in; `os_malloc` gives every buffer storage of its own, so each has
its own memory here. A FIFO's fill level and content are inputs, and
`txFifo` collects what is written to `UART_FIFO`. The sources of
`tx_buff_enq` and the destinations of `rx_buff_deq` are the caller's.

Left out: `BuffState`, `nextBuff` and `TcpControl`, which are set and never
read, and the debug output.
-/

namespace Nonos

/-- `struct UartBuffer`. -/
structure UartBuffer where
  mem : Mem Byte
  uartBuffSize : Word
  pUartBuff : Nat
  pInPos : Nat
  pOutPos : Nat
  space : BitVec 16

/-- `UART_FIFO_LEN` -/
def uartFifoLen : Nat := 128

/-- `UART_TX_BUFFER_SIZE` and `UART_RX_BUFFER_SIZE`. -/
def uartBufferSize : Word := 256

/-- `Uart_Buf_Init`: `NULL` if the heap is too small, otherwise a buffer in the
block at `addr`. -/
def uartBufInit (bufSize heapSize : Word) (mem : Mem Byte) (addr : Nat) : Option UartBuffer :=
  if heapSize ≤ bufSize then none
  else some { mem, uartBuffSize := bufSize, pUartBuff := addr, pInPos := addr, pOutPos := addr,
              space := bufSize.setWidth 16 }

namespace UartBuffer

variable (b : UartBuffer)

/-- The address after the storage. -/
def endPos : Nat := b.pUartBuff + b.uartBuffSize.toNat

/-- `p = pUartBuff + ( p - pUartBuff ) % UartBuffSize` -/
def modPos (p : Nat) : Nat := b.pUartBuff + (p - b.pUartBuff) % b.uartBuffSize.toNat

/-- A copy to `pInPos`, which moves on, and `Space`, which shrinks. -/
def copyIn (pdata : Nat → Byte) (len : BitVec 16) : UartBuffer :=
  { b with mem := b.mem.store b.pInPos pdata len.toNat,
           pInPos := b.modPos (b.pInPos + len.toNat), space := b.space - len }

/-- `Uart_Buf_Cpy`. -/
def uartBufCpy (pdata : Nat → Byte) (dataLen : BitVec 16) : UartBuffer :=
  if dataLen = 0 then b
  else
    let tailLen := BitVec.ofNat 16 (b.endPos - b.pInPos)
    if tailLen ≥ dataLen then b.copyIn pdata dataLen
    else (b.copyIn pdata tailLen).copyIn (fun i => pdata (tailLen.toNat + i)) (dataLen - tailLen)

/-- `os_memcpy( dst, pdata + off, count )` -/
structure Copy where
  dst : Nat
  off : Nat
  count : Nat
  deriving DecidableEq, Repr

/-- The copies of `Uart_Buf_Cpy`, in order. -/
def cpyCopies (dataLen : BitVec 16) : List Copy :=
  if dataLen = 0 then []
  else
    let tailLen := BitVec.ofNat 16 (b.endPos - b.pInPos)
    if tailLen ≥ dataLen then [⟨b.pInPos, 0, dataLen.toNat⟩]
    else [⟨b.pInPos, 0, tailLen.toNat⟩,
      ⟨b.modPos (b.pInPos + tailLen.toNat), tailLen.toNat, (dataLen - tailLen).toNat⟩]

/-- `rx_buff_deq`: the bytes copied to `pdata`, as many as it returns. -/
def rxBuffDeq (dataLen : BitVec 16) : List Byte × UartBuffer :=
  let bufLen := (b.uartBuffSize - b.space.setWidth 32).setWidth 16
  let tailLen := BitVec.ofNat 16 (b.endPos - b.pOutPos)
  let lenTmp := if dataLen > bufLen then bufLen else dataLen
  if b.pOutPos ≤ b.pInPos then
    (b.mem.cells b.pOutPos lenTmp.toNat,
      { b with pOutPos := b.pOutPos + lenTmp.toNat, space := b.space + lenTmp })
  else if lenTmp > tailLen then
    let first := b.mem.cells b.pOutPos tailLen.toNat
    let b := { b with pOutPos := b.modPos (b.pOutPos + tailLen.toNat), space := b.space + tailLen }
    (first ++ b.mem.cells b.pOutPos (lenTmp - tailLen).toNat,
      { b with pOutPos := b.modPos (b.pOutPos + (lenTmp - tailLen).toNat),
               space := b.space + (lenTmp - tailLen) })
  else
    (b.mem.cells b.pOutPos lenTmp.toNat,
      { b with pOutPos := b.modPos (b.pOutPos + lenTmp.toNat), space := b.space + lenTmp })

/-- The body of the loop of `Uart_rx_buff_enq`. -/
def rxPutByte (fifoData : Byte) : UartBuffer :=
  let pInPos := b.pInPos + 1
  { b with mem := Function.update b.mem b.pInPos fifoData,
           pInPos := if pInPos = b.endPos then b.pUartBuff else pInPos }

/-- `Uart_rx_buff_enq`, and the bytes it reads from the FIFO. -/
def uartRxBuffEnq (fifo : List Byte) : List Byte × UartBuffer :=
  let fifoLen := BitVec.ofNat 8 fifo.length
  if fifoLen.setWidth 16 ≥ b.space then ([], b)
  else
    let read := fifo.take fifoLen.toNat
    let b := read.foldl rxPutByte b
    (read, { b with space := b.space - fifoLen.setWidth 16 })

/-- The loop of `tx_fifo_insert`: the bytes written to `UART_FIFO`. -/
def txTake : Nat → UartBuffer → List Byte × UartBuffer
  | 0, b => ([], b)
  | n + 1, b =>
    let pOutPos := b.pOutPos + 1
    let (bytes, b') := txTake n { b with pOutPos := if pOutPos = b.endPos then b.pUartBuff else pOutPos }
    (b.mem b.pOutPos :: bytes, b')

/-- `tx_fifo_insert`. -/
def txFifoInsert (dataLen : Byte) : List Byte × UartBuffer :=
  let (bytes, b) := txTake dataLen.toNat b
  (bytes, { b with pOutPos := b.modPos b.pOutPos, space := b.space + dataLen.setWidth 16 })

end UartBuffer

/-- The driver. -/
structure UartDriver where
  pTxBuffer : Option UartBuffer
  pRxBuffer : Option UartBuffer
  /-- `UART_TXFIFO_EMPTY_INT_ENA` of UART0. -/
  txEmptyEna : Bool
  /-- `UART_RXFIFO_FULL_INT_ENA` and `UART_RXFIFO_TOUT_INT_ENA` of UART0. -/
  rxIntrEna : Bool
  /-- The bytes written to `UART_FIFO` of UART0 since `uart_init`. -/
  txFifo : List Byte

namespace UartDriver

variable (d : UartDriver)

/-- `uart_init`, with what each `Uart_Buf_Init` finds: the free heap and a block
of it. -/
def uartInit (txHeap rxHeap : Word) (txMem rxMem : Mem Byte) (txAddr rxAddr : Nat) : UartDriver :=
  { d with pTxBuffer := uartBufInit uartBufferSize txHeap txMem txAddr,
           pRxBuffer := uartBufInit uartBufferSize rxHeap rxMem rxAddr,
           rxIntrEna := true, txFifo := [] }

/-- `tx_buff_enq`; what `Uart_Buf_Init` makes of its call is `init`. -/
def txBuffEnq (pdata : Nat → Byte) (dataLen : BitVec 16) (init : Option UartBuffer) : UartDriver :=
  let pTxBuffer :=
    match d.pTxBuffer with
    | none => init.map (·.uartBufCpy pdata dataLen)
    | some b => if dataLen ≤ b.space then some (b.uartBufCpy pdata dataLen) else some b
  { d with pTxBuffer, txEmptyEna := true }

/-- The copies of a `tx_buff_enq`. -/
def txBuffEnqCopies (dataLen : BitVec 16) (init : Option UartBuffer) : List UartBuffer.Copy :=
  match d.pTxBuffer with
  | none => (init.map (·.cpyCopies dataLen)).getD []
  | some b => if dataLen ≤ b.space then b.cpyCopies dataLen else []

/-- `tx_start_uart_buffer` for UART0, with `txFifoLen` bytes in the FIFO. -/
def txStartUartBuffer (txFifoLen : Byte) : UartDriver :=
  let fifoRemain := BitVec.ofNat 8 uartFifoLen - txFifoLen
  match d.pTxBuffer with
  | none => d
  | some b =>
    let dataLen := (b.uartBuffSize - b.space.setWidth 32).setWidth 16
    if dataLen > fifoRemain.setWidth 16 then
      let (bytes, b) := b.txFifoInsert fifoRemain
      { d with pTxBuffer := some b, txFifo := d.txFifo ++ bytes, txEmptyEna := true }
    else
      let (bytes, b) := b.txFifoInsert (dataLen.setWidth 8)
      { d with pTxBuffer := some b, txFifo := d.txFifo ++ bytes }

/-- `uart_rx_intr_enable`, if there is room for a FIFO in the receive buffer. -/
def rxIntrEnable (b : UartBuffer) : UartDriver :=
  { d with pRxBuffer := some b, rxIntrEna := d.rxIntrEna || decide (b.space.toNat ≥ uartFifoLen) }

/-- `rx_buff_deq`, with a receive buffer. -/
def rxBuffDeq (dataLen : BitVec 16) : List Byte × UartDriver :=
  match d.pRxBuffer with
  | none => ([], d)
  | some b =>
    let (bytes, b) := b.rxBuffDeq dataLen
    (bytes, d.rxIntrEnable b)

/-- `Uart_rx_buff_enq`, with a receive buffer; the bytes in the FIFO are `fifo`. -/
def uartRxBuffEnq (fifo : List Byte) : List Byte × UartDriver :=
  match d.pRxBuffer with
  | none => ([], d)
  | some b =>
    let (read, b') := b.uartRxBuffEnq fifo
    (read, if (BitVec.ofNat 8 fifo.length).setWidth 16 ≥ b.space then d else d.rxIntrEnable b')

end UartDriver

end Nonos
