import Mathlib.Logic.Function.Basic
import NonosSdk.Impl.Modbus

/-!
# The UART driver (`app/user/user_uart.c`)

The two ports as far as interrupts go: the receive FIFO, and for every cause
its bit in `INT_RAW` and `INT_ENA`. A bit of `INT_RAW` stays set until it is
written to `INT_CLR`; `INT_ST` is `INT_RAW` masked by `INT_ENA`. What the
hardware does on its own is `arrive` (a byte, which raises `RXFIFO_FULL` from
the threshold on, and `RXFIFO_OVF` if there is no room) and `idle` (the line was
idle for the receive timeout, which raises `RXFIFO_TOUT` if there are bytes).

`modbus_init` hands the driver its receive buffer, and `app_init` sets
`modbus_receive` as the receive callback and no callback for an empty transmit
FIFO.
-/

namespace Nonos

/-- The interrupt causes that the driver enables. -/
inductive Cause where
  | frmErr
  | rxfifoTout
  | rxfifoOvf
  | rxfifoFull
  | txfifoEmpty
  deriving DecidableEq, Repr

structure UartPort where
  rxFifo : List Byte := []
  intRaw : Cause → Bool := fun _ => false
  intEna : Cause → Bool := fun _ => false
  /-- `UART_RXFIFO_FULL_THRHD` of `CONF1`. -/
  rxfifoFullThrhd : Nat := 0
  /-- `UART_RX_TOUT_THRHD` of `CONF1`, in bits. -/
  rxToutThrhd : Nat := 0
  /-- `UART_RX_TOUT_EN` of `CONF1`. -/
  rxToutEn : Bool := false

namespace UartPort

/-- `INT_ST`. -/
def intSt (p : UartPort) (c : Cause) : Bool := p.intRaw c && p.intEna c

/-- A write to `INT_CLR`. -/
def intClr (p : UartPort) (c : Cause) : UartPort := { p with intRaw := Function.update p.intRaw c false }

def raise (p : UartPort) (c : Cause) : UartPort := { p with intRaw := Function.update p.intRaw c true }

/-- `CLEAR_PERI_REG_MASK( UART_INT_ENA, .. )` -/
def mask (p : UartPort) (c : Cause) : UartPort := { p with intEna := Function.update p.intEna c false }

/-- The receive FIFO holds 128 bytes. -/
def fifoSize : Nat := 128

/-- A byte arrives. -/
def arrive (p : UartPort) (b : Byte) : UartPort :=
  let p := if p.rxFifo.length < fifoSize then { p with rxFifo := p.rxFifo ++ [b] }
    else p.raise .rxfifoOvf
  if p.rxfifoFullThrhd ≤ p.rxFifo.length then p.raise .rxfifoFull else p

/-- The line has been idle for the receive timeout. -/
def idle (p : UartPort) : UartPort :=
  if p.rxToutEn ∧ p.rxFifo ≠ [] then p.raise .rxfifoTout else p

end UartPort

/-- The driver, and the Modbus driver above it. -/
structure Uart where
  uart0 : UartPort := {}
  uart1 : UartPort := {}
  /-- `uart0_rx_cb` is `modbus_receive`. -/
  uart0RxCb : Bool := false
  modbus : Modbus := {}

namespace Uart

/-- `uart0_init`; `UART_RXFIFO_FULL_THRHD` and `UART_RX_TOUT_THRHD` are masks. -/
def uart0Init (u : Uart) (frameInterval : Nat) : Uart :=
  { u with uart0 := {
      rxFifo := []
      intRaw := fun _ => false
      intEna := fun _ => true
      rxfifoFullThrhd := 0x7F &&& 96
      rxToutThrhd := 0x7F &&& frameInterval
      rxToutEn := true } }

/-- `uart1_init`. -/
def uart1Init (u : Uart) : Uart :=
  { u with uart1 := {
      rxFifo := []
      intRaw := fun _ => false
      intEna := Function.update u.uart1.intEna .txfifoEmpty true
      rxfifoFullThrhd := 0x7F &&& 1 } }

/-- The part of `app_init` that sets up the bus: `modbus_init`,
`uart0_set_rx_cb` and `modbus_set_recv_frame_fn`. -/
def appInit (u : Uart) : Uart :=
  let u := u.uart0Init 64
  { u with uart0RxCb := true, modbus := u.modbus.setRecvFrameFn }

/-- Emptying the receive FIFO: the `uint8_t` count read from `STATUS`, and that
many bytes. -/
def readFifo (p : UartPort) : RxBuffer where
  buffer := p.rxFifo.take (p.rxFifo.length % 256)
  len_lt := by rw [List.length_take]; omega

/-- The first half of `uart_intr_handler`. -/
def uart0Intr (u : Uart) : Uart :=
  if u.uart0.intSt .frmErr then { u with uart0 := u.uart0.intClr .frmErr }
  else if u.uart0.intSt .rxfifoTout || u.uart0.intSt .rxfifoOvf || u.uart0.intSt .rxfifoFull then
    let rx := readFifo u.uart0
    let p := { u.uart0 with rxFifo := u.uart0.rxFifo.drop rx.buffer.length }.intClr .rxfifoTout
    { u with uart0 := p, modbus := if u.uart0RxCb then u.modbus.receive (some rx) else u.modbus }
  else if u.uart0.intSt .txfifoEmpty then
    { u with uart0 := (u.uart0.mask .txfifoEmpty).intClr .txfifoEmpty }
  else u

/-- The second half. -/
def uart1Intr (u : Uart) : Uart :=
  if u.uart1.intSt .frmErr then { u with uart1 := u.uart1.intClr .frmErr }
  else if u.uart1.intSt .txfifoEmpty then
    { u with uart1 := (u.uart1.mask .txfifoEmpty).intClr .txfifoEmpty }
  else u

/-- `uart_intr_handler`; neither half touches what the other reads. -/
def uartIntrHandler (u : Uart) : Uart := u.uart0Intr.uart1Intr

/-- An enabled cause is raised, so the handler may run. -/
def Pending (u : Uart) : Prop := ∃ c, u.uart0.intSt c ∨ u.uart1.intSt c

end Uart

/-- What happens at the UARTs: a byte arrives at UART0, its line has been idle
for the timeout, its transmit FIFO runs empty, a cause is raised on UART1, or
the handler runs. -/
inductive UartEvent where
  | arrive (b : Byte)
  | idle
  | txEmpty
  | uart1 (c : Cause)
  | intr

def Uart.step (u : Uart) : UartEvent → Uart
  | .arrive b => { u with uart0 := u.uart0.arrive b }
  | .idle => { u with uart0 := u.uart0.idle }
  | .txEmpty => { u with uart0 := u.uart0.raise .txfifoEmpty }
  | .uart1 c => { u with uart1 := u.uart1.raise c }
  | .intr => u.uartIntrHandler

end Nonos
