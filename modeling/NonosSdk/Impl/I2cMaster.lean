import NonosSdk.Framework.Mem
import NonosSdk.Spec.I2c

/-!
# The bit-banged I2C master (`app/driver/i2c_master.c`)

The two open-drain lines, driven by `i2c_master_setDC` and by a slave that
moves SDA only while SCL is low: `moves` are the levels it takes then, a
list for every time the master leaves SCL low, and it may be any. What the
lines do is recorded in `wire`, and the slave's level at every rising edge of SCL
in `pulses`. Left out: `i2c_master_wait`, which takes time only, and
`i2c_master_gpio_init`, which sets the pins to open drain.
-/

namespace Nonos

open Spec.I2c (Line)

/-- The master's variables and the bus. -/
structure I2cBus where
  /-- `m_nLastSDA` and `m_nLastSCL`: the levels the master drives. -/
  nLastSDA : Bool
  nLastSCL : Bool
  /-- The level the slave drives SDA to. -/
  slave : Bool
  moves : List (List Bool)
  wire : List Line
  pulses : List Bool

namespace I2cBus

variable (b : I2cBus)

/-- The levels of the bus: SDA is low if the master or the slave pulls it low. -/
def line : Line := ⟨b.nLastSDA && b.slave, b.nLastSCL⟩

/-- The slave moves SDA. -/
def slaveMoves : I2cBus :=
  match b.moves with
  | [] => b
  | levels :: moves =>
    { b with slave := levels.getLastD b.slave, moves,
             wire := b.wire ++ levels.map fun level => ⟨b.nLastSDA && level, b.nLastSCL⟩ }

/-- `i2c_master_setDC`, and what the slave does while SCL is low. -/
def setDC (SDA SCL : Bool) : I2cBus :=
  let pulses := if !b.nLastSCL && SCL then b.pulses ++ [b.slave] else b.pulses
  let b := { b with nLastSDA := SDA, nLastSCL := SCL,
                    wire := b.wire ++ [⟨SDA && b.slave, SCL⟩], pulses }
  if SCL then b else b.slaveMoves

/-- `i2c_master_getDC`. -/
def getDC : Bool := b.line.sda

/-- `i2c_master_start`. -/
def start : I2cBus := ((b.setDC true b.nLastSCL).setDC true true).setDC false true

/-- `i2c_master_stop`. -/
def stop : I2cBus := ((b.setDC false b.nLastSCL).setDC false true).setDC true true

/-- The loop of `i2c_master_init`. -/
def clockOut : Nat → I2cBus → I2cBus
  | 0, b => b
  | n + 1, b => clockOut n ((b.setDC true false).setDC true true)

/-- `i2c_master_init`. -/
def init : I2cBus :=
  (clockOut 28 (((b.setDC true false).setDC false false).setDC true false)).stop

/-- `i2c_master_setAck`. -/
def setAck (level : Byte) : I2cBus :=
  let level := level.getLsbD 0
  ((((b.setDC b.nLastSDA false).setDC level false).setDC level true).setDC level false).setDC true false

/-- `i2c_master_getAck`. -/
def getAck : Bool × I2cBus :=
  let b := ((b.setDC b.nLastSDA false).setDC true false).setDC true true
  (b.getDC, b.setDC true false)

/-- The loop of `i2c_master_readByte`, with `n` bits to go. -/
def readBits : Nat → Byte → I2cBus → Byte × I2cBus
  | 0, retVal, b => (retVal, b)
  | n + 1, retVal, b =>
    let b := (b.setDC true false).setDC true true
    let k : Byte := (BitVec.ofBool b.getDC).setWidth 8
    readBits n (retVal ||| k <<< n) b

/-- `i2c_master_readByte`. -/
def readByte : Byte × I2cBus :=
  let (retVal, b) := readBits 8 0 (b.setDC b.nLastSDA false)
  (retVal, b.setDC true false)

/-- The loop of `i2c_master_writeByte`, with `n` bits to go. -/
def writeBits (wrdata : Byte) : Nat → I2cBus → I2cBus
  | 0, b => b
  | n + 1, b =>
    let dat := (wrdata >>> n).getLsbD 0
    writeBits wrdata n (((b.setDC dat false).setDC dat true).setDC dat false)

/-- `i2c_master_writeByte`. -/
def writeByte (wrdata : Byte) : I2cBus := writeBits wrdata 8 (b.setDC b.nLastSDA false)

end I2cBus

end Nonos
