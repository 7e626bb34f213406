import Mathlib.Logic.Function.Basic
import NonosSdk.Framework.Mem

/-!
# The keys (`app/driver/key.c`)

The keys that `key_init` is given, with the interrupt types of their pins. A
timer is armed or not; `presses` are the calls of the registered functions. The
interrupt status and the levels of the pins are inputs.

Left out: the multiplexer settings (`gpio_name`, `gpio_func`), and the status
register, which the handler reads once and clears.
-/

namespace Nonos

/-- `GPIO_INT_TYPE`. -/
inductive GpioIntType where
  | disable
  | posedge
  | negedge
  | anyedge
  | lolevel
  | hilevel
  deriving DecidableEq, Repr

/-- `struct single_key_param`. -/
structure SingleKey where
  keyLevel : Byte
  gpioId : Nat
  /-- `key_3s` is armed. -/
  key3s : Bool
  /-- `key_50ms` is armed. -/
  key50ms : Bool
  /-- `short_press` is set. -/
  shortPress : Bool
  /-- `long_press` is set. -/
  longPress : Bool
  deriving DecidableEq, Repr

/-- The registered functions. -/
inductive KeyFunction where
  | shortPress
  | longPress
  deriving DecidableEq, Repr

structure Keys where
  singleKey : List SingleKey
  intType : Nat → GpioIntType
  /-- The calls of the registered functions, with the keys they are for. -/
  presses : List (Nat × KeyFunction) := []

/-- `key_init_single`; `os_zalloc` leaves the timers unarmed. -/
def keyInitSingle (gpioId : Nat) (longPress shortPress : Bool) : SingleKey where
  keyLevel := 0
  gpioId
  key3s := false
  key50ms := false
  shortPress
  longPress

namespace Keys

/-- `gpio_pin_intr_state_set`. -/
def gpioPinIntrStateSet (s : Keys) (pin : Nat) (t : GpioIntType) : Keys :=
  { s with intType := Function.update s.intType pin t }

/-- A change of `single_key[i]`. -/
def setKey (s : Keys) (i : Nat) (k : SingleKey) : Keys := { s with singleKey := s.singleKey.set i k }

/-- A call of a registered function, if it is set. -/
def call (s : Keys) (i : Nat) (isSet : Bool) (f : KeyFunction) : Keys :=
  if isSet then { s with presses := s.presses ++ [(i, f)] } else s

/-- The body of the loop of `key_init`. -/
def initKey (s : Keys) (i : Nat) : Keys :=
  match s.singleKey[i]? with
  | none => s
  | some k =>
    let s := s.setKey i { k with keyLevel := 1 }
    let s := s.gpioPinIntrStateSet k.gpioId .disable
    s.gpioPinIntrStateSet k.gpioId .negedge

/-- `key_init`. -/
def keyInit (s : Keys) : Keys := (List.range s.singleKey.length).foldl initKey s

/-- `key_3s_cb`, with the level of the pin. -/
def key3sCb (s : Keys) (i : Nat) (level : Bool) : Keys :=
  match s.singleKey[i]? with
  | none => s
  | some k =>
    let s := s.setKey i { k with key3s := false }
    if level = false then s.call i k.longPress .longPress else s

/-- `key_50ms_cb`, with the level of the pin. -/
def key50msCb (s : Keys) (i : Nat) (level : Bool) : Keys :=
  match s.singleKey[i]? with
  | none => s
  | some k =>
    let k := { k with key50ms := false }
    if level = true then
      let s := s.setKey i { k with key3s := false, keyLevel := 1 }
      let s := s.gpioPinIntrStateSet k.gpioId .negedge
      s.call i k.shortPress .shortPress
    else (s.setKey i k).gpioPinIntrStateSet k.gpioId .posedge

/-- `BIT(n)` -/
def bit (n : Nat) : Word := 1 <<< n

/-- The body of the loop of `key_intr_handler`. -/
def intrKey (gpioStatus : Word) (s : Keys) (i : Nat) : Keys :=
  match s.singleKey[i]? with
  | none => s
  | some k =>
    if gpioStatus &&& bit k.gpioId ≠ 0 then
      let s := s.gpioPinIntrStateSet k.gpioId .disable
      if k.keyLevel = 1 then
        let s := s.setKey i { k with key3s := true, keyLevel := 0 }
        s.gpioPinIntrStateSet k.gpioId .posedge
      else s.setKey i { k with key50ms := true }
    else s

/-- `key_intr_handler`. -/
def keyIntrHandler (s : Keys) (gpioStatus : Word) : Keys :=
  (List.range s.singleKey.length).foldl (intrKey gpioStatus) s

end Keys

/-- What happens to the keys. -/
inductive KeyEvent where
  | intr (gpioStatus : Word)
  /-- `key_50ms` of a key fires. -/
  | timer50ms (i : Nat) (level : Bool)
  /-- `key_3s` of a key fires. -/
  | timer3s (i : Nat) (level : Bool)

namespace Keys

/-- A timer fires only while it is armed. -/
def Enabled (s : Keys) : KeyEvent → Prop
  | .intr _ => True
  | .timer50ms i _ => ∃ k ∈ s.singleKey[i]?, k.key50ms = true
  | .timer3s i _ => ∃ k ∈ s.singleKey[i]?, k.key3s = true

instance (s : Keys) : ∀ e, Decidable (s.Enabled e)
  | .intr _ => isTrue trivial
  | .timer50ms i _ => inferInstanceAs (Decidable (∃ k ∈ s.singleKey[i]?, k.key50ms = true))
  | .timer3s i _ => inferInstanceAs (Decidable (∃ k ∈ s.singleKey[i]?, k.key3s = true))

def handle (s : Keys) : KeyEvent → Keys
  | .intr gpioStatus => s.keyIntrHandler gpioStatus
  | .timer50ms i level => s.key50msCb i level
  | .timer3s i level => s.key3sCb i level

/-- An event that cannot happen is skipped. -/
def step (s : Keys) (e : KeyEvent) : Keys := if s.Enabled e then s.handle e else s

end Keys

end Nonos
