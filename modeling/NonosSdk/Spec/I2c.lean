import Mathlib.Data.List.Basic

/-!
# Reading an I2C bus

The standard rules, on the levels that the two lines go through: a START is SDA
falling while SCL is high, a STOP is SDA rising while SCL is high, and a bit is
an SCL high pulse during which SDA does not change, with the level SDA has in it.
-/

namespace Nonos.Spec.I2c

/-- The levels of the bus. -/
structure Line where
  sda : Bool
  scl : Bool
deriving DecidableEq, Repr

/-- What is seen on the bus. -/
inductive Event where
  | start
  | stop
  | bit (level : Bool)
deriving DecidableEq, Repr

/-- An observer: the levels now, the level of the bit if the pulse under way is
one so far, and what has been seen. -/
structure Observer where
  line : Line
  pulse : Option Bool
  events : List Event

namespace Observer

/-- An observer that joins a bus with these levels. -/
def joining (line : Line) : Observer := ⟨line, none, []⟩

/-- The lines go to new levels. -/
def see (o : Observer) (l : Line) : Observer :=
  match o.line.scl, l.scl with
  | true, true =>
    if l.sda = o.line.sda then { o with line := l }
    else ⟨l, none, o.events ++ [if l.sda then .stop else .start]⟩
  | true, false => ⟨l, none, o.events ++ o.pulse.toList.map .bit⟩
  | false, true => ⟨l, some l.sda, o.events⟩
  | false, false => { o with line := l }

end Observer

/-- What an observer that has joined at `l` sees. -/
def decode (l : Line) (wire : List Line) : List Event :=
  (wire.foldl Observer.see (.joining l)).events

end Nonos.Spec.I2c
