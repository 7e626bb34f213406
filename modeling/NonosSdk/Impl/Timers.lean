import NonosSdk.Framework.Mem

/-!
# Timeouts of lwIP (`lwip/core/timers.c`)

The list of timeouts, each of which holds the milliseconds from the one before,
and the machine that `sys_check_timeouts` is while it calls handlers: a handler
may itself set and cancel timeouts (`call`), and so may anyone between two
checks. The configuration is `NO_SYS`. A handler is known by `η`, its argument by
`α`.

Left out: `tcp_timer_needed` and the handlers themselves, which call the timer
functions of their modules and set themselves again.
-/

namespace Nonos

variable {η α : Type}

/-- `struct sys_timeo`; a null handler is `none`. -/
structure SysTimeo (η α : Type) where
  time : Word
  h : Option η
  arg : α
  deriving DecidableEq

/-- The loop of `sys_timeout`, at `t`, the first of the list. -/
def sysTimeoutLoop (timeout : SysTimeo η α) : List (SysTimeo η α) → List (SysTimeo η α)
  | [] => []
  | [t] => [t, { timeout with time := timeout.time - t.time }]
  | t :: n :: next =>
    let timeout := { timeout with time := timeout.time - t.time }
    if n.time > timeout.time then t :: timeout :: { n with time := n.time - timeout.time } :: next
    else t :: sysTimeoutLoop timeout (n :: next)

/-- `sys_timeout`; `alloc` is whether there is memory for one more. -/
def sysTimeout (alloc : Bool) (msecs : Word) (h : Option η) (arg : α) (nextTimeout : List (SysTimeo η α)) :
    List (SysTimeo η α) :=
  if !alloc then nextTimeout
  else
    let timeout := { time := msecs, h, arg }
    match nextTimeout with
    | [] => [timeout]
    | t :: next =>
      if t.time > msecs then timeout :: { t with time := t.time - msecs } :: next
      else sysTimeoutLoop timeout (t :: next)

variable [DecidableEq η] [DecidableEq α]

/-- `sys_untimeout`. -/
def sysUntimeout (h : Option η) (arg : α) : List (SysTimeo η α) → List (SysTimeo η α)
  | [] => []
  | [t] => if t.h = h ∧ t.arg = arg then [] else [t]
  | t :: n :: next =>
    if t.h = h ∧ t.arg = arg then { n with time := n.time + t.time } :: next
    else t :: sysUntimeout h arg (n :: next)

/-- Where `sys_check_timeouts` is: not running, before a turn of its loop, in a handler, or stopped by the read
through a null `next_timeout`. -/
inductive CheckPc where
  | idle
  | loop (diff now : Word)
  | handler (diff now : Word)
  | fault

/-- The module's variables, and `sys_check_timeouts`. -/
structure Timers (η α : Type) where
  nextTimeout : List (SysTimeo η α)
  timeoutsLastTime : Word
  pc : CheckPc

/-- A call of one of the two functions above. -/
inductive TimerCall (η α : Type) where
  | timeout (alloc : Bool) (msecs : Word) (h : Option η) (arg : α)
  | untimeout (h : Option η) (arg : α)

/-- What happens: a call, from a handler or between two checks; `sys_check_timeouts` at time `now`, with
`timer2_ms_flag`; a turn of its loop; a handler's return; `sys_restart_timeouts`. -/
inductive TimerEvent (η α : Type) where
  | call (c : TimerCall η α)
  | check (timer2MsFlag : Bool) (now : Word)
  | turn
  | ret
  | restart (now : Word)

/-- The ticks of a millisecond. -/
def ticksPerMs (timer2MsFlag : Bool) : Nat := if timer2MsFlag then (80 * 1000000 >>> 8) / 1000 else (80 * 1000000 >>> 4) / 1000

/-- `LWIP_U32_DIFF` -/
def lwipU32Diff (a b : Word) : Word := if a ≥ b then a - b else a + (b ^^^ 0xffffffff) + 1

def runCall (c : TimerCall η α) (nextTimeout : List (SysTimeo η α)) : List (SysTimeo η α) :=
  match c with
  | .timeout alloc msecs h arg => sysTimeout alloc msecs h arg nextTimeout
  | .untimeout h arg => sysUntimeout h arg nextTimeout

/-- One turn of the loop: a timeout that has expired is taken off the list, and its handler called. -/
def checkTurn (s : Timers η α) (diff now : Word) : Timers η α :=
  match s.nextTimeout with
  | [] => { s with pc := .fault }
  | tmptimeout :: next =>
    if tmptimeout.time ≤ diff then
      { nextTimeout := next, timeoutsLastTime := now,
        pc := if tmptimeout.h = none then .loop (diff - tmptimeout.time) now else .handler (diff - tmptimeout.time) now }
    else { s with pc := .idle }

def timersStep (s : Timers η α) (e : TimerEvent η α) : Timers η α :=
  match s.pc, e with
  | .idle, .call c => { s with nextTimeout := runCall c s.nextTimeout }
  | .handler .., .call c => { s with nextTimeout := runCall c s.nextTimeout }
  | .idle, .check flag now =>
    if s.nextTimeout = [] then s
    else { s with pc := .loop (BitVec.ofNat 32 ((lwipU32Diff now s.timeoutsLastTime).toNat / ticksPerMs flag)) now }
  | .loop diff now, .turn => checkTurn s diff now
  | .handler diff now, .ret => { s with pc := .loop diff now }
  | .idle, .restart now => { s with timeoutsLastTime := now }
  | .handler .., .restart now => { s with timeoutsLastTime := now }
  | _, _ => s

end Nonos
