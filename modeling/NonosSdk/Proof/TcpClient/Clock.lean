import Mathlib.Data.List.Chain
import NonosSdk.Proof.TcpClient.Handlers

/-!
# The time given to Xlink

`user_tcp_func_process` passes `system_get_time() / 1000000` to `XlinkSystemLoop`, and
nothing else does (`run_ticks`). `system_get_time` is the microseconds modulo
`2³²`, so after 4294 s the seconds start again from 0: they never go back exactly in the
runs in which no two consecutive ticks lie on two sides of a wrap, short of an interval so
long that the second is the same again (`clock_monotone_iff`).
-/

namespace Nonos

/-- Equivalent on neighbours, equivalent along the list. -/
theorem isChain_iff_of_isChain {α : Type} {G R S : α → α → Prop} (h : ∀ a b, G a b → (R a b ↔ S a b))
    {l : List α} (hg : l.IsChain G) : l.IsChain R ↔ l.IsChain S := by
  induction hg with
  | nil => simp
  | singleton a => simp
  | cons_cons hab _ ih => rw [List.isChain_cons_cons, List.isChain_cons_cons, h _ _ hab, ih]

/-- `system_get_time`, after so many microseconds. -/
def systemGetTime (micros : Nat) : Word := BitVec.ofNat 32 micros

def TcpEvent.isTick : TcpEvent → Bool
  | .tick _ => true
  | _ => false

/-- A `user_tcp_func_process` in station mode with an address, and what happens inside
`XlinkSystemLoop` and until the next one. -/
structure Tick where
  micros : Nat
  ip : Word
  inLoop : List TcpEvent
  after : List TcpEvent
  ip_ne : ip ≠ 0
  others : ∀ e ∈ inLoop ++ after, e.isTick = false

namespace Tick

variable (t t' : Tick)

def events : List TcpEvent :=
  .tick ⟨.station, .gotIp, t.ip, systemGetTime t.micros⟩ :: (t.inLoop ++ .loopEnd :: t.after)

/-- `ctime` -/
def ctime : Word := systemGetTime t.micros / 1000000

/-- `t'` comes after `t`, less than `2³²` microseconds later. -/
def Soon : Prop := t.micros ≤ t'.micros ∧ t'.micros < t.micros + 2 ^ 32

/-- No wrap lies between them, or they show the same second. -/
def NoWrap : Prop :=
  t.micros / 2 ^ 32 = t'.micros / 2 ^ 32 ∨ t.micros % 2 ^ 32 / 1000000 = t'.micros % 2 ^ 32 / 1000000

instance : Decidable (t.NoWrap t') := inferInstanceAs (Decidable (_ ∨ _))

instance : Decidable (t.Soon t') := inferInstanceAs (Decidable (_ ∧ _))

theorem ctime_toNat : t.ctime.toNat = t.micros % 2 ^ 32 / 1000000 := by
  rw [ctime, systemGetTime, BitVec.toNat_udiv, BitVec.toNat_ofNat]
  rfl

/-- Across a wrap the time of day is smaller, so the seconds are too unless they are equal. -/
theorem ctime_le_iff {t t' : Tick} (h : t.Soon t') : t.ctime ≤ t'.ctime ↔ t.NoWrap t' := by
  obtain ⟨h1, h2⟩ := h
  rw [BitVec.le_def, ctime_toNat, ctime_toNat, NoWrap]
  omega

end Tick

namespace TcpClient

variable {c : TcpClient}

/-- No time has been passed to Xlink, and no loop of it entered. -/
structure SameClock (c d : TcpClient) : Prop where
  loopTimes : d.loopTimes = c.loopTimes
  inLoop : c.inLoop = false → d.inLoop = false

theorem sameClock_userTcpReconnect (c : TcpClient) (ok : Bool) : SameClock c (c.userTcpReconnect ok) := by
  rcases userTcpReconnect_cases c ok with ⟨-, he⟩ | ⟨-, -, he⟩ | ⟨-, -, he⟩ <;> rw [he] <;> exact ⟨rfl, id⟩

theorem sameClock_userTcpDnsFound (c : TcpClient) (ip : Option Word) (ok : Bool) :
    SameClock c (c.userTcpDnsFound ip ok) := by
  unfold userTcpDnsFound
  cases ip with
  | none => exact ⟨rfl, id⟩
  | some addr =>
    dsimp only
    split_ifs <;> exact ⟨rfl, id⟩

/-- Of all the client's code only `user_tcp_func_process` gives Xlink a time. -/
theorem sameClock_step (c : TcpClient) {e : TcpEvent} (he : e.isTick = false) : SameClock c (c.step e) := by
  unfold step
  split_ifs
  · cases e with
    | tick w => cases he
    | loopEnd =>
      refine ⟨?_, fun _ => rfl⟩
      show c.userTcpSendLoop.loopTimes = c.loopTimes
      unfold userTcpSendLoop
      dsimp only
      split_ifs <;> rfl
    | status s ok =>
      cases s with
      | disconnctServer =>
        obtain ⟨h1, h2⟩ := sameClock_userTcpReconnect { c with isConnectServer := false } ok
        exact ⟨h1, h2⟩
      | proTestcomplete | connectServer | appConnect | appDisconnect | appTimeout | loginSuccess =>
        exact ⟨rfl, id⟩
    | dnsFound ip ok =>
      obtain ⟨h1, h2⟩ := sameClock_userTcpDnsFound { c with queries := c.queries - 1 } ip ok
      exact ⟨h1, h2⟩
    | disconnectCb ok | reconnectCb ok =>
      obtain ⟨h1, h2⟩ := sameClock_userTcpReconnect { c with link := .none } ok
      exact ⟨h1, h2⟩
    | smartconfigDone s => cases s <;> exact ⟨rfl, id⟩
    | sendPipe pbuf len =>
      show SameClock c (c.userTcpSendPipe pbuf len)
      unfold userTcpSendPipe
      split_ifs <;> exact ⟨rfl, id⟩
    | dnsTimer | connectCb | keyShortPress | smartconfigTimeout => exact ⟨rfl, id⟩
  · exact ⟨rfl, id⟩

theorem sameClock_run (c : TcpClient) {es : List TcpEvent} (he : ∀ e ∈ es, e.isTick = false) :
    SameClock c (run step c es) := by
  induction es generalizing c with
  | nil => exact ⟨rfl, id⟩
  | cons e es ih =>
    have h1 := sameClock_step c (he e (by simp))
    have h2 := ih (c.step e) fun e' h' => he e' (by simp [h'])
    exact ⟨h2.loopTimes.trans h1.loopTimes, fun h => h2.inLoop (h1.inLoop h)⟩

/-- The end of `XlinkSystemLoop`, also where it was left before. -/
theorem step_loopEnd_inLoop (c : TcpClient) : (c.step .loopEnd).inLoop = false := by
  unfold step
  split_ifs with h
  · rfl
  · exact Bool.eq_false_iff.mpr h

/-- A tick passes its time, once. -/
theorem run_tick (hi : c.inLoop = false) (t : Tick) :
    (run step c t.events).loopTimes = c.loopTimes ++ [t.ctime] ∧ (run step c t.events).inLoop = false := by
  have hhead : (c.step (.tick ⟨.station, .gotIp, t.ip, systemGetTime t.micros⟩)).loopTimes =
      c.loopTimes ++ [t.ctime] := by
    have hstep : c.step (.tick ⟨.station, .gotIp, t.ip, systemGetTime t.micros⟩) =
        c.funcProcessHead ⟨.station, .gotIp, t.ip, systemGetTime t.micros⟩ := if_pos hi
    rw [hstep]
    rcases funcProcessHead_cases c ⟨.station, .gotIp, t.ip, systemGetTime t.micros⟩ with
      ⟨hm, -⟩ | ⟨-, hs, -⟩ | ⟨-, -, -, he⟩ | ⟨-, -, -, he⟩
    · exact absurd rfl hm
    · exact absurd ⟨rfl, t.ip_ne⟩ hs
    · exact congrArg loopTimes he
    · exact congrArg loopTimes he
  rw [Tick.events, run_cons, run_append, run_cons]
  generalize c.step _ = c₁ at hhead ⊢
  have h2 := sameClock_run c₁ fun e he => t.others e (List.mem_append_left _ he)
  have h3 := sameClock_step (run step c₁ t.inLoop) (e := .loopEnd) rfl
  have h4 := sameClock_run ((run step c₁ t.inLoop).step .loopEnd) fun e he => t.others e (List.mem_append_right _ he)
  exact ⟨h4.loopTimes.trans (h3.loopTimes.trans (h2.loopTimes.trans hhead)),
    h4.inLoop (step_loopEnd_inLoop _)⟩

theorem run_ticks (hi : c.inLoop = false) (ticks : List Tick) :
    (run step c (ticks.flatMap Tick.events)).loopTimes = c.loopTimes ++ ticks.map Tick.ctime := by
  induction ticks generalizing c with
  | nil => simp
  | cons t ticks ih =>
    obtain ⟨ht, hl⟩ := run_tick hi t
    rw [List.flatMap_cons, run_append, ih hl, ht, List.map_cons, List.append_assoc]
    rfl

/-- The times passed to `XlinkSystemLoop` never go back exactly if between no two consecutive
ticks there is a wrap of `system_get_time`, or if they show the same second. -/
theorem clock_monotone_iff (m : Mem Byte) (buf : Nat) {ticks : List Tick} (h : ticks.IsChain Tick.Soon) :
    (run step (userTcpClientInit m buf) (ticks.flatMap Tick.events)).loopTimes.IsChain (· ≤ ·) ↔
      ticks.IsChain Tick.NoWrap := by
  rw [run_ticks rfl, show (userTcpClientInit m buf).loopTimes = [] from rfl, List.nil_append, List.isChain_map]
  exact isChain_iff_of_isChain (fun t t' ht => Tick.ctime_le_iff ht) h

/-- A tick, with nothing else happening. -/
def plainTick (micros : Nat) : Tick := ⟨micros, 0x0100A8C0, [], [], by decide, by simp⟩

/-- 100 ms apart, on both sides of the first wrap: 4294 s, then 0 s. -/
theorem clock_runs_back :
    ([4294900000, 4295000000].map plainTick).IsChain Tick.Soon ∧
      ¬ (run step (userTcpClientInit (fun _ => 0) 0x1000)
        (([4294900000, 4295000000].map plainTick).flatMap Tick.events)).loopTimes.IsChain (· ≤ ·) := by
  refine ⟨by simp [plainTick, Tick.Soon], ?_⟩
  rw [run_ticks rfl]
  decide

/-- Three ticks from start. -/
theorem clock_monotone_start : (run step (userTcpClientInit (fun _ => 0) 0x1000)
    (([100000, 1100000, 4294900000].map plainTick).flatMap Tick.events)).loopTimes.IsChain (· ≤ ·) :=
  have hsoon : ([100000, 1100000, 4294900000].map plainTick).IsChain Tick.Soon := by simp [plainTick, Tick.Soon]
  (clock_monotone_iff (fun _ => 0) 0x1000 hsoon).mpr (by simp [plainTick, Tick.NoWrap])

end TcpClient

end Nonos
