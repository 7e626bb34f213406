import NonosSdk.Proof.Timers.Run

/-!
# The read through a null pointer

Behind a timeout that has expired, `sys_check_timeouts` looks at the next one
without asking whether there is one. There is, while some timeout is never
cancelled and its handler sets it again before it returns, as the timers of
`sys_timeouts_init` do: it is in the list, or its handler runs
(`TimerHist.Kept`), whatever the other handlers and callers do.
-/

namespace Nonos

variable {η α : Type}

/-- There is a timeout for `c`. -/
def TimeoutFor (c : Callback η α) (l : List (SysTimeo η α)) : Prop := ∃ e ∈ dues 0 l, e.2 = c

theorem timeoutFor_tail {c : Callback η α} {t : SysTimeo η α} {l : List (SysTimeo η α)} (h : TimeoutFor c (t :: l))
    (hne : (t.h, t.arg) ≠ c) : TimeoutFor c l := by
  obtain ⟨e, he, hc⟩ := h
  rw [dues_cons] at he
  rcases List.mem_cons.mp he with rfl | he
  · exact absurd hc hne
  · rw [dues_add] at he
    obtain ⟨f, hf, rfl⟩ := List.mem_map.mp he
    exact ⟨f, hf, hc⟩

namespace TimerHist

/-- The handler that runs, or was last to. -/
def last? (h : TimerHist η α) : Option (Callback η α) := h.fired.getLast?.map (·.2)

/-- `c` is not cancelled, and its handler sets it again before it returns. -/
def Rearms (c : Callback η α) (h : TimerHist η α) (e : Nat × TimerEvent η α) : Prop :=
  e.2 ≠ .call (.untimeout c.1 c.2) ∧
    ∀ diff now, h.s.pc = .handler diff now → e.2 = .ret → h.last? = some c → TimeoutFor c h.s.nextTimeout

/-- `c` is set, or its handler runs. -/
def Kept (c : Callback η α) (h : TimerHist η α) : Prop :=
  h.s.pc ≠ .fault ∧ (TimeoutFor c h.s.nextTimeout ∨ ((∃ diff now, h.s.pc = .handler diff now) ∧ h.last? = some c))

theorem Kept.checked {c : Callback η α} {h : TimerHist η α} (hk : h.Kept c) (hpc : h.s.pc = .idle) (diff now : Word)
    (checkAt t : Nat) :
    Kept c { h with
      s := if h.s.nextTimeout = [] then h.s else { h.s with pc := .loop diff now }, checkAt := checkAt, clock := t } := by
  by_cases hl : h.s.nextTimeout = []
  · rw [if_pos hl]
    exact hk
  · rw [if_neg hl]
    refine ⟨CheckPc.noConfusion, .inl ?_⟩
    rcases hk.2 with hset | ⟨⟨d, n, hpc'⟩, -⟩
    · exact hset
    · rw [hpc] at hpc'
      cases hpc'

variable [DecidableEq η] [DecidableEq α]

theorem timeoutFor_runCall {c : Callback η α} {l : List (SysTimeo η α)} (hl : Within l) (h : TimeoutFor c l)
    {call : TimerCall η α} (hcall : call ≠ .untimeout c.1 c.2) : TimeoutFor c (runCall call l) := by
  obtain ⟨e, he, hc⟩ := h
  cases call with
  | timeout alloc msecs f arg =>
    cases alloc with
    | false => exact ⟨e, he, hc⟩
    | true =>
      refine ⟨e, ?_, hc⟩
      rw [runCall, dues_sysTimeout]
      exact (insertDue_perm _ _).mem_iff.mpr (List.mem_cons_of_mem _ he)
  | untimeout f arg =>
    refine ⟨e, ?_, hc⟩
    rw [runCall, dues_sysUntimeout 0 f arg hl, List.mem_eraseP_of_neg]
    · exact he
    · intro hm
      refine hcall ?_
      have hm := of_decide_eq_true hm
      rw [← hc, ← hm.1, ← hm.2]

theorem Kept.turn {f : η} {arg : α} {h : TimerHist η α} (hk : h.Kept (some f, arg)) {diff now : Word}
    (hpc : h.s.pc = .loop diff now) (t : Nat) :
    Kept (some f, arg) { h.noteTurn diff with s := checkTurn h.s diff now, clock := t } := by
  have hset : TimeoutFor (some f, arg) h.s.nextTimeout := by
    rcases hk.2 with hset | ⟨⟨d, n, hpc'⟩, -⟩
    · exact hset
    · rw [hpc] at hpc'
      cases hpc'
  rcases hl : h.s.nextTimeout with _ | ⟨tmo, next⟩
  · obtain ⟨e, he, -⟩ := hset
    rw [hl] at he
    cases he
  · rw [hl] at hset
    by_cases hexp : tmo.time ≤ diff
    · simp only [noteTurn, checkTurn, hl, if_pos hexp]
      by_cases hc : (tmo.h, tmo.arg) = (some f, arg)
      · have hsome : tmo.h ≠ none := by
          rw [(Prod.mk.inj hc).1]
          exact Option.some_ne_none f
        rw [if_neg hsome]
        exact ⟨CheckPc.noConfusion, .inr ⟨⟨_, _, rfl⟩, by simp [last?, hc]⟩⟩
      · refine ⟨?_, .inl (timeoutFor_tail hset hc)⟩
        show (if tmo.h = none then _ else _) ≠ _
        split <;> exact CheckPc.noConfusion
    · simp only [noteTurn, checkTurn, hl, if_neg hexp]
      exact ⟨CheckPc.noConfusion, .inl hset⟩

theorem note_fired (h : TimerHist η α) (c : TimerCall η α) : (h.note c).fired = h.fired := by
  cases c with
  | timeout alloc msecs f arg => cases alloc <;> rfl
  | untimeout f arg => rfl

theorem Kept.call {c : Callback η α} {h : TimerHist η α} (hl : Within h.s.nextTimeout) (hk : h.Kept c)
    {call : TimerCall η α} (hcall : call ≠ .untimeout c.1 c.2) (t : Nat) :
    Kept c { h.note call with s := { h.s with nextTimeout := runCall call h.s.nextTimeout }, clock := t } := by
  refine ⟨hk.1, hk.2.imp (fun hset => timeoutFor_runCall hl hset hcall) fun hrun => ⟨hrun.1, ?_⟩⟩
  rw [last?, note_fired]
  exact hrun.2

theorem Kept.step {flag : Bool} {t₀ : Nat} {f : η} {arg : α} {h : TimerHist η α} {e : Nat × TimerEvent η α}
    (hg : h.Good flag t₀) (hk : h.Kept (some f, arg)) (hr : h.Rearms (some f, arg) e) : (h.step e).Kept (some f, arg) := by
  obtain ⟨t, ev⟩ := e
  obtain ⟨hcall, hret⟩ := hr
  have hwithin := hg.within
  have hne : ∀ call, ev = .call call → call ≠ .untimeout (some f) arg := fun call hev heq => hcall (heq ▸ hev)
  obtain ⟨⟨l, last, pc⟩, base, clock, lastAt, checkAt, armed, fired, cancelled⟩ := h
  cases pc with
  | idle =>
    cases ev with
    | call c => exact hk.call hwithin (hne c rfl) t
    | check g now => exact hk.checked rfl _ now _ t
    | turn | ret | restart => exact hk
  | loop diff now =>
    cases ev with
    | turn => exact hk.turn rfl t
    | call | check | ret | restart => exact hk
  | handler diff now =>
    cases ev with
    | call c => exact hk.call hwithin (hne c rfl) t
    | ret => exact ⟨CheckPc.noConfusion, .inl (hk.2.elim id fun hrun => hret diff now rfl rfl hrun.2)⟩
    | check | turn | restart => exact hk
  | fault => exact absurd rfl hk.1

end TimerHist

variable [DecidableEq η] [DecidableEq α]

/-- While there is a timeout that nobody cancels and whose handler sets it again, `sys_check_timeouts` finds the list
non-empty at every turn. -/
theorem check_never_null {flag : Bool} {l : List (SysTimeo η α)} (hl : Within l) (t₀ : Nat) {f : η} {arg : α}
    (hset : TimeoutFor (some f, arg) l) {es : List (Nat × TimerEvent η α)}
    (hes : Along TimerHist.step (fun h e => TimerHist.Ticks flag h e ∧ TimerHist.Rearms (some f, arg) h e) (.start l t₀)
      es) :
    (run TimerHist.step (.start l t₀) es).s.pc ≠ .fault := by
  have hend : (run TimerHist.step (.start l t₀) es).Good flag t₀ ∧ (run TimerHist.step (.start l t₀) es).Kept (some f, arg) :=
    Along.inv (I := fun h => h.Good flag t₀ ∧ h.Kept (some f, arg))
      (fun _ _ hinv he => ⟨hinv.1.step he.1, hinv.2.step hinv.1 he.2⟩)
      ⟨TimerHist.start_good flag hl t₀, CheckPc.noConfusion, .inl hset⟩ hes
  exact hend.2.1

theorem check_never_null_one :
    (run TimerHist.step (.start [⟨5, some 0, 0⟩] 0)
      [(50000, .check false 50000), (50000, .turn), (50000, .call (.timeout true 7 (some 0) 0)), (50000, .ret),
        (50001, .turn)]).s.pc ≠ .fault :=
  @check_never_null Nat Nat _ _ false [⟨5, some 0, 0⟩] (fun e he => by simp [dues, deltas] at he; simp [he]) 0 0 0
    ⟨(5, some 0, 0), by simp [dues, deltas], rfl⟩
    [(50000, .check false 50000), (50000, .turn), (50000, .call (.timeout true 7 (some 0) 0)), (50000, .ret),
      (50001, .turn)]
    ⟨⟨⟨by decide, fun _ _ h => by cases h; exact ⟨rfl, rfl⟩, nofun⟩, nofun, nofun⟩,
      ⟨⟨by decide, nofun, nofun⟩, nofun, nofun⟩, ⟨⟨by decide, nofun, nofun⟩, nofun, nofun⟩,
      ⟨⟨by decide, nofun, nofun⟩, nofun, fun _ _ _ _ _ => ⟨(7, some 0, 0), .head _, rfl⟩⟩,
      ⟨⟨by decide, nofun, nofun⟩, nofun, nofun⟩, trivial⟩

end Nonos
