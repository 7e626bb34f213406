import NonosSdk.Framework.Runs
import NonosSdk.Proof.Timers.List

/-!
# Runs of the timeouts

A history (`TimerHist`) records what a run has set, fired and cancelled, each
with the time it is due: the list's own clock, `base`, stands still between
checks and moves to the due time of each timeout that fires. Over every run, with
handlers that set and cancel timeouts while a check is under way:

* every timeout that was set has fired, once and at its time, or was cancelled,
  or is pending (`TimerHist.Good.settled`), and those that fired did so in order
  (`TimerHist.Good.inOrder`);
* the list's clock is never ahead of the real one (`TimerHist.Good.notEarly`).
-/

namespace Nonos

variable {η α : Type}

/-- A run so far: the module, the clock of its list, the real clock (in ticks) now, when `timeouts_last_time` was
set and at the last check, and what was set, has fired and was cancelled. -/
structure TimerHist (η α : Type) where
  s : Timers η α
  base : Nat
  clock : Nat
  lastAt : Nat
  checkAt : Nat
  armed : List (Nat × Callback η α)
  fired : List (Nat × Callback η α)
  cancelled : List (Nat × Callback η α)

namespace TimerHist

/-- At time `t`, with the timeouts `l` set. -/
def start (l : List (SysTimeo η α)) (t : Nat) : TimerHist η α :=
  { s := ⟨l, BitVec.ofNat 32 t, .idle⟩, base := 0, clock := t, lastAt := t, checkAt := t, armed := dues 0 l, fired := [],
    cancelled := [] }

/-- The record of a turn of the loop. -/
def noteTurn (h : TimerHist η α) (diff : Word) : TimerHist η α :=
  match h.s.nextTimeout with
  | [] => h
  | t :: _ =>
    if t.time ≤ diff then
      { h with base := h.base + t.time.toNat, lastAt := h.checkAt, fired := h.fired ++ [(h.base + t.time.toNat, t.h, t.arg)] }
    else h

/-- The real clock goes forward, and `NOW()` is its low word; the timer's speed stays. -/
def Ticks (flag : Bool) (h : TimerHist η α) (e : Nat × TimerEvent η α) : Prop :=
  h.clock ≤ e.1 ∧
    (∀ f now, e.2 = .check f now → f = flag ∧ now = BitVec.ofNat 32 e.1) ∧
    ∀ now, e.2 = .restart now → now = BitVec.ofNat 32 e.1

/-- What holds of every run from `t₀` on. -/
structure Good (flag : Bool) (t₀ : Nat) (h : TimerHist η α) : Prop where
  within : Within h.s.nextTimeout
  settled : h.armed.Perm (h.fired ++ h.cancelled ++ dues h.base h.s.nextTimeout)
  inOrder : h.fired.Pairwise fun e f => e.1 ≤ f.1
  past : ∀ e ∈ h.fired, e.1 ≤ h.base
  notEarly : t₀ + ticksPerMs flag * h.base ≤ h.lastAt
  last : h.s.timeoutsLastTime = BitVec.ofNat 32 h.lastAt
  lastAt_le : h.lastAt ≤ h.clock
  checking : ∀ diff now, h.s.pc = .loop diff now ∨ h.s.pc = .handler diff now →
    now = BitVec.ofNat 32 h.checkAt ∧ h.checkAt ≤ h.clock ∧ t₀ + ticksPerMs flag * (h.base + diff.toNat) ≤ h.checkAt

theorem start_good (flag : Bool) {l : List (SysTimeo η α)} (hl : Within l) (t : Nat) : (start l t).Good flag t where
  within := hl
  settled := .refl _
  inOrder := .nil
  past := by simp [start]
  notEarly := by simp [start]
  last := rfl
  lastAt_le := Nat.le_refl _
  checking := by simp [start]

/-! ## The check -/

theorem lwipU32Diff_eq (a b : Word) : lwipU32Diff a b = a - b := by
  unfold lwipU32Diff
  split
  · rfl
  · refine BitVec.eq_of_toNat_eq ?_
    have hnot : (b ^^^ 0xffffffff) = ~~~ b := by
      rw [← BitVec.xor_allOnes]
      rfl
    have ha := a.isLt
    have hb := b.isLt
    have h1 : (1 : Word).toNat = 1 := rfl
    rw [hnot, BitVec.toNat_add, BitVec.toNat_add, BitVec.toNat_not, BitVec.toNat_sub, h1]
    omega

theorem ticksPerMs_pos (flag : Bool) : 0 < ticksPerMs flag := by
  cases flag <;> decide

/-- What a check may take off the list is no more than has passed. -/
theorem check_diff_le (flag : Bool) {t u : Nat} (h : u ≤ t) :
    ticksPerMs flag *
        (BitVec.ofNat 32 ((lwipU32Diff (BitVec.ofNat 32 t) (BitVec.ofNat 32 u)).toNat / ticksPerMs flag) : Word).toNat ≤
      t - u := by
  rw [lwipU32Diff_eq]
  have hsub : (BitVec.ofNat 32 t - BitVec.ofNat 32 u : Word).toNat ≤ t - u := by
    rw [BitVec.toNat_sub, BitVec.toNat_ofNat, BitVec.toNat_ofNat]
    omega
  have hdiv := Nat.mul_div_le (BitVec.ofNat 32 t - BitVec.ofNat 32 u : Word).toNat (ticksPerMs flag)
  have hmod := Nat.mod_le ((BitVec.ofNat 32 t - BitVec.ofNat 32 u : Word).toNat / ticksPerMs flag) (2 ^ 32)
  rw [BitVec.toNat_ofNat]
  exact Nat.le_trans (Nat.mul_le_mul_left _ hmod) (Nat.le_trans hdiv hsub)

/-- Time passes. -/
theorem Good.wait {flag : Bool} {t₀ : Nat} {h : TimerHist η α} (hg : h.Good flag t₀) {t : Nat} (ht : h.clock ≤ t) :
    Good flag t₀ { h with clock := t } := by
  refine { hg with lastAt_le := Nat.le_trans hg.lastAt_le ht, checking := fun diff now hpc => ?_ }
  obtain ⟨hnow, hle, hroom⟩ := hg.checking diff now hpc
  exact ⟨hnow, Nat.le_trans hle ht, hroom⟩

/-- A turn of the loop. -/
theorem Good.turn {flag : Bool} {t₀ : Nat} {h : TimerHist η α} (hg : h.Good flag t₀) {diff now : Word}
    (hpc : h.s.pc = .loop diff now) {t : Nat} (ht : h.clock ≤ t) :
    Good flag t₀ { h.noteTurn diff with s := checkTurn h.s diff now, clock := t } := by
  obtain ⟨hnow, hle, hroom⟩ := hg.checking diff now (.inl hpc)
  rcases hl : h.s.nextTimeout with _ | ⟨tmo, next⟩
  · simp only [noteTurn, checkTurn, hl]
    exact { hg.wait ht with checking := by simp, within := hl ▸ hg.within, settled := hl ▸ hg.settled }
  · by_cases hexp : tmo.time ≤ diff
    · have hexp' := BitVec.le_def.mp hexp
      simp only [noteTurn, checkTurn, hl, if_pos hexp]
      have hfit : t₀ + ticksPerMs flag * (h.base + tmo.time.toNat) ≤ h.checkAt :=
        Nat.le_trans (Nat.add_le_add_left (Nat.mul_le_mul_left _ (Nat.add_le_add_left hexp' _)) _) hroom
      refine { within := (hl ▸ hg.within : Within (tmo :: next)).tail, settled := ?_, inOrder := ?_, past := ?_,
               notEarly := hfit, last := hnow, lastAt_le := Nat.le_trans hle ht, checking := ?_ }
      · have hsettled := hg.settled
        rw [hl, dues_cons] at hsettled
        refine hsettled.trans ?_
        simp only [List.append_assoc]
        exact List.Perm.append_left _ List.perm_middle
      · refine List.pairwise_append.mpr ⟨hg.inOrder, List.pairwise_singleton _ _, fun e he f hf => ?_⟩
        rw [List.mem_singleton.mp hf]
        exact Nat.le_trans (hg.past e he) (Nat.le_add_right ..)
      · intro e he
        rcases List.mem_append.mp he with he | he
        · exact Nat.le_trans (hg.past e he) (Nat.le_add_right ..)
        · rw [List.mem_singleton.mp he]
      · intro diff' now' hpc'
        have heq : diff' = diff - tmo.time ∧ now' = now := by
          by_cases hnull : tmo.h = none
          · rw [if_pos hnull] at hpc'
            simpa [eq_comm] using hpc'
          · rw [if_neg hnull] at hpc'
            simpa [eq_comm] using hpc'
        refine ⟨heq.2 ▸ hnow, Nat.le_trans hle ht, ?_⟩
        have hsum : h.base + tmo.time.toNat + diff'.toNat = h.base + diff.toNat := by
          rw [heq.1, BitVec.toNat_sub_of_le hexp]
          omega
        rw [hsum]
        exact hroom
    · simp only [noteTurn, checkTurn, hl, if_neg hexp]
      exact { hg.wait ht with checking := by simp, within := hl ▸ hg.within, settled := hl ▸ hg.settled }

/-- `timeouts_last_time` is set to the time it is. -/
theorem Good.restarted {flag : Bool} {t₀ : Nat} {h : TimerHist η α} (hg : h.Good flag t₀) {t : Nat} (ht : h.clock ≤ t)
    {now : Word} (hnow : now = BitVec.ofNat 32 t) :
    Good flag t₀ { h with s := { h.s with timeoutsLastTime := now }, lastAt := t, clock := t } :=
  { hg.wait ht with
    notEarly := Nat.le_trans hg.notEarly (Nat.le_trans hg.lastAt_le ht), last := hnow, lastAt_le := Nat.le_refl _ }

/-- `sys_check_timeouts` begins. -/
theorem Good.checked {flag : Bool} {t₀ : Nat} {h : TimerHist η α} (hg : h.Good flag t₀) {t : Nat}
    (ht : h.clock ≤ t) {now : Word} (hnow : now = BitVec.ofNat 32 t) :
    Good flag t₀ { h with
      s := if h.s.nextTimeout = [] then h.s
        else { h.s with
          pc := .loop (BitVec.ofNat 32 ((lwipU32Diff now h.s.timeoutsLastTime).toNat / ticksPerMs flag)) now },
      checkAt := if h.s.nextTimeout = [] then h.checkAt else t, clock := t } := by
  by_cases hl : h.s.nextTimeout = []
  · rw [if_pos hl, if_pos hl]
    exact hg.wait ht
  · rw [if_neg hl, if_neg hl]
    refine { hg.wait ht with checking := fun diff now' hpc' => ?_ }
    have hloop : diff = BitVec.ofNat 32 ((lwipU32Diff now h.s.timeoutsLastTime).toNat / ticksPerMs flag) ∧ now' = now := by
      simpa [eq_comm] using hpc'
    refine ⟨hloop.2.trans hnow, Nat.le_refl t, ?_⟩
    have hle := Nat.le_trans hg.lastAt_le ht
    have hdiff := check_diff_le flag hle
    have hearly := hg.notEarly
    rw [hloop.1, hnow, hg.last, Nat.mul_add]
    simp only
    omega

/-- A handler returns. -/
theorem Good.returned {flag : Bool} {t₀ : Nat} {h : TimerHist η α} (hg : h.Good flag t₀) {diff now : Word}
    (hpc : h.s.pc = .handler diff now) {t : Nat} (ht : h.clock ≤ t) :
    Good flag t₀ { h with s := { h.s with pc := .loop diff now }, clock := t } := by
  refine { hg.wait ht with checking := fun diff' now' hpc' => ?_ }
  obtain ⟨rfl, rfl⟩ : diff' = diff ∧ now' = now := by simpa [eq_comm] using hpc'
  exact (hg.wait ht).checking diff' now' (.inr hpc)

/-! ## Events -/

variable [DecidableEq η] [DecidableEq α]

/-- The record of a call. -/
def note (h : TimerHist η α) (c : TimerCall η α) : TimerHist η α :=
  match c with
  | .timeout true msecs f arg => { h with armed := h.armed ++ [(h.base + msecs.toNat, f, arg)] }
  | .timeout false _ _ _ => h
  | .untimeout f arg =>
    { h with cancelled := h.cancelled ++
        ((dues h.base h.s.nextTimeout).find? fun e => decide (e.2.1 = f ∧ e.2.2 = arg)).toList }

/-- An event at the real time `e.1`. -/
def step (h : TimerHist η α) (e : Nat × TimerEvent η α) : TimerHist η α :=
  let h' := match h.s.pc, e.2 with
    | .idle, .call c => h.note c
    | .handler .., .call c => h.note c
    | .idle, .check _ _ => { h with checkAt := if h.s.nextTimeout = [] then h.checkAt else e.1 }
    | .loop diff _, .turn => h.noteTurn diff
    | .idle, .restart _ => { h with lastAt := e.1 }
    | .handler .., .restart _ => { h with lastAt := e.1 }
    | _, _ => h
  { h' with s := timersStep h.s e.2, clock := e.1 }

/-- A call, from wherever it comes. -/
theorem Good.call {flag : Bool} {t₀ : Nat} {h : TimerHist η α} (hg : h.Good flag t₀) (c : TimerCall η α) {t : Nat}
    (ht : h.clock ≤ t) :
    Good flag t₀ { h.note c with s := { h.s with nextTimeout := runCall c h.s.nextTimeout }, clock := t } := by
  cases c with
  | timeout alloc msecs f arg =>
    cases alloc with
    | false => exact hg.wait ht
    | true =>
      refine { hg.wait ht with within := sysTimeout_within true msecs f arg hg.within, settled := ?_ }
      simp only [note, runCall, dues_sysTimeout]
      refine (hg.settled.append_right _).trans ?_
      rw [List.append_assoc]
      refine List.Perm.append_left _ ?_
      exact (List.perm_append_singleton _ _).trans (insertDue_perm _ _).symm
  | untimeout f arg =>
    refine { hg.wait ht with within := sysUntimeout_within f arg hg.within, settled := ?_ }
    simp only [note, runCall, dues_sysUntimeout h.base f arg hg.within]
    refine hg.settled.trans ?_
    rw [← List.append_assoc h.fired, List.append_assoc (h.fired ++ h.cancelled)]
    refine List.Perm.append_left _ ?_
    exact perm_find_eraseP _ _

/-- An event. -/
theorem Good.step {flag : Bool} {t₀ : Nat} {h : TimerHist η α} {e : Nat × TimerEvent η α} (hg : h.Good flag t₀)
    (ht : h.Ticks flag e) : (h.step e).Good flag t₀ := by
  obtain ⟨t, ev⟩ := e
  obtain ⟨hclock, hcheck, hrestart⟩ := ht
  obtain ⟨⟨l, last, pc⟩, base, clock, lastAt, checkAt, armed, fired, cancelled⟩ := h
  cases pc with
  | idle =>
    cases ev with
    | call c => exact hg.call c hclock
    | check f now =>
      obtain ⟨rfl, hnow⟩ := hcheck f now rfl
      exact hg.checked hclock hnow
    | restart now => exact hg.restarted hclock (hrestart now rfl)
    | turn | ret => exact hg.wait hclock
  | loop diff now =>
    cases ev with
    | turn => exact hg.turn rfl hclock
    | call | check | ret | restart => exact hg.wait hclock
  | handler diff now =>
    cases ev with
    | call c => exact hg.call c hclock
    | ret => exact hg.returned rfl hclock
    | restart now' => exact hg.restarted hclock (hrestart now' rfl)
    | check | turn => exact hg.wait hclock
  | fault => cases ev <;> exact hg.wait hclock

end TimerHist

section

variable [DecidableEq η] [DecidableEq α]

/-- Every timeout that was set has fired once, at its time and in its turn, or was cancelled, or is pending; the
list's clock is never ahead of the real one. -/
theorem timers_settled {flag : Bool} {l : List (SysTimeo η α)} (hl : Within l) (t₀ : Nat)
    {es : List (Nat × TimerEvent η α)} (hes : Along TimerHist.step (TimerHist.Ticks flag) (.start l t₀) es) :
    let h := run TimerHist.step (.start l t₀) es
    h.armed.Perm (h.fired ++ h.cancelled ++ dues h.base h.s.nextTimeout) ∧
      (h.fired ++ dues h.base h.s.nextTimeout).Pairwise (fun e f => e.1 ≤ f.1) ∧
      t₀ + ticksPerMs flag * h.base ≤ h.clock := by
  have hg : (run TimerHist.step (.start l t₀) es).Good flag t₀ :=
    Along.inv (fun _ _ hg ht => hg.step ht) (TimerHist.start_good flag hl t₀) hes
  refine ⟨hg.settled, ?_, Nat.le_trans hg.notEarly hg.lastAt_le⟩
  refine List.pairwise_append.mpr ⟨hg.inOrder, absolute_sorted _ _, fun e he f hf => ?_⟩
  exact Nat.le_trans (hg.past e he) (base_le_absolute f hf)

theorem timers_settled_two :
    let h := run TimerHist.step (.start [⟨5, some 0, 0⟩] 0)
      [(50000, .check false 50000), (50000, .turn), (50000, .call (.timeout true 7 (some 1) 0)), (50000, .ret),
        (50001, .turn)]
    h.armed.Perm ([(5, some 0, 0)] ++ [] ++ [(12, some 1, 0)]) :=
  (@timers_settled Nat Nat _ _ false [⟨5, some 0, 0⟩] (fun e he => by simp [dues, deltas] at he; simp [he]) 0
    [(50000, .check false 50000), (50000, .turn), (50000, .call (.timeout true 7 (some 1) 0)), (50000, .ret),
      (50001, .turn)]
    ⟨⟨by decide, fun _ _ h => by cases h; exact ⟨rfl, rfl⟩, nofun⟩, ⟨by decide, nofun, nofun⟩, ⟨by decide, nofun, nofun⟩,
      ⟨by decide, nofun, nofun⟩, ⟨by decide, nofun, nofun⟩, trivial⟩).1

end

end Nonos
