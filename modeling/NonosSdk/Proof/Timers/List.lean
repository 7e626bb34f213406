import NonosSdk.Framework.DeltaList
import NonosSdk.Impl.Timers

/-!
# The list of timeouts

As a delta list (`deltas`): `sys_timeout` and `sys_untimeout` are the insertion
and the removal of the library (`deltas_sysTimeout`, `deltas_sysUntimeout`) while
every timeout is due within 32 bits of milliseconds (`Within`), which they keep.
-/

namespace Nonos

variable {η α : Type}

/-- A timeout's handler and argument. -/
abbrev Callback (η α : Type) := Option η × α

/-- The times and the callbacks. -/
def deltas (l : List (SysTimeo η α)) : List (Nat × Callback η α) := l.map fun t => (t.time.toNat, t.h, t.arg)

@[simp] theorem deltas_nil : deltas ([] : List (SysTimeo η α)) = [] := rfl

@[simp] theorem deltas_cons (t : SysTimeo η α) (l : List (SysTimeo η α)) :
    deltas (t :: l) = (t.time.toNat, t.h, t.arg) :: deltas l := rfl

/-- What is pending, `base` milliseconds on. -/
def dues (base : Nat) (l : List (SysTimeo η α)) : List (Nat × Callback η α) := absolute base (deltas l)

theorem dues_cons (base : Nat) (t : SysTimeo η α) (l : List (SysTimeo η α)) :
    dues base (t :: l) = (base + t.time.toNat, t.h, t.arg) :: dues (base + t.time.toNat) l := rfl

/-- Nothing is due later than 32 bits can say. -/
def Within (l : List (SysTimeo η α)) : Prop := ∀ e ∈ dues 0 l, e.1 < 2 ^ 32

/-! ## `sys_timeout` -/

theorem deltas_sysTimeoutLoop (timeout : SysTimeo η α) {t : SysTimeo η α} {next : List (SysTimeo η α)}
    (h : t.time ≤ timeout.time) :
    deltas (sysTimeoutLoop timeout (t :: next)) =
      deltaInsert timeout.time.toNat (timeout.h, timeout.arg) (deltas (t :: next)) := by
  have hstep : ∀ {timeout t : SysTimeo η α} (rest : List (SysTimeo η α)), t.time ≤ timeout.time →
      deltaInsert timeout.time.toNat (timeout.h, timeout.arg) (deltas (t :: rest)) =
        (t.time.toNat, t.h, t.arg) ::
          deltaInsert (timeout.time - t.time).toNat (timeout.h, timeout.arg) (deltas rest) := by
    intro timeout t rest h
    have hle := BitVec.le_def.mp h
    rw [deltas_cons, deltaInsert, if_neg (by omega), BitVec.toNat_sub_of_le h]
  induction next generalizing timeout t with
  | nil =>
    rw [hstep _ h]
    rfl
  | cons n next ih =>
    rw [hstep _ h, sysTimeoutLoop]
    by_cases hn : n.time > timeout.time - t.time
    · have hlt : (timeout.time - t.time).toNat < n.time.toNat := BitVec.lt_def.mp hn
      rw [if_pos hn, deltas_cons n, deltaInsert, if_pos hlt, ← BitVec.toNat_sub_of_le (BitVec.le_of_lt hn)]
      rfl
    · have hge : n.time ≤ timeout.time - t.time := BitVec.not_lt.mp hn
      rw [if_neg hn, deltas_cons, ih { timeout with time := timeout.time - t.time } hge]

theorem deltas_sysTimeout (msecs : Word) (h : Option η) (arg : α) (l : List (SysTimeo η α)) :
    deltas (sysTimeout true msecs h arg l) = deltaInsert msecs.toNat (h, arg) (deltas l) := by
  rcases l with _ | ⟨t, next⟩
  · rfl
  · rw [sysTimeout]
    simp only [Bool.not_true, Bool.false_eq_true, if_false]
    by_cases ht : t.time > msecs
    · rw [if_pos ht, deltas_cons, deltas_cons, deltas_cons, deltaInsert, if_pos (BitVec.lt_def.mp ht),
        BitVec.toNat_sub_of_le (BitVec.le_of_lt ht)]
    · rw [if_neg ht]
      exact deltas_sysTimeoutLoop ⟨msecs, h, arg⟩ (BitVec.not_lt.mp ht)

/-- The new timeout goes behind everything due by then. -/
theorem dues_sysTimeout (base : Nat) (msecs : Word) (h : Option η) (arg : α) (l : List (SysTimeo η α)) :
    dues base (sysTimeout true msecs h arg l) = insertDue (base + msecs.toNat, h, arg) (dues base l) := by
  rw [dues, deltas_sysTimeout, absolute_deltaInsert, dues]

theorem sysTimeout_within (alloc : Bool) (msecs : Word) (h : Option η) (arg : α) {l : List (SysTimeo η α)} (hl : Within l) :
    Within (sysTimeout alloc msecs h arg l) := by
  cases alloc with
  | false => exact hl
  | true =>
    intro e he
    rw [dues_sysTimeout] at he
    rcases List.mem_cons.mp ((insertDue_perm _ _).mem_iff.mp he) with rfl | he
    · rw [Nat.zero_add]
      exact msecs.isLt
    · exact hl e he

/-! ## `sys_untimeout` -/

theorem dues_add (base d : Nat) (l : List (SysTimeo η α)) :
    dues (base + d) l = (dues base l).map fun e => (e.1 + d, e.2) := absolute_add base d (deltas l)

theorem Within.tail {t : SysTimeo η α} {l : List (SysTimeo η α)} (h : Within (t :: l)) : Within l := by
  intro e he
  have hadd := h (e.1 + t.time.toNat, e.2) (by
    rw [dues_cons, dues_add]
    exact List.mem_cons_of_mem _ (List.mem_map.mpr ⟨e, he, rfl⟩))
  simp only at hadd
  omega

theorem Within.head_add {t n : SysTimeo η α} {l : List (SysTimeo η α)} (h : Within (t :: n :: l)) :
    (n.time + t.time).toNat = n.time.toNat + t.time.toNat := by
  have hn := h (0 + t.time.toNat + n.time.toNat, n.h, n.arg) (by simp [dues_cons])
  simp only at hn
  rw [BitVec.toNat_add, Nat.mod_eq_of_lt (by omega)]

section

variable [DecidableEq η] [DecidableEq α]

theorem deltas_sysUntimeout (h : Option η) (arg : α) {l : List (SysTimeo η α)} (hl : Within l) :
    deltas (sysUntimeout h arg l) = deltaErase (fun c => decide (c.1 = h ∧ c.2 = arg)) (deltas l) := by
  induction l with
  | nil => rfl
  | cons t l ih =>
    rcases l with _ | ⟨n, next⟩
    · by_cases hm : t.h = h ∧ t.arg = arg <;> simp [sysUntimeout, deltaErase, hm]
    · rw [sysUntimeout, deltas_cons, deltas_cons, deltaErase]
      by_cases hm : t.h = h ∧ t.arg = arg
      · rw [if_pos hm, if_pos (decide_eq_true hm), deltas_cons, hl.head_add]
      · rw [if_neg hm, if_neg (by simpa using hm), deltas_cons, ih hl.tail, deltas_cons]

/-- The first match goes, and the others stay where they are. -/
theorem dues_sysUntimeout (base : Nat) (h : Option η) (arg : α) {l : List (SysTimeo η α)} (hl : Within l) :
    dues base (sysUntimeout h arg l) = (dues base l).eraseP fun e => decide (e.2.1 = h ∧ e.2.2 = arg) := by
  rw [dues, deltas_sysUntimeout h arg hl, absolute_deltaErase, dues]

theorem sysUntimeout_within (h : Option η) (arg : α) {l : List (SysTimeo η α)} (hl : Within l) :
    Within (sysUntimeout h arg l) := by
  intro e he
  rw [dues_sysUntimeout 0 h arg hl] at he
  exact hl e (List.mem_of_mem_eraseP he)

end

end Nonos
