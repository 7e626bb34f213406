import Mathlib.Data.Fintype.Basic
import NonosSdk.Proof.Uart.Delivery

/-!
# When the interrupt comes to rest

Once no byte arrives any more, every run of the handler either clears a framing
error, or empties the FIFO, or masks the interrupt of an empty transmit FIFO,
and none of these comes back: the handler has at most as many runs left as
`work` counts, and then no enabled cause is pending (`Idle.quiesces`). This
needs `RXFIFO_FULL` and `RXFIFO_OVF` to be down. The handler answers them like
the timeout but acknowledges only the timeout, so that once raised they keep
the interrupt pending for good (`not_quiesces`): it comes to rest exactly if no
byte of the run has filled the FIFO to the threshold (`quiesces_iff_below_thrhd`).
-/

namespace Nonos

instance : Fintype Cause :=
  ⟨{.frmErr, .rxfifoTout, .rxfifoOvf, .rxfifoFull, .txfifoEmpty}, by intro c; cases c <;> decide⟩

/-- What happens at the UARTs, framing errors of UART0 included. -/
inductive LineEvent where
  | uart (e : UartEvent)
  | frmErr

namespace LineEvent

/-- No byte arrives, and none is sent. -/
def Quiet : LineEvent → Prop
  | .uart (.arrive _) | .frmErr => False
  | .uart .idle | .uart .txEmpty | .uart (.uart1 _) | .uart .intr => True

end LineEvent

namespace Uart

instance (u : Uart) : Decidable u.Pending := inferInstanceAs (Decidable (∃ _, _))

def lineStep (u : Uart) : LineEvent → Uart
  | .uart e => u.step e
  | .frmErr => { u with uart0 := u.uart0.raise .frmErr }

/-- `uart1_init` and `uart0_init` after a reset; `cb` is whether a receive
callback is set. -/
def uartInit (frameInterval : Nat) (cb : Bool) (m : Modbus) : Uart :=
  ({ uart0RxCb := cb, modbus := m } : Uart).uart1Init.uart0Init frameInterval

/-- A run of the handler, on an enabled cause. -/
def Handles (u : Uart) : LineEvent → Prop
  | .uart .intr => u.Pending
  | _ => False

instance (u : Uart) : ∀ e, Decidable (u.Handles e)
  | .uart .intr => inferInstanceAs (Decidable u.Pending)
  | .uart (.arrive _) | .uart .idle | .uart .txEmpty | .uart (.uart1 _) | .frmErr => isFalse id

/-- After some number of runs of the handler no enabled cause is pending,
whatever else happens, if no byte arrives and none is sent. -/
def Quiesces (u : Uart) : Prop :=
  ∃ n, ∀ es : List LineEvent, (∀ e ∈ es, e.Quiet) → n ≤ count lineStep Handles u es →
    ¬ (run lineStep u es).Pending

/-! ## The runs of the handler that are left -/

/-- Nothing keeps the interrupt pending for good. -/
structure Idle (u : Uart) : Prop where
  full : u.uart0.intRaw .rxfifoFull = false
  ovf : u.uart0.intRaw .rxfifoOvf = false
  fifo : u.uart0.rxFifo.length < 256
  ena1 : ∀ c, u.uart1.intEna c = true → c = .txfifoEmpty

/-- What UART0 has left: a framing error, bytes or their timeout, an empty FIFO
to report. -/
def work0 (p : UartPort) : Nat :=
  (p.intRaw .frmErr).toNat + (!p.rxFifo.isEmpty || p.intRaw .rxfifoTout).toNat +
    (p.intEna .txfifoEmpty).toNat

def work1 (p : UartPort) : Nat := (p.intEna .txfifoEmpty).toNat

def work (u : Uart) : Nat := work0 u.uart0 + work1 u.uart1

variable {u : Uart}

/-- The half for UART0 by what it leaves behind. -/
theorem uart0Intr_cases (u : Uart) :
    (u.uart0.intSt .frmErr = true ∧ u.uart0Intr.uart0 = u.uart0.intClr .frmErr) ∨
    (u.uart0.intSt .frmErr = false ∧
      (u.uart0.intSt .rxfifoTout || u.uart0.intSt .rxfifoOvf || u.uart0.intSt .rxfifoFull) = true ∧
      u.uart0Intr.uart0 = { u.uart0 with
        rxFifo := u.uart0.rxFifo.drop (readFifo u.uart0).buffer.length }.intClr .rxfifoTout) ∨
    (u.uart0.intSt .frmErr = false ∧ u.uart0.intSt .txfifoEmpty = true ∧
      u.uart0Intr.uart0 = (u.uart0.mask .txfifoEmpty).intClr .txfifoEmpty) ∨
    ((∀ c, u.uart0.intSt c = false) ∧ u.uart0Intr.uart0 = u.uart0) := by
  by_cases hf : u.uart0.intSt .frmErr = true
  · exact .inl ⟨hf, by rw [uart0Intr, if_pos hf]⟩
  rw [uart0Intr, if_neg hf]
  rw [Bool.not_eq_true] at hf
  by_cases hr : (u.uart0.intSt .rxfifoTout || u.uart0.intSt .rxfifoOvf || u.uart0.intSt .rxfifoFull) = true
  · exact .inr (.inl ⟨hf, hr, by rw [if_pos hr]⟩)
  rw [if_neg hr]
  by_cases ht : u.uart0.intSt .txfifoEmpty = true
  · exact .inr (.inr (.inl ⟨hf, ht, by rw [if_pos ht]⟩))
  rw [if_neg ht]
  refine .inr (.inr (.inr ⟨fun c => ?_, rfl⟩))
  simp only [Bool.not_eq_true, Bool.or_eq_false_iff] at hr ht
  cases c with
  | frmErr => exact hf
  | rxfifoTout => exact hr.1.1
  | rxfifoOvf => exact hr.1.2
  | rxfifoFull => exact hr.2
  | txfifoEmpty => exact ht

theorem uart0Intr_uart1 (u : Uart) : u.uart0Intr.uart1 = u.uart1 := by
  unfold uart0Intr
  split_ifs <;> rfl

/-- The half for UART1, which has only its empty transmit FIFO to report. -/
theorem uart1Intr_cases (h : ∀ c, u.uart1.intEna c = true → c = .txfifoEmpty) :
    (u.uart1.intSt .txfifoEmpty = true ∧ u.uart1Intr.uart1 = (u.uart1.mask .txfifoEmpty).intClr .txfifoEmpty) ∨
    ((∀ c, u.uart1.intSt c = false) ∧ u.uart1Intr.uart1 = u.uart1) := by
  have hst : ∀ c, c ≠ .txfifoEmpty → u.uart1.intSt c = false := by
    intro c hc
    by_contra hs
    exact hc (h c (by simp_all [UartPort.intSt]))
  unfold uart1Intr
  rw [if_neg (by simp [hst .frmErr (by decide)])]
  split_ifs with ht
  · exact .inl ⟨ht, rfl⟩
  · refine .inr ⟨fun c => ?_, rfl⟩
    by_cases hc : c = .txfifoEmpty
    · subst hc; simpa using ht
    · exact hst c hc

theorem readFifo_all {p : UartPort} (h : p.rxFifo.length < 256) :
    p.rxFifo.drop (readFifo p).buffer.length = [] := by
  simp only [readFifo]
  rw [Nat.mod_eq_of_lt h, List.take_length, List.drop_length]

theorem intSt_raw {p : UartPort} {c : Cause} (h : p.intSt c = true) : p.intRaw c = true :=
  (Bool.and_eq_true _ _ ▸ h : p.intRaw c = true ∧ p.intEna c = true).1

theorem intSt_ena {p : UartPort} {c : Cause} (h : p.intSt c = true) : p.intEna c = true :=
  (Bool.and_eq_true _ _ ▸ h : p.intRaw c = true ∧ p.intEna c = true).2

/-- The half for UART0 does a part of the work that is left. -/
theorem Idle.uart0Intr (h : u.Idle) : u.uart0Intr.Idle ∧
    (if ∃ c, u.uart0.intSt c then 1 else 0) + work0 u.uart0Intr.uart0 ≤ work0 u.uart0 := by
  have hena := uart0Intr_uart1 u ▸ h.ena1
  have hle : (if ∃ c, u.uart0.intSt c then 1 else 0) ≤ 1 := by split <;> decide
  rcases uart0Intr_cases u with ⟨hf, he⟩ | ⟨-, hr, he⟩ | ⟨-, ht, he⟩ | ⟨hn, he⟩
  · refine ⟨⟨he ▸ h.full, he ▸ h.ovf, he ▸ h.fifo, hena⟩, ?_⟩
    rw [he]
    simp only [work0, UartPort.intClr, Function.update_self, intSt_raw hf, Bool.toNat_true,
      Bool.toNat_false, Function.update_of_ne (show Cause.rxfifoTout ≠ .frmErr by decide)]
    omega
  · have ht : u.uart0.intRaw .rxfifoTout = true := by
      simp only [UartPort.intSt, h.full, h.ovf, Bool.false_and, Bool.or_false, Bool.and_eq_true] at hr
      exact hr.1
    rw [readFifo_all h.fifo] at he
    refine ⟨⟨he ▸ h.full, he ▸ h.ovf, he ▸ Nat.zero_lt_succ 255, hena⟩, ?_⟩
    rw [he]
    simp only [work0, UartPort.intClr, Function.update_self, ht, List.isEmpty_nil, Bool.not_true,
      Bool.or_false, Bool.or_true, Bool.toNat_true, Bool.toNat_false,
      Function.update_of_ne (show Cause.frmErr ≠ .rxfifoTout by decide)]
    omega
  · refine ⟨⟨he ▸ h.full, he ▸ h.ovf, he ▸ h.fifo, hena⟩, ?_⟩
    rw [he]
    simp only [work0, UartPort.intClr, UartPort.mask, Function.update_self, intSt_ena ht, Bool.toNat_true,
      Bool.toNat_false, Function.update_of_ne (show Cause.rxfifoTout ≠ .txfifoEmpty by decide),
      Function.update_of_ne (show Cause.frmErr ≠ .txfifoEmpty by decide)]
    omega
  · refine ⟨⟨he ▸ h.full, he ▸ h.ovf, he ▸ h.fifo, hena⟩, ?_⟩
    rw [he, if_neg (by simp [hn]), Nat.zero_add]

/-- The half for UART1. -/
theorem Idle.uart1Intr (h : u.Idle) : u.uart1Intr.Idle ∧
    (if ∃ c, u.uart1.intSt c then 1 else 0) + work1 u.uart1Intr.uart1 ≤ work1 u.uart1 := by
  have h0 : u.uart1Intr.uart0 = u.uart0 := (uart1Intr_rest u).1
  have hle : (if ∃ c, u.uart1.intSt c then 1 else 0) ≤ 1 := by split <;> decide
  rcases uart1Intr_cases h.ena1 with ⟨ht, he⟩ | ⟨hn, he⟩
  · refine ⟨⟨h0 ▸ h.full, h0 ▸ h.ovf, h0 ▸ h.fifo, fun c hc => ?_⟩, ?_⟩
    · rw [he] at hc
      by_contra hne
      exact hne (h.ena1 c ((Function.update_of_ne hne _ _).symm.trans hc))
    · rw [he]
      simp only [work1, UartPort.intClr, UartPort.mask, Function.update_self, intSt_ena ht,
        Bool.toNat_true, Bool.toNat_false]
      omega
  · refine ⟨⟨h0 ▸ h.full, h0 ▸ h.ovf, h0 ▸ h.fifo, he ▸ h.ena1⟩, ?_⟩
    rw [he, if_neg (by simp [hn]), Nat.zero_add]

/-- A run of the handler on an enabled cause does a part of the work. -/
theorem Idle.intr (h : u.Idle) : u.uartIntrHandler.Idle ∧
    (if u.Pending then 1 else 0) + u.uartIntrHandler.work ≤ u.work := by
  obtain ⟨i0, w0⟩ := h.uart0Intr
  obtain ⟨i1, w1⟩ := i0.uart1Intr
  rw [uart0Intr_uart1] at w1
  have h0 : u.uart0Intr.uart1Intr.uart0 = u.uart0Intr.uart0 := (uart1Intr_rest _).1
  have hp : (if u.Pending then 1 else 0) ≤
      (if ∃ c, u.uart0.intSt c then 1 else 0) + (if ∃ c, u.uart1.intSt c then 1 else 0) := by
    split_ifs with hp h0 h1 h1 <;> try decide
    exact absurd hp fun ⟨c, hc⟩ => hc.elim (fun hc => h0 ⟨c, hc⟩) fun hc => h1 ⟨c, hc⟩
  refine ⟨i1, ?_⟩
  simp only [work, uartIntrHandler, h0]
  omega

/-- Nothing else adds work, with no byte on the line. -/
theorem Idle.step (h : u.Idle) {e : LineEvent} (hq : e.Quiet) : (u.lineStep e).Idle ∧
    (if u.Handles e then 1 else 0) + (u.lineStep e).work ≤ u.work := by
  have hlazy : ∀ {v : Uart}, ¬ u.Handles e → v.work = u.work →
      (if u.Handles e then 1 else 0) + v.work ≤ u.work := by
    intro v hn hw
    rw [if_neg hn, hw, Nat.zero_add]
  match e, hq with
  | .uart .idle, _ =>
    by_cases hi : u.uart0.rxToutEn ∧ u.uart0.rxFifo ≠ []
    · have hs : u.lineStep (.uart .idle) = { u with uart0 := u.uart0.raise .rxfifoTout } := by
        simp only [lineStep, Uart.step, UartPort.idle, if_pos hi]
      have hne : u.uart0.rxFifo.isEmpty = false := by simpa using hi.2
      rw [hs]
      refine ⟨⟨h.full, h.ovf, h.fifo, h.ena1⟩, hlazy id ?_⟩
      simp only [work, work0, UartPort.raise, hne, Bool.not_false, Bool.true_or,
        Function.update_of_ne (show Cause.frmErr ≠ .rxfifoTout by decide)]
    · have hs : u.lineStep (.uart .idle) = u := by
        simp only [lineStep, Uart.step, UartPort.idle, if_neg hi]
      rw [hs]
      exact ⟨h, hlazy id rfl⟩
  | .uart .txEmpty, _ => exact ⟨⟨h.full, h.ovf, h.fifo, h.ena1⟩, hlazy id rfl⟩
  | .uart (.uart1 c), _ => exact ⟨⟨h.full, h.ovf, h.fifo, h.ena1⟩, hlazy id rfl⟩
  | .uart .intr, _ => exact h.intr

theorem Idle.not_pending (h : u.Idle) (hw : u.work = 0) : ¬ u.Pending := by
  intro hp
  have := h.intr.2
  rw [if_pos hp] at this
  omega

theorem Idle.quiesces (h : u.Idle) : u.Quiesces := by
  refine ⟨u.work, fun es hq hn => ?_⟩
  have hQ : Along lineStep (fun _ e => e.Quiet) u es := Along.of_mem (fun e he _ => hq e he) u
  have hi : (run lineStep u es).Idle := Along.inv (fun _ _ h hq => (h.step hq).1) h hQ
  have hc := count_add_le (P := Handles) (μ := work) (fun _ _ h hq => (h.step hq).1)
    (fun _ _ h hq => (h.step hq).2) h hQ
  exact hi.not_pending (by omega)

/-! ## A full FIFO -/

/-- The byte of an event does not fill the FIFO to the threshold. -/
def BelowThrhd (u : Uart) : LineEvent → Prop
  | .uart (.arrive _) => u.uart0.rxFifo.length + 1 < 96
  | _ => True

instance (u : Uart) : ∀ e, Decidable (u.BelowThrhd e)
  | .uart (.arrive _) => inferInstanceAs (Decidable (_ < _))
  | .uart .idle | .uart .txEmpty | .uart (.uart1 _) | .uart .intr | .frmErr => isTrue trivial

/-- The receive path in a run from the start: `FULL` enabled, and no overflow
before it. -/
structure Started (u : Uart) : Prop where
  ena : u.uart0.intEna .rxfifoFull = true
  thrhd : u.uart0.rxfifoFullThrhd = 96
  fifo : u.uart0.intRaw .rxfifoFull = true ∨ u.Idle ∧ u.uart0.rxFifo.length < 96

theorem uartInit_started (n : Nat) (cb : Bool) (m : Modbus) : (uartInit n cb m).Started := by
  refine ⟨rfl, rfl, .inr ⟨⟨rfl, rfl, Nat.zero_lt_succ 255, fun c hc => ?_⟩, Nat.zero_lt_succ 95⟩⟩
  by_contra hne
  exact Bool.noConfusion ((Function.update_of_ne hne _ _).symm.trans hc)

/-- What the handler never touches, and that it puts nothing into the FIFO. -/
theorem uartIntrHandler_rest (u : Uart) :
    u.uartIntrHandler.uart0.intRaw .rxfifoFull = u.uart0.intRaw .rxfifoFull ∧
    u.uartIntrHandler.uart0.intEna .rxfifoFull = u.uart0.intEna .rxfifoFull ∧
    u.uartIntrHandler.uart0.rxfifoFullThrhd = u.uart0.rxfifoFullThrhd ∧
    u.uartIntrHandler.uart0.rxFifo.length ≤ u.uart0.rxFifo.length := by
  have h0 : u.uartIntrHandler.uart0 = u.uart0Intr.uart0 := (uart1Intr_rest _).1
  rw [h0]
  rcases uart0Intr_cases u with ⟨-, he⟩ | ⟨-, -, he⟩ | ⟨-, -, he⟩ | ⟨-, he⟩
  · rw [he]; exact ⟨rfl, rfl, rfl, Nat.le_refl _⟩
  · rw [he]; exact ⟨rfl, rfl, rfl, (List.drop_sublist _ _).length_le⟩
  · rw [he]; exact ⟨rfl, rfl, rfl, Nat.le_refl _⟩
  · rw [he]; exact ⟨rfl, rfl, rfl, Nat.le_refl _⟩

/-- A byte that fills the FIFO to the threshold raises `RXFIFO_FULL`. -/
theorem Started.arrive (h : u.Started) (b : Byte) : (u.lineStep (.uart (.arrive b))).Started ∧
    ((u.lineStep (.uart (.arrive b))).uart0.intRaw .rxfifoFull = true ↔
      u.uart0.intRaw .rxfifoFull = true ∨ ¬ u.BelowThrhd (.uart (.arrive b))) := by
  obtain ⟨h1, h2, -, -⟩ := u.uart0.arrive_rest b
  have hena : (u.uart0.arrive b).intEna .rxfifoFull = true := (congrFun h1 _).trans h.ena
  have hthr : (u.uart0.arrive b).rxfifoFullThrhd = 96 := h2.trans h.thrhd
  rcases h.fifo with hf | ⟨hi, hl⟩
  · have hf' := (u.uart0.arrive_mono b).1 _ hf
    exact ⟨⟨hena, hthr, .inl hf'⟩, iff_of_true hf' (.inl hf)⟩
  · obtain ⟨f1, f2, f3⟩ := UartPort.arrive_of_lt (p := u.uart0) (by rw [UartPort.fifoSize]; omega) b
    rw [hi.full, Bool.false_or, h.thrhd] at f3
    have hiff : (u.uart0.arrive b).intRaw .rxfifoFull = true ↔ 96 ≤ u.uart0.rxFifo.length + 1 := by
      rw [f3, decide_eq_true_iff]
    refine ⟨⟨hena, hthr, ?_⟩, hiff.trans ?_⟩
    · by_cases hb : u.uart0.rxFifo.length + 1 < 96
      · have hlen : (u.uart0.arrive b).rxFifo.length < 96 := by rw [f1]; simpa using hb
        have hnf : (u.uart0.arrive b).intRaw .rxfifoFull = false := by
          rw [f3, decide_eq_false_iff_not]; omega
        exact .inr ⟨⟨hnf, f2.trans hi.ovf, Nat.lt_trans hlen (by decide), hi.ena1⟩, hlen⟩
      · exact .inl (hiff.mpr (by omega))
    · rw [hi.full]
      simp only [BelowThrhd, Bool.false_eq_true, false_or]
      omega

/-- `RXFIFO_FULL` is raised by a byte that fills the FIFO to the threshold, and
then stays raised. -/
theorem Started.step (h : u.Started) (e : LineEvent) : (u.lineStep e).Started ∧
    ((u.lineStep e).uart0.intRaw .rxfifoFull = true ↔
      u.uart0.intRaw .rxfifoFull = true ∨ ¬ u.BelowThrhd e) := by
  have hlazy : ∀ {v : Uart}, u.BelowThrhd e → v.uart0.intRaw .rxfifoFull = u.uart0.intRaw .rxfifoFull →
      v.uart0.intEna .rxfifoFull = u.uart0.intEna .rxfifoFull →
      v.uart0.rxfifoFullThrhd = u.uart0.rxfifoFullThrhd →
      (u.Idle → v.Idle ∧ v.uart0.rxFifo.length ≤ u.uart0.rxFifo.length) →
      v.Started ∧ (v.uart0.intRaw .rxfifoFull = true ↔
        u.uart0.intRaw .rxfifoFull = true ∨ ¬ u.BelowThrhd e) := by
    intro v hb hr he ht hi
    refine ⟨⟨he.trans h.ena, ht.trans h.thrhd, ?_⟩, by rw [hr]; simp [hb]⟩
    rw [hr]
    exact h.fifo.imp_right fun ⟨hd, hl⟩ => ⟨(hi hd).1, Nat.lt_of_le_of_lt (hi hd).2 hl⟩
  match e with
  | .uart (.arrive b) => exact h.arrive b
  | .uart .idle =>
    have hs := fun hi : u.Idle => (hi.step (e := .uart .idle) trivial).1
    refine hlazy trivial ?_ ?_ ?_ fun hi => ⟨hs hi, ?_⟩ <;>
    · simp only [lineStep, Uart.step, UartPort.idle]
      split_ifs <;> rfl
  | .uart .txEmpty =>
    exact hlazy trivial rfl rfl rfl fun hi => ⟨(hi.step (e := .uart .txEmpty) trivial).1, Nat.le_refl _⟩
  | .uart (.uart1 c) =>
    exact hlazy trivial rfl rfl rfl fun hi => ⟨(hi.step (e := .uart (.uart1 c)) trivial).1, Nat.le_refl _⟩
  | .uart .intr =>
    obtain ⟨hr, he, ht, hl⟩ := uartIntrHandler_rest u
    exact hlazy trivial hr he ht fun hi => ⟨hi.intr.1, hl⟩
  | .frmErr =>
    exact hlazy trivial rfl rfl rfl fun hi => ⟨⟨hi.full, hi.ovf, hi.fifo, hi.ena1⟩, Nat.le_refl _⟩

/-- A run raises `RXFIFO_FULL` exactly if one of its bytes does. -/
theorem Started.full_run (h : u.Started) (es : List LineEvent) : (run lineStep u es).Started ∧
    ((run lineStep u es).uart0.intRaw .rxfifoFull = true ↔
      u.uart0.intRaw .rxfifoFull = true ∨ ¬ Along lineStep BelowThrhd u es) := by
  induction es generalizing u with
  | nil => exact ⟨h, by simp [Along]⟩
  | cons e es ih =>
    obtain ⟨hs, hf⟩ := h.step e
    obtain ⟨hs', hf'⟩ := ih hs
    refine ⟨hs', hf'.trans ?_⟩
    rw [hf, or_assoc, ← not_and_or]
    rfl

theorem Started.pending (h : u.Started) (hf : u.uart0.intRaw .rxfifoFull = true) : u.Pending :=
  ⟨.rxfifoFull, .inl (by rw [UartPort.intSt, hf, h.ena]; rfl)⟩

/-- Raised, it keeps the interrupt pending through any number of runs. -/
theorem not_quiesces (h : u.Started) (hf : u.uart0.intRaw .rxfifoFull = true) : ¬ u.Quiesces := by
  have hstuck : ∀ n (v : Uart), v.Started → v.uart0.intRaw .rxfifoFull = true →
      count lineStep Handles v (List.replicate n (.uart .intr)) = n ∧
      (run lineStep v (List.replicate n (.uart .intr))).Pending := by
    intro n
    induction n with
    | zero =>
      intro v hv hf
      exact ⟨rfl, hv.pending hf⟩
    | succ n ih =>
      intro v hv hf
      have hp : v.Handles (.uart .intr) := hv.pending hf
      obtain ⟨hs, hiff⟩ := hv.step (.uart .intr)
      obtain ⟨hc, hr⟩ := ih _ hs (hiff.mpr (.inl hf))
      rw [List.replicate_succ]
      exact ⟨by rw [count, if_pos hp, hc, Nat.add_comm], hr⟩
  rintro ⟨n, hn⟩
  obtain ⟨hc, hp⟩ := hstuck n u h hf
  refine hn _ (fun e he => ?_) hc.ge hp
  obtain rfl := List.eq_of_mem_replicate he
  trivial

theorem Started.quiesces_iff (h : u.Started) : u.Quiesces ↔ u.uart0.intRaw .rxfifoFull = false := by
  refine ⟨fun hq => ?_, fun hf => ?_⟩
  · by_contra hf
    exact not_quiesces h (by simpa using hf) hq
  · exact (h.fifo.resolve_left (by simp [hf])).1.quiesces

/-- In every run from the start, the interrupt comes to rest exactly if no byte
has filled the FIFO to the threshold. -/
theorem quiesces_iff_below_thrhd (frameInterval : Nat) (cb : Bool) (m : Modbus) (es : List LineEvent) :
    (run lineStep (uartInit frameInterval cb m) es).Quiesces ↔
      Along lineStep BelowThrhd (uartInit frameInterval cb m) es := by
  obtain ⟨hs, hf⟩ := (uartInit_started frameInterval cb m).full_run es
  have h0 : (uartInit frameInterval cb m).uart0.intRaw .rxfifoFull = false := rfl
  rw [hs.quiesces_iff, ← Bool.not_eq_true, hf, h0]
  simp

/-- 96 bytes in a row, and the interrupt never comes to rest. -/
theorem interrupt_storm : ¬ ∀ (frameInterval : Nat) (cb : Bool) (m : Modbus) (es : List LineEvent),
    (run lineStep (uartInit frameInterval cb m) es).Quiesces := by
  intro h
  obtain ⟨hs, hf⟩ := (uartInit_started 64 true {}).full_run (List.replicate 96 (.uart (.arrive 0)))
  exact not_quiesces hs (hf.mpr (.inr (by decide))) (h 64 true {} _)

end Uart

end Nonos
