import NonosSdk.Framework.Runs
import NonosSdk.Impl.Uart
import NonosSdk.Proof.Modbus.Residue

/-!
# From the bus to the callback

The handler treats a full FIFO like a timeout: it hands what the FIFO holds to
`modbus_receive` and starts over. A frame on the line is first `Collecting` in
the FIFO, then `TimedOut`, then `Delivered`; these follow the events until a
cause other than the timeout empties the FIFO in the middle of the frame. With
at most 96 bytes, and no cause left over from before, none does: a run of
arrivals and interrupts collects the frame or has just delivered it
(`collect_run`), and after an idle line the next interrupt delivers it
(`gap_run`).
-/

namespace Nonos

open Spec

namespace UartPort

theorem raise_self (p : UartPort) (c : Cause) : (p.raise c).intRaw c = true := Function.update_self ..

theorem raise_of_ne (p : UartPort) {c d : Cause} (h : d ≠ c) : (p.raise c).intRaw d = p.intRaw d :=
  Function.update_of_ne h ..

/-- What a byte leaves alone. -/
theorem arrive_rest (p : UartPort) (b : Byte) : (p.arrive b).intEna = p.intEna ∧
    (p.arrive b).rxfifoFullThrhd = p.rxfifoFullThrhd ∧ (p.arrive b).rxToutEn = p.rxToutEn ∧
    ∀ c, c ≠ .rxfifoOvf → c ≠ .rxfifoFull → (p.arrive b).intRaw c = p.intRaw c := by
  unfold arrive
  by_cases h : p.rxFifo.length < fifoSize
  · simp only [if_pos h]
    split_ifs
    · exact ⟨rfl, rfl, rfl, fun c _ hc => raise_of_ne _ hc⟩
    · exact ⟨rfl, rfl, rfl, fun _ _ _ => rfl⟩
  · simp only [if_neg h]
    split_ifs
    · exact ⟨rfl, rfl, rfl, fun c ho hc => (raise_of_ne _ hc).trans (raise_of_ne _ ho)⟩
    · exact ⟨rfl, rfl, rfl, fun c ho _ => raise_of_ne _ ho⟩

/-- A byte that finds room. -/
theorem arrive_of_lt {p : UartPort} (h : p.rxFifo.length < fifoSize) (b : Byte) :
    (p.arrive b).rxFifo = p.rxFifo ++ [b] ∧ (p.arrive b).intRaw .rxfifoOvf = p.intRaw .rxfifoOvf ∧
    (p.arrive b).intRaw .rxfifoFull =
      (p.intRaw .rxfifoFull || decide (p.rxfifoFullThrhd ≤ p.rxFifo.length + 1)) := by
  unfold arrive
  simp only [if_pos h, List.length_append, List.length_singleton]
  split_ifs with hf
  · exact ⟨rfl, raise_of_ne _ (by decide), by simp [raise, hf]⟩
  · exact ⟨rfl, rfl, by simp [hf]⟩

/-- A raised cause stays raised, and no byte is taken out. -/
theorem arrive_mono (p : UartPort) (b : Byte) : (∀ c, p.intRaw c = true → (p.arrive b).intRaw c = true) ∧
    (p.arrive b).rxFifo ≠ [] ∧ (p.arrive b).rxFifo.length ≤ p.rxFifo.length + 1 := by
  have hr : ∀ (q : UartPort) (c d : Cause), q.intRaw d = true → (q.raise c).intRaw d = true := by
    intro q c d hd
    by_cases h : d = c
    · subst h; exact raise_self _ _
    · exact (raise_of_ne _ h).trans hd
  unfold arrive
  by_cases h : p.rxFifo.length < fifoSize
  · simp only [if_pos h]
    split_ifs
    · exact ⟨fun c hc => hr _ _ c hc, by simp [raise], by simp [raise]⟩
    · exact ⟨fun c hc => hc, by simp, by simp⟩
  · have hne : p.rxFifo ≠ [] := by rintro h0; simp [h0, fifoSize] at h
    simp only [if_neg h]
    split_ifs
    · exact ⟨fun c hc => hr _ _ c (hr _ _ c hc), hne, Nat.le_succ _⟩
    · exact ⟨fun c hc => hr _ _ c hc, hne, Nat.le_succ _⟩

end UartPort

namespace Uart

/-- The receive path as `app_init` sets it up; nothing changes it later. -/
structure Listening (u : Uart) : Prop where
  ena : ∀ c, c ≠ .txfifoEmpty → u.uart0.intEna c = true
  thrhd : u.uart0.rxfifoFullThrhd = 96
  toutEn : u.uart0.rxToutEn = true
  rxCb : u.uart0RxCb = true
  frameCb : u.modbus.recvFrameCb = true

theorem Listening.of_eq {u v : Uart} (h : u.Listening) (h0 : v.uart0 = u.uart0)
    (hm : v.modbus = u.modbus) (hc : v.uart0RxCb = u.uart0RxCb) : v.Listening :=
  ⟨h0 ▸ h.ena, h0 ▸ h.thrhd, h0 ▸ h.toutEn, hc ▸ h.rxCb, hm ▸ h.frameCb⟩

theorem appInit_listening (u : Uart) : u.appInit.Listening :=
  ⟨fun _ _ => rfl, rfl, rfl, rfl, rfl⟩

theorem uart1Intr_rest (u : Uart) : u.uart1Intr.uart0 = u.uart0 ∧ u.uart1Intr.modbus = u.modbus ∧
    u.uart1Intr.uart0RxCb = u.uart0RxCb := by
  unfold uart1Intr
  split_ifs <;> exact ⟨rfl, rfl, rfl⟩

theorem intSt_frmErr {u : Uart} (hf : u.uart0.intRaw .frmErr = false) :
    ¬ u.uart0.intSt .frmErr = true := by
  simp [UartPort.intSt, hf]

/-- The handler on a receive cause: the FIFO goes to `modbus_receive`. -/
theorem intr_rx {u : Uart} (hl : u.Listening) (hf : u.uart0.intRaw .frmErr = false)
    (hn : u.uart0.rxFifo.length < 256)
    (hp : u.uart0.intRaw .rxfifoTout ∨ u.uart0.intRaw .rxfifoOvf ∨ u.uart0.intRaw .rxfifoFull) :
    u.uartIntrHandler.Listening ∧ u.uartIntrHandler.uart0.rxFifo = [] ∧
      u.uartIntrHandler.uart0.intRaw = Function.update u.uart0.intRaw .rxfifoTout false ∧
      u.uartIntrHandler.modbus.frames =
        if crc16 u.uart0.rxFifo = 0 then u.modbus.frames ++ [u.uart0.rxFifo] else u.modbus.frames := by
  obtain ⟨h0, hm, hc⟩ := uart1Intr_rest u.uart0Intr
  have hst : (u.uart0.intSt .rxfifoTout || u.uart0.intSt .rxfifoOvf || u.uart0.intSt .rxfifoFull) = true := by
    simp only [UartPort.intSt, hl.ena _ (show Cause.rxfifoTout ≠ .txfifoEmpty by decide),
      hl.ena _ (show Cause.rxfifoOvf ≠ .txfifoEmpty by decide),
      hl.ena _ (show Cause.rxfifoFull ≠ .txfifoEmpty by decide), Bool.and_true, Bool.or_eq_true]
    tauto
  have hb : (readFifo u.uart0).buffer = u.uart0.rxFifo := by
    simp only [readFifo]
    rw [Nat.mod_eq_of_lt hn, List.take_length]
  have hu : u.uart0Intr = { u with
      uart0 := { u.uart0 with rxFifo := [] }.intClr .rxfifoTout
      modbus := u.modbus.receive (some (readFifo u.uart0)) } := by
    rw [uart0Intr, if_neg (intSt_frmErr hf), if_pos hst]
    simp only [hb, List.drop_length, hl.rxCb, if_true]
  unfold uartIntrHandler
  refine ⟨Listening.of_eq ?_ h0 hm hc, ?_, ?_, ?_⟩
  · rw [hu]
    exact ⟨hl.ena, hl.thrhd, hl.toutEn, hl.rxCb, (Modbus.receive_recvFrameCb _ _).trans hl.frameCb⟩
  · rw [h0, hu]; rfl
  · rw [h0, hu]; rfl
  · rw [hm, hu]
    simp only
    rw [Modbus.receive_frames, hb]
    simp only [hl.frameCb, and_true]

/-- The receive path is left alone. -/
structure SameRx (u v : Uart) : Prop where
  listening : u.Listening → v.Listening
  fifo : v.uart0.rxFifo = u.uart0.rxFifo
  raw : ∀ c, c ≠ .txfifoEmpty → v.uart0.intRaw c = u.uart0.intRaw c
  frames : v.modbus.frames = u.modbus.frames

/-- The handler without one. -/
theorem intr_other {u : Uart} (hf : u.uart0.intRaw .frmErr = false)
    (ht : u.uart0.intRaw .rxfifoTout = false) (ho : u.uart0.intRaw .rxfifoOvf = false)
    (hu : u.uart0.intRaw .rxfifoFull = false) : SameRx u u.uartIntrHandler := by
  obtain ⟨h0, hm, hc⟩ := uart1Intr_rest u.uart0Intr
  have h : SameRx u u.uart0Intr := by
    rw [uart0Intr, if_neg (intSt_frmErr hf), if_neg (by simp [UartPort.intSt, ht, ho, hu])]
    split_ifs
    · refine ⟨fun hl => ⟨fun c hc => ?_, hl.thrhd, hl.toutEn, hl.rxCb, hl.frameCb⟩, rfl,
        fun c hc => Function.update_of_ne hc _ _, rfl⟩
      exact (Function.update_of_ne hc _ _).trans (hl.ena c hc)
    · exact ⟨id, rfl, fun _ _ => rfl, rfl⟩
  unfold uartIntrHandler
  refine ⟨fun hl => (h.listening hl).of_eq h0 hm hc, ?_, ?_, ?_⟩
  · rw [h0]; exact h.fifo
  · rw [h0]; exact h.raw
  · rw [hm]; exact h.frames

theorem sameRx_txEmpty (u : Uart) : SameRx u (u.step .txEmpty) :=
  ⟨fun hl => ⟨hl.ena, hl.thrhd, hl.toutEn, hl.rxCb, hl.frameCb⟩, rfl,
    fun _ hc => UartPort.raise_of_ne _ hc, rfl⟩

theorem sameRx_uart1 (u : Uart) (c : Cause) : SameRx u (u.step (.uart1 c)) :=
  ⟨fun hl => hl.of_eq rfl rfl rfl, rfl, fun _ _ => rfl, rfl⟩

/-- The first bytes of a frame are in the FIFO. -/
structure Collecting (frames : List (List Byte)) (g : List Byte) (u : Uart) : Prop where
  listening : u.Listening
  fifo : u.uart0.rxFifo = g
  frames : u.modbus.frames = frames
  frm : u.uart0.intRaw .frmErr = false
  tout : u.uart0.intRaw .rxfifoTout = false
  ovf : u.uart0.intRaw .rxfifoOvf = false
  full : u.uart0.intRaw .rxfifoFull = true → 96 ≤ g.length

/-- The frame is in the FIFO, and the line has been idle. -/
structure TimedOut (frames : List (List Byte)) (f : List Byte) (u : Uart) : Prop where
  listening : u.Listening
  fifo : u.uart0.rxFifo = f
  frames : u.modbus.frames = frames
  frm : u.uart0.intRaw .frmErr = false
  tout : u.uart0.intRaw .rxfifoTout = true

/-- The FIFO has been emptied. -/
structure Delivered (frames : List (List Byte)) (u : Uart) : Prop where
  listening : u.Listening
  fifo : u.uart0.rxFifo = []
  frames : u.modbus.frames = frames
  frm : u.uart0.intRaw .frmErr = false
  tout : u.uart0.intRaw .rxfifoTout = false

section Steps

variable {frames : List (List Byte)} {g : List Byte} {u : Uart}

theorem Collecting.of_same {v : Uart} (h : Collecting frames g u) (hs : SameRx u v) :
    Collecting frames g v :=
  ⟨hs.listening h.listening, hs.fifo.trans h.fifo, hs.frames.trans h.frames,
    (hs.raw _ (by decide)).trans h.frm, (hs.raw _ (by decide)).trans h.tout,
    (hs.raw _ (by decide)).trans h.ovf, fun hf => h.full ((hs.raw _ (by decide)).symm.trans hf)⟩

theorem TimedOut.of_same {v : Uart} (h : TimedOut frames g u) (hs : SameRx u v) : TimedOut frames g v :=
  ⟨hs.listening h.listening, hs.fifo.trans h.fifo, hs.frames.trans h.frames,
    (hs.raw _ (by decide)).trans h.frm, (hs.raw _ (by decide)).trans h.tout⟩

theorem Delivered.of_same {v : Uart} (h : Delivered frames u) (hs : SameRx u v) : Delivered frames v :=
  ⟨hs.listening h.listening, hs.fifo.trans h.fifo, hs.frames.trans h.frames,
    (hs.raw _ (by decide)).trans h.frm, (hs.raw _ (by decide)).trans h.tout⟩

theorem Listening.arrive (h : u.Listening) (b : Byte) : (u.step (.arrive b)).Listening := by
  obtain ⟨h1, h2, h3, -⟩ := u.uart0.arrive_rest b
  exact ⟨fun c hc => (congrFun h1 c).trans (h.ena c hc), h2.trans h.thrhd, h3.trans h.toutEn, h.rxCb,
    h.frameCb⟩

theorem Collecting.arrive (h : Collecting frames g u) (hg : g.length < 96) (b : Byte) :
    Collecting frames (g ++ [b]) (u.step (.arrive b)) := by
  have hr := (u.uart0.arrive_rest b).2.2.2
  obtain ⟨h1, h2, h3⟩ := UartPort.arrive_of_lt (p := u.uart0) (by rw [h.fifo, UartPort.fifoSize]; omega) b
  refine ⟨h.listening.arrive b, h1.trans (by rw [h.fifo]), h.frames, ?_, ?_, h2.trans h.ovf, ?_⟩
  · exact (hr _ (by decide) (by decide)).trans h.frm
  · exact (hr _ (by decide) (by decide)).trans h.tout
  · intro hf
    have hf' : (u.uart0.arrive b).intRaw .rxfifoFull = true := hf
    rw [h3, h.listening.thrhd, h.fifo] at hf'
    rcases Bool.or_eq_true _ _ ▸ hf' with hf' | hf'
    · have := h.full hf'; omega
    · simpa using hf'

/-- A run of the handler on a receive cause. -/
theorem delivered_intr (hl : u.Listening) (hf : u.uart0.intRaw .frmErr = false)
    (hn : u.uart0.rxFifo.length < 256)
    (hp : u.uart0.intRaw .rxfifoTout ∨ u.uart0.intRaw .rxfifoOvf ∨ u.uart0.intRaw .rxfifoFull) :
    Delivered (if crc16 u.uart0.rxFifo = 0 then u.modbus.frames ++ [u.uart0.rxFifo] else u.modbus.frames)
      (u.step .intr) := by
  obtain ⟨h1, h2, h3, h4⟩ := intr_rx hl hf hn hp
  refine ⟨h1, h2, h4, ?_, ?_⟩
  · exact (congrFun h3 _).trans ((Function.update_of_ne (by decide) _ _).trans hf)
  · exact (congrFun h3 _).trans (Function.update_self _ _ _)

theorem Collecting.intr (h : Collecting frames g u) (hn : g.length < 256) (hz : 96 ≤ g.length → crc16 g = 0) :
    Collecting frames g (u.step .intr) ∨ 96 ≤ g.length ∧ Delivered (frames ++ [g]) (u.step .intr) := by
  by_cases hf : u.uart0.intRaw .rxfifoFull = true
  · have hg := h.full hf
    have hd := delivered_intr h.listening h.frm (by rw [h.fifo]; exact hn) (.inr (.inr hf))
    rw [h.fifo, if_pos (hz hg), h.frames] at hd
    exact .inr ⟨hg, hd⟩
  · exact .inl (h.of_same (intr_other h.frm h.tout h.ovf (by simpa using hf)))

/-- An idle line with bytes in the FIFO. -/
theorem timedOut_idle (hl : u.Listening) (hf : u.uart0.intRaw .frmErr = false) (hg : u.uart0.rxFifo = g)
    (hfr : u.modbus.frames = frames) (h0 : g ≠ []) : TimedOut frames g (u.step .idle) := by
  have h0 : (u.step .idle).uart0 = u.uart0.raise .rxfifoTout := if_pos ⟨hl.toutEn, by rw [hg]; exact h0⟩
  refine ⟨⟨?_, ?_, ?_, hl.rxCb, hl.frameCb⟩, ?_, hfr, ?_, ?_⟩
  all_goals rw [h0]
  · exact hl.ena
  · exact hl.thrhd
  · exact hl.toutEn
  · exact hg
  · exact (UartPort.raise_of_ne _ (by decide)).trans hf
  · exact UartPort.raise_self _ _

theorem Collecting.idle (h : Collecting frames g u) (hg : g ≠ []) : TimedOut frames g (u.step .idle) :=
  timedOut_idle h.listening h.frm h.fifo h.frames hg

theorem TimedOut.idle (h : TimedOut frames g u) (hg : g ≠ []) : TimedOut frames g (u.step .idle) :=
  timedOut_idle h.listening h.frm h.fifo h.frames hg

theorem Delivered.idle (h : Delivered frames u) : Delivered frames (u.step .idle) := by
  have h0 : (u.step .idle).uart0 = u.uart0 := if_neg fun hc => hc.2 h.fifo
  exact h.of_same ⟨fun hl => hl.of_eq h0 rfl rfl, by rw [h0], fun _ _ => by rw [h0], rfl⟩

theorem TimedOut.intr (h : TimedOut frames g u) (hn : g.length < 256) (hz : crc16 g = 0) :
    Delivered (frames ++ [g]) (u.step .intr) := by
  have hd := delivered_intr h.listening h.frm (by rw [h.fifo]; exact hn) (.inl h.tout)
  rw [h.fifo, if_pos hz, h.frames] at hd
  exact hd

/-- An empty buffer has no CRC, so nothing more is delivered. -/
theorem Delivered.intr (h : Delivered frames u) : Delivered frames (u.step .intr) := by
  by_cases hp : u.uart0.intRaw .rxfifoTout ∨ u.uart0.intRaw .rxfifoOvf ∨ u.uart0.intRaw .rxfifoFull
  · have hd := delivered_intr h.listening h.frm (by rw [h.fifo]; decide) hp
    rw [h.fifo, if_neg (by decide), h.frames] at hd
    exact hd
  · simp only [not_or, Bool.not_eq_true] at hp
    exact h.of_same (intr_other h.frm hp.1 hp.2.1 hp.2.2)

end Steps

/-- The bytes that arrive. -/
def arrivals : List UartEvent → List Byte
  | [] => []
  | .arrive b :: es => b :: arrivals es
  | _ :: es => arrivals es

section Runs

variable {frames : List (List Byte)} {f : List Byte} (hz : crc16 f = 0)
include hz

/-- While a short frame arrives, it is collected, or its last byte has filled
the FIFO to the threshold and it is delivered. -/
theorem collect_run (hf : f.length ≤ 96) (es : List UartEvent) (hi : .idle ∉ es) {u : Uart} {g : List Byte}
    (h : Collecting frames g u ∧ g ++ arrivals es = f ∨
      Delivered (frames ++ [f]) u ∧ arrivals es = []) :
    Collecting frames f (run step u es) ∨ Delivered (frames ++ [f]) (run step u es) := by
  induction es generalizing u g with
  | nil =>
    rcases h with ⟨h, hg⟩ | ⟨h, -⟩
    · rw [arrivals, List.append_nil] at hg
      exact .inl (hg ▸ h)
    · exact .inr h
  | cons e es ih =>
    have hi' : .idle ∉ es := fun h => hi (List.mem_cons_of_mem _ h)
    rw [run_cons]
    cases e with
    | idle => exact absurd (List.mem_cons_self ..) hi
    | txEmpty => exact ih hi' (h.imp (fun h => ⟨h.1.of_same (sameRx_txEmpty u), h.2⟩)
        fun h => ⟨h.1.of_same (sameRx_txEmpty u), h.2⟩)
    | uart1 c => exact ih hi' (h.imp (fun h => ⟨h.1.of_same (sameRx_uart1 u c), h.2⟩)
        fun h => ⟨h.1.of_same (sameRx_uart1 u c), h.2⟩)
    | arrive b =>
      rcases h with ⟨h, hg⟩ | ⟨-, hg⟩
      · have hl := congrArg List.length hg
        simp only [arrivals, List.length_append, List.length_cons] at hl
        refine ih hi' (.inl ⟨h.arrive (by omega) b, ?_⟩)
        rw [List.append_assoc, List.singleton_append]; exact hg
      · simp [arrivals] at hg
    | intr =>
      rcases h with ⟨h, hg⟩ | ⟨h, hg⟩
      · have hl := congrArg List.length hg
        simp only [List.length_append] at hl
        -- from 96 bytes on, what is collected is the whole frame
        have hall : 96 ≤ g.length → g = f ∧ arrivals es = [] := by
          intro h96
          have hn : arrivals es = [] := List.eq_nil_of_length_eq_zero (by simp only [arrivals] at hl; omega)
          exact ⟨by simpa [arrivals, hn] using hg, hn⟩
        rcases h.intr (by omega) (fun h96 => (hall h96).1 ▸ hz) with h' | ⟨h96, h'⟩
        · exact ih hi' (.inl ⟨h', hg⟩)
        · obtain ⟨rfl, hn⟩ := hall h96
          exact ih hi' (g := g) (.inr ⟨h', hn⟩)
      · exact ih hi' (g := g) (.inr ⟨h.intr, hg⟩)

/-- In the gap, the first run of the handler delivers it. -/
theorem gap_run (hn : f.length < 256) (h0 : f ≠ []) (es : List UartEvent) (ha : arrivals es = []) {u : Uart}
    (h : TimedOut frames f u ∨ Delivered (frames ++ [f]) u) :
    TimedOut frames f (run step u es) ∨ Delivered (frames ++ [f]) (run step u es) := by
  induction es generalizing u with
  | nil => exact h
  | cons e es ih =>
    rw [run_cons]
    cases e with
    | arrive b => simp [arrivals] at ha
    | idle => exact ih ha (h.imp (·.idle h0) (·.idle))
    | txEmpty => exact ih ha (h.imp (·.of_same (sameRx_txEmpty u)) (·.of_same (sameRx_txEmpty u)))
    | uart1 c => exact ih ha (h.imp (·.of_same (sameRx_uart1 u c)) (·.of_same (sameRx_uart1 u c)))
    | intr =>
      rcases h with h | h
      · exact ih ha (.inr (h.intr hn hz))
      · exact ih ha (.inr h.intr)

end Runs

end Uart

end Nonos
