import NonosSdk.Proof.Uart.Delivery

/-!
# Which frames every schedule delivers

A `Schedule` of a frame is its bytes, a gap, and runs of the handler at times
when an enabled cause is raised. Every schedule delivers a frame of at most 96
bytes if no receive cause is left over from before; otherwise the handler can
run in the middle of the frame, the two pieces go to `modbus_receive` one by
one, and the frame never does (`delivered_iff_short`). `RXFIFO_FULL` and
`RXFIFO_OVF` are never cleared: raised once, they are left over for every later
frame.
-/

namespace Nonos

open Spec

namespace Uart

/-- A frame arrives and a gap follows; the handler runs only while a cause is
pending, and has served the timeout in the end. -/
structure Schedule (u : Uart) (f : List Byte) (es : List UartEvent) : Prop where
  shape : ∃ es₁ es₂, es = es₁ ++ .idle :: es₂ ∧ .idle ∉ es₁ ∧ arrivals es₁ = f ∧ arrivals es₂ = []
  allowed : Along step (fun u e => e = .intr → u.Pending) u es
  served : (run step u es).uart0.intRaw .rxfifoTout = false

/-- The line is idle: the last frame has been read. -/
structure IdleLine (u : Uart) : Prop where
  fifo : u.uart0.rxFifo = []
  tout : u.uart0.intRaw .rxfifoTout = false
  frm : u.uart0.intRaw .frmErr = false

theorem appInit_idleLine (u : Uart) : u.appInit.IdleLine := ⟨rfl, rfl, rfl⟩

variable {u : Uart} {f : List Byte}

/-- A short frame is delivered by every schedule. -/
theorem Schedule.delivers (hl : u.Listening) (hi : u.IdleLine) (ho : u.uart0.intRaw .rxfifoOvf = false)
    (hu : u.uart0.intRaw .rxfifoFull = false) (h0 : f ≠ []) (hf : f.length ≤ 96) (hz : crc16 f = 0)
    {es : List UartEvent} (hs : u.Schedule f es) :
    (run step u es).modbus.frames = u.modbus.frames ++ [f] := by
  obtain ⟨es₁, es₂, rfl, hn, ha, hb⟩ := hs.shape
  have hstart : Collecting u.modbus.frames [] u :=
    ⟨hl, hi.fifo, rfl, hi.frm, hi.tout, ho, fun hc => by simp [hu] at hc⟩
  have h1 := collect_run hz hf es₁ hn (.inl ⟨hstart, ha⟩)
  have h2 : TimedOut u.modbus.frames f (run step u (es₁ ++ [.idle])) ∨
      Delivered (u.modbus.frames ++ [f]) (run step u (es₁ ++ [.idle])) := by
    rw [run_append]
    exact h1.imp (·.idle h0) (·.idle)
  have h3 := gap_run hz (by omega) h0 es₂ hb h2
  have hserved := hs.served
  rw [← run_append, List.append_assoc, List.singleton_append] at h3
  rcases h3 with h3 | h3
  · rw [h3.tout] at hserved; cases hserved
  · exact h3.frames

/-! ## Cutting a frame in two -/

/-- The bytes `g` arrive. -/
def burst (g : List Byte) : List UartEvent := g.map .arrive

theorem arrivals_burst_append (g : List Byte) (es : List UartEvent) :
    arrivals (burst g ++ es) = g ++ arrivals es := by
  induction g with
  | nil => rfl
  | cons b g ih => exact congrArg (b :: ·) ih

theorem arrivals_burst (g : List Byte) : arrivals (burst g) = g := by
  have h := arrivals_burst_append g []
  rwa [List.append_nil, arrivals, List.append_nil] at h

theorem idle_not_mem_burst (g : List Byte) : .idle ∉ burst g := by
  intro h
  obtain ⟨b, -, hb⟩ := List.mem_map.mp h
  cases hb

theorem burst_allowed (u : Uart) (g : List Byte) :
    Along step (fun u e => e = .intr → u.Pending) u (burst g) := by
  refine Along.of_mem (fun e he s h => ?_) u
  obtain ⟨b, -, rfl⟩ := List.mem_map.mp he
  cases h

/-- What bytes that arrive leave alone, and what they can add. -/
theorem burst_run (hl : u.Listening) (g : List Byte) : (run step u (burst g)).Listening ∧
    (run step u (burst g)).modbus = u.modbus ∧
    (∀ c, c ≠ .rxfifoOvf → c ≠ .rxfifoFull → (run step u (burst g)).uart0.intRaw c = u.uart0.intRaw c) ∧
    (∀ c, u.uart0.intRaw c = true → (run step u (burst g)).uart0.intRaw c = true) ∧
    (g ≠ [] → (run step u (burst g)).uart0.rxFifo ≠ []) ∧
    (run step u (burst g)).uart0.rxFifo.length ≤ u.uart0.rxFifo.length + g.length := by
  induction g generalizing u with
  | nil => exact ⟨hl, rfl, fun _ _ _ => rfl, fun _ h => h, fun h => absurd rfl h, Nat.le_refl _⟩
  | cons b g ih =>
    have hr := (u.uart0.arrive_rest b).2.2.2
    obtain ⟨hm, hne, hlen⟩ := u.uart0.arrive_mono b
    obtain ⟨h1, h2, h3, h4, h5, h6⟩ := ih (hl.arrive b)
    have hrun : run step u (burst (b :: g)) = run step (u.step (.arrive b)) (burst g) := rfl
    rw [hrun]
    refine ⟨h1, h2, fun c ho hf => (h3 c ho hf).trans (hr c ho hf), fun c hc => h4 c (hm c hc), ?_, ?_⟩
    · intro _
      by_cases hg : g = []
      · subst hg; exact hne
      · exact h5 hg
    · have hlen' : (u.step (.arrive b)).uart0.rxFifo.length ≤ u.uart0.rxFifo.length + 1 := hlen
      rw [List.length_cons]; omega

theorem burst_fifo {g : List Byte} (h : u.uart0.rxFifo.length + g.length ≤ UartPort.fifoSize) :
    (run step u (burst g)).uart0.rxFifo = u.uart0.rxFifo ++ g := by
  induction g generalizing u with
  | nil => exact (List.append_nil _).symm
  | cons b g ih =>
    rw [List.length_cons] at h
    have hb : (u.step (.arrive b)).uart0.rxFifo = u.uart0.rxFifo ++ [b] :=
      (UartPort.arrive_of_lt (p := u.uart0) (by omega) b).1
    have hr := ih (u := u.step (.arrive b)) (by rw [hb, List.length_append, List.length_singleton]; omega)
    rw [hb, List.append_assoc, List.singleton_append] at hr
    exact hr

/-- The byte that reaches the threshold raises `RXFIFO_FULL`. -/
theorem burst_full (hl : u.Listening) (hi : u.IdleLine) {g : List Byte} (hg : g.length = 96) :
    (run step u (burst g)).uart0.intRaw .rxfifoFull = true := by
  obtain ⟨g', b, rfl⟩ : ∃ g' b, g = g' ++ [b] :=
    ⟨_, _, (List.dropLast_append_getLast (by rintro rfl; cases hg)).symm⟩
  rw [List.length_append, List.length_singleton] at hg
  have hf := burst_fifo (u := u) (g := g') (by rw [hi.fifo, UartPort.fifoSize, List.length_nil]; omega)
  rw [hi.fifo, List.nil_append] at hf
  have ht := (burst_run hl g').1.thrhd
  have hrun : run step u (burst (g' ++ [b])) = (run step u (burst g')).step (.arrive b) := by
    rw [burst, List.map_append, run_append]; rfl
  rw [hrun]
  apply (UartPort.arrive_of_lt (by rw [hf, UartPort.fifoSize]; omega) b).2.2.trans
  rw [ht, hf, show g'.length = 95 by omega]
  simp

/-- Two pieces that may or may not be delivered do not make up a longer frame. -/
theorem pieces_ne {P Q : Prop} [Decidable P] [Decidable Q] {frames : List (List Byte)} {a b : List Byte}
    (ha : a.length < f.length) (hb : b.length < f.length) :
    (if Q then (if P then frames ++ [a] else frames) ++ [b] else if P then frames ++ [a] else frames) ≠
      frames ++ [f] := by
  intro h
  split_ifs at h
  · have := congrArg List.length h
    simp at this
  · have he := List.append_cancel_left h
    rw [List.singleton_inj.mp he] at hb; omega
  · have he := List.append_cancel_left h
    rw [List.singleton_inj.mp he] at ha; omega
  · have := congrArg List.length h
    simp at this

/-- A frame longer than `k` bytes, read after `k` of them, is not delivered. -/
theorem cut (hl : u.Listening) (hi : u.IdleLine) (hn : f.length < 256) {k : Nat} (h0 : 0 < k)
    (hk : k < f.length)
    (hp : (run step u (burst (f.take k))).uart0.intRaw .rxfifoOvf ∨
      (run step u (burst (f.take k))).uart0.intRaw .rxfifoFull) :
    ∃ es, u.Schedule f es ∧ (run step u es).modbus.frames ≠ u.modbus.frames ++ [f] := by
  obtain ⟨l1, m1, r1, -, -, n1⟩ := burst_run hl (f.take k)
  generalize hu1 : run step u (burst (f.take k)) = u1 at l1 m1 r1 n1 hp
  rw [hi.fifo, List.length_nil, List.length_take] at n1
  have frm1 : u1.uart0.intRaw .frmErr = false := (r1 _ (by decide) (by decide)).trans hi.frm
  obtain ⟨l2, f2, r2, m2⟩ := intr_rx l1 frm1 (by omega) (.inr hp)
  obtain ⟨l3, m3, r3, -, ne3, n3⟩ := burst_run l2 (f.drop k)
  generalize hu3 : run step u1.uartIntrHandler (burst (f.drop k)) = u3 at l3 m3 r3 ne3 n3
  rw [f2, List.length_nil, List.length_drop] at n3
  have frm3 : u3.uart0.intRaw .frmErr = false := by
    rw [r3 _ (by decide) (by decide), r2, Function.update_of_ne (by decide)]; exact frm1
  have hdrop : f.drop k ≠ [] := by
    intro h
    have := congrArg List.length h
    rw [List.length_drop, List.length_nil] at this; omega
  have t4 := timedOut_idle l3 frm3 rfl rfl (ne3 hdrop)
  obtain ⟨l5, f5, r5, m5⟩ := intr_rx t4.listening t4.frm (by rw [t4.fifo]; omega) (.inl t4.tout)
  rw [t4.fifo, t4.frames, m3, m2, m1] at m5
  have hrun : run step u (burst (f.take k) ++ .intr :: (burst (f.drop k) ++ [.idle, .intr])) =
      (u3.step .idle).uartIntrHandler := by
    rw [run_append, hu1, run_cons, run_append]
    exact congrArg (fun v => (Uart.step v .idle).uartIntrHandler) hu3
  refine ⟨burst (f.take k) ++ .intr :: (burst (f.drop k) ++ [.idle, .intr]), ⟨?_, ?_, ?_⟩, ?_⟩
  · refine ⟨burst (f.take k) ++ .intr :: burst (f.drop k), [.intr], by simp, ?_, ?_, rfl⟩
    · simp [idle_not_mem_burst]
    · rw [arrivals_burst_append]
      exact (congrArg (f.take k ++ ·) (arrivals_burst (f.drop k))).trans (List.take_append_drop k f)
  · refine (burst_allowed u _).append ⟨fun _ => ?_, (burst_allowed _ _).append ⟨nofun, fun _ => ?_, trivial⟩⟩
    · rw [hu1]
      rcases hp with hp | hp
      · exact ⟨.rxfifoOvf, .inl (by simp [UartPort.intSt, hp, l1.ena])⟩
      · exact ⟨.rxfifoFull, .inl (by simp [UartPort.intSt, hp, l1.ena])⟩
    · have hst : run step ((run step u (burst (f.take k))).step .intr) (burst (f.drop k)) = u3 := by
        rw [hu1]; exact hu3
      rw [hst]
      exact ⟨.rxfifoTout, .inl (by simp [UartPort.intSt, t4.tout, t4.listening.ena])⟩
  · rw [hrun, r5, Function.update_self]
  · rw [hrun, m5]
    exact pieces_ne (by omega) (by omega)

/-- Every schedule delivers the frame, once and whole, exactly if it has at most
96 bytes and neither `RXFIFO_FULL` nor `RXFIFO_OVF` is left over. -/
theorem delivered_iff_short (hl : u.Listening) (hi : u.IdleLine) (h4 : 4 ≤ f.length)
    (h255 : f.length ≤ 255) (hz : (u.modbus.crc16 f).1 = 0) :
    (∀ es, u.Schedule f es → (run step u es).modbus.frames = u.modbus.frames ++ [f]) ↔
      f.length ≤ 96 ∧ u.uart0.intRaw .rxfifoFull = false ∧ u.uart0.intRaw .rxfifoOvf = false := by
  rw [Modbus.crc16_fst] at hz
  constructor
  · intro h
    by_contra hc
    have hcut : ∃ k, 0 < k ∧ k < f.length ∧
        ((run step u (burst (f.take k))).uart0.intRaw .rxfifoOvf ∨
          (run step u (burst (f.take k))).uart0.intRaw .rxfifoFull) := by
      by_cases hr : u.uart0.intRaw .rxfifoFull = false ∧ u.uart0.intRaw .rxfifoOvf = false
      · have h97 : 96 < f.length := by
          by_contra hle
          exact hc ⟨Nat.not_lt.mp hle, hr⟩
        exact ⟨96, by omega, h97, .inr (burst_full hl hi (by rw [List.length_take]; omega))⟩
      · refine ⟨1, by omega, by omega, ?_⟩
        have hm := (burst_run hl (f.take 1)).2.2.2.1
        by_cases hf : u.uart0.intRaw .rxfifoFull = true
        · exact .inr (hm _ hf)
        · refine .inl (hm _ ?_)
          by_contra ho
          exact hr ⟨by simpa using hf, by simpa using ho⟩
    obtain ⟨k, h0, hk, hp⟩ := hcut
    obtain ⟨es, hs, hne⟩ := cut hl hi (by omega) h0 hk hp
    exact hne (h es hs)
  · rintro ⟨hf, hu, ho⟩ es hs
    exact hs.delivers hl hi ho hu (by rintro rfl; simp at h4) hf hz

/-- The first request after the start. -/
theorem delivered_read_request : ({} : Uart).appInit.Listening ∧
    ∀ es, ({} : Uart).appInit.Schedule readRequest es →
      (run step ({} : Uart).appInit es).modbus.frames = [readRequest] :=
  ⟨appInit_listening {}, (delivered_iff_short (appInit_listening {}) (appInit_idleLine {}) (by decide)
    (by decide) (by decide +kernel)).2 (by decide)⟩

/-- 95 zeros and their CRC. -/
def longFrame : List Byte :=
  List.replicate 95 0 ++ crcBytes (({} : Modbus).crc16 (List.replicate 95 0)).1

theorem length_longFrame : longFrame.length = 97 := by
  rw [longFrame, List.length_append, List.length_replicate]; rfl

/-- A frame of 97 bytes, read when the FIFO reaches the threshold. -/
theorem long_frame_cut : ¬ ∀ (u : Uart) (f : List Byte), u.Listening → u.IdleLine → 4 ≤ f.length →
    f.length ≤ 255 → (u.modbus.crc16 f).1 = 0 → ∀ es, u.Schedule f es →
    (run step u es).modbus.frames = u.modbus.frames ++ [f] := by
  intro h
  have hz : (({} : Uart).appInit.modbus.crc16 longFrame).1 = 0 := by
    rw [Modbus.crc16_fst, crc16_eq_zero_iff]
    exact ⟨by rw [length_longFrame]; decide, _, rfl⟩
  obtain ⟨es, hs, hne⟩ := cut (f := longFrame) (k := 96) (appInit_listening {}) (appInit_idleLine {})
    (by rw [length_longFrame]; decide) (by decide) (by rw [length_longFrame]; decide)
    (.inr (burst_full (appInit_listening {}) (appInit_idleLine {})
      (by rw [List.length_take, length_longFrame]; rfl)))
  exact hne (h _ _ (appInit_listening {}) (appInit_idleLine {}) (by rw [length_longFrame]; decide)
    (by rw [length_longFrame]; decide) hz es hs)

end Uart

end Nonos
