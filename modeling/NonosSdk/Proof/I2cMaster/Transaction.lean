import NonosSdk.Proof.I2cMaster.Clock

/-!
# Transactions

A transaction is a list of segments, each a START and then steps: a byte
written and its acknowledge read (`write`), or a byte read and acknowledged
(`read`). `transact` carries it out and gives back the bytes and acknowledges
read. For every slave that leaves SDA to the master where the master needs
it high, an observer of the bus sees exactly that (`transaction_decodes`):
each operation is a number of clock pulses (`step_clocked`), whatever levels the
previous one has left, so a segment is the pulses of its steps
(`steps_clocked`) and what is left to show is where the conditions are.
-/

namespace Nonos

open Spec.I2c (Line Observer Event decode)

namespace I2cBus

variable {j : Line} {b : I2cBus}

/-! ## Bytes -/

theorem getLsbD_ushiftRight_zero (w : Byte) (n : Nat) : (w >>> n).getLsbD 0 = w.getLsbD n := by
  rw [BitVec.getLsbD_ushiftRight, Nat.add_zero]

/-- One bit of the master. -/
theorem bit_clocked (h : b.Tuned j) (x : Bool) :
    ∃ ps bits, Clocked j b (((b.setDC x false).setDC x true).setDC x false) ps bits ∧
      Told [.out x] ps [] bits [x] := by
  have hc := (((Clocked.refl h).low x).rise (by simp) x).low x
  exact ⟨_, _, hc, Told.out x _⟩

/-- One bit of the slave, and what `i2c_master_getDC` reads in it. -/
theorem getDC_clocked (h : b.Tuned j) :
    ∃ l, Clocked j b ((b.setDC true false).setDC true true) [l] [true && l] ∧
      ((b.setDC true false).setDC true true).getDC = l :=
  ⟨_, ((Clocked.refl h).low true).rise (by simp) true, by simp [getDC, line]⟩

theorem writeBits_clocked (h : b.Tuned j) (w : Byte) (n : Nat) :
    ∃ ps bits, Clocked j b (writeBits w n b) ps bits ∧ Told ((msb w n).map .out) ps [] bits (msb w n) := by
  induction n generalizing b with
  | zero => exact ⟨_, _, .refl h, .nil⟩
  | succ n ih =>
    obtain ⟨ps, bits, hc, ht⟩ := bit_clocked h ((w >>> n).getLsbD 0)
    obtain ⟨ps', bits', hc', ht'⟩ := ih hc.tuned
    refine ⟨_, _, hc.trans hc', ?_⟩
    rw [getLsbD_ushiftRight_zero] at ht
    exact ht.append ht'

/-- `i2c_master_writeByte`: the bits of the byte. -/
theorem writeByte_clocked (h : b.Tuned j) (w : Byte) :
    ∃ ps bits, Clocked j b (b.writeByte w) ps bits ∧ Told ((msb w 8).map .out) ps [] bits (msb w 8) := by
  have hc := (Clocked.refl h).low b.nLastSDA
  obtain ⟨ps, bits, hc', ht⟩ := writeBits_clocked hc.tuned w 8
  exact ⟨_, _, hc.trans hc', ht⟩

/-- `i2c_master_getAck`: one bit of the slave, which it returns. -/
theorem getAck_clocked (h : b.Tuned j) :
    ∃ ps bits, Clocked j b b.getAck.2 ps bits ∧ Told [.inp] ps [b.getAck.1] bits [b.getAck.1] := by
  have hc := (Clocked.refl h).low b.nLastSDA
  obtain ⟨l, hc', hl⟩ := getDC_clocked hc.tuned
  refine ⟨_, _, (hc.trans hc').low true, ?_⟩
  have hret : b.getAck.1 = l := hl
  rw [hret]
  exact Told.inp l

/-- `i2c_master_setAck`: one bit of the master. -/
theorem setAck_clocked (h : b.Tuned j) (level : Byte) :
    ∃ ps bits, Clocked j b (b.setAck level) ps bits ∧
      Told [.out (level.getLsbD 0)] ps [] bits [level.getLsbD 0] := by
  have hc := (Clocked.refl h).low b.nLastSDA
  obtain ⟨ps, bits, hc', ht⟩ := bit_clocked hc.tuned (level.getLsbD 0)
  exact ⟨_, _, (hc.trans hc').low true, ht⟩

/-- `k <<= (7 - i)` -/
theorem getLsbD_shifted (k : Bool) (n i : Nat) :
    ((BitVec.ofBool k).setWidth 8 <<< n : Byte).getLsbD i = (decide (i < 8) && decide (i = n) && k) := by
  rw [BitVec.getLsbD_shiftLeft, BitVec.getLsbD_setWidth, BitVec.getLsbD_ofBool]
  rcases Nat.lt_trichotomy i n with h | rfl | h
  · simp [h, Nat.ne_of_lt h]
  · simp
  · have : i - n ≠ 0 := by omega
    simp [Nat.ne_of_gt h, this]

/-- Bits above the ones to go stay in `retVal`. -/
theorem readBits_high (n : Nat) (r : Byte) (b : I2cBus) {i : Nat} (hi : n ≤ i) :
    (readBits n r b).1.getLsbD i = r.getLsbD i := by
  induction n generalizing r b with
  | zero => rfl
  | succ n ih =>
    rw [readBits, ih _ _ (by omega), BitVec.getLsbD_or, getLsbD_shifted,
      decide_eq_false (show ¬ i = n by omega)]
    simp

theorem readBits_clocked (h : b.Tuned j) {n : Nat} (hn : n ≤ 8) {r : Byte}
    (hr : ∀ i < n, r.getLsbD i = false) :
    ∃ ps bits, Clocked j b (readBits n r b).2 ps bits ∧
      Told (List.replicate n .inp) ps (msb (readBits n r b).1 n) bits (msb (readBits n r b).1 n) := by
  induction n generalizing b r with
  | zero => exact ⟨_, _, .refl h, .nil⟩
  | succ n ih =>
    obtain ⟨l, hc, hl⟩ := getDC_clocked h
    have hread : readBits (n + 1) r b =
        readBits n (r ||| (BitVec.ofBool l).setWidth 8 <<< n) ((b.setDC true false).setDC true true) := by
      rw [readBits, hl]
    generalize hb' : (b.setDC true false).setDC true true = b' at hc hread
    have hr' : ∀ i < n, (r ||| (BitVec.ofBool l).setWidth 8 <<< n).getLsbD i = false := by
      intro i hi
      rw [BitVec.getLsbD_or, hr i (by omega), getLsbD_shifted, decide_eq_false (Nat.ne_of_lt hi)]
      simp
    obtain ⟨ps, bits, hc', ht⟩ := ih hc.tuned (by omega) hr'
    -- the bit just read stays where it is
    have hbit : (readBits (n + 1) r b).1.getLsbD n = l := by
      rw [hread, readBits_high n _ _ (Nat.le_refl n), BitVec.getLsbD_or, hr n (by omega), getLsbD_shifted]
      simp
      omega
    rw [msb, hbit, hread]
    exact ⟨_, _, hc.trans hc', (Told.inp l).append ht⟩

/-- `i2c_master_readByte`: eight bits of the slave, which it returns. -/
theorem readByte_clocked (h : b.Tuned j) :
    ∃ ps bits, Clocked j b b.readByte.2 ps bits ∧
      Told (List.replicate 8 .inp) ps (msb b.readByte.1 8) bits (msb b.readByte.1 8) := by
  have hc := (Clocked.refl h).low b.nLastSDA
  obtain ⟨ps, bits, hc', ht⟩ := readBits_clocked hc.tuned (Nat.le_refl 8) (r := 0) (by simp)
  exact ⟨_, _, (hc.trans hc').low true, ht⟩

/-! ## Segments -/

/-- A step of a segment. -/
inductive I2cStep where
  /-- `i2c_master_writeByte` and `i2c_master_getAck`. -/
  | write (wrdata : Byte)
  /-- `i2c_master_readByte` and `i2c_master_setAck`. -/
  | read (level : Byte)

/-- A step, with what it has returned. -/
inductive Turn where
  | wrote (wrdata : Byte) (ack : Bool)
  | got (byte : Byte) (level : Byte)

/-- The step taken. -/
def Turn.step : Turn → I2cStep
  | wrote wrdata _ => .write wrdata
  | got _ level => .read level

/-- The nine bits on the bus. -/
def Turn.bits : Turn → List Bool
  | wrote wrdata ack => msb wrdata 8 ++ [ack]
  | got byte level => msb byte 8 ++ [level.getLsbD 0]

/-- The bits returned. -/
def Turn.answer : Turn → List Bool
  | wrote _ ack => [ack]
  | got byte _ => msb byte 8

/-- Whose the nine clock pulses are. -/
def I2cStep.slots : I2cStep → List Slot
  | write wrdata => (msb wrdata 8).map .out ++ [.inp]
  | read level => List.replicate 8 .inp ++ [.out (level.getLsbD 0)]

/-- One step. -/
def step (b : I2cBus) : I2cStep → Turn × I2cBus
  | .write wrdata => (.wrote wrdata (b.writeByte wrdata).getAck.1, (b.writeByte wrdata).getAck.2)
  | .read level => (.got b.readByte.1 level, b.readByte.2.setAck level)

/-- The steps of a segment. -/
def steps : List I2cStep → I2cBus → List Turn × I2cBus
  | [], b => ([], b)
  | s :: ss, b =>
    let (turn, b) := b.step s
    let (turns, b) := steps ss b
    (turn :: turns, b)

theorem step_asked (b : I2cBus) (s : I2cStep) : (b.step s).1.step = s := by
  cases s <;> rfl

theorem step_low (b : I2cBus) (s : I2cStep) : (b.step s).2.nLastSCL = false := by
  cases s <;> simp [step, getAck, setAck]

theorem step_clocked (h : b.Tuned j) (s : I2cStep) :
    ∃ ps bits, Clocked j b (b.step s).2 ps bits ∧ Told s.slots ps (b.step s).1.answer bits (b.step s).1.bits := by
  cases s with
  | write wrdata =>
    obtain ⟨ps, bits, hc, ht⟩ := writeByte_clocked h wrdata
    obtain ⟨ps', bits', hc', ht'⟩ := getAck_clocked hc.tuned
    rw [step]
    exact ⟨_, _, hc.trans hc', ht.append ht'⟩
  | read level =>
    obtain ⟨ps, bits, hc, ht⟩ := readByte_clocked h
    obtain ⟨ps', bits', hc', ht'⟩ := setAck_clocked hc.tuned level
    have htold := ht.append ht'
    rw [List.append_nil] at htold
    rw [step]
    exact ⟨_, _, hc.trans hc', htold⟩

theorem steps_asked (ss : List I2cStep) (b : I2cBus) : (steps ss b).1.map Turn.step = ss := by
  induction ss generalizing b with
  | nil => rfl
  | cons s ss ih => rw [steps, List.map_cons, step_asked, ih]

/-- After a segment SCL is low, unless the segment has no steps. -/
theorem steps_low (ss : List I2cStep) (b : I2cBus) :
    (steps ss b).2.nLastSCL = (ss.isEmpty && b.nLastSCL) := by
  induction ss generalizing b with
  | nil => simp [steps]
  | cons s ss ih => rw [steps, ih, step_low]; simp

theorem steps_clocked (h : b.Tuned j) (ss : List I2cStep) :
    ∃ ps bits, Clocked j b (steps ss b).2 ps bits ∧
      Told (ss.flatMap I2cStep.slots) ps ((steps ss b).1.flatMap Turn.answer) bits
        ((steps ss b).1.flatMap Turn.bits) := by
  induction ss generalizing b with
  | nil => exact ⟨_, _, .refl h, .nil⟩
  | cons s ss ih =>
    obtain ⟨ps, bits, hc, ht⟩ := step_clocked h s
    obtain ⟨ps', bits', hc', ht'⟩ := ih hc.tuned
    exact ⟨_, _, hc.trans hc', ht.append ht'⟩

/-! ## Conditions -/

/-- SCL is high, the slave has released SDA, and there is no pulse under way. -/
structure Rest (j : Line) (x : Bool) (b : I2cBus) : Prop where
  tuned : b.Tuned j
  nLastSCL : b.nLastSCL = true
  nLastSDA : b.nLastSDA = x
  slave : b.slave = true
  pulse : (b.heard j).pulse = none

/-- What SDA going from `x` to `y` while SCL is high is. -/
def condition (x y : Bool) : List Event := if x = y then [] else [if y then .stop else .start]

/-- The master moves SDA while SCL is high: whatever the pulse was, it is no bit. -/
theorem setDC_flip (h : b.Tuned j) (hh : b.nLastSCL = true) (hs : b.slave = true) {y : Bool}
    (hy : b.nLastSDA = !y) :
    (b.setDC y true).Rest j y ∧ (b.setDC y true).due j = (b.heard j).events ++ condition (!y) y := by
  have hheard := heard_setDC_high h hh y
  rw [if_neg (by simp [hy, hs]), hs, Bool.and_true] at hheard
  refine ⟨⟨h.setDC y true, by simp, by simp, hs, by rw [hheard]⟩, ?_⟩
  rw [due, hheard]
  simp [condition]

theorem Rest.setDC {x : Bool} (h : b.Rest j x) (y : Bool) :
    (b.setDC y true).Rest j y ∧ (b.setDC y true).due j = b.due j ++ condition x y := by
  by_cases hxy : x = y
  · subst hxy
    have hheard := heard_setDC_high h.tuned h.nLastSCL x
    rw [if_pos (by rw [h.nLastSDA])] at hheard
    refine ⟨⟨h.tuned.setDC x true, by simp, by simp, h.slave, by rw [hheard, h.pulse]⟩, ?_⟩
    simp [due, hheard, condition]
  · have hx : x = !y := by cases x <;> cases y <;> simp_all
    obtain ⟨hr, hd⟩ := setDC_flip h.tuned h.nLastSCL h.slave (y := y) (by rw [h.nLastSDA, hx])
    refine ⟨hr, ?_⟩
    rw [hd, hx, due, h.pulse]
    simp

theorem start_of_rest {x : Bool} (h : b.Rest j x) :
    b.start.Rest j false ∧ b.start.due j = b.due j ++ condition x true ++ [.start] := by
  obtain ⟨h1, hd1⟩ := h.setDC true
  obtain ⟨h2, hd2⟩ := h1.setDC true
  obtain ⟨h3, hd3⟩ := h2.setDC false
  rw [start, h.nLastSCL]
  refine ⟨h3, ?_⟩
  rw [hd3, hd2, hd1]
  simp [condition]

theorem stop_of_rest (h : b.Rest j false) :
    b.stop.Rest j true ∧ b.stop.due j = b.due j ++ [.stop] := by
  obtain ⟨h1, hd1⟩ := h.setDC false
  obtain ⟨h2, hd2⟩ := h1.setDC false
  obtain ⟨h3, hd3⟩ := h2.setDC true
  rw [stop, h.nLastSCL]
  refine ⟨h3, ?_⟩
  rw [hd3, hd2, hd1]
  simp [condition]

/-- A condition from a clock pulse: SDA is set while SCL is low, SCL rises, and SDA moves. -/
theorem condition_of_low (h : b.Tuned j) (y : Bool) :
    ∃ l, (((b.setDC (!y) false).setDC (!y) true).setDC y true).Tuned j ∧
      (((b.setDC (!y) false).setDC (!y) true).setDC y true).pulses = b.pulses ++ [l] ∧
      (l = true → (((b.setDC (!y) false).setDC (!y) true).setDC y true).Rest j y ∧
        (((b.setDC (!y) false).setDC (!y) true).setDC y true).due j = b.due j ++ condition (!y) y) := by
  have hlow := h.setDC_false (!y)
  have hrise := hlow.setDC_true (!y)
  refine ⟨(b.setDC (!y) false).slave, hrise.setDC_true y, ?_, fun hs => ?_⟩
  · rw [pulses_setDC_high (by simp), pulses_setDC_rise (by simp), pulses_setDC_false]
  · obtain ⟨hr, hd⟩ := setDC_flip hrise (by simp) (by simpa using hs) (y := y) (by simp)
    refine ⟨hr, ?_⟩
    rw [hd, heard_setDC_rise hlow (by simp), due, heard_setDC_false h]
    simp

/-! ## Transactions -/

/-- The segments, and `i2c_master_stop`. -/
def transact : List (List I2cStep) → I2cBus → List (List Turn) × I2cBus
  | [], b => ([], b.stop)
  | seg :: segs, b =>
    let (turns, b) := steps seg b.start
    let (rest, b) := transact segs b
    (turns :: rest, b)

/-- The rising edge of a condition, if SCL is not high already. -/
def edge (rest : Bool) : List Slot := if rest then [] else [.condition]

/-- The rising edges of SCL from here on, where `rest` says that SCL is high. -/
def slots : Bool → List (List I2cStep) → List Slot
  | rest, [] => edge rest
  | rest, seg :: segs => edge rest ++ (seg.flatMap I2cStep.slots ++ slots seg.isEmpty segs)

/-- What is to be seen of the segments that follow: a START for each, the bits of its
steps, and the STOP; and a STOP before a START that follows another one directly. -/
def events : Bool → List (List Turn) → List Event
  | _, [] => [.stop]
  | rest, turns :: segs =>
    (if rest then [.stop] else []) ++ .start :: ((turns.flatMap Turn.bits).map .bit ++ events turns.isEmpty segs)

theorem start_told (h : b.Tuned j) {rest : Bool} (hl : b.nLastSCL = rest) :
    ∃ ps, b.start.Tuned j ∧ b.start.nLastSCL = true ∧ b.start.pulses = b.pulses ++ ps ∧
      (edge rest).length = ps.length ∧ own (edge rest) ps = [] ∧
      ((rest = true → b.Rest j false) → Respects (edge rest) ps → b.start.Rest j false ∧
        b.start.due j = b.due j ++ (if rest then [.stop] else []) ++ [.start]) := by
  have hscl : b.start.nLastSCL = true := by simp [start]
  have ht : b.start.Tuned j := ((h.setDC _ _).setDC _ _).setDC _ _
  cases rest with
  | true =>
    have hp : b.start.pulses = b.pulses := by
      rw [start, hl, pulses_setDC_high (by simp), pulses_setDC_high (by simp), pulses_setDC_high hl]
    refine ⟨[], ht, hscl, by simp [hp], rfl, rfl, fun hr _ => ?_⟩
    exact start_of_rest (hr rfl)
  | false =>
    obtain ⟨l, -, hp, hc⟩ := condition_of_low h false
    rw [start, hl] at ht hscl ⊢
    refine ⟨[l], ht, hscl, hp, rfl, rfl, fun _ hr => ?_⟩
    obtain ⟨hrest, hd⟩ := hc (hr (.condition, l) (by simp [edge]))
    exact ⟨hrest, by simpa [condition] using hd⟩

theorem stop_told (h : b.Tuned j) {rest : Bool} (hl : b.nLastSCL = rest) :
    ∃ ps, b.stop.pulses = b.pulses ++ ps ∧ (edge rest).length = ps.length ∧ own (edge rest) ps = [] ∧
      ((rest = true → b.Rest j false) → Respects (edge rest) ps →
        b.stop.Rest j true ∧ b.stop.due j = b.due j ++ [.stop]) := by
  cases rest with
  | true =>
    have hp : b.stop.pulses = b.pulses := by
      rw [stop, hl, pulses_setDC_high (by simp), pulses_setDC_high (by simp), pulses_setDC_high hl]
    exact ⟨[], by simp [hp], rfl, rfl, fun hr _ => stop_of_rest (hr rfl)⟩
  | false =>
    obtain ⟨l, -, hp, hc⟩ := condition_of_low h true
    rw [stop, hl]
    refine ⟨[l], hp, rfl, rfl, fun _ hr => ?_⟩
    exact hc (hr (.condition, l) (by simp [edge]))

/-- The segments that follow, from SCL high or low. -/
def Transacted (j : Line) (rest : Bool) (segs : List (List I2cStep)) (b : I2cBus) : Prop :=
  ∃ ps, (transact segs b).2.pulses = b.pulses ++ ps ∧ (slots rest segs).length = ps.length ∧
    own (slots rest segs) ps = (transact segs b).1.flatten.flatMap Turn.answer ∧
    ((rest = true → b.Rest j false) → Respects (slots rest segs) ps →
      (transact segs b).2.Rest j true ∧
        (transact segs b).2.due j = b.due j ++ events rest (transact segs b).1)

/-- The steps of a segment that has been started, and the segments that follow. -/
theorem segment_told (seg : List I2cStep) {segs : List (List I2cStep)}
    (hnext : ∀ b, b.Tuned j → b.nLastSCL = seg.isEmpty → Transacted j seg.isEmpty segs b)
    (h : b.Tuned j) (hl : b.nLastSCL = true) :
    ∃ ps, (transact segs (steps seg b).2).2.pulses = b.pulses ++ ps ∧
      (seg.flatMap I2cStep.slots ++ slots seg.isEmpty segs).length = ps.length ∧
      own (seg.flatMap I2cStep.slots ++ slots seg.isEmpty segs) ps =
        ((steps seg b).1 :: (transact segs (steps seg b).2).1).flatten.flatMap Turn.answer ∧
      (b.Rest j false → Respects (seg.flatMap I2cStep.slots ++ slots seg.isEmpty segs) ps →
        (transact segs (steps seg b).2).2.Rest j true ∧ (transact segs (steps seg b).2).2.due j = b.due j ++
          (((steps seg b).1.flatMap Turn.bits).map .bit ++
            events (steps seg b).1.isEmpty (transact segs (steps seg b).2).1)) := by
  obtain ⟨ps, bits, hc, htold⟩ := steps_clocked h seg
  have hlow : (steps seg b).2.nLastSCL = seg.isEmpty := by rw [steps_low, hl, Bool.and_true]
  obtain ⟨qs, hp, hlen, hown, hdue⟩ := hnext _ hc.tuned hlow
  have hempty : (steps seg b).1.isEmpty = seg.isEmpty := by
    rw [← List.isEmpty_map (f := Turn.step), steps_asked]
  refine ⟨ps ++ qs, by rw [hp, hc.pulses, List.append_assoc], ?_, ?_, fun hrest hresp => ?_⟩
  · rw [List.length_append, List.length_append, htold.length, hlen]
  · rw [own_append htold.length, htold.answer, hown, List.flatten_cons, List.flatMap_append]
  · -- a segment without steps leaves the bus at rest
    have hnil : seg.isEmpty = true → (steps seg b).2.Rest j false := by
      intro he
      rw [List.isEmpty_iff.mp he]
      exact hrest
    obtain ⟨hend, hd⟩ := hdue hnil (hresp.right htold.length)
    refine ⟨hend, ?_⟩
    rw [hd, hc.due, htold.bits (hresp.left htold.length), hempty, List.append_assoc]

theorem transact_told (segs : List (List I2cStep)) (h : b.Tuned j) {rest : Bool} (hl : b.nLastSCL = rest) :
    Transacted j rest segs b := by
  induction segs generalizing b rest with
  | nil => exact stop_told h hl
  | cons seg segs ih =>
    obtain ⟨ps, ht, hscl, hp, hlen, hown, hstart⟩ := start_told h hl
    obtain ⟨qs, hp', hlen', hown', hseg⟩ := segment_told seg (fun _ ht hl => ih ht hl) ht hscl
    refine ⟨ps ++ qs, ?_, ?_, ?_, fun hr hresp => ?_⟩
    · rw [transact, hp', hp, List.append_assoc]
    · rw [slots, List.length_append, hlen, hlen', List.length_append]
    · rw [slots, own_append hlen, hown, hown', List.nil_append, transact]
    · obtain ⟨hrest, hd⟩ := hstart hr (hresp.left hlen)
      obtain ⟨hend, hd'⟩ := hseg hrest (hresp.right hlen)
      refine ⟨hend, ?_⟩
      rw [transact, hd', hd, events]
      simp

/-- The segments carried out are the ones asked for. -/
theorem transact_asked (segs : List (List I2cStep)) (b : I2cBus) :
    (transact segs b).1.map (·.map Turn.step) = segs := by
  induction segs generalizing b with
  | nil => rfl
  | cons seg segs ih => rw [transact, List.map_cons, steps_asked, ih]

/-- The bus as it is, with everything recorded from here on. -/
def listen (b : I2cBus) : I2cBus := { b with wire := [], pulses := [] }

/-- `i2c_master_init` leaves both lines released. -/
theorem init_idle (b : I2cBus) : b.init.nLastSDA = true ∧ b.init.nLastSCL = true := by
  simp [init, stop]

theorem listen_rest (hd : b.nLastSDA = true) (hc : b.nLastSCL = true) (hs : b.slave = true) :
    b.listen.Rest b.line true :=
  ⟨⟨rfl, fun _ => rfl⟩, hc, hd, hs, rfl⟩

/-- A transaction from an idle bus. -/
theorem transact_of_rest (h : b.Rest j true) {seg : List I2cStep} {segs : List (List I2cStep)} :
    ∃ ps, (transact (seg :: segs) b).2.pulses = b.pulses ++ ps ∧
      own (slots true (seg :: segs)) ps = (transact (seg :: segs) b).1.flatten.flatMap Turn.answer ∧
      (Respects (slots true (seg :: segs)) ps → (transact (seg :: segs) b).2.Rest j true ∧
        (transact (seg :: segs) b).2.due j = b.due j ++ events false (transact (seg :: segs) b).1) := by
  obtain ⟨ps, ht, hscl, hp, hlen, -, -⟩ := start_told h.tuned h.nLastSCL
  obtain rfl : ps = [] := List.length_eq_zero_iff.mp hlen.symm
  obtain ⟨hstart, hd⟩ := start_of_rest h
  obtain ⟨qs, hp', -, hown, hseg⟩ := segment_told seg (fun _ ht hl => transact_told segs ht hl) ht hscl
  refine ⟨qs, by rw [transact, hp', hp, List.append_nil], hown, fun hresp => ?_⟩
  obtain ⟨hend, hd'⟩ := hseg hstart hresp
  refine ⟨hend, ?_⟩
  rw [transact, hd', hd, events]
  simp [condition]

/-- A transaction from the idle state that `i2c_master_init` leaves: the bus
shows a START for each segment, the bits of its steps and a STOP at the end, with a
STOP after every segment without steps that another one follows, and the bits returned
are those of the slave, if the slave leaves SDA to the master where it needs it high. -/
theorem transaction_decodes (b : I2cBus) {segs : List (List I2cStep)} (hne : segs ≠ [])
    (hs : b.init.slave = true)
    (hresp : Respects (slots true segs) (transact segs b.init.listen).2.pulses) :
    let r := transact segs b.init.listen
    r.1.map (·.map Turn.step) = segs ∧ decode b.init.line r.2.wire = events false r.1 ∧
      r.1.flatten.flatMap Turn.answer = own (slots true segs) r.2.pulses := by
  intro r
  obtain ⟨seg, segs, rfl⟩ := List.exists_cons_of_ne_nil hne
  have hidle := listen_rest (init_idle b).1 (init_idle b).2 hs
  obtain ⟨ps, hp, hown, hdue⟩ := @transact_of_rest _ _ hidle seg segs
  have hps : r.2.pulses = ps := hp
  obtain ⟨hend, hd⟩ := hdue (hps ▸ hresp)
  refine ⟨transact_asked _ _, ?_, by rw [hps, hown]⟩
  have hev : r.2.due b.init.line = decode b.init.line r.2.wire := by
    rw [due, hend.pulse]
    simp [decode, heard]
  rw [← hev]
  exact hd

/-- An idle bus, with what the slave does from `i2c_master_init` on. -/
def idle (slave : Bool) (moves : List (List Bool)) : I2cBus := ⟨true, true, slave, moves, [], []⟩

/-- A slave that pulls SDA low to acknowledge a byte. -/
theorem byte_acknowledged :
    let b := idle true (List.replicate 49 [] ++ [[false], [true]])
    let r := transact [[.write 0xA0]] b.init.listen
    decode b.init.line r.2.wire = .start ::
      ([true, false, true, false, false, false, false, false, false].map .bit ++ [.stop]) ∧
      r.1.flatten.flatMap Turn.answer = [false] := by
  intro b r
  have h := @transaction_decodes b [[.write 0xA0]] (by decide) (by decide) (by decide)
  exact ⟨h.2.1.trans (by decide), h.2.2.trans (by decide)⟩

/-- A segment without steps shows a STOP of its own, even if the slave never pulls SDA
low, and a slave that always does so lets neither START nor STOP nor a 1 through. -/
theorem conditions_not_seen :
    decode (idle true []).init.line (transact [[], []] (idle true []).init.listen).2.wire =
      [.start, .stop, .start, .stop] ∧
    decode (idle false []).init.line (transact [[.write 0xFF]] (idle false []).init.listen).2.wire =
      List.replicate 9 (.bit false) := by
  decide

end I2cBus

end Nonos
