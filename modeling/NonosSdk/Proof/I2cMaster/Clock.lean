import NonosSdk.Impl.I2cMaster

/-!
# What an observer sees of the I2C master

An observer that joins the bus at `j` and has seen everything since (`heard`)
knows the levels of the bus at any time (`Tuned`), as the slave moves only
while SCL is low. What it has seen is what it has noted and, if SCL falls before
anything else happens, the bit of the pulse under way (`due`). A level that the
master leaves SCL low with adds nothing to that (`Clocked.low`), a rising edge
of SCL adds a bit (`Clocked.rise`), and everything else the master does is
made of these two, the conditions apart.
-/

namespace Nonos

open Spec.I2c (Line Observer Event)

namespace I2cBus

variable {j : Line} {b : I2cBus}

/-- What an observer that has joined at `j` knows. -/
def heard (j : Line) (b : I2cBus) : Observer := b.wire.foldl Observer.see (.joining j)

/-- What it has seen once SCL falls. -/
def due (j : Line) (b : I2cBus) : List Event := (b.heard j).events ++ (b.heard j).pulse.toList.map .bit

/-- It knows the levels of the bus, and there is no pulse while SCL is low. -/
structure Tuned (j : Line) (b : I2cBus) : Prop where
  line : (b.heard j).line = b.line
  low : b.nLastSCL = false → (b.heard j).pulse = none

@[simp] theorem nLastSCL_slaveMoves (b : I2cBus) : b.slaveMoves.nLastSCL = b.nLastSCL := by
  unfold slaveMoves; split <;> rfl

@[simp] theorem nLastSDA_slaveMoves (b : I2cBus) : b.slaveMoves.nLastSDA = b.nLastSDA := by
  unfold slaveMoves; split <;> rfl

@[simp] theorem pulses_slaveMoves (b : I2cBus) : b.slaveMoves.pulses = b.pulses := by
  unfold slaveMoves; split <;> rfl

@[simp] theorem nLastSCL_setDC (b : I2cBus) (x y : Bool) : (b.setDC x y).nLastSCL = y := by
  cases y <;> simp [setDC]

@[simp] theorem nLastSDA_setDC (b : I2cBus) (x y : Bool) : (b.setDC x y).nLastSDA = x := by
  cases y <;> simp [setDC]

/-- The slave holds its level while SCL is high. -/
@[simp] theorem slave_setDC_true (b : I2cBus) (x : Bool) : (b.setDC x true).slave = b.slave := rfl

/-- Moves of the slave while SCL is low go unnoticed. -/
theorem foldl_see_low {o : Observer} (hl : o.line.scl = false) (x : Bool) (levels : List Bool) (s : Bool)
    (hs : o.line.sda = (x && s)) :
    (levels.map fun level => (⟨x && level, false⟩ : Line)).foldl Observer.see o =
      { o with line := ⟨x && levels.getLastD s, false⟩ } := by
  induction levels generalizing o s with
  | nil =>
    obtain ⟨⟨sda, scl⟩, pulse, events⟩ := o
    simp_all
  | cons level levels ih =>
    have hsee : o.see ⟨x && level, false⟩ = { o with line := ⟨x && level, false⟩ } := by
      unfold Observer.see
      rw [hl]
    rw [List.map_cons, List.foldl_cons, hsee, ih rfl level rfl, List.getLastD_cons]

theorem heard_slaveMoves (hl : b.nLastSCL = false) (h : (b.heard j).line = b.line) :
    b.slaveMoves.heard j = { b.heard j with line := b.slaveMoves.line } := by
  unfold slaveMoves
  split
  · rw [← h]
  · rename_i levels moves hm
    have := foldl_see_low (o := b.heard j) (by rw [h]; exact hl) b.nLastSDA levels b.slave (by rw [h]; rfl)
    rw [heard, List.foldl_append]
    simp only [hl]
    exact this

/-- The master leaves SCL low. -/
theorem heard_setDC_false (h : b.Tuned j) (x : Bool) :
    (b.setDC x false).heard j = ⟨(b.setDC x false).line, none, b.due j⟩ := by
  have hsee : (b.heard j).see ⟨x && b.slave, false⟩ = ⟨⟨x && b.slave, false⟩, none, b.due j⟩ := by
    have hline := h.line
    have hlow := h.low
    unfold due
    generalize b.heard j = o at hline hlow ⊢
    obtain ⟨⟨sda, scl⟩, pulse, events⟩ := o
    cases scl
    · have hscl : b.nLastSCL = false := (congrArg Line.scl hline).symm
      simp_all [Observer.see]
    · simp [Observer.see]
  generalize hc : ({ b with nLastSDA := x, nLastSCL := false, wire := b.wire ++ [⟨x && b.slave, false⟩] } :
    I2cBus) = c
  have hheard : c.heard j = ⟨⟨x && b.slave, false⟩, none, b.due j⟩ := by
    rw [← hc, heard, List.foldl_append, ← hsee]
    rfl
  have hset : b.setDC x false = c.slaveMoves := by
    rw [← hc]
    simp [setDC]
  have hline : c.line = ⟨x && b.slave, false⟩ := by rw [← hc]; rfl
  rw [hset, heard_slaveMoves (by rw [← hc]) (by rw [hheard, hline]), hheard]

theorem heard_setDC_true (j : Line) (b : I2cBus) (x : Bool) :
    (b.setDC x true).heard j = (b.heard j).see ⟨x && b.slave, true⟩ :=
  List.foldl_concat ..

/-- A rising edge of SCL. -/
theorem heard_setDC_rise (h : b.Tuned j) (hl : b.nLastSCL = false) (x : Bool) :
    (b.setDC x true).heard j = ⟨⟨x && b.slave, true⟩, some (x && b.slave), b.due j⟩ := by
  have hscl : (b.heard j).line.scl = false := by rw [h.line]; exact hl
  rw [heard_setDC_true, due, h.low hl]
  unfold Observer.see
  simp [hscl]

/-- The master moves SDA, if at all, while SCL is high. -/
theorem heard_setDC_high (h : b.Tuned j) (hh : b.nLastSCL = true) (x : Bool) :
    (b.setDC x true).heard j =
      if (x && b.slave) = (b.nLastSDA && b.slave) then b.heard j
      else ⟨⟨x && b.slave, true⟩, none, (b.heard j).events ++ [if x && b.slave then .stop else .start]⟩ := by
  have hline := h.line
  rw [heard_setDC_true]
  generalize b.heard j = o at hline ⊢
  obtain ⟨line, pulse, events⟩ := o
  simp only at hline
  subst hline
  simp only [Observer.see, line, hh]
  split <;> simp_all

theorem Tuned.setDC_false (h : b.Tuned j) (x : Bool) : (b.setDC x false).Tuned j := by
  constructor <;> simp [heard_setDC_false h]

theorem Tuned.setDC_true (h : b.Tuned j) (x : Bool) : (b.setDC x true).Tuned j := by
  refine ⟨?_, fun hl => by simp at hl⟩
  cases hl : b.nLastSCL
  · rw [heard_setDC_rise h hl]
    rfl
  · rw [heard_setDC_high h hl]
    split
    · rename_i hs
      rw [h.line, I2cBus.line, ← hs, hl]
      rfl
    · rfl

theorem Tuned.setDC (h : b.Tuned j) (x y : Bool) : (b.setDC x y).Tuned j := by
  cases y
  · exact h.setDC_false x
  · exact h.setDC_true x

@[simp] theorem pulses_setDC_false (b : I2cBus) (x : Bool) : (b.setDC x false).pulses = b.pulses := by
  simp [I2cBus.setDC]

theorem pulses_setDC_rise (hl : b.nLastSCL = false) (x : Bool) :
    (b.setDC x true).pulses = b.pulses ++ [b.slave] := by
  simp [I2cBus.setDC, hl]

theorem pulses_setDC_high (hh : b.nLastSCL = true) (x : Bool) : (b.setDC x true).pulses = b.pulses := by
  simp [I2cBus.setDC, hh]

/-- From `b` to `b'` the slave had the levels `ps` at the rising edges of SCL, and
an observer sees `bits`. -/
structure Clocked (j : Line) (b b' : I2cBus) (ps bits : List Bool) : Prop where
  tuned : b'.Tuned j
  pulses : b'.pulses = b.pulses ++ ps
  due : b'.due j = b.due j ++ bits.map .bit

namespace Clocked

variable {b' b'' : I2cBus} {ps ps' bits bits' : List Bool}

theorem refl (h : b.Tuned j) : Clocked j b b [] [] := ⟨h, by simp, by simp⟩

theorem trans (h : Clocked j b b' ps bits) (h' : Clocked j b' b'' ps' bits') :
    Clocked j b b'' (ps ++ ps') (bits ++ bits') :=
  ⟨h'.tuned, by rw [h'.pulses, h.pulses, List.append_assoc],
    by rw [h'.due, h.due, List.map_append, List.append_assoc]⟩

/-- SCL goes or stays low. -/
theorem low (h : Clocked j b b' ps bits) (x : Bool) : Clocked j b (b'.setDC x false) ps bits :=
  ⟨h.tuned.setDC_false x, by rw [pulses_setDC_false, h.pulses],
    by rw [I2cBus.due, heard_setDC_false h.tuned]; simpa using h.due⟩

/-- SCL rises. -/
theorem rise (h : Clocked j b b' ps bits) (hl : b'.nLastSCL = false) (x : Bool) :
    Clocked j b (b'.setDC x true) (ps ++ [b'.slave]) (bits ++ [x && b'.slave]) :=
  ⟨h.tuned.setDC_true x, by rw [pulses_setDC_rise hl, h.pulses, List.append_assoc],
    by rw [I2cBus.due, heard_setDC_rise h.tuned hl, h.due]; simp⟩

end Clocked

/-! ## Bytes -/

/-- The lowest `n` bits of a byte, the most significant one first. -/
def msb (w : Byte) : Nat → List Bool
  | 0 => []
  | n + 1 => w.getLsbD n :: msb w n

/-- Whose level a rising edge of SCL carries: a bit of the master, a bit of the
slave, or that of a START or STOP. -/
inductive Slot where
  | out (level : Bool)
  | inp
  | condition

/-- The slave leaves SDA to the master, where the master needs it high. -/
def Slot.Respects : Slot → Bool → Prop
  | .out level, l => level = true → l = true
  | .inp, _ => True
  | .condition, l => l = true

instance : ∀ (s : Slot) (l : Bool), Decidable (s.Respects l)
  | .out level, l => inferInstanceAs (Decidable (level = true → l = true))
  | .inp, _ => isTrue trivial
  | .condition, l => inferInstanceAs (Decidable (l = true))

/-- The bit of the slave, in its own slot. -/
def Slot.own : Slot → Bool → Option Bool
  | .inp, l => some l
  | _, _ => none

/-- The slave respects every slot. -/
def Respects (slots : List Slot) (ps : List Bool) : Prop := ∀ p ∈ slots.zip ps, p.1.Respects p.2

instance (slots : List Slot) (ps : List Bool) : Decidable (Respects slots ps) :=
  inferInstanceAs (Decidable (∀ p ∈ slots.zip ps, _))

/-- The bits of the slave. -/
def own (slots : List Slot) (ps : List Bool) : List Bool := (slots.zip ps).filterMap fun p => p.1.own p.2

/-- In `slots` the slave had the levels `ps` and so answered `answer`; `bits` were
on the bus, and they are `asked` if the slave respects its slots. -/
structure Told (slots : List Slot) (ps answer bits asked : List Bool) : Prop where
  length : slots.length = ps.length
  answer : own slots ps = answer
  bits : Respects slots ps → bits = asked

theorem Respects.left {s s' : List Slot} {ps ps' : List Bool} (hl : s.length = ps.length)
    (h : Respects (s ++ s') (ps ++ ps')) : Respects s ps := fun p hp =>
  h p (by rw [List.zip_append hl]; exact List.mem_append_left _ hp)

theorem Respects.right {s s' : List Slot} {ps ps' : List Bool} (hl : s.length = ps.length)
    (h : Respects (s ++ s') (ps ++ ps')) : Respects s' ps' := fun p hp =>
  h p (by rw [List.zip_append hl]; exact List.mem_append_right _ hp)

theorem own_append {s s' : List Slot} {ps ps' : List Bool} (hl : s.length = ps.length) :
    own (s ++ s') (ps ++ ps') = own s ps ++ own s' ps' := by
  rw [own, List.zip_append hl, List.filterMap_append, own, own]

namespace Told

variable {s s' : List Slot} {ps ps' as as' bs bs' qs qs' : List Bool}

theorem nil : Told [] [] [] [] [] := ⟨rfl, rfl, fun _ => rfl⟩

theorem append (h : Told s ps as bs qs) (h' : Told s' ps' as' bs' qs') :
    Told (s ++ s') (ps ++ ps') (as ++ as') (bs ++ bs') (qs ++ qs') :=
  ⟨by rw [List.length_append, List.length_append, h.length, h'.length],
    by rw [own_append h.length, h.answer, h'.answer],
    fun hr => by rw [h.bits (hr.left h.length), h'.bits (hr.right h.length)]⟩

/-- A bit of the master. -/
theorem out (v l : Bool) : Told [.out v] [l] [] [v && l] [v] := by
  refine ⟨rfl, rfl, fun hr => ?_⟩
  have hl : v = true → l = true := hr (.out v, l) (by simp)
  cases v <;> simp_all

/-- A bit of the slave. -/
theorem inp (l : Bool) : Told [.inp] [l] [l] [true && l] [l] := ⟨rfl, rfl, fun _ => by simp⟩

end Told

end I2cBus

end Nonos
