import NonosSdk.Framework.Crc
import NonosSdk.Framework.Mem

/-!
# CRC-16/MODBUS

The CRC bit by bit: a register of ones, the generator `x¹⁶ + x¹⁵ + x² + 1` in
reflected form, and the bits of each byte from the lowest.
-/

namespace Nonos.Spec

/-- The generator. -/
def crc16Poly : BitVec 16 := 0xA001

/-- The bits of a byte in the order of transmission. -/
def bits (b : Byte) : List Bool := (List.range 8).map b.getLsbD

/-- The bits of a message in the order of transmission. -/
def message (f : List Byte) : List Bool := f.flatMap bits

/-- The CRC of a message. -/
def crc16 (f : List Byte) : BitVec 16 := feeds crc16Poly 0xFFFF (message f)

@[simp] theorem length_bits (b : Byte) : (bits b).length = 8 := by
  simp [bits]

@[simp] theorem length_message (f : List Byte) : (message f).length = 8 * f.length := by
  induction f with
  | nil => rfl
  | cons b f ih =>
    simp only [message, List.flatMap_cons, List.length_append, length_bits, List.length_cons] at ih ⊢
    omega

theorem message_append (f g : List Byte) : message (f ++ g) = message f ++ message g :=
  List.flatMap_append

theorem message_cons (b : Byte) (f : List Byte) : message (b :: f) = bits b ++ message f :=
  List.flatMap_cons

theorem getD_bits (b : Byte) (i : Nat) : (bits b).getD i false = b.getLsbD i := by
  by_cases hi : i < 8
  · simp [bits, hi]
  · simp [bits, hi, Nat.not_lt.mp hi]

/-- A byte, xored in at once. -/
theorem ofBits_bits {w : Nat} (b : Byte) : (ofBits (bits b) : BitVec w) = b.setWidth w := by
  apply BitVec.eq_of_getLsbD_eq
  intro i hi
  rw [getLsbD_ofBits, getD_bits, BitVec.getLsbD_setWidth]

theorem bits_injective {a b : Byte} (h : bits a = bits b) : a = b := by
  apply BitVec.eq_of_getLsbD_eq
  intro i hi
  rw [← getD_bits, ← getD_bits, h]

theorem message_injective {f g : List Byte} (h : message f = message g) : f = g := by
  induction f generalizing g with
  | nil =>
    have hl := congrArg List.length h
    rw [length_message, length_message, List.length_nil] at hl
    exact (List.length_eq_zero_iff.mp (by omega)).symm
  | cons a f ih => cases g with
    | nil => simp [message, bits] at h
    | cons b g =>
      rw [message_cons, message_cons] at h
      obtain ⟨hab, hfg⟩ := List.append_inj h (by simp)
      rw [bits_injective hab, ih hfg]

/-- Two bytes, the first one low. -/
theorem ofBits_bits_append (a b : Byte) : (ofBits (bits a ++ bits b) : BitVec 16) = b ++ a := by
  apply BitVec.eq_of_getLsbD_eq
  intro i hi
  rw [getLsbD_ofBits, BitVec.getLsbD_append, decide_eq_true hi, Bool.true_and,
    List.getD_eq_getElem?_getD, List.getElem?_append, length_bits]
  split
  · rw [← List.getD_eq_getElem?_getD, getD_bits]
  · rw [← List.getD_eq_getElem?_getD, getD_bits]

end Nonos.Spec
