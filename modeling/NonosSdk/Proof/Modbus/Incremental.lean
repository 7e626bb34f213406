import NonosSdk.Proof.Modbus.Residue

/-!
# The CRC by bytes, all at once and one at a time

CRC-16/MODBUS as it is usually defined, byte by byte with eight shifts each
(`crc16Bytewise`), is the CRC of the message's bits (`crc16_eq_bytewise`). The
three entry points compute it: `modbus_crc16` of a whole buffer, and
`modbus_crc16_init` followed by `modbus_crc16_once` for each byte, whose result is
the CRC of the bytes so far (`crc16_entry_points`).
-/

namespace Nonos

namespace Spec

/-- One shift to the right, xoring 0xA001 in when the bit shifted out is 1. -/
def crc16Shift (r : BitVec 16) : BitVec 16 := if r.getLsbD 0 then (r >>> 1) ^^^ 0xA001 else r >>> 1

/-- A byte, xored into the low byte of the register and shifted out. -/
def crc16Byte (r : BitVec 16) (b : Byte) : BitVec 16 := crc16Shift^[8] (r ^^^ b.setWidth 16)

/-- CRC-16/MODBUS, byte by byte. -/
def crc16Bytewise (f : List Byte) : BitVec 16 := f.foldl crc16Byte 0xFFFF

example : crc16Bytewise [0x01, 0x03, 0x00, 0x00, 0x00, 0x0A] = 0xCDC5 := by decide +kernel

theorem crc16Byte_eq_feeds (r : BitVec 16) (b : Byte) : crc16Byte r b = feeds crc16Poly r (bits b) := by
  rw [feeds_eq_iterate _ _ (by simp), length_bits, ofBits_bits]
  rfl

theorem foldl_crc16Byte (r : BitVec 16) (f : List Byte) :
    f.foldl crc16Byte r = feeds crc16Poly r (message f) := by
  induction f generalizing r with
  | nil => rfl
  | cons b f ih => rw [List.foldl_cons, ih, crc16Byte_eq_feeds, message_cons, feeds_append]

theorem crc16_eq_bytewise (f : List Byte) : crc16 f = crc16Bytewise f := (foldl_crc16Byte 0xFFFF f).symm

end Spec

open Spec

namespace Modbus

/-- `modbus_crc16_once` for each byte in turn, with what it returns. -/
def crc16Onces (m : Modbus) : List Byte → List (BitVec 16) × Modbus
  | [] => ([], m)
  | b :: f =>
    let (crc, m) := m.crc16Once b
    let (crcs, m) := crc16Onces m f
    (crc :: crcs, m)

/-- It takes the loop of `modbus_crc16` one iteration further. -/
theorem crc16Onces_snd (m : Modbus) (f : List Byte) : (m.crc16Onces f).2 = f.foldl crcStep m := by
  induction f generalizing m with
  | nil => rfl
  | cons b f ih => rw [crc16Onces, List.foldl_cons]; exact ih _

/-- From a register that holds the CRC of `p`, what is returned are the CRCs of the
longer and longer prefixes of what follows. -/
theorem crc16Onces_fst {m : Modbus} {p : List Byte} (h : m.checksum = Spec.crc16 p) (f : List Byte) :
    (m.crc16Onces f).1 = (List.range f.length).map fun k => Spec.crc16 (p ++ f.take (k + 1)) := by
  induction f generalizing m p with
  | nil => rfl
  | cons b f ih =>
    have hb : (m.crcStep b).checksum = Spec.crc16 (p ++ [b]) := by
      rw [checksum_crcStep, h, Spec.crc16, Spec.crc16, message_append, feeds_append, message_cons]
      simp [message]
    rw [crc16Onces, List.length_cons, List.range_succ_eq_map, List.map_cons, List.map_map]
    refine congrArg₂ List.cons hb ((ih hb).trans (List.map_congr_left fun k _ => ?_))
    simp

/-- From any values of the variables, the three entry points return the CRC. -/
theorem crc16_entry_points (m : Modbus) (f : List Byte) :
    (m.crc16 f).1 = crc16Bytewise f ∧ (m.crc16 f).2.checksum = crc16Bytewise f ∧
      (m.crc16Init.crc16Onces f).1 = (List.range f.length).map (fun k => crc16Bytewise (f.take (k + 1))) ∧
      (m.crc16Init.crc16Onces f).2.checksum = crc16Bytewise f := by
  have hinit : m.crc16Init.checksum = Spec.crc16 [] := m.crc16Init_checksum
  refine ⟨?_, ?_, ?_, ?_⟩
  · rw [crc16_fst, crc16_eq_bytewise]
  · rw [crc16_checksum, crc16_eq_bytewise]
  · simp only [crc16Onces_fst hinit, List.nil_append, crc16_eq_bytewise]
  · rw [crc16Onces_snd, ← crc16_eq_bytewise]
    exact m.crc16_checksum f

end Modbus

end Nonos
