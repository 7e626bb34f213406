import NonosSdk.Impl.Modbus
import NonosSdk.Spec.Crc16

/-!
# The table-driven CRC

The two tables hold the eight shifts of every byte (`tables_eq`), so an
iteration of the loop feeds the byte's bits to the CRC register
(`checksum_crcStep`), and `modbus_crc16` is CRC-16/MODBUS whatever the
variables held before (`crc16_fst`). The last two bytes of a message are xored
onto the register together, so a residue of zero says that they are the CRC of
the rest, low byte first (`crc16_append_two`); a single byte cannot cancel the
register of ones. `frame_accepted_iff` is what both directions make of it.
-/

namespace Nonos

open Spec

/-- The tables: eight shifts of the index. -/
theorem tables_eq (i : Byte) : auchCRCLo.getD i.toNat 0 ++ auchCRCHi.getD i.toNat 0 =
    (shift crc16Poly)^[8] (i.setWidth 16) := by
  have hall : List.zipWith (· ++ ·) auchCRCLo auchCRCHi =
      (List.range 256).map fun n => (shift crc16Poly)^[8] (BitVec.ofNat 16 n) := by
    decide +kernel
  have hlo : i.toNat < auchCRCLo.length := Nat.lt_of_lt_of_le i.isLt (by decide +kernel)
  have hhi : i.toNat < auchCRCHi.length := Nat.lt_of_lt_of_le i.isLt (by decide +kernel)
  have hget := congrArg (fun l => l[i.toNat]?) hall
  simp only [List.getElem?_zipWith, List.getElem?_map, List.getElem?_range i.isLt,
    List.getElem?_eq_getElem hlo, List.getElem?_eq_getElem hhi, Option.map_some, Option.some.injEq] at hget
  rw [List.getD_eq_getElem?_getD, List.getD_eq_getElem?_getD, List.getElem?_eq_getElem hlo,
    List.getElem?_eq_getElem hhi, Option.getD_some, Option.getD_some, hget, BitVec.ofNat_toNat]

/-- Eight shifts move the high byte down. -/
theorem shift_high (h : Byte) : (shift crc16Poly)^[8] (h ++ 0#8) = h.setWidth 16 := by
  revert h; decide +kernel

/-- A byte xored onto the low byte. -/
theorem append_xor_setWidth (h l b : Byte) : (h ++ l) ^^^ b.setWidth 16 = h ++ (l ^^^ b) := by
  apply BitVec.eq_of_getLsbD_eq
  intro i hi
  rw [BitVec.getLsbD_xor, BitVec.getLsbD_append, BitVec.getLsbD_append, BitVec.getLsbD_setWidth,
    BitVec.getLsbD_xor]
  by_cases hl : i < 8
  · simp [hl, hi]
  · simp [hl, Nat.not_lt.mp hl]

namespace Modbus

theorem checksum_eq (m : Modbus) : m.checksum = m.crcH ++ m.crcL := by
  unfold checksum
  generalize m.crcH = h; generalize m.crcL = l
  apply BitVec.eq_of_getLsbD_eq
  intro i hi
  rw [BitVec.getLsbD_append]
  by_cases hl : i < 8
  · simp [hl, hi]
  · simp [hl, hi, Nat.not_lt.mp hl]

/-- An iteration feeds the bits of its byte. -/
theorem checksum_crcStep (m : Modbus) (b : Byte) :
    (m.crcStep b).checksum = feeds crc16Poly m.checksum (bits b) := by
  have hidx : ((m.crcL ^^^ b).setWidth 32).toNat = (m.crcL ^^^ b).toNat := by
    rw [BitVec.toNat_setWidth]; omega
  have hsplit : m.crcH ++ (m.crcL ^^^ b) = (m.crcH ++ 0#8) ^^^ (m.crcL ^^^ b).setWidth 16 := by
    rw [append_xor_setWidth, BitVec.zero_xor]
  rw [feeds_eq_iterate _ _ (by simp), length_bits, ofBits_bits, checksum_eq, checksum_eq,
    append_xor_setWidth, hsplit, iterate_shift_xor, shift_high, ← tables_eq,
    BitVec.xor_comm (m.crcH.setWidth 16), append_xor_setWidth, BitVec.xor_comm _ m.crcH, crcStep]
  simp only [hidx]

theorem checksum_foldl (m : Modbus) (f : List Byte) :
    (f.foldl crcStep m).checksum = feeds crc16Poly m.checksum (message f) := by
  induction f generalizing m with
  | nil => rfl
  | cons b f ih => rw [List.foldl_cons, ih, checksum_crcStep, message_cons, feeds_append]

theorem crc16Init_checksum (m : Modbus) : m.crc16Init.checksum = 0xFFFF := by
  simp only [checksum, crc16Init]; decide

/-- `modbus_crc16` is the CRC, whatever was computed before. -/
theorem crc16_fst (m : Modbus) (f : List Byte) : (m.crc16 f).1 = Spec.crc16 f := by
  rw [Modbus.crc16, Spec.crc16, ← m.crc16Init_checksum]
  exact checksum_foldl m.crc16Init f

theorem crc16_checksum (m : Modbus) (f : List Byte) : (m.crc16 f).2.checksum = Spec.crc16 f :=
  crc16_fst m f

end Modbus

/-- Two more bytes cancel the CRC exactly if they are its low and high byte. -/
theorem crc16_append_two (p : List Byte) (a b : Byte) :
    crc16 (p ++ [a, b]) = 0 ↔ crc16 p = b ++ a := by
  have hm : message [a, b] = bits a ++ bits b := by simp [message]
  rw [crc16, message_append, feeds_append, hm, feeds_eq_iterate _ _ (by simp), ofBits_bits_append,
    ← crc16]
  constructor
  · intro h
    exact BitVec.xor_eq_zero_iff.mp (iterate_shift_eq_zero (by decide) h)
  · intro h
    rw [h, BitVec.xor_self]; exact iterate_shift_zero _ _

theorem crc16_singleton (a : Byte) : crc16 [a] ≠ 0 := by
  intro h
  have hm : message [a] = bits a := by simp [message]
  rw [crc16, hm, feeds_eq_iterate _ _ (by simp), ofBits_bits] at h
  have hzero := BitVec.xor_eq_zero_iff.mp (iterate_shift_eq_zero (by decide) h)
  -- the highest bit of the register is not reached
  have hmsb := congrArg BitVec.msb hzero
  rw [show (0xFFFF : BitVec 16).msb = true by decide, BitVec.msb_setWidth] at hmsb
  simp at hmsb

/-- The low and the high byte of a CRC. -/
def crcBytes (c : BitVec 16) : List Byte := [BitVec.ofNat 8 (c.toNat % 256), BitVec.ofNat 8 (c.toNat / 256)]

theorem crcBytes_append (a b : Byte) : crcBytes (b ++ a) = [a, b] := by
  have h : (b ++ a).toNat = b.toNat * 256 + a.toNat := by
    rw [BitVec.toNat_append, ← Nat.shiftLeft_add_eq_or_of_lt a.isLt, Nat.shiftLeft_eq]
  have ha := a.isLt
  rw [crcBytes, h, show (b.toNat * 256 + a.toNat) % 256 = a.toNat by omega,
    show (b.toNat * 256 + a.toNat) / 256 = b.toNat by omega]
  simp

/-- A payload and its CRC, low byte first. -/
def Framed (f : List Byte) : Prop :=
  2 ≤ f.length ∧ ∃ p, f = p ++ crcBytes (({} : Modbus).crc16 p).1

theorem crc16_eq_zero_iff (f : List Byte) : crc16 f = 0 ↔ Framed f := by
  constructor
  · intro h
    match hf : f.reverse with
    | [] =>
      obtain rfl : f = [] := by simpa using hf
      exact absurd h (by decide)
    | [a] =>
      obtain rfl : f = [a] := by simpa using congrArg List.reverse hf
      exact absurd h (crc16_singleton a)
    | b :: a :: q =>
      have hs : f = q.reverse ++ [a, b] := by simpa using congrArg List.reverse hf
      rw [hs, crc16_append_two] at h
      refine ⟨by simp [hs], q.reverse, ?_⟩
      rw [Modbus.crc16_fst, h, crcBytes_append, hs]
  · rintro ⟨-, p, rfl⟩
    rw [Modbus.crc16_fst]
    obtain ⟨b, a, hc⟩ : ∃ b a : Byte, crc16 p = b ++ a :=
      ⟨_, _, (Modbus.crc16_checksum {} p).symm.trans (Modbus.checksum_eq _)⟩
    rw [hc, crcBytes_append, crc16_append_two, hc]

namespace Modbus

theorem foldl_uart0SendByte_sent (m : Modbus) (f : List Byte) :
    (f.foldl uart0SendByte m).sent = m.sent ++ f := by
  induction f generalizing m with
  | nil => simp
  | cons b f ih => rw [List.foldl_cons, ih]; simp [uart0SendByte]

theorem sendIf_sent (c : BitVec 16) (m : Modbus) (f : List Byte) :
    (sendIf c m f).sent = if c = 0 then m.sent ++ f else m.sent := by
  unfold sendIf
  split
  · exact foldl_uart0SendByte_sent m f
  · rfl

theorem foldl_crcStep_rest (m : Modbus) (f : List Byte) : (f.foldl crcStep m).sent = m.sent ∧
    (f.foldl crcStep m).frames = m.frames ∧ (f.foldl crcStep m).recvFrameCb = m.recvFrameCb := by
  induction f generalizing m with
  | nil => exact ⟨rfl, rfl, rfl⟩
  | cons b f ih => exact ih (m.crcStep b)

@[simp] theorem crc16_snd_sent (m : Modbus) (f : List Byte) : (m.crc16 f).2.sent = m.sent :=
  (foldl_crcStep_rest m.crc16Init f).1

@[simp] theorem crc16_snd_frames (m : Modbus) (f : List Byte) : (m.crc16 f).2.frames = m.frames :=
  (foldl_crcStep_rest m.crc16Init f).2.1

@[simp] theorem crc16_snd_recvFrameCb (m : Modbus) (f : List Byte) :
    (m.crc16 f).2.recvFrameCb = m.recvFrameCb :=
  (foldl_crcStep_rest m.crc16Init f).2.2

theorem send_sent (m : Modbus) (f : List Byte) :
    (m.send (some f)).sent = if Spec.crc16 f = 0 then m.sent ++ f else m.sent := by
  simp only [send]
  rw [sendIf_sent, crc16_fst, crc16_snd_sent]

theorem receive_recvFrameCb (m : Modbus) (r : RxBuffer) :
    (m.receive (some r)).recvFrameCb = m.recvFrameCb := by
  simp only [receive]
  split_ifs <;> simp

theorem receive_frames (m : Modbus) (r : RxBuffer) : (m.receive (some r)).frames =
    if Spec.crc16 r.buffer = 0 ∧ m.recvFrameCb then m.frames ++ [r.buffer] else m.frames := by
  simp only [receive]
  rw [crc16_fst, crc16_snd_recvFrameCb]
  by_cases hc : Spec.crc16 r.buffer = 0
  · by_cases hb : m.recvFrameCb
    · simp [hc, hb]
    · simp [hc, hb]
  · rw [if_neg hc, if_neg fun h => hc h.1, crc16_snd_frames]

end Modbus

/-- Both directions let exactly the frames through whose last two bytes are the
CRC of the rest, low byte first. -/
theorem frame_accepted_iff (m : Modbus) (f : List Byte) :
    ((m.crc16 f).1 = 0 ↔ Framed f) ∧
    (Framed f → (m.send (some f)).sent = m.sent ++ f) ∧
    (¬ Framed f → (m.send (some f)).sent = m.sent) ∧
    ∀ r : RxBuffer, r.buffer = f → m.recvFrameCb →
      (Framed f → (m.receive (some r)).frames = m.frames ++ [f]) ∧
      (¬ Framed f → (m.receive (some r)).frames = m.frames) := by
  have hi := crc16_eq_zero_iff f
  refine ⟨by rw [Modbus.crc16_fst, hi], fun h => ?_, fun h => ?_, ?_⟩
  · rw [Modbus.send_sent, if_pos (hi.mpr h)]
  · rw [Modbus.send_sent, if_neg (mt hi.mp h)]
  · rintro r rfl hcb
    refine ⟨fun h => ?_, fun h => ?_⟩
    · rw [Modbus.receive_frames, if_pos ⟨hi.mpr h, hcb⟩]
    · rw [Modbus.receive_frames, if_neg fun hc => h (hi.mp hc.1)]

/-- A request to read ten registers. -/
def readRequest : List Byte := [0x01, 0x03, 0x00, 0x00, 0x00, 0x0A, 0xC5, 0xCD]

example : crc16 readRequest = 0 := by decide +kernel

end Nonos
