import NonosSdk.Proof.Modbus.Residue

/-!
# Errors on the bus

A frame of residue 0 with an error pattern xored in has the residue of the
pattern alone, from a register of 0 (`crc16_xor`). So whether an error is
noticed does not depend on the frame, and the three kinds the generator is made
for are: bursts of at most 16 bits, an odd number of bits, and two bits
(`corrupted_not_forwarded`). Two bits of a frame of at most 255 bytes are less
than a period apart (`crc16Poly_period`).
-/

namespace Nonos

open Spec

theorem bits_xor (a b : Byte) : bits (a ^^^ b) = List.zipWith xor (bits a) (bits b) := by
  simp only [bits, List.zipWith_map_left, List.zipWith_map_right, List.zipWith_self]
  exact List.map_congr_left fun i _ => BitVec.getLsbD_xor

theorem message_xor {f e : List Byte} (h : e.length = f.length) :
    message (List.zipWith (· ^^^ ·) f e) = List.zipWith xor (message f) (message e) := by
  induction f generalizing e with
  | nil => simp [message]
  | cons a f ih => cases e with
    | nil => simp at h
    | cons b e =>
      rw [List.zipWith_cons_cons, message_cons, message_cons, message_cons, ih (by simpa using h),
        bits_xor, List.zipWith_append (by simp)]

/-- What an error pattern does to a frame of residue 0 depends on the pattern only. -/
theorem crc16_xor {f e : List Byte} (h : e.length = f.length) (hf : crc16 f = 0) :
    crc16 (List.zipWith (· ^^^ ·) f e) = feeds crc16Poly 0#16 (message e) := by
  have hlen : (message f).length = (message e).length := by simp [h]
  have hx := feeds_xor crc16Poly hlen 0xFFFF 0#16
  rw [← message_xor h, BitVec.xor_zero, ← crc16, ← crc16, hf] at hx
  rw [hx]; exact BitVec.zero_xor

/-- No two of 2040 consecutive bits are a period apart. -/
theorem crc16Poly_period {d : Nat} (h0 : 0 < d) (hd : d < 2040) : (shift crc16Poly)^[d] 1#16 ≠ 1#16 :=
  avoidsOne_spec (show avoidsOne crc16Poly 2039 1#16 = true by decide +kernel) h0 (by omega)

/-- The set bits lie within 16 consecutive ones. -/
def Burst (e : List Byte) : Prop :=
  ∃ k, ∀ i, (message e)[i]? = some true → k ≤ i ∧ i < k + 16

/-- An error of one of the three kinds is noticed: the corrupted frame goes
neither to the bus nor to the callback. -/
theorem corrupted_not_forwarded (m : Modbus) {f e : List Byte} (h255 : f.length ≤ 255)
    (hf : (m.crc16 f).1 = 0) (hl : e.length = f.length) (he : true ∈ message e)
    (hk : Burst e ∨ (message e).count true % 2 = 1 ∨ (message e).count true = 2) :
    (m.crc16 (List.zipWith (· ^^^ ·) f e)).1 ≠ 0 ∧
    (m.send (some (List.zipWith (· ^^^ ·) f e))).sent = m.sent ∧
    ∀ r : RxBuffer, r.buffer = List.zipWith (· ^^^ ·) f e → (m.receive (some r)).frames = m.frames := by
  have hc : crc16 (List.zipWith (· ^^^ ·) f e) ≠ 0 := by
    rw [Modbus.crc16_fst] at hf
    rw [crc16_xor hl hf]
    rcases hk with ⟨k, hk⟩ | hk | hk
    · have hw := eq_window hk
      rw [hw]
      refine feeds_burst_ne_zero (by decide) (by simp) ?_ _ _
      -- the window holds the set bits
      rw [hw] at he
      simpa using he
    · exact feeds_odd_ne_zero (by decide) (by decide) hk
    · refine feeds_two_ne_zero (by decide) (by decide) (fun d h0 hd => crc16Poly_period h0 ?_) hk
      rw [length_message] at hd; omega
  refine ⟨by rw [Modbus.crc16_fst]; exact hc, by rw [Modbus.send_sent, if_neg hc], ?_⟩
  intro r hr
  rw [Modbus.receive_frames, hr, if_neg fun h => hc h.1]

/-- A read request whose register count lost two bits on the bus. -/
theorem corrupted_read_request :
    (({} : Modbus).crc16 (List.zipWith (· ^^^ ·) readRequest
      [0x00, 0x00, 0x00, 0x00, 0x00, 0x0A, 0x00, 0x00])).1 ≠ 0 :=
  (corrupted_not_forwarded {} (by decide) (by decide +kernel) (by decide) (by decide)
    (.inr (.inr (by decide)))).1

end Nonos
