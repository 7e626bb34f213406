import NonosSdk.Proof.Modbus.Residue

/-!
# One CRC register for two contexts

A `modbus_receive` from the interrupt leaves the CRC of what it received in the
variables of a `modbus_crc16` that was under way (`receive_checksum`), so after
the last interruption the loop goes on from there. Feeding is one-to-one: unless
the received bytes happen to have the CRC that the loop had reached, the two
residues differ, and they decide alike only when neither is zero
(`send_interrupted_iff`).
-/

namespace Nonos

open Spec

namespace Modbus

theorem receive_checksum (m : Modbus) (r : RxBuffer) :
    (m.receive (some r)).checksum = Spec.crc16 r.buffer := by
  have h : (m.receive (some r)).checksum = (m.crc16 r.buffer).2.checksum := by
    simp only [receive]
    split_ifs <;> rfl
  rw [h, crc16_checksum]

theorem receive_sent (m : Modbus) (r : RxBuffer) : (m.receive (some r)).sent = m.sent := by
  simp only [receive]
  split_ifs <;> simp

/-- An iteration of the loop, and the interrupts after it. -/
def iteration (m : Modbus) (x : Byte × List RxBuffer) : Modbus :=
  x.2.foldl (fun m r => m.receive (some r)) (m.crcStep x.1)

theorem sendInterrupted_eq (m : Modbus) (pbuf : List (Byte × List RxBuffer)) :
    m.sendInterrupted pbuf =
      sendIf (pbuf.foldl iteration m.crc16Init).checksum (pbuf.foldl iteration m.crc16Init)
        (pbuf.map Prod.fst) := rfl

theorem iteration_sent (m : Modbus) (x : Byte × List RxBuffer) : (m.iteration x).sent = m.sent := by
  have h : ∀ (rs : List RxBuffer) (m : Modbus),
      (rs.foldl (fun m r => m.receive (some r)) m).sent = m.sent := by
    intro rs
    induction rs with
    | nil => exact fun _ => rfl
    | cons r rs ih => exact fun m => (ih _).trans (receive_sent m r)
  exact h x.2 _

theorem foldl_iteration_sent (m : Modbus) (pbuf : List (Byte × List RxBuffer)) :
    (pbuf.foldl iteration m).sent = m.sent := by
  induction pbuf generalizing m with
  | nil => rfl
  | cons x pbuf ih => rw [List.foldl_cons, ih, iteration_sent]

/-- Without interrupts the loop feeds its bytes. -/
theorem foldl_iteration_quiet (m : Modbus) {pbuf : List (Byte × List RxBuffer)}
    (h : ∀ x ∈ pbuf, x.2 = []) :
    (pbuf.foldl iteration m).checksum = feeds crc16Poly m.checksum (message (pbuf.map Prod.fst)) := by
  induction pbuf generalizing m with
  | nil => rfl
  | cons x pbuf ih =>
    have hx : m.iteration x = m.crcStep x.1 := by rw [iteration, h x (by simp)]; rfl
    rw [List.foldl_cons, hx, ih _ fun y hy => h y (by simp [hy]), List.map_cons, message_cons,
      feeds_append, checksum_crcStep]

/-- After the last interrupt it goes on from the CRC of what was received. -/
theorem foldl_iteration_last (m : Modbus) (pre : List (Byte × List RxBuffer)) (b : Byte)
    (rs : List RxBuffer) (r : RxBuffer) {post : List (Byte × List RxBuffer)} (h : ∀ x ∈ post, x.2 = []) :
    ((pre ++ (b, rs ++ [r]) :: post).foldl iteration m).checksum =
      Spec.crc16 (r.buffer ++ post.map Prod.fst) := by
  rw [List.foldl_append, List.foldl_cons, foldl_iteration_quiet _ h, Spec.crc16, message_append,
    feeds_append, ← Spec.crc16, iteration, List.foldl_append]
  simp only [List.foldl_cons, List.foldl_nil, receive_checksum]

end Modbus

/-- Either nothing interrupts, or something does for the last time. -/
theorem quiet_or_last {α β : Type} (l : List (α × List β)) : (∀ x ∈ l, x.2 = []) ∨
    ∃ pre a rs r post, l = pre ++ (a, rs ++ [r]) :: post ∧ ∀ x ∈ post, x.2 = [] := by
  induction l with
  | nil => exact .inl fun x hx => by simp at hx
  | cons y l ih =>
    rcases ih with hq | ⟨pre, a, rs, r, post, rfl, hq⟩
    · rcases List.eq_nil_or_concat y.2 with hy | ⟨rs, r, hy⟩
      · exact .inl fun x hx => by
          rcases List.mem_cons.mp hx with rfl | hx
          · exact hy
          · exact hq x hx
      · rw [List.concat_eq_append] at hy
        exact .inr ⟨[], y.1, rs, r, l, by rw [List.nil_append, ← hy], hq⟩
    · exact .inr ⟨y :: pre, a, rs, r, post, rfl, hq⟩

/-- No interrupt, or the last one received bytes with the CRC that the loop had
reached, or no residue is zero: neither of the buffer nor of the received bytes
followed by the rest of the buffer. -/
def Undisturbed (m : Modbus) (pbuf : List (Byte × List RxBuffer)) : Prop :=
  ∀ pre b rs r post, pbuf = pre ++ (b, rs ++ [r]) :: post → (∀ x ∈ post, x.2 = []) →
    (m.crc16 r.buffer).1 = (m.crc16 (pre.map Prod.fst ++ [b])).1 ∨
    (m.crc16 (pbuf.map Prod.fst)).1 ≠ 0 ∧ (m.crc16 (r.buffer ++ post.map Prod.fst)).1 ≠ 0

/-- Two residues of messages with a common end are both zero or both not
exactly if the beginnings have one CRC or both are not zero. -/
theorem residues_agree_iff (f g post : List Byte) :
    (crc16 (f ++ post) = 0 ↔ crc16 (g ++ post) = 0) ↔
      crc16 f = crc16 g ∨ crc16 (g ++ post) ≠ 0 ∧ crc16 (f ++ post) ≠ 0 := by
  have hf : crc16 (f ++ post) = feeds crc16Poly (crc16 f) (message post) := by
    rw [crc16, message_append, feeds_append, ← crc16]
  have hg : crc16 (g ++ post) = feeds crc16Poly (crc16 g) (message post) := by
    rw [crc16, message_append, feeds_append, ← crc16]
  constructor
  · intro h
    by_cases h0 : crc16 (g ++ post) = 0
    · have he : crc16 (f ++ post) = crc16 (g ++ post) := (h.mpr h0).trans h0.symm
      rw [hf, hg] at he
      exact .inl (feeds_injective (by decide) _ he)
    · exact .inr ⟨h0, mt h.mp h0⟩
  · rintro (h | ⟨h1, h2⟩)
    · rw [hf, hg, h]
    · exact ⟨fun h => absurd h h2, fun h => absurd h h1⟩

theorem sent_agree_iff {P Q : Prop} [Decidable P] [Decidable Q] (s : List Byte) {f : List Byte}
    (hf : f ≠ []) : ((if P then s ++ f else s) = if Q then s ++ f else s) ↔ (P ↔ Q) := by
  by_cases hp : P <;> by_cases hq : Q <;> simp [hp, hq, hf]

/-- `modbus_send` transmits the buffer exactly if its own residue is zero,
exactly if it is undisturbed. -/
theorem send_interrupted_iff (m : Modbus) (pbuf : List (Byte × List RxBuffer)) :
    (m.sendInterrupted pbuf).sent =
        (if (m.crc16 (pbuf.map Prod.fst)).1 = 0 then m.sent ++ pbuf.map Prod.fst else m.sent) ↔
      Undisturbed m pbuf := by
  have hsent : (m.sendInterrupted pbuf).sent =
      if (pbuf.foldl Modbus.iteration m.crc16Init).checksum = 0 then m.sent ++ pbuf.map Prod.fst
      else m.sent := by
    rw [Modbus.sendInterrupted_eq, Modbus.sendIf_sent, Modbus.foldl_iteration_sent]; rfl
  simp only [Undisturbed, Modbus.crc16_fst]
  rw [hsent]
  have hmap : ∀ (pre : List (Byte × List RxBuffer)) b rs post,
      (pre ++ (b, rs) :: post).map Prod.fst = (pre.map Prod.fst ++ [b]) ++ post.map Prod.fst := by
    simp
  constructor
  · rintro h pre b rs r post rfl hq
    rw [Modbus.foldl_iteration_last _ pre b rs r hq, sent_agree_iff _ (by simp), hmap,
      residues_agree_iff] at h
    rw [hmap]; exact h
  · intro h
    rcases quiet_or_last pbuf with hq | ⟨pre, b, rs, r, post, rfl, hq⟩
    · rw [Modbus.foldl_iteration_quiet _ hq, Modbus.crc16Init_checksum, ← crc16]
    · rw [Modbus.foldl_iteration_last _ pre b rs r hq, sent_agree_iff _ (by simp), hmap,
        residues_agree_iff, ← hmap pre b (rs ++ [r]) post]
      exact h pre b rs r post rfl hq

/-- A frame received after the first byte makes a correct request disappear. -/
theorem send_interrupted_drops : ¬ ∀ (m : Modbus) (pbuf : List (Byte × List RxBuffer)),
    (m.sendInterrupted pbuf).sent =
      if (m.crc16 (pbuf.map Prod.fst)).1 = 0 then m.sent ++ pbuf.map Prod.fst else m.sent := by
  intro h
  have hs := h {} ((0x01, [⟨readRequest, by decide⟩]) :: readRequest.tail.map fun b => (b, []))
  revert hs
  decide +kernel

end Nonos
