import NonosSdk.Spec.Crc16

/-!
# CRC-32

The CRC of IEEE 802.3 bit by bit: a register of ones, the generator in reflected
form, the bits of each byte from the lowest, and the complement of what is left.
Messages that differ within 32 consecutive bits have different CRCs
(`crc32_window_ne`).
-/

namespace Nonos.Spec

/-- The generator. -/
def crc32Generator : BitVec 32 := 0xEDB88320

/-- The CRC of a message. -/
def crc32 (f : List Byte) : BitVec 32 := ~~~ feeds crc32Generator 0xFFFFFFFF (message f)

/-- Two messages of one length agree outside `n` consecutive bits. -/
def DifferWithin (n : Nat) (f g : List Byte) : Prop :=
  ∃ l r as bs, message f = l ++ (as ++ r) ∧ message g = l ++ (bs ++ r) ∧ as.length = bs.length ∧ as.length ≤ n

theorem crc32_window_ne {f g : List Byte} (hne : f ≠ g) (h : DifferWithin 32 f g) : crc32 f ≠ crc32 g := by
  obtain ⟨l, r, as, bs, hf, hg, hl, hw⟩ := h
  have hab : as ≠ bs := by
    rintro rfl
    exact hne (message_injective (hf.trans hg.symm))
  intro hc
  have hfeeds := congrArg (~~~ ·) hc
  simp only [crc32, BitVec.not_not] at hfeeds
  rw [hf, hg] at hfeeds
  exact feeds_window_ne (by decide) _ l r hl hw hab hfeeds

end Nonos.Spec
