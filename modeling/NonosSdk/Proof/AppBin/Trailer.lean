import Mathlib.Data.List.DropRight
import NonosSdk.Proof.AppBin.Layout
import NonosSdk.Spec.Crc32

/-!
# What the trailer detects

`getFileCRC` is the CRC-32 of the file, in blocks of any size (`getFileCRC_eq`). The
trailer does not store it as it is: a negative `crc` becomes `-crc - 1` and any other
`crc + 1`. So two CRCs give one trailer if they are the same or if they come to -2
(`crcTrailer_eq_iff`), and two images that differ within 32 bits, whose CRCs do differ,
have one trailer exactly in the second case (`trailers_differ_iff`).
-/

namespace Nonos

open Spec

/-- A block feeds its bits to the register. -/
theorem binasciiCrc32_eq (data : List Byte) (crc : Word) :
    binasciiCrc32 data crc = ~~~ feeds crc32Generator (~~~ crc) (message data) := by
  have hbyte (r : Word) (b : Byte) :
      (shift crc32Poly)^[8] (r ^^^ b.setWidth 32) = feeds crc32Generator r (bits b) := by
    rw [feeds_eq_iterate _ _ (by simp), length_bits, ofBits_bits]; rfl
  have hfold (r : Word) : data.foldl (fun r b => (shift crc32Poly)^[8] (r ^^^ b.setWidth 32)) r =
      feeds crc32Generator r (message data) := by
    induction data generalizing r with
    | nil => rfl
    | cons b data ih => rw [List.foldl_cons, ih, hbyte, message_cons, feeds_append]
  rw [binasciiCrc32, hfold]

theorem binasciiCrc32_append (f g : List Byte) (crc : Word) :
    binasciiCrc32 (f ++ g) crc = binasciiCrc32 g (binasciiCrc32 f crc) := by
  rw [binasciiCrc32_eq, binasciiCrc32_eq, binasciiCrc32_eq, message_append, feeds_append, BitVec.not_not]

/-- Enough blocks to cover the file. -/
theorem crcBlocks_eq {blocksize n : Nat} {str : List Byte} (hn : str.length ≤ n * blocksize) (crc : Word) :
    crcBlocks blocksize str crc n = binasciiCrc32 str crc := by
  induction n generalizing str crc with
  | zero =>
    obtain rfl : str = [] := List.length_eq_zero_iff.mp (by omega)
    simp [crcBlocks, binasciiCrc32]
  | succ n ih =>
    have hdrop : (str.drop blocksize).length ≤ n * blocksize := by
      rw [List.length_drop]
      rw [Nat.succ_mul] at hn
      omega
    rw [crcBlocks, ih hdrop, ← binasciiCrc32_append, List.take_append_drop]

/-- `getFileCRC` is the CRC-32 of the file, as a signed number. -/
theorem getFileCRC_eq (file : List Byte) : getFileCRC file = (crc32 file).toInt := by
  rw [getFileCRC, crcBlocks_eq (by omega), binasciiCrc32_eq]
  rfl

/-- The number in the trailer. -/
def storedCrc (crc : Int) : Nat := if crc < 0 then crc.natAbs - 1 else crc.natAbs + 1

theorem storedCrc_lt {c : Word} : storedCrc c.toInt < 2 ^ 32 := by
  have h1 := c.toInt_lt
  have h2 := c.le_toInt
  unfold storedCrc
  split <;> omega

theorem storedCrc_eq_iff (c d : Int) : storedCrc c = storedCrc d ↔ c = d ∨ c + d = -2 := by
  unfold storedCrc
  split <;> split <;> omega

/-- The trailer is the number in four bytes, lowest first. -/
theorem crcTrailer_eq (file : List Byte) :
    crcTrailer file = le32 (BitVec.ofNat 32 (storedCrc (crc32 file).toInt)) := by
  have hbyte (n k : Nat) (hk : k + 8 ≤ 32) :
      BitVec.ofNat 8 ((n &&& (0xFF <<< k)) >>> k) = (BitVec.ofNat 32 n).extractLsb' k 8 := by
    apply BitVec.eq_of_getLsbD_eq
    intro i hi
    simp only [BitVec.getLsbD_ofNat, BitVec.getLsbD_extractLsb', Nat.testBit_shiftRight, Nat.testBit_and,
      Nat.testBit_shiftLeft, show (0xFF : Nat) = 2 ^ 8 - 1 by rfl, Nat.testBit_two_pow_sub_one]
    simp [hi, show k + i < 32 by omega]
  rw [crcTrailer, getFileCRC_eq]
  simp only [le32, ← hbyte _ _ (show 0 + 8 ≤ 32 by decide), ← hbyte _ _ (show 8 + 8 ≤ 32 by decide),
    ← hbyte _ _ (show 16 + 8 ≤ 32 by decide), ← hbyte _ _ (show 24 + 8 ≤ 32 by decide)]
  rfl

/-- Two files have one trailer if their CRCs are the same or come to -2. -/
theorem crcTrailer_eq_iff (f g : List Byte) : crcTrailer f = crcTrailer g ↔
    crc32 f = crc32 g ∨ (crc32 f).toInt + (crc32 g).toInt = -2 := by
  rw [crcTrailer_eq, crcTrailer_eq, ← BitVec.toInt_inj, ← storedCrc_eq_iff]
  constructor
  · intro h
    have hn := congrArg BitVec.toNat (le32_injective h)
    rwa [BitVec.toNat_ofNat, BitVec.toNat_ofNat, Nat.mod_eq_of_lt storedCrc_lt,
      Nat.mod_eq_of_lt storedCrc_lt] at hn
  · intro h
    rw [h]

theorem rdrop_rtake_crcTrailer (image : List Byte) : (image ++ crcTrailer image).rdrop 4 = image ∧
    (image ++ crcTrailer image).rtake 4 = crcTrailer image := by
  have hlen : (image ++ crcTrailer image).length - 4 = image.length := by
    rw [List.length_append, crcTrailer_eq, length_le32, Nat.add_sub_cancel]
  rw [List.rdrop, List.rtake, hlen]
  exact ⟨List.take_left' rfl, List.drop_left' rfl⟩

/-- In boot modes 1 and 2 the output ends with the trailer of what is before. -/
theorem genAppbin_trailer {a : AppBinArgs} (hmode : a.bootMode = 1 ∨ a.bootMode = 2) {file out : List Byte}
    (hout : genAppbin a file = some out) : out.rtake 4 = crcTrailer (out.rdrop 4) := by
  suffices h : ∃ image, out = image ++ crcTrailer image by
    obtain ⟨image, rfl⟩ := h
    rw [(rdrop_rtake_crcTrailer image).1, (rdrop_rtake_crcTrailer image).2]
  obtain ⟨entry, h⟩ : ∃ entry, a.Fits entry := by
    by_contra hn
    rw [genAppbin_none a (fun entry h => hn ⟨entry, h⟩)] at hout
    cases hout
  rw [genAppbin_eq a h, AppBinArgs.trailer] at hout
  rcases hmode with h1 | h2
  · rw [if_pos h1, ← List.append_assoc] at hout
    exact ⟨_, (Option.some.inj hout).symm⟩
  · rw [if_neg (by omega), if_pos h2] at hout
    exact ⟨_, (Option.some.inj hout).symm⟩

/-- The trailers of two different images that agree outside 32 consecutive bits differ
exactly if the CRCs of the images do not come to -2. -/
theorem trailers_differ_iff {a b : AppBinArgs} (ha : a.bootMode = 1 ∨ a.bootMode = 2)
    (hb : b.bootMode = 1 ∨ b.bootMode = 2) {file file' out out' : List Byte}
    (hout : genAppbin a file = some out) (hout' : genAppbin b file' = some out')
    (hne : out.rdrop 4 ≠ out'.rdrop 4) (hw : DifferWithin 32 (out.rdrop 4) (out'.rdrop 4)) :
    out.rtake 4 ≠ out'.rtake 4 ↔ (crc32 (out.rdrop 4)).toInt + (crc32 (out'.rdrop 4)).toInt ≠ -2 := by
  have hcrc := crc32_window_ne hne hw
  rw [genAppbin_trailer ha hout, genAppbin_trailer hb hout', ne_eq, ne_eq, crcTrailer_eq_iff]
  simp [hcrc]

/-! ## Two images with one trailer -/

/-- A small build for boot mode 2, with this irom. -/
def smallUpgrade (irom0text : List Byte) : AppBinArgs where
  bootMode := 2
  entryAddr := some 0x40100004
  dataStartAddr := 0x3FFE8000
  rodataStartAddr := 0x3FFE8010
  text := [1]
  data := [2]
  rodata := [3]
  irom0text

theorem smallUpgrade_fits {irom0text : List Byte} (h : irom0text.length = 16) :
    (smallUpgrade irom0text).Fits 0x40100004 := by
  refine ⟨rfl, by decide, fun _ => ?_, ?_, ?_, ?_⟩
  · exact .of_lt (by decide) (by decide) (by rw [smallUpgrade, h]; decide)
  · exact .of_lt (by decide) (by decide) (show ([1] : List Byte).length < 2 ^ 32 - 16 by decide)
  · exact .of_lt (show 0x3FFE8000 < 2 ^ 32 by decide) (by decide) (show ([2] : List Byte).length < 2 ^ 32 - 16 by decide)
  · exact .of_lt (show 0x3FFE8010 < 2 ^ 32 by decide) (by decide) (show ([3] : List Byte).length < 2 ^ 32 - 16 by decide)

/-- Its image, in lines of 16 bytes. -/
def smallLines (irom0text : List Byte) : List Byte :=
  [234, 4, 0, 0, 4, 0, 16, 64, 0, 0, 0, 0, 16, 0, 0, 0] ++ (irom0text ++
    ([233, 3, 0, 0, 4, 0, 16, 64, 0, 0, 16, 64, 4, 0, 0, 0] ++
      ([1, 0, 0, 0, 0, 128, 254, 63, 4, 0, 0, 0, 2, 0, 0, 0] ++
        [16, 128, 254, 63, 4, 0, 0, 0, 3, 0, 0, 0, 0, 0, 0, 239])))

/-- The CRC of the image, line by line. -/
theorem crc32_smallLines {irom0text : List Byte} (c₁ c₂ c₃ : Word) {c₄ : Word}
    (h1 : binasciiCrc32 irom0text 0x5DEB1A66 = c₁)
    (h2 : binasciiCrc32 [233, 3, 0, 0, 4, 0, 16, 64, 0, 0, 16, 64, 4, 0, 0, 0] c₁ = c₂)
    (h3 : binasciiCrc32 [1, 0, 0, 0, 0, 128, 254, 63, 4, 0, 0, 0, 2, 0, 0, 0] c₂ = c₃)
    (h4 : binasciiCrc32 [16, 128, 254, 63, 4, 0, 0, 0, 3, 0, 0, 0, 0, 0, 0, 239] c₃ = c₄) :
    crc32 (smallLines irom0text) = c₄ := by
  have hcrc : crc32 (smallLines irom0text) = binasciiCrc32 (smallLines irom0text) 0 := by
    rw [binasciiCrc32_eq]; rfl
  have h0 : binasciiCrc32 [234, 4, 0, 0, 4, 0, 16, 64, 0, 0, 0, 0, 16, 0, 0, 0] 0 = 0x5DEB1A66 := by
    decide +kernel
  rw [hcrc, smallLines, binasciiCrc32_append, h0, binasciiCrc32_append, h1, binasciiCrc32_append, h2,
    binasciiCrc32_append, h3, h4]

/-- Small builds whose irom differs in the first four bytes. -/
theorem smallLines_differ (as bs : List Byte) (hl : as.length = bs.length) (h4 : as.length ≤ 4) (rest : List Byte) :
    DifferWithin 32 (smallLines (as ++ rest)) (smallLines (bs ++ rest)) := by
  refine ⟨message [234, 4, 0, 0, 4, 0, 16, 64, 0, 0, 0, 0, 16, 0, 0, 0], message (rest ++
    ([233, 3, 0, 0, 4, 0, 16, 64, 0, 0, 16, 64, 4, 0, 0, 0] ++
      ([1, 0, 0, 0, 0, 128, 254, 63, 4, 0, 0, 0, 2, 0, 0, 0] ++
        [16, 128, 254, 63, 4, 0, 0, 0, 3, 0, 0, 0, 0, 0, 0, 239]))), message as, message bs, ?_, ?_, ?_, ?_⟩
  · rw [← message_append, ← message_append, smallLines, List.append_assoc]
  · rw [← message_append, ← message_append, smallLines, List.append_assoc]
  · rw [length_message, length_message, hl]
  · rw [length_message]; omega

theorem smallUpgrade_out (irom0text : List Byte) (h : irom0text.length = 16)
    (himage : (smallUpgrade irom0text).image 0x40100004 [] = smallLines irom0text) :
    ∃ out, genAppbin (smallUpgrade irom0text) [] = some out ∧ out.rdrop 4 = smallLines irom0text ∧
      out.rtake 4 = crcTrailer (smallLines irom0text) := by
  have hout := genAppbin_eq _ (smallUpgrade_fits h) []
  have hmode : (smallUpgrade irom0text).bootMode = 2 := rfl
  rw [AppBinArgs.trailer, if_neg (by omega), if_pos hmode, himage] at hout
  exact ⟨_, hout, rdrop_rtake_crcTrailer _⟩

/-- CRCs of 0xBFDDE9AB and 0x40221653: two images that differ in the first four bytes of
irom and have one trailer. -/
theorem trailers_collide :
    ∃ out out', genAppbin (smallUpgrade ([16, 32, 48, 64] ++ List.replicate 12 0)) [] = some out ∧
      genAppbin (smallUpgrade ([208, 41, 15, 175] ++ List.replicate 12 0)) [] = some out' ∧
      out.rdrop 4 ≠ out'.rdrop 4 ∧ DifferWithin 32 (out.rdrop 4) (out'.rdrop 4) ∧ out.rtake 4 = out'.rtake 4 := by
  obtain ⟨out, hout, hd, ht⟩ := smallUpgrade_out ([16, 32, 48, 64] ++ List.replicate 12 0) rfl
    (by decide +kernel)
  obtain ⟨out', hout', hd', ht'⟩ := smallUpgrade_out ([208, 41, 15, 175] ++ List.replicate 12 0) rfl
    (by decide +kernel)
  have hcrc : crc32 (smallLines ([16, 32, 48, 64] ++ List.replicate 12 0)) = 0xBFDDE9AB :=
    crc32_smallLines 0xD38F9459 0x3F0AD205 0x0483008C (by decide +kernel)
      (by decide +kernel) (by decide +kernel) (by decide +kernel)
  have hcrc' : crc32 (smallLines ([208, 41, 15, 175] ++ List.replicate 12 0)) = 0x40221653 :=
    crc32_smallLines 0xA3D54206 0xD495D0A2 0xE03BF873 (by decide +kernel)
      (by decide +kernel) (by decide +kernel) (by decide +kernel)
  refine ⟨out, out', hout, hout', ?_, ?_, ?_⟩
  · rw [hd, hd']; decide
  · rw [hd, hd']
    exact smallLines_differ [16, 32, 48, 64] [208, 41, 15, 175] rfl (by decide) _
  · rw [ht, ht', crcTrailer_eq_iff, hcrc, hcrc']
    decide

/-- Two that differ in one byte of irom and have different trailers. -/
theorem trailers_differ_small :
    ∃ out out', genAppbin (smallUpgrade ([16] ++ List.replicate 15 0)) [] = some out ∧
      genAppbin (smallUpgrade ([17] ++ List.replicate 15 0)) [] = some out' ∧ out.rtake 4 ≠ out'.rtake 4 := by
  obtain ⟨out, hout, hd, -⟩ := smallUpgrade_out ([16] ++ List.replicate 15 0) rfl (by decide +kernel)
  obtain ⟨out', hout', hd', -⟩ := smallUpgrade_out ([17] ++ List.replicate 15 0) rfl (by decide +kernel)
  have hcrc : crc32 (smallLines ([16] ++ List.replicate 15 0)) = 0x151CD9A6 :=
    crc32_smallLines 0x4D117FD8 0xDF03B4B5 0xC96D3983 (by decide +kernel)
      (by decide +kernel) (by decide +kernel) (by decide +kernel)
  have hcrc' : crc32 (smallLines ([17] ++ List.replicate 15 0)) = 0x9A29F433 :=
    crc32_smallLines 0xE379EE49 0x2ED9B11F 0xF4DCD55F (by decide +kernel)
      (by decide +kernel) (by decide +kernel) (by decide +kernel)
  refine ⟨out, out', hout, hout', (trailers_differ_iff (.inr rfl) (.inr rfl) hout hout' ?_ ?_).mpr ?_⟩
  · rw [hd, hd']; decide
  · rw [hd, hd']
    exact smallLines_differ [16] [17] rfl (by decide) _
  · rw [hd, hd', hcrc, hcrc']
    decide

end Nonos
