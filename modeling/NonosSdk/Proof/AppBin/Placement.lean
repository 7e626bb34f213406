import NonosSdk.Proof.AppBin.Layout

/-!
# Where irom is placed

In boot mode 1 `gen_appbin` writes `0xFF` up to `0x10000`, irom and the CRC
after the image of the RAM sections (`genAppbin_flat`). Nothing tests that the
image is shorter than that: irom is at `0x10000` exactly if header and records
take at most 65534 bytes (`irom_placed_iff`), and follows the checksum otherwise.
-/

namespace Nonos

namespace AppBinArgs

variable (a : AppBinArgs)

/-- What `combine_bin` writes for a section of text, data or rodata. -/
def recordSize (data : List Byte) : Nat := if data = [] then 0 else 8 + roundUp 4 data.length

/-- The bytes before the zeros and the checksum in boot mode 1: the header and
the records. -/
def ramSize : Nat := 8 + recordSize a.text + recordSize a.data + recordSize a.rodata

theorem length_sectionRecord (addr : Nat) (data : List Byte) :
    ((sectionRecord 4 addr data).flatMap Record.encode).length = recordSize data := by
  unfold sectionRecord recordSize
  split_ifs with h
  · rfl
  · rw [List.flatMap_cons, List.flatMap_nil, List.append_nil, Record.length_encode,
      length_padTo (by decide)]

variable {a}

theorem length_body (h1 : a.bootMode = 1) (entry : Nat) : (a.body entry).length = a.ramSize := by
  have hlead : a.lead entry = [] := by rw [lead, if_neg (by omega)]
  rw [body, hlead, List.nil_append, List.length_append, length_header, sections, List.flatMap_append,
    List.flatMap_append, List.length_append, List.length_append, length_sectionRecord, length_sectionRecord,
    length_sectionRecord, ramSize]
  omega

/-- The image ends with a line. -/
theorem length_image (h1 : a.bootMode = 1) (entry : Nat) (file : List Byte) :
    (a.image entry file).length = ((file.length + a.ramSize + 1) / 16 + 1) * 16 := by
  have hb := length_body h1 entry
  simp only [image, List.length_append, List.length_replicate, List.length_singleton, hb]
  omega

/-- The text follows the header and the head of its record. -/
theorem body_text (h1 : a.bootMode = 1) (ht : a.text ≠ []) (entry : Nat) :
    ∃ pre rest, pre.length = 16 ∧ a.body entry = pre ++ (a.text ++ rest) := by
  have hlead : a.lead entry = [] := by rw [lead, if_neg (by omega)]
  refine ⟨header 0xE9 3 a.params.1 a.params.2 entry ++ (le32 (BitVec.ofNat 32 textAddress) ++
      le32 (BitVec.ofNat 32 (padTo 4 a.text).length)),
    List.replicate (roundUp 4 a.text.length - a.text.length) 0 ++ (sectionRecord 4 a.dataStartAddr a.data ++
      sectionRecord 4 a.rodataStartAddr a.rodata).flatMap Record.encode, ?_, ?_⟩
  · rw [List.length_append, List.length_append, length_header, length_le32, length_le32]
  · rw [body, hlead, List.nil_append, sections, List.append_assoc, List.flatMap_append, sectionRecord,
      if_neg ht, List.flatMap_cons, List.flatMap_nil]
    simp only [Record.encode, padTo, List.append_assoc, List.nil_append]

end AppBinArgs

@[simp] theorem length_crcTrailer (file : List Byte) : (crcTrailer file).length = 4 := rfl

/-- The output in boot mode 1, of any length. -/
theorem genAppbin_flat {a : AppBinArgs} {entry : Nat} (h : a.Fits entry) (h1 : a.bootMode = 1)
    (file : List Byte) : ∃ crc, crc.length = 4 ∧ genAppbin a file = some (a.image entry file ++
      (List.replicate (0x10000 - (a.image entry file).length) 0xFF ++ (a.irom0text ++ crc))) := by
  have hout := genAppbin_eq a h file
  rw [AppBinArgs.trailer, if_pos h1, List.append_assoc] at hout
  exact ⟨_, length_crcTrailer _, hout⟩

/-- In `out` the bytes of irom start at `0x10000`, what lies between the checksum and them
is `0xFF`, and the four bytes of the CRC follow. -/
def AppBinArgs.IromPlaced (a : AppBinArgs) (file out : List Byte) : Prop :=
  ∃ entry n crc, a.entryAddr = some entry ∧ (a.image entry file).length + n = 0x10000 ∧ crc.length = 4 ∧
    out = a.image entry file ++ (List.replicate n 0xFF ++ (a.irom0text ++ crc))

/-- As it is read off the file. -/
theorem AppBinArgs.IromPlaced.read {a : AppBinArgs} {file out : List Byte} (h : a.IromPlaced file out) :
    (out.drop 0x10000).take a.irom0text.length = a.irom0text ∧
      ∃ entry, a.entryAddr = some entry ∧
        ∀ i, (a.image entry file).length ≤ i → i < 0x10000 → out[i]? = some 0xFF := by
  obtain ⟨entry, n, crc, he, hn, -, rfl⟩ := h
  refine ⟨?_, entry, he, fun i h1 h2 => ?_⟩
  · rw [← List.append_assoc, List.drop_left' (by simp [hn]), List.take_left' rfl]
  · rw [List.getElem?_append_right h1, List.getElem?_append_left (by rw [List.length_replicate]; omega),
      List.getElem?_replicate, if_pos (by omega)]

/-- irom is placed at `0x10000` exactly if the header and the records, after what was in the
file before, take at most 65534 bytes. -/
theorem irom_placed_iff {a : AppBinArgs} (h1 : a.bootMode = 1) {file out : List Byte}
    (hout : genAppbin a file = some out) : a.IromPlaced file out ↔ file.length + a.ramSize ≤ 65534 := by
  -- the script completes, so there is an entry point and all numbers can be packed
  obtain ⟨entry, h⟩ : ∃ entry, a.Fits entry := by
    by_contra hn
    rw [genAppbin_none a (fun entry h => hn ⟨entry, h⟩)] at hout
    cases hout
  obtain ⟨crc, hcrc, hflat⟩ := genAppbin_flat h h1 file
  obtain rfl := Option.some.inj (hout.symm.trans hflat)
  have hsize := AppBinArgs.length_image h1 entry file
  constructor
  · rintro ⟨entry', n, crc', he, hn, hcrc', heq⟩
    have hsize' := AppBinArgs.length_image h1 entry' file
    have hlen := congrArg List.length heq
    simp only [List.length_append, List.length_replicate] at hlen
    omega
  · intro hfit
    exact ⟨entry, _, crc, h.entryAddr, Nat.add_sub_of_le (by omega), hcrc, rfl⟩

/-- 64 KiB of text: at `0x10000` there is still text. -/
theorem irom_displaced :
    let a : AppBinArgs := { bootMode := 1, entryAddr := some 0x40100004, text := List.replicate 0x10000 0,
                            data := [], rodata := [], irom0text := [1, 2, 3, 4] }
    ∃ out, genAppbin a [] = some out ∧ ¬ a.IromPlaced [] out ∧ out[0x10000]? = some 0 := by
  intro a
  have hfits : a.Fits 0x40100004 := by
    refine ⟨rfl, by decide, fun h => absurd h (by decide), ?_, fun h => absurd rfl h, fun h => absurd rfl h⟩
    show SectionFits 4 textAddress (List.replicate 0x10000 0)
    exact .of_lt (by decide) (by decide) (by rw [List.length_replicate]; decide)
  have hsize : a.ramSize = 65552 := by
    show 8 + AppBinArgs.recordSize (List.replicate 0x10000 0) + 0 + 0 = 65552
    rw [AppBinArgs.recordSize, if_neg (by rw [List.replicate_eq_nil_iff]; decide), List.length_replicate]
    decide
  refine ⟨_, genAppbin_eq a hfits [], ?_, ?_⟩
  · rintro ⟨entry, n, crc, -, hn, -⟩
    have hlen := AppBinArgs.length_image (a := a) rfl entry []
    rw [hsize, List.length_nil] at hlen
    omega
  · obtain ⟨pre, rest, hpre, hbody⟩ := AppBinArgs.body_text (a := a) rfl
      (by rw [ne_eq, List.replicate_eq_nil_iff]; decide) 0x40100004
    rw [AppBinArgs.image, hbody]
    simp only [List.append_assoc, List.nil_append]
    rw [List.getElem?_append_right (by omega),
      List.getElem?_append_left (by rw [hpre, List.length_replicate]; decide), List.getElem?_replicate,
      if_pos (by omega)]

/-- A small build. -/
theorem irom_placed_small :
    let a : AppBinArgs := { bootMode := 1, entryAddr := some 0x40100004, text := [1], data := [2], rodata := [3],
                            irom0text := [4, 5] }
    ∃ out, genAppbin a [] = some out ∧ a.IromPlaced [] out := by
  intro a
  have hfits : a.Fits 0x40100004 :=
    ⟨rfl, by decide, fun h => absurd h (by decide), by decide, by decide, by decide⟩
  have hout := genAppbin_eq a hfits []
  exact ⟨_, hout, (irom_placed_iff rfl hout).mpr (by decide)⟩

end Nonos
