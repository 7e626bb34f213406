import NonosSdk.Proof.AppBin.Layout
import NonosSdk.Spec.Image

/-!
# Loading an image

The loader gets through the leading part of an image (`load_image`) and then
reads as many records as the header says, three. `gen_appbin` writes that count
whatever it has written records for: it keeps the number in `blocks` and never
uses it. So an image is read back exactly if none of text, data and rodata is
empty (`image_decodes_iff`); otherwise the loader takes the zeros and the
checksum for a record.
-/

namespace Nonos

open Spec

theorem getHeader_header (magic count b₂ b₃ : Byte) (entry : Nat) (bs : List Byte) :
    getHeader magic (AppBinArgs.header magic count b₂ b₃ entry ++ bs) =
      some ((count, BitVec.ofNat 32 entry), bs) := by
  simp only [AppBinArgs.header, List.cons_append, List.nil_append, getHeader, if_true,
    getWord_le32, Option.map_some]

theorem getChecksum_fill {offset : Nat} (c : Byte) (bs : List Byte) :
    getChecksum offset (List.replicate (15 - offset % 16) 0 ++ c :: bs) = some (c, bs) := by
  simp only [getChecksum]
  rw [List.take_left' List.length_replicate, if_pos rfl, List.drop_left' List.length_replicate]

/-- The loader on the leading part of an image. -/
theorem load_image {a : AppBinArgs} {entry : Nat} (h : a.Fits entry) (bs : List Byte) :
    load a.bootMode (a.lead entry ++ (AppBinArgs.header 0xE9 3 a.params.1 a.params.2 entry ++ bs)) =
      loadApp ((a.lead entry).length + (8 + bs.length)) a.iromRecord.head?
        (AppBinArgs.header 0xE9 3 a.params.1 a.params.2 entry ++ bs) := by
  have hsize : (a.lead entry ++ (AppBinArgs.header 0xE9 3 a.params.1 a.params.2 entry ++ bs)).length =
      (a.lead entry).length + (8 + bs.length) := by
    rw [List.length_append, List.length_append, AppBinArgs.length_header]
  by_cases h2 : a.bootMode = 2
  · rw [load, if_pos h2, hsize]
    by_cases hi : a.irom0text = []
    · have hr : a.iromRecord = [] := by rw [AppBinArgs.iromRecord, if_pos h2, sectionRecord, if_pos hi]
      rw [AppBinArgs.lead, if_pos h2, hr, List.flatMap_nil, List.append_nil, getHeader_header,
        Option.bind_some, List.head?_nil]
      rfl
    · have hr := AppBinArgs.iromRecord_eq h2 hi
      have hlt := (h.irom_payload (hr ▸ List.mem_singleton_self _)).2
      rw [hr, AppBinArgs.lead_eq h2 hi, List.append_assoc, getHeader_header, Option.bind_some]
      dsimp only
      rw [if_neg (by simp [Record.encode, le32]), getRecord_encode hlt]
      rfl
  · have hl : a.lead entry = [] := by rw [AppBinArgs.lead, if_neg h2]
    have hr : a.iromRecord = [] := by rw [AppBinArgs.iromRecord, if_neg h2]
    rw [load, if_neg h2, hsize, hl, hr]
    rfl

/-- The image in the order in which it is read. -/
theorem image_append (a : AppBinArgs) (entry : Nat) (bs : List Byte) : a.image entry [] ++ bs =
    a.lead entry ++ (AppBinArgs.header 0xE9 3 a.params.1 a.params.2 entry ++
      (a.sections.flatMap Record.encode ++
        (List.replicate (16 - ((a.body entry).length + 1) % 16) 0 ++ xorSum checksumInit a.sections :: bs))) := by
  simp [AppBinArgs.image, AppBinArgs.body]

theorem length_sectionRecord (k addr : Nat) (data : List Byte) :
    (sectionRecord k addr data).length = if data = [] then 0 else 1 := by
  unfold sectionRecord
  split_ifs <;> rfl

theorem length_sections (a : AppBinArgs) :
    a.sections.length = 3 ↔ a.text ≠ [] ∧ a.data ≠ [] ∧ a.rodata ≠ [] := by
  simp only [AppBinArgs.sections, List.length_append, length_sectionRecord]
  split_ifs <;> simp_all

/-- The loader reads three records, whatever the image holds. -/
theorem loadApp_header (size : Nat) (irom : Option Record) (b₂ b₃ : Byte) (entry : Nat) (bs : List Byte) :
    loadApp size irom (AppBinArgs.header 0xE9 3 b₂ b₃ entry ++ bs) =
      (getRecords 3 bs).bind fun (sections, bs) => (getChecksum (size - bs.length) bs).map fun (chk, rest) =>
        ⟨BitVec.ofNat 32 entry, irom, sections, chk, rest⟩ := by
  rw [loadApp, getHeader_header]; rfl

theorem length_sections_of_load {a : AppBinArgs} {entry : Nat} (h : a.Fits entry) {bs : List Byte}
    {img : Image} (hl : load a.bootMode (a.image entry [] ++ bs) = some img) : img.sections.length = 3 := by
  rw [image_append, load_image h, loadApp_header] at hl
  obtain ⟨⟨rs, bs'⟩, hr, hl⟩ := Option.bind_eq_some_iff.mp hl
  obtain ⟨⟨c, rest⟩, -, rfl⟩ := Option.map_eq_some_iff.mp hl
  exact length_getRecords hr

/-- An image with three sections is read back. -/
theorem loadApp_image {a : AppBinArgs} {entry : Nat} (h : a.Fits entry) (hn : a.sections.length = 3)
    (bs : List Byte) : load a.bootMode (a.image entry [] ++ bs) =
      some ⟨BitVec.ofNat 32 entry, a.iromRecord.head?, a.sections, xorSum checksumInit a.sections, bs⟩ := by
  obtain ⟨k, hk⟩ := AppBinArgs.dvd_length_body h
  have hbody : (a.lead entry).length + (8 + (a.sections.flatMap Record.encode).length) =
      (a.body entry).length := by
    rw [AppBinArgs.body, List.length_append, List.length_append, AppBinArgs.length_header]
  have hrs := getRecords_encode (fun r hr => (h.sections_payload hr).2)
    (List.replicate (16 - ((a.body entry).length + 1) % 16) 0 ++ xorSum checksumInit a.sections :: bs)
  rw [hn] at hrs
  rw [image_append, load_image h, loadApp_header, hrs, Option.bind_some, List.length_append]
  generalize hrest : List.replicate (16 - ((a.body entry).length + 1) % 16) 0 ++
    xorSum checksumInit a.sections :: bs = rest
  have hoff : (a.lead entry).length + (8 + ((a.sections.flatMap Record.encode).length + rest.length)) -
      rest.length = (a.body entry).length := by omega
  dsimp only
  rw [hoff, ← hrest, show 16 - ((a.body entry).length + 1) % 16 = 15 - (a.body entry).length % 16 by omega,
    getChecksum_fill, Option.map_some]

/-- For every content of the sections, `gen_appbin` writes an image, and the
loader recovers the entry address and the sections from it exactly if none of
text, data and rodata is empty. -/
theorem image_decodes_iff (a : AppBinArgs) {entry : Nat} (he : a.entryAddr = some entry)
    (hentry : entry < 2 ^ 32) (hdata : a.dataStartAddr < 2 ^ 32) (hrodata : a.rodataStartAddr < 2 ^ 32)
    (hlen : ∀ s ∈ [a.text, a.data, a.rodata, a.irom0text], s.length < 2 ^ 32 - 16) :
    ∃ file, genAppbin a [] = some file ∧
      ((∃ img, load a.bootMode file = some img ∧ img.entry = BitVec.ofNat 32 entry ∧
          img.irom = a.iromRecord.head? ∧ img.sections = a.sections) ↔
        a.text ≠ [] ∧ a.data ≠ [] ∧ a.rodata ≠ []) := by
  have hf : a.Fits entry := ⟨he, hentry, fun _ => .of_lt (by decide) (by decide) (hlen _ (by simp)),
    .of_lt (by decide) (by decide) (hlen _ (by simp)), .of_lt hdata (by decide) (hlen _ (by simp)),
    .of_lt hrodata (by decide) (hlen _ (by simp))⟩
  refine ⟨_, genAppbin_eq a hf [], ?_⟩
  rw [← length_sections]
  constructor
  · rintro ⟨img, hl, -, -, hs⟩
    exact hs ▸ length_sections_of_load hf hl
  · exact fun hn => ⟨_, loadApp_image hf hn _, rfl, rfl, rfl⟩

/-- One byte for each section, in boot mode 2. -/
def smallSections : AppBinArgs where
  bootMode := 2
  entryAddr := some 0x40100004
  dataStartAddr := 0x3FFE8000
  rodataStartAddr := 0x3FFE8010
  text := [1]
  data := [2]
  rodata := [3]
  irom0text := [4]

theorem small_sections_decode : ∃ file, genAppbin smallSections [] = some file ∧
    ∃ img, load 2 file = some img ∧ img.sections = smallSections.sections := by
  obtain ⟨file, hg, hl⟩ := image_decodes_iff smallSections
    (show smallSections.entryAddr = some 0x40100004 from rfl) (by decide) (by decide) (by decide) (by decide)
  obtain ⟨img, hi, -, -, hs⟩ := hl.mpr (by decide)
  exact ⟨file, hg, img, hi, hs⟩

/-- Without rodata the loader does not find the two sections that are there. -/
theorem empty_rodata_not_decoded : ¬ ∀ (a : AppBinArgs) (entry : Nat), a.entryAddr = some entry →
    entry < 2 ^ 32 → a.dataStartAddr < 2 ^ 32 → a.rodataStartAddr < 2 ^ 32 →
    (∀ s ∈ [a.text, a.data, a.rodata, a.irom0text], s.length < 2 ^ 32 - 16) →
    ∃ file img, genAppbin a [] = some file ∧ load a.bootMode file = some img ∧
      img.entry = BitVec.ofNat 32 entry ∧ img.sections = a.sections := by
  intro h
  have hf : { smallSections with bootMode := 0, rodata := [] }.Fits 0x40100004 :=
    ⟨rfl, by decide, by decide, by decide, by decide, by decide⟩
  obtain ⟨file, img, hg, hl, -, hs⟩ := h { smallSections with bootMode := 0, rodata := [] } 0x40100004 rfl
    (by decide) (by decide) (by decide) (by decide)
  rw [genAppbin_eq _ hf, Option.some.injEq] at hg
  have hn := length_sections_of_load hf (hg ▸ hl)
  rw [hs] at hn
  exact absurd hn (by decide)

end Nonos
