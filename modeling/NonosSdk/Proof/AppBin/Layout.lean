import NonosSdk.Impl.AppBin

/-!
# What `gen_appbin` writes

A section that is not empty is written as one record, padded with zeros
(`combineBin_eq`), and the image is the headers, the records, zeros up to the
end of the line, the checksum and a trailer (`genAppbin_eq`). The checksum is
0xEF xored with the bytes of the records of text, data and rodata.
-/

namespace Nonos

/-- `n` rounded up to a multiple of `k`. -/
def roundUp (k n : Nat) : Nat := (n + (k - 1)) / k * k

theorem andNot_three (n : Nat) : andNot (n + 3) 3 = roundUp 4 n := by
  have h : (n + 3) &&& 3 = (n + 3) % 4 := Nat.and_two_pow_sub_one_eq_mod (n + 3) 2
  rw [andNot, h, roundUp]
  omega

theorem andNot_fifteen (n : Nat) : andNot (n + 15) 15 = roundUp 16 n := by
  have h : (n + 15) &&& 15 = (n + 15) % 16 := Nat.and_two_pow_sub_one_eq_mod (n + 15) 4
  rw [andNot, h, roundUp]
  omega

theorem le_roundUp {k : Nat} (hk : 0 < k) (n : Nat) : n ≤ roundUp k n := by
  have h := Nat.div_add_mod (n + (k - 1)) k
  have hm := Nat.mod_lt (n + (k - 1)) hk
  rw [roundUp, Nat.mul_comm]
  omega

theorem roundUp_le (k n : Nat) : roundUp k n ≤ n + (k - 1) := Nat.div_mul_le_self _ _

/-- A section filled up with zeros. -/
def padTo (k : Nat) (data : List Byte) : List Byte :=
  data ++ List.replicate (roundUp k data.length - data.length) 0

theorem length_padTo {k : Nat} (hk : 0 < k) (data : List Byte) :
    (padTo k data).length = roundUp k data.length := by
  have := le_roundUp hk data.length
  rw [padTo, List.length_append, List.length_replicate]
  omega

theorem dvd_length_padTo {k : Nat} (hk : 0 < k) (data : List Byte) : k ∣ (padTo k data).length := by
  rw [length_padTo hk]
  exact Nat.dvd_mul_left _ _

/-- The record of a section, if it is not empty. -/
def sectionRecord (k addr : Nat) (data : List Byte) : List Record :=
  if data = [] then [] else [⟨BitVec.ofNat 32 addr, padTo k data⟩]

/-- The address and the padded length of a section have 32 bits. -/
def SectionFits (k addr : Nat) (data : List Byte) : Prop :=
  data ≠ [] → addr < 2 ^ 32 ∧ roundUp k data.length < 2 ^ 32

instance (k addr : Nat) (data : List Byte) : Decidable (SectionFits k addr data) :=
  inferInstanceAs (Decidable (_ → _))

theorem SectionFits.of_lt {k addr : Nat} {data : List Byte} (ha : addr < 2 ^ 32) (hk : k ≤ 16)
    (hl : data.length < 2 ^ 32 - 16) : SectionFits k addr data := by
  have := roundUp_le k data.length
  exact fun _ => ⟨ha, by omega⟩

/-- `0xEF` with the bytes of the payloads xored in. -/
def xorSum (c : Byte) (rs : List Record) : Byte := (rs.flatMap Record.payload).foldl (· ^^^ ·) c

namespace AppBin

/-- What is padded to: 4 for the sections in the checksum, 16 for irom. -/
def align (needChk : Bool) : Nat := if needChk then 4 else 16

theorem align_pos (needChk : Bool) : 0 < align needChk := by cases needChk <;> decide

/-- The effect of a section on the script's state. -/
def add (s : AppBin) (needChk : Bool) (rs : List Record) : AppBin where
  file := s.file ++ rs.flatMap Record.encode
  chkSum := if needChk then xorSum s.chkSum rs else s.chkSum
  blocks := s.blocks + rs.length

/-- No padding is padding of no bytes. -/
theorem writePad_eq (s : AppBin) (needChk : Bool) (n : Nat) :
    (if n ≠ 0 then (s.writeFile (List.replicate n 0)).sum needChk (List.replicate n 0) else s) =
      (s.writeFile (List.replicate n 0)).sum needChk (List.replicate n 0) := by
  split_ifs with h
  · rfl
  · obtain rfl : n = 0 := by simpa using h
    cases needChk <;> simp [sum, writeFile]

/-- The writes of `combine_bin` for a section that is not empty. -/
theorem writes_eq (s : AppBin) {data : List Byte} (addr : Nat) (needChk : Bool) (h : data ≠ []) :
    let s₁ := s.writeFile (le32 (BitVec.ofNat 32 addr) ++
      le32 (BitVec.ofNat 32 (roundUp (align needChk) data.length)))
    let s₂ := (s₁.writeFile data).sum needChk data
    let pad := List.replicate (roundUp (align needChk) data.length - data.length) 0
    let s₃ := (s₂.writeFile pad).sum needChk pad
    { s₃ with blocks := s₃.blocks + 1 } = s.add needChk (sectionRecord (align needChk) addr data) := by
  have hlen := length_padTo (align_pos needChk) data
  simp only [sectionRecord, if_neg h, add, List.flatMap_cons, List.flatMap_nil, List.append_nil, xorSum,
    Record.encode, hlen, List.length_singleton]
  cases needChk <;> simp [writeFile, sum, padTo, List.append_assoc]

theorem combineBin_eq (s : AppBin) (data : List Byte) (addr : Nat) (needChk : Bool) :
    s.combineBin data addr needChk =
      if SectionFits (align needChk) addr data then
        some (s.add needChk (sectionRecord (align needChk) addr data)) else none := by
  by_cases h : data = []
  · subst h
    have hf : SectionFits (align needChk) addr [] := fun h => absurd rfl h
    rw [if_pos hf]
    cases needChk <;> simp [combineBin, add, sectionRecord, xorSum]
  have hlen : data.length ≠ 0 := by simpa using h
  have htmp : (if needChk then andNot (data.length + 3) 3 else andNot (data.length + 15) 15) =
      roundUp (align needChk) data.length := by
    cases needChk
    · exact andNot_fifteen _
    · exact andNot_three _
  have hfits : SectionFits (align needChk) addr data ↔
      addr < 2 ^ 32 ∧ roundUp (align needChk) data.length < 2 ^ 32 := ⟨fun hf => hf h, fun hf _ => hf⟩
  simp only [combineBin, if_pos hlen, htmp, packI, hfits]
  by_cases hf : addr < 2 ^ 32 ∧ roundUp (align needChk) data.length < 2 ^ 32
  · rw [if_pos hf.1, if_pos hf.2, if_pos hf, ← writes_eq s addr needChk h]
    simp only [Option.bind_eq_bind, Option.bind_some, writePad_eq]
  · rw [if_neg hf]
    by_cases ha : addr < 2 ^ 32
    · rw [if_pos ha, if_neg fun hl => hf ⟨ha, hl⟩]
      rfl
    · rw [if_neg ha]
      rfl

/-- The line of the checksum. -/
theorem writeChecksum_eq (s : AppBin) : s.writeChecksum.file = s.file ++
    List.replicate (16 - (s.file.length + 1) % 16) 0 ++ [s.chkSum] := by
  have hm : 0xf &&& (s.file.length + 1) = (s.file.length + 1) % 16 := by
    rw [Nat.and_comm]
    exact Nat.and_two_pow_sub_one_eq_mod _ 4
  have hne : 16 - (s.file.length + 1) % 16 ≠ 0 := by omega
  have hff : s.chkSum &&& 0xFF = s.chkSum := BitVec.and_allOnes
  simp only [writeChecksum, hm, if_pos hne, writeFile, hff]

end AppBin

/-! ## The image -/

namespace AppBinArgs

variable (a : AppBinArgs)

/-- The header of the irom part and its record, in boot mode 2. -/
def iromRecord : List Record := if a.bootMode = 2 then sectionRecord 16 0 a.irom0text else []

/-- The records of text, data and rodata that are not empty. -/
def sections : List Record :=
  sectionRecord 4 textAddress a.text ++ sectionRecord 4 a.dataStartAddr a.data ++
    sectionRecord 4 a.rodataStartAddr a.rodata

/-- There is an entry point, and all numbers to pack have 32 bits. -/
structure Fits (entry : Nat) : Prop where
  entryAddr : a.entryAddr = some entry
  entry_lt : entry < 2 ^ 32
  irom : a.bootMode = 2 → SectionFits 16 0 a.irom0text
  text : SectionFits 4 textAddress a.text
  data : SectionFits 4 a.dataStartAddr a.data
  rodata : SectionFits 4 a.rodataStartAddr a.rodata

/-- A header: the magic byte, the count, two bytes of parameters, the entry. -/
def header (magic count b₂ b₃ : Byte) (entry : Nat) : List Byte :=
  [magic, count, b₂, b₃] ++ le32 (BitVec.ofNat 32 entry)

/-- The second and third byte of the header. -/
def params : Byte × Byte :=
  if a.bootMode = 1 then (0, BitVec.ofNat 8 (a.userBin &&& 0xff))
  else (BitVec.ofNat 8 (a.flashMode &&& 0xff),
    BitVec.ofNat 8 ((a.flashSizeMap <<< 4 ||| a.flashClkDiv) &&& 0xff))

/-- What comes before the header with the magic byte `0xE9`. -/
def lead (entry : Nat) : List Byte :=
  if a.bootMode = 2 then
    header 0xEA 4 0 (BitVec.ofNat 8 (a.userBin &&& 0xff)) entry ++ a.iromRecord.flatMap Record.encode
  else []

/-- The image up to the end of the last record. -/
def body (entry : Nat) : List Byte :=
  a.lead entry ++ (header 0xE9 3 a.params.1 a.params.2 entry ++ a.sections.flatMap Record.encode)

/-- The image up to the checksum, in a file that held `file` before. -/
def image (entry : Nat) (file : List Byte) : List Byte :=
  file ++ a.body entry ++ List.replicate (16 - ((file ++ a.body entry).length + 1) % 16) 0 ++
    [xorSum checksumInit a.sections]

/-- What follows the checksum: in boot mode 1 irom at `0x10000`, then the CRC. -/
def trailer (image : List Byte) : List Byte :=
  if a.bootMode = 1 then
    let irom := List.replicate (0x10000 - image.length) 0xFF ++ a.irom0text
    irom ++ crcTrailer (image ++ irom)
  else if a.bootMode = 2 then crcTrailer image else []

end AppBinArgs

theorem xorSum_append (c : Byte) (rs rs' : List Record) : xorSum c (rs ++ rs') = xorSum (xorSum c rs) rs' := by
  rw [xorSum, List.flatMap_append, List.foldl_append]; rfl

theorem packHeader_eq (magic count b₂ b₃ : Byte) {entry : Nat} (h : entry < 2 ^ 32) :
    packHeader magic count b₂ b₃ entry = some (AppBinArgs.header magic count b₂ b₃ entry) := by
  rw [packHeader, packI, if_pos h]; rfl

namespace AppBin

variable (a : AppBinArgs) {entry : Nat}

theorem writeIrom_eq (s : AppBin) (hlt : entry < 2 ^ 32) :
    s.writeIrom a entry =
      if a.bootMode = 2 → SectionFits 16 0 a.irom0text then
        some { file := s.file ++ a.lead entry, chkSum := s.chkSum, blocks := s.blocks + a.iromRecord.length }
      else none := by
  by_cases h2 : a.bootMode = 2
  · simp only [writeIrom, packHeader_eq _ _ _ _ hlt, Option.bind_eq_bind, Option.bind_some,
      combineBin_eq, h2, true_imp_iff, align]
    simp [add, writeFile, AppBinArgs.lead, AppBinArgs.iromRecord, h2]
  · simp [writeIrom, AppBinArgs.lead, AppBinArgs.iromRecord, h2]

theorem writeSections_eq (s : AppBin) (hlt : entry < 2 ^ 32) :
    s.writeSections a entry =
      if SectionFits 4 textAddress a.text ∧ SectionFits 4 a.dataStartAddr a.data ∧
          SectionFits 4 a.rodataStartAddr a.rodata then
        some { file := s.file ++ (AppBinArgs.header 0xE9 3 a.params.1 a.params.2 entry ++
                 a.sections.flatMap Record.encode)
               chkSum := xorSum s.chkSum a.sections
               blocks := s.blocks + a.sections.length }
      else none := by
  have hhead := packHeader_eq 0xE9 3 a.params.1 a.params.2 hlt
  unfold AppBinArgs.params at hhead
  simp only [writeSections, hhead, Option.bind_eq_bind, Option.bind_some, combineBin_eq, align, if_true]
  by_cases ht : SectionFits 4 textAddress a.text
  · by_cases hd : SectionFits 4 a.dataStartAddr a.data
    · by_cases hr : SectionFits 4 a.rodataStartAddr a.rodata
      · simp only [Option.bind_some, ht, hd, hr, and_self, if_true]
        simp [add, writeFile, AppBinArgs.sections, AppBinArgs.params, xorSum_append, Nat.add_assoc]
      · simp [ht, hd, hr]
    · simp [ht, hd]
  · simp [ht]

theorem writeTrailer_eq (s : AppBin) : (s.writeTrailer a).file = s.file ++ a.trailer s.file := by
  by_cases h1 : a.bootMode = 1
  · simp [writeTrailer, AppBinArgs.trailer, h1, writeFile]
  · by_cases h2 : a.bootMode = 2
    · simp [writeTrailer, AppBinArgs.trailer, h2, writeFile]
    · simp [writeTrailer, AppBinArgs.trailer, h1, h2]

end AppBin

theorem genAppbin_eq (a : AppBinArgs) {entry : Nat} (h : a.Fits entry) (file : List Byte) :
    genAppbin a file = some (a.image entry file ++ a.trailer (a.image entry file)) := by
  simp only [genAppbin, h.entryAddr, Option.bind_eq_bind, Option.bind_some,
    AppBin.writeIrom_eq a _ h.entry_lt, if_pos h.irom, AppBin.writeSections_eq a _ h.entry_lt,
    if_pos (And.intro h.text (And.intro h.data h.rodata)), AppBin.writeTrailer_eq,
    AppBin.writeChecksum_eq, List.append_assoc, AppBinArgs.image, AppBinArgs.body]

theorem packHeader_none (magic count b₂ b₃ : Byte) {entry : Nat} (h : ¬ entry < 2 ^ 32) :
    packHeader magic count b₂ b₃ entry = none := by
  rw [packHeader, packI, if_neg h]; rfl

/-- Otherwise the script fails. -/
theorem genAppbin_none (a : AppBinArgs) (h : ∀ entry, ¬ a.Fits entry) (file : List Byte) :
    genAppbin a file = none := by
  match he : a.entryAddr with
  | none => simp [genAppbin, he]
  | some entry =>
    simp only [genAppbin, he, Option.bind_eq_bind, Option.bind_some]
    by_cases hlt : entry < 2 ^ 32
    · rw [AppBin.writeIrom_eq a _ hlt]
      by_cases hi : a.bootMode = 2 → SectionFits 16 0 a.irom0text
      · rw [if_pos hi, Option.bind_some, AppBin.writeSections_eq a _ hlt,
          if_neg fun hs => h entry ⟨he, hlt, hi, hs.1, hs.2.1, hs.2.2⟩, Option.bind_none]
      · rw [if_neg hi, Option.bind_none]
    · have hs : ∀ s : AppBin, s.writeSections a entry = none := fun s => by
        simp [AppBin.writeSections, packHeader_none _ _ _ _ hlt]
      simp [hs]

/-! ## Checksum and alignment -/

theorem sectionRecord_payload {k addr : Nat} {data : List Byte} (hk : 0 < k) (hf : SectionFits k addr data)
    {r : Record} (hr : r ∈ sectionRecord k addr data) :
    k ∣ r.payload.length ∧ r.payload.length < 2 ^ 32 := by
  unfold sectionRecord at hr
  split_ifs at hr with h
  · cases hr
  · obtain rfl := List.mem_singleton.mp hr
    exact ⟨dvd_length_padTo hk data, length_padTo hk data ▸ (hf h).2⟩

namespace AppBinArgs.Fits

variable {a : AppBinArgs} {entry : Nat}

theorem sections_payload (h : a.Fits entry) {r : Record} (hr : r ∈ a.sections) :
    4 ∣ r.payload.length ∧ r.payload.length < 2 ^ 32 := by
  simp only [AppBinArgs.sections, List.mem_append] at hr
  rcases hr with (hr | hr) | hr
  · exact sectionRecord_payload (by decide) h.text hr
  · exact sectionRecord_payload (by decide) h.data hr
  · exact sectionRecord_payload (by decide) h.rodata hr

theorem irom_payload (h : a.Fits entry) {r : Record} (hr : r ∈ a.iromRecord) :
    16 ∣ r.payload.length ∧ r.payload.length < 2 ^ 32 := by
  unfold AppBinArgs.iromRecord at hr
  split_ifs at hr with h2
  · exact sectionRecord_payload (by decide) (h.irom h2) hr
  · cases hr

end AppBinArgs.Fits

theorem flatMap_payload_sectionRecord (k addr : Nat) (data : List Byte) :
    (sectionRecord k addr data).flatMap Record.payload = padTo k data := by
  unfold sectionRecord
  split_ifs with h
  · subst h
    have h0 : roundUp k 0 - 0 = 0 := by
      rcases Nat.eq_zero_or_pos k with rfl | hk
      · rfl
      · rw [roundUp, Nat.zero_add, Nat.div_eq_of_lt (by omega), Nat.zero_mul]
    simp [padTo, h0]
  · simp

theorem xorSum_sections (c : Byte) (a : AppBinArgs) : xorSum c a.sections =
    (padTo 4 a.text ++ padTo 4 a.data ++ padTo 4 a.rodata).foldl (· ^^^ ·) c := by
  simp only [xorSum, AppBinArgs.sections, List.flatMap_append, flatMap_payload_sectionRecord]

theorem dvd_length_encode {k : Nat} (hk : k ∣ 8) {rs : List Record} (h : ∀ r ∈ rs, k ∣ r.payload.length) :
    k ∣ (rs.flatMap Record.encode).length := by
  induction rs with
  | nil => exact Nat.dvd_zero k
  | cons r rs ih =>
    rw [List.flatMap_cons, List.length_append, Record.length_encode]
    exact Nat.dvd_add (Nat.dvd_add hk (h r (by simp))) (ih fun r' h' => h r' (by simp [h']))

namespace AppBinArgs

variable {a : AppBinArgs} {entry : Nat}

@[simp] theorem length_header (magic count b₂ b₃ : Byte) (entry : Nat) :
    (header magic count b₂ b₃ entry).length = 8 := rfl

theorem dvd_length_lead (h : a.Fits entry) : 4 ∣ (a.lead entry).length := by
  unfold lead
  split_ifs
  · rw [List.length_append, length_header]
    exact Nat.dvd_add (by decide) (dvd_length_encode (by decide) fun r hr =>
      Nat.dvd_trans (by decide) (h.irom_payload hr).1)
  · exact Nat.dvd_zero 4

theorem dvd_length_body (h : a.Fits entry) : 4 ∣ (a.body entry).length := by
  rw [body, List.length_append, List.length_append, length_header]
  exact Nat.dvd_add (dvd_length_lead h) (Nat.dvd_add (by decide)
    (dvd_length_encode (by decide) fun r hr => (h.sections_payload hr).1))

theorem iromRecord_eq (h2 : a.bootMode = 2) (hi : a.irom0text ≠ []) :
    a.iromRecord = [⟨0, padTo 16 a.irom0text⟩] := by
  rw [iromRecord, if_pos h2, sectionRecord, if_neg hi]; rfl

theorem lead_eq (h2 : a.bootMode = 2) (hi : a.irom0text ≠ []) : a.lead entry =
    header 0xEA 4 0 (BitVec.ofNat 8 (a.userBin &&& 0xff)) entry ++
      Record.encode ⟨0, padTo 16 a.irom0text⟩ := by
  rw [lead, if_pos h2, iromRecord_eq h2 hi, List.flatMap_cons, List.flatMap_nil, List.append_nil]

/-- After irom, the next header starts on a line of its own. -/
theorem dvd_length_lead_irom (h2 : a.bootMode = 2) (hi : a.irom0text ≠ []) :
    16 ∣ (a.lead entry).length := by
  obtain ⟨k, hk⟩ := dvd_length_padTo (k := 16) (by decide) a.irom0text
  refine ⟨k + 1, ?_⟩
  rw [lead_eq h2 hi, List.length_append, length_header, Record.length_encode, hk]
  omega

end AppBinArgs

/-- The declared length of a record is the length of its payload, a multiple of `k`. -/
def Record.LengthOk (k : Nat) (r : Record) : Prop :=
  ∃ len : Word, r.encode = le32 r.addr ++ (le32 len ++ r.payload) ∧ len.toNat = r.payload.length ∧
    k ∣ len.toNat

theorem Record.lengthOk {k : Nat} {r : Record} (h : k ∣ r.payload.length ∧ r.payload.length < 2 ^ 32) :
    r.LengthOk k := by
  have hlen : (BitVec.ofNat 32 r.payload.length).toNat = r.payload.length := by
    rw [BitVec.toNat_ofNat, Nat.mod_eq_of_lt h.2]
  exact ⟨_, rfl, hlen, by rw [hlen]; exact h.1⟩

/-- The image of any sections, in any boot mode: the records of text, data and
rodata after the header with the magic byte `0xE9`, zeros, and the checksum at
the end of a line; without 32 bits for a number, no image. -/
theorem image_layout (a : AppBinArgs) : (∀ entry, a.Fits entry → ∃ lead head fill trailer,
      genAppbin a [] = some (lead ++ head ++ a.sections.flatMap Record.encode ++ List.replicate fill 0 ++
        (padTo 4 a.text ++ padTo 4 a.data ++ padTo 4 a.rodata).foldl (· ^^^ ·) 0xEF :: trailer) ∧
      (lead ++ head ++ a.sections.flatMap Record.encode ++ List.replicate fill 0).length % 16 = 15 ∧
      (∀ r ∈ a.sections, r.LengthOk 4) ∧
      head.length = 8 ∧ head.head? = some 0xE9 ∧
      (a.bootMode = 2 → a.irom0text ≠ [] → 16 ∣ lead.length ∧
        ∃ head' irom, lead = head' ++ Record.encode irom ∧ head'.length = 8 ∧ irom.LengthOk 16 ∧
          irom.payload = padTo 16 a.irom0text)) ∧
    ((∀ entry, ¬ a.Fits entry) → genAppbin a [] = none) := by
  refine ⟨fun entry h => ?_, fun h => genAppbin_none a h []⟩
  obtain ⟨k, hk⟩ := AppBinArgs.dvd_length_body h
  refine ⟨a.lead entry, AppBinArgs.header 0xE9 3 a.params.1 a.params.2 entry,
    16 - ((a.body entry).length + 1) % 16, a.trailer (a.image entry []), ?_, ?_, ?_, rfl, rfl, ?_⟩
  · rw [genAppbin_eq a h, ← xorSum_sections]
    simp [AppBinArgs.image, AppBinArgs.body, checksumInit]
  · have hb : a.lead entry ++ AppBinArgs.header 0xE9 3 a.params.1 a.params.2 entry ++
        a.sections.flatMap Record.encode = a.body entry := List.append_assoc _ _ _
    rw [hb, List.length_append, List.length_replicate]
    omega
  · exact fun r hr => Record.lengthOk (h.sections_payload hr)
  · intro h2 hi
    have hr := AppBinArgs.iromRecord_eq h2 hi ▸ List.mem_singleton_self (⟨0, padTo 16 a.irom0text⟩ : Record)
    exact ⟨AppBinArgs.dvd_length_lead_irom h2 hi, _, _, AppBinArgs.lead_eq h2 hi,
      AppBinArgs.length_header _ _ _ _ _, Record.lengthOk (h.irom_payload hr), rfl⟩

end Nonos
