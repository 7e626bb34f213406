import NonosSdk.Framework.Mem

/-!
# Length-prefixed records

Little-endian words, and records of an address, a length and as many bytes. A
reader takes one off the front of its input and returns the rest; it reads
back what was written, whatever follows (`getWord_le32`, `getRecord_encode`,
`getRecords_encode`).
-/

namespace Nonos

/-- The four bytes of a word, lowest first. -/
def le32 (w : Word) : List Byte :=
  [w.extractLsb' 0 8, w.extractLsb' 8 8, w.extractLsb' 16 8, w.extractLsb' 24 8]

@[simp] theorem length_le32 (w : Word) : (le32 w).length = 4 := rfl

def getWord : List Byte → Option (Word × List Byte)
  | b₀ :: b₁ :: b₂ :: b₃ :: bs => some (b₃ ++ b₂ ++ b₁ ++ b₀, bs)
  | _ => none

theorem getWord_le32 (w : Word) (bs : List Byte) : getWord (le32 w ++ bs) = some (w, bs) := by
  have hw : (w.extractLsb' 24 8 ++ w.extractLsb' 16 8 ++ w.extractLsb' 8 8 ++ w.extractLsb' 0 8 : Word) = w := by
    apply BitVec.eq_of_getLsbD_eq
    intro i hi
    simp only [BitVec.getLsbD_append, BitVec.getLsbD_extractLsb']
    by_cases h0 : i < 8
    · simp [h0]
    by_cases h1 : i < 16
    · simp [h0, show i - 8 < 8 by omega, show 8 + (i - 8) = i by omega]
    by_cases h2 : i < 24
    · simp [h0, show ¬ i - 8 < 8 by omega, show i - 8 - 8 < 8 by omega,
        show 16 + (i - 8 - 8) = i by omega]
    · simp [h0, show ¬ i - 8 < 8 by omega, show ¬ i - 8 - 8 < 8 by omega,
        show i - 8 - 8 - 8 < 8 by omega, show 24 + (i - 8 - 8 - 8) = i by omega]
  simp only [le32, List.cons_append, List.nil_append, getWord, hw]

theorem le32_injective {v w : Word} (h : le32 v = le32 w) : v = w := by
  have hv := getWord_le32 v []
  rw [h, getWord_le32 w []] at hv
  exact (congrArg Prod.fst (Option.some.inj hv)).symm

structure Record where
  addr : Word
  payload : List Byte
  deriving DecidableEq, Repr

namespace Record

/-- The address, the length, and the bytes. -/
def encode (r : Record) : List Byte :=
  le32 r.addr ++ (le32 (BitVec.ofNat 32 r.payload.length) ++ r.payload)

@[simp] theorem length_encode (r : Record) : r.encode.length = 8 + r.payload.length := by
  simp only [encode, List.length_append, length_le32]
  omega

end Record

def getRecord (bs : List Byte) : Option (Record × List Byte) :=
  (getWord bs).bind fun (addr, bs) => (getWord bs).bind fun (len, bs) =>
    if len.toNat ≤ bs.length then some (⟨addr, bs.take len.toNat⟩, bs.drop len.toNat) else none

theorem getRecord_encode {r : Record} (h : r.payload.length < 2 ^ 32) (bs : List Byte) :
    getRecord (r.encode ++ bs) = some (r, bs) := by
  have hlen : (BitVec.ofNat 32 r.payload.length).toNat = r.payload.length := by
    rw [BitVec.toNat_ofNat, Nat.mod_eq_of_lt h]
  simp only [getRecord, Record.encode, List.append_assoc, getWord_le32, Option.bind_some, hlen]
  rw [if_pos (by simp), List.take_left, List.drop_left]

/-- A number of records, one after the other. -/
def getRecords : Nat → List Byte → Option (List Record × List Byte)
  | 0, bs => some ([], bs)
  | n + 1, bs => (getRecord bs).bind fun (r, bs) => (getRecords n bs).map fun (rs, bs) => (r :: rs, bs)

theorem getRecords_encode {rs : List Record} (h : ∀ r ∈ rs, r.payload.length < 2 ^ 32) (bs : List Byte) :
    getRecords rs.length (rs.flatMap Record.encode ++ bs) = some (rs, bs) := by
  induction rs with
  | nil => rfl
  | cons r rs ih =>
    simp only [List.length_cons, getRecords, List.flatMap_cons, List.append_assoc,
      getRecord_encode (h r (by simp)), Option.bind_some, ih fun r' h' => h r' (by simp [h']),
      Option.map_some]

theorem length_getRecords {n : Nat} {bs bs' : List Byte} {rs : List Record}
    (h : getRecords n bs = some (rs, bs')) : rs.length = n := by
  induction n generalizing bs rs with
  | zero =>
    rw [getRecords, Option.some.injEq, Prod.mk.injEq] at h
    rw [← h.1, List.length_nil]
  | succ n ih =>
    obtain ⟨⟨r, bs₁⟩, -, h⟩ := Option.bind_eq_some_iff.mp h
    obtain ⟨⟨rs', bs₂⟩, h', he⟩ := Option.map_eq_some_iff.mp h
    obtain ⟨rfl, rfl⟩ := Prod.mk.inj he
    rw [List.length_cons, ih h']

end Nonos
