import NonosSdk.Framework.Record

/-!
# The image as the loader reads it

An 8-byte header with the magic byte `0xE9`, the number of records and the
entry address, as many records, and zeros up to the last position of a 16-byte
line, which holds the checksum. In boot mode 2 an 8-byte header with the magic
byte `0xEA` comes first, and a record for irom unless the next header follows at
once. What comes after the checksum is not read.
-/

namespace Nonos.Spec

structure Image where
  entry : Word
  irom : Option Record
  sections : List Record
  chk : Byte
  rest : List Byte

/-- A header: the count and the entry address. -/
def getHeader (magic : Byte) : List Byte → Option ((Byte × Word) × List Byte)
  | m :: count :: _ :: _ :: bs =>
    if m = magic then (getWord bs).map fun (entry, bs) => ((count, entry), bs) else none
  | _ => none

/-- The zeros from `offset` to the end of the line, and the checksum. -/
def getChecksum (offset : Nat) (bs : List Byte) : Option (Byte × List Byte) :=
  let fill := 15 - offset % 16
  if bs.take fill = List.replicate fill 0 then
    match bs.drop fill with
    | chk :: rest => some (chk, rest)
    | [] => none
  else none

/-- The part that every image has; `size` is the size of the whole file. -/
def loadApp (size : Nat) (irom : Option Record) (bs : List Byte) : Option Image :=
  (getHeader 0xE9 bs).bind fun ((count, entry), bs) =>
    (getRecords count.toNat bs).bind fun (sections, bs) =>
      (getChecksum (size - bs.length) bs).map fun (chk, rest) => ⟨entry, irom, sections, chk, rest⟩

def load (bootMode : Nat) (file : List Byte) : Option Image :=
  if bootMode = 2 then
    (getHeader 0xEA file).bind fun (_, bs) =>
      if bs.head? = some 0xE9 then loadApp file.length none bs
      else (getRecord bs).bind fun (irom, bs) => loadApp file.length (some irom) bs
  else loadApp file.length none file

end Nonos.Spec
