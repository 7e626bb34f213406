import NonosSdk.Framework.Crc
import NonosSdk.Framework.Record

/-!
# The image generator (`tools/gen_appbin.py`)

`gen_appbin` appends to `eagle.app.flash.bin` a header and the sections that
`objcopy` has extracted, each with its address and length. `AppBin` is the
output file and the script's two global variables. A `none` is a run that
stops early: without an entry point, or in `struct.pack` with a number of more
than 32 bits. `n & ~m` on Python's integers is `andNot n m`.

Left out: how the addresses are found in the symbol file (they are arguments
here), and the messages.
-/

namespace Nonos

structure AppBin where
  /-- `eagle.app.flash.bin`. -/
  file : List Byte
  chkSum : Byte
  blocks : Nat

/-- The command line, the symbol addresses, and the section files. -/
structure AppBinArgs where
  bootMode : Nat
  flashMode : Nat := 0
  flashClkDiv : Nat := 0
  flashSizeMap : Nat := 0
  userBin : Nat := 0
  entryAddr : Option Nat
  dataStartAddr : Nat := 0
  rodataStartAddr : Nat := 0
  text : List Byte
  data : List Byte
  rodata : List Byte
  irom0text : List Byte

def textAddress : Nat := 0x40100000

def checksumInit : Byte := 0xEF

/-- `n & (~m)` -/
def andNot (n m : Nat) : Nat := n - (n &&& m)

/-- `struct.pack('<I', n)` -/
def packI (n : Nat) : Option (List Byte) := if n < 2 ^ 32 then some (le32 (BitVec.ofNat 32 n)) else none

/-- `struct.pack('<BBBBI', ..)` -/
def packHeader (magic count b₂ b₃ : Byte) (entry : Nat) : Option (List Byte) :=
  (packI entry).map ([magic, count, b₂, b₃] ++ ·)

namespace AppBin

/-- `write_file`. -/
def writeFile (s : AppBin) (data : List Byte) : AppBin := { s with file := s.file ++ data }

/-- `for loop in range(len(data_bin)): chk_sum ^= ord(data_bin[loop])`, if `need_chk`. -/
def sum (s : AppBin) (needChk : Bool) (data : List Byte) : AppBin :=
  if needChk then { s with chkSum := data.foldl (· ^^^ ·) s.chkSum } else s

/-- `combine_bin`, on a file that can be opened. -/
def combineBin (s : AppBin) (data : List Byte) (startOffsetAddr : Nat) (needChk : Bool) : Option AppBin :=
  let dataLen := data.length
  if dataLen ≠ 0 then do
    let tmpLen := if needChk then andNot (dataLen + 3) 3 else andNot (dataLen + 15) 15
    let addr ← packI startOffsetAddr
    let len ← packI tmpLen
    let s := s.writeFile (addr ++ len)
    let s := (s.writeFile data).sum needChk data
    let tmpLen := tmpLen - dataLen
    let s :=
      if tmpLen ≠ 0 then
        let dataBin := List.replicate tmpLen 0
        (s.writeFile dataBin).sum needChk dataBin
      else s
    some { s with blocks := s.blocks + 1 }
  else some s

end AppBin

/-! ## The CRC of the whole file -/

/-- The reflected generator of CRC-32. -/
def crc32Poly : BitVec 32 := 0xEDB88320

/-- `binascii.crc32(data, crc)`, as an unsigned word. -/
def binasciiCrc32 (data : List Byte) (crc : Word) : Word :=
  ~~~ data.foldl (fun r b => (shift crc32Poly)^[8] (r ^^^ b.setWidth 32)) (~~~ crc)

/-- The loop of `getFileCRC`. -/
def crcBlocks (blocksize : Nat) (str : List Byte) (crc : Word) : Nat → Word
  | 0 => crc
  | n + 1 => crcBlocks blocksize (str.drop blocksize) (binasciiCrc32 (str.take blocksize) crc) n

/-- `getFileCRC`: blocks of 64 KiB until the file ends; the result is signed. -/
def getFileCRC (file : List Byte) : Int :=
  (crcBlocks (1024 * 64) file 0 ((file.length + 1024 * 64 - 1) / (1024 * 64))).toInt

/-- The four bytes after the image. -/
def crcTrailer (file : List Byte) : List Byte :=
  let crc := getFileCRC file
  let crc := if crc < 0 then crc.natAbs - 1 else crc.natAbs + 1
  [BitVec.ofNat 8 (crc &&& 0x000000FF), BitVec.ofNat 8 ((crc &&& 0x0000FF00) >>> 8),
    BitVec.ofNat 8 ((crc &&& 0x00FF0000) >>> 16), BitVec.ofNat 8 ((crc &&& 0xFF000000) >>> 24)]

/-! ## The image -/

namespace AppBin

/-- In boot mode 2, the header and the section of irom. -/
def writeIrom (s : AppBin) (a : AppBinArgs) (entry : Nat) : Option AppBin :=
  let app := BitVec.ofNat 8 (a.userBin &&& 0xff)
  if a.bootMode = 2 then do
    let dataBin ← packHeader 0xEA 4 0 app entry
    (s.writeFile dataBin).combineBin a.irom0text 0x0 false
  else some s

/-- The header and the sections of the rest. -/
def writeSections (s : AppBin) (a : AppBinArgs) (entry : Nat) : Option AppBin := do
  let byte2 := BitVec.ofNat 8 (a.flashMode &&& 0xff)
  let byte3 := BitVec.ofNat 8 ((a.flashSizeMap <<< 4 ||| a.flashClkDiv) &&& 0xff)
  let app := BitVec.ofNat 8 (a.userBin &&& 0xff)
  let (b₂, b₃) := if a.bootMode = 1 then (0, app) else (byte2, byte3)
  let dataBin ← packHeader 0xE9 3 b₂ b₃ entry
  let s := s.writeFile dataBin
  let s ← s.combineBin a.text textAddress true
  let s ← s.combineBin a.data a.dataStartAddr true
  s.combineBin a.rodata a.rodataStartAddr true

/-- The zeros up to the end of the line, and the checksum. -/
def writeChecksum (s : AppBin) : AppBin :=
  let sumSize := s.file.length + 1
  let sumSize := 16 - (0xf &&& sumSize)
  let s := if sumSize ≠ 0 then s.writeFile (List.replicate sumSize 0) else s
  s.writeFile [s.chkSum &&& 0xFF]

/-- In boot mode 1 irom, up to 0x10000 bytes further on; in boot modes 1 and 2
the CRC. -/
def writeTrailer (s : AppBin) (a : AppBinArgs) : AppBin :=
  let s :=
    if a.bootMode = 1 then
      (s.writeFile (List.replicate (0x10000 - s.file.length) 0xFF)).writeFile a.irom0text
    else s
  if a.bootMode = 1 ∨ a.bootMode = 2 then s.writeFile (crcTrailer s.file) else s

end AppBin

/-- `gen_appbin`, appending to `file`. -/
def genAppbin (a : AppBinArgs) (file : List Byte) : Option (List Byte) := do
  let entry ← a.entryAddr
  let s ← AppBin.writeIrom ⟨file, checksumInit, 0⟩ a entry
  let s ← s.writeSections a entry
  some (s.writeChecksum.writeTrailer a).file

end Nonos
