import NonosSdk.Impl.DhcpOptions
import Mathlib.Algebra.Group.Nat.Even

/-!
# The options area of a DHCP message

PADs of one byte, options of a code, a length and as many bytes, and an END; no code
occurs twice (`OptionList`). The message type is the first byte of its option, the
requested address the first four, and they alone decide what the server does
(`OptionList.answer`).
-/

namespace Nonos.Spec

/-- An option that is neither PAD nor END. -/
structure DhcpOption where
  code : Byte
  data : List Byte
  not_pad : code ≠ 0
  not_end : code ≠ dhcpOptionEnd
  length_lt : data.length < 256
  msgType_length : code = dhcpOptionMsgType → 1 ≤ data.length
  reqIpaddr_length : code = dhcpOptionReqIpaddr → 4 ≤ data.length

/-- Options, each with the number of PADs before it. -/
abbrev Padded := List (Nat × DhcpOption)

/-- The bytes of an options area, with `pads` PADs before the END. -/
def encodeOptions : Padded → (pads : Nat) → List Byte
  | [], pads => List.replicate pads 0 ++ [dhcpOptionEnd]
  | (n, o) :: os, pads =>
    List.replicate n 0 ++ (o.code :: BitVec.ofNat 8 o.data.length :: (o.data ++ encodeOptions os pads))

/-- The addresses of the options, and of the END. -/
def optionStarts (p : Nat) : Padded → (pads : Nat) → List Nat
  | [], pads => [p + pads]
  | (n, o) :: os, pads => (p + n) :: optionStarts (p + n + 2 + o.data.length) os pads

/-- The content of an options area. -/
structure OptionList where
  options : Padded
  pads : Nat
  nodup : (options.map (·.2.code)).Nodup

namespace OptionList

variable (l : OptionList)

def encode : List Byte := encodeOptions l.options l.pads

def starts (p : Nat) : List Nat := optionStarts p l.options l.pads

/-- The data of the option with a code. -/
def find (code : Byte) : Option (List Byte) := (l.options.find? (·.2.code = code)).map (·.2.data)

/-- The message type. -/
def msgType : Option Byte := (l.find dhcpOptionMsgType).bind List.head?

/-- The requested address. -/
def requested : Option (List Byte) := (l.find dhcpOptionReqIpaddr).map (List.take 4)

/-- ACK for the client's address, NAK for another one, and `other` if none is requested. -/
def checkRequested (client : List Byte) (other : DhcpdState) : DhcpdState :=
  l.requested.elim other fun addr => if addr = client then .ack else .nak

/-- What the server does. -/
def answer (client : List Byte) (renew : Bool) : DhcpdState :=
  if l.msgType = some 1 then .offer
  else if l.msgType = some 3 then l.checkRequested client (if renew then .ack else .nak)
  else if l.msgType = some 4 then .idle
  else if l.msgType = some 7 then .release
  else l.checkRequested client .idle

/-- PADs come in pairs. -/
def Paired : Prop := (∀ o ∈ l.options, Even o.1) ∧ Even l.pads

instance : Decidable l.Paired := inferInstanceAs (Decidable (_ ∧ _))

end OptionList

/-- The bytes are whole options one after the other for a reader that knows no PAD, up to an
END or the end of the bytes. Only the options that the server looks at need their data. -/
inductive Walkable : List Byte → Prop where
  | done : Walkable []
  | last (bs : List Byte) : Walkable (dhcpOptionEnd :: bs)
  | option {code n : Byte} {bs : List Byte} (hcode : code ≠ dhcpOptionEnd)
      (htype : code = dhcpOptionMsgType → 1 ≤ bs.length) (hreq : code = dhcpOptionReqIpaddr → 4 ≤ bs.length)
      (hrest : Walkable (bs.drop n.toNat)) : Walkable (code :: n :: bs)

end Nonos.Spec
