import NonosSdk.Proof.InetChksum.Packet

/-!
# Checksums verify

A sender sums its packet with the checksum field zero and puts the result there;
a receiver sums all of it. The field is at an even place, so that what is there
is added to the sum as it is (`leValue_field`), and the receiver's checksum is 0
just for the sender's value, and for `0xffff` where that is 0
(`verify_iff`): udp sends the one for the other, as 0 means no checksum.
-/

namespace Nonos

theorem leValue_halfBytes (h : BitVec 16) : leValue (halfBytes h) = h.toNat := by
  have := h.isLt
  simp only [halfBytes, leValue_cons, leValue_nil, BitVec.toNat_setWidth, BitVec.toNat_ushiftRight, Nat.shiftRight_eq_div_pow]
  omega

/-- A field at an even place. -/
theorem leValue_field {xs : List Byte} (h : xs.length % 2 = 0) (v : BitVec 16) (ys : List Byte) :
    onesSum 65535 (leValue (xs ++ halfBytes v ++ ys)) = onesSum 65535 (leValue (xs ++ halfBytes 0 ++ ys) + v.toNat) := by
  have hfield : ∀ v : BitVec 16, onesSum 65535 (leValue (xs ++ halfBytes v ++ ys)) =
      onesSum 65535 (leValue xs + v.toNat + leValue ys) := fun v => by
    rw [List.append_assoc, ← Nat.zero_add (leValue _), onesSum_add_leValue_even _ h, onesSum_add_leValue_even _ (by simp [halfBytes]),
      leValue_halfBytes, Nat.zero_add]
  have hz : (0 : BitVec 16).toNat = 0 := rfl
  rw [hfield v, onesSum_add_congr v.toNat (hfield 0), hz]
  exact congrArg _ (by omega)

/-- Both sides, for any of the checksums: `c` is the sender's, `c'` the receiver's. -/
theorem verify_iff {c c' : BitVec 16} {xs ys : List Byte} (h : xs.length % 2 = 0) (v : BitVec 16)
    (hc : c.toNat = 65535 - onesSum 65535 (leValue (xs ++ halfBytes 0 ++ ys)))
    (hc' : c'.toNat = 65535 - onesSum 65535 (leValue (xs ++ halfBytes v ++ ys))) :
    c' = 0 ↔ v = c ∨ (c = 0 ∧ v = 0xffff) := by
  have hv := v.isLt
  have hle := @onesSum_le 65535 (leValue (xs ++ halfBytes v ++ ys)) (by decide)
  have hle0 := @onesSum_le 65535 (leValue (xs ++ halfBytes 0 ++ ys)) (by decide)
  have hiff := @onesSum_add_eq_max_iff 65535 (leValue (xs ++ halfBytes 0 ++ ys)) v.toNat (by decide) (by omega)
  have hz : (0 : BitVec 16).toNat = 0 := rfl
  have hm : (0xffff : BitVec 16).toNat = 65535 := rfl
  rw [leValue_field h] at hc' hle
  constructor
  · intro h0
    have h0' := congrArg BitVec.toNat h0
    rcases hiff.mp (by omega) with hcase | ⟨hcase, hmax⟩
    · exact .inl (BitVec.eq_of_toNat_eq (by omega))
    · exact .inr ⟨BitVec.eq_of_toNat_eq (by omega), BitVec.eq_of_toNat_eq (by omega)⟩
  · intro hcase
    have hmax : onesSum 65535 (leValue (xs ++ halfBytes 0 ++ ys) + v.toNat) = 65535 := by
      refine hiff.mpr ?_
      rcases hcase with rfl | ⟨rfl, rfl⟩
      · exact .inl hc
      · exact .inr ⟨by omega, hm⟩
    exact BitVec.eq_of_toNat_eq (by omega)

theorem inetChksum_toNat (dataptr : Nat) {data : List Byte} (h : data.length ≤ 0x20000) :
    (inetChksum dataptr data).toNat = 65535 - onesSum 65535 (leValue data) := by
  rw [inetChksum, BitVec.toNat_not, lwipChksum_toNat dataptr h]

/-- What the receiver's checks let pass, for data in one piece, a chain of pbufs, and a chain with a pseudo-header;
the two sides may cut and align the packet as they like. -/
theorem chksum_verifies {xs ys : List Byte} (hxs : xs.length % 2 = 0) (v : BitVec 16) {p p' : List Pbuf}
    (hp : pbufData p = xs ++ halfBytes 0 ++ ys) (hp' : pbufData p' = xs ++ halfBytes v ++ ys)
    (dataptr dataptr' : Nat) (src dest : Word) (proto : Byte) (protoLen : BitVec 16) :
    ((pbufData p).length < 2 ^ 16 →
      (inetChksum dataptr' (pbufData p') = 0 ↔
        v = inetChksum dataptr (pbufData p) ∨ (inetChksum dataptr (pbufData p) = 0 ∧ v = 0xffff))) ∧
      (inetChksumPbuf p' = 0 ↔ v = inetChksumPbuf p ∨ (inetChksumPbuf p = 0 ∧ v = 0xffff)) ∧
      (inetChksumPseudo p' src dest proto protoLen = 0 ↔
        v = inetChksumPseudo p src dest proto protoLen ∨
          (inetChksumPseudo p src dest proto protoLen = 0 ∧ v = 0xffff)) := by
  refine ⟨fun hlen => ?_, ?_, ?_⟩
  · have hlen' : (pbufData p').length = (pbufData p).length := by
      rw [hp, hp']
      simp only [List.length_append, halfBytes, List.length_cons]
    have hsent := @inetChksum_toNat dataptr (pbufData p) (by omega)
    have hread := @inetChksum_toNat dataptr' (pbufData p') (by omega)
    rw [hp] at hsent ⊢
    rw [hp'] at hread ⊢
    exact verify_iff hxs v hsent hread
  · have hsent := inetChksumPbuf_toNat p
    have hread := inetChksumPbuf_toNat p'
    rw [hp] at hsent
    rw [hp'] at hread
    exact verify_iff hxs v hsent hread
  · have hheader : ((Spec.pseudoHeader (addrBytes src) (addrBytes dest) proto protoLen) ++ xs).length % 2 = 0 := by
      rw [List.length_append]
      simp only [Spec.pseudoHeader, addrBytes, List.length_append, List.length_cons, List.length_nil]
      omega
    have hsent := inetChksumPseudo_toNat p src dest proto protoLen
    have hread := inetChksumPseudo_toNat p' src dest proto protoLen
    rw [hp, List.append_assoc xs, ← List.append_assoc, ← List.append_assoc] at hsent
    rw [hp', List.append_assoc xs, ← List.append_assoc, ← List.append_assoc] at hread
    exact verify_iff hheader v hsent hread

/-- A datagram of five bytes, which the receiver has in two pieces. -/
theorem chksum_verifies_split :
    inetChksumPseudo [⟨1, [0, 7, 0xa0], by decide⟩, ⟨2, [0xdf, 0x61], by decide⟩] 0x0100007f 0x0100007f 17 5 = 0 :=
  (@chksum_verifies [0, 7] [0x61] (by decide) 0xdfa0 [⟨0, [0, 7, 0, 0, 0x61], by decide⟩]
    [⟨1, [0, 7, 0xa0], by decide⟩, ⟨2, [0xdf, 0x61], by decide⟩] rfl rfl 0 0 0x0100007f 0x0100007f 17 5).2.2.mpr (.inl (by decide))

end Nonos
