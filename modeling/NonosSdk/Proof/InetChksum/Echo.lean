import NonosSdk.Proof.InetChksum.Verify

/-!
# The checksums of an echo reply

`icmp_input` does not sum the data again: it takes the 8 of the type out of the
sum by adding it to the checksum, with the carry (`icmpAdjust_toNat`). That
leaves the sum as it is, modulo 65535, so the reply verifies unless it has
become all zero. The header is summed again, but without its options
(`icmpReplyHdr_sum`).
-/

namespace Nonos

theorem icmpAdjust_toNat (c : BitVec 16) :
    (icmpAdjust c).toNat = if c.toNat < 0xfff7 then c.toNat + 8 else c.toNat + 9 - 65536 := by
  have hc := c.isLt
  have hlimit : htons (0xffff - (icmpEcho.setWidth 16 <<< 8)) = 0xfff7 := by decide
  have hecho : htons (icmpEcho.setWidth 16 <<< 8) = 8 := by decide
  have hnine : (8 + 1 : BitVec 16).toNat = 9 := rfl
  have height : (8 : BitVec 16).toNat = 8 := rfl
  have hlim : (0xfff7 : BitVec 16).toNat = 65527 := rfl
  rw [icmpAdjust, hlimit, hecho]
  by_cases h : c ≥ 0xfff7
  · have hle : (0xfff7 : BitVec 16).toNat ≤ c.toNat := BitVec.le_def.mp h
    rw [if_pos h, if_neg (by omega), BitVec.toNat_add, hnine]
    omega
  · have hlt : c.toNat < (0xfff7 : BitVec 16).toNat := Nat.lt_of_not_le fun hle => h (BitVec.le_def.mpr hle)
    rw [if_neg h, if_pos (by omega), BitVec.toNat_add, height]
    omega

theorem inetChksumPbuf_eq_zero (p : List Pbuf) : inetChksumPbuf p = 0 ↔ leValue (pbufData p) ≠ 0 ∧ 65535 ∣ leValue (pbufData p) := by
  have h := inetChksumPbuf_toNat p
  have hle := @onesSum_le 65535 (leValue (pbufData p)) (by decide)
  have hz : (0 : BitVec 16).toNat = 0 := rfl
  rw [← onesSum_eq_max_iff (by decide)]
  constructor
  · intro h0
    rw [h0] at h
    omega
  · intro hmax
    exact BitVec.eq_of_toNat_eq (by omega)

theorem append_toNat (c0 c1 : Byte) : (c1 ++ c0 : BitVec 16).toNat = c0.toNat + 256 * c1.toNat := by
  rw [BitVec.toNat_append, Nat.shiftLeft_eq, Nat.mul_comm c1.toNat, ← Nat.two_pow_add_eq_or_of_lt c0.isLt]
  omega

theorem leValue_request (code c0 c1 : Byte) (data : List Byte) :
    leValue (icmpEcho :: code :: c0 :: c1 :: data) =
      8 + 256 * code.toNat + 65536 * (c1 ++ c0 : BitVec 16).toNat + 4294967296 * leValue data := by
  have hecho : icmpEcho.toNat = 8 := rfl
  simp only [leValue_cons, append_toNat, hecho]
  omega

theorem leValue_reply (code : Byte) (c : BitVec 16) (data : List Byte) :
    leValue (icmpEr :: code :: (halfBytes c ++ data)) =
      256 * code.toNat + 65536 * c.toNat + 4294967296 * leValue data := by
  have her : icmpEr.toNat = 0 := rfl
  have hlen : (halfBytes c).length = 2 := rfl
  rw [leValue_cons, leValue_cons, leValue_append, leValue_halfBytes, her, hlen]
  omega

/-- The sum of the data stays, unless nothing is left of it. -/
theorem icmpReply_sum {code c0 c1 : Byte} {data : List Byte}
    (h : 65535 ∣ leValue (icmpEcho :: code :: c0 :: c1 :: data)) :
    65535 ∣ leValue (icmpEr :: code :: (halfBytes (icmpAdjust (c1 ++ c0)) ++ data)) ∧
      (leValue (icmpEr :: code :: (halfBytes (icmpAdjust (c1 ++ c0)) ++ data)) = 0 ↔
        icmpEcho :: code :: c0 :: c1 :: data = [8, 0, 0xf7, 0xff] ++ List.replicate data.length 0) := by
  have hc := (c1 ++ c0 : BitVec 16).isLt
  have hadjust := icmpAdjust_toNat (c1 ++ c0)
  rw [leValue_request] at h
  rw [leValue_reply]
  constructor
  · split at hadjust <;> omega
  · have hcode : code.toNat = 0 ↔ code = 0 := ⟨fun h => BitVec.eq_of_toNat_eq h, fun h => congrArg BitVec.toNat h⟩
    have hzero : (icmpAdjust (c1 ++ c0)).toNat = 0 ↔ c0 = 0xf7 ∧ c1 = 0xff := by
      have h0 := c0.isLt
      have h1 := c1.isLt
      rw [append_toNat] at hadjust
      constructor
      · intro hz
        rw [hz] at hadjust
        split at hadjust
        · omega
        · exact ⟨BitVec.eq_of_toNat_eq (show c0.toNat = 247 by omega), BitVec.eq_of_toNat_eq (show c1.toNat = 255 by omega)⟩
      · rintro ⟨rfl, rfl⟩
        exact hadjust
    rw [Nat.add_eq_zero_iff, Nat.add_eq_zero_iff, Nat.mul_eq_zero, Nat.mul_eq_zero, Nat.mul_eq_zero, hcode, hzero, leValue_eq_zero]
    simp [icmpEcho, and_assoc]

/-! ## The header -/

theorem IpHdr.length_bytes (h : IpHdr) : h.bytes.length = 20 := rfl

/-- The header with a checksum, of which the reply's is one. -/
theorem icmpReplyHdr_sum (payload : Nat) (iphdr : IpHdr) : onesSum 65535 (leValue (icmpReplyHdr payload iphdr).bytes) = 65535 := by
  let h : IpHdr := { iphdr with src := iphdr.dest, dest := iphdr.src, ttl := icmpTtl, chksum := 0 }
  let before := halfBytes h.vHlTos ++ halfBytes h.len ++ halfBytes h.id ++ halfBytes h.offset ++ [h.ttl, h.proto]
  have hbefore : before.length % 2 = 0 := by simp [before, halfBytes]
  have hc : (inetChksum payload h.bytes).toNat = 65535 - onesSum 65535 (leValue h.bytes) :=
    inetChksum_toNat payload (by rw [IpHdr.length_bytes]; decide)
  have hfield := leValue_field hbefore (inetChksum payload h.bytes) (addrBytes h.src ++ addrBytes h.dest)
  refine Eq.trans hfield ?_
  exact (onesSum_add_eq_max_iff (by decide) (by omega)).mpr (.inl hc)

theorem dvd_inetSum (bs : List Byte) : Spec.inetSum bs = 0 ∨ Spec.inetSum bs = 65535 ↔ 65535 ∣ leValue bs := by
  rw [inetSum_eq, onesSum_eq_zero, onesSum_eq_max_iff (by decide)]
  omega

/-- The reply goes back to where the request came from, with its data; its two checksums are right unless the
request was all zero but for its type and checksum, or has options that do not add up to zero. -/
theorem echo_reply_verifies {accepted : Bool} {payload : Nat} {iphdr hdr : IpHdr} {p : List Pbuf} {icmp : List Byte}
    (h : icmpInput accepted payload iphdr p = some (hdr, icmp)) :
    (hdr.dest = iphdr.src ∧ hdr.src = iphdr.dest ∧ icmp.length = (pbufData p).length ∧ icmp.drop 4 = (pbufData p).drop 4) ∧
      (∀ p', pbufData p' = icmp →
        (inetChksumPbuf p' = 0 ↔ ¬ ∃ n, pbufData p = [8, 0, 0xf7, 0xff] ++ List.replicate n 0)) ∧
      (∀ dataptr opts, opts.length ≤ 40 →
        (inetChksum dataptr (hdr.bytes ++ opts) = 0 ↔ Spec.inetSum opts = 0 ∨ Spec.inetSum opts = 65535)) := by
  unfold icmpInput at h
  split at h
  case h_2 => cases h
  case h_1 type code c0 c1 data hp =>
    split at h
    case isFalse => cases h
    case isTrue htype =>
      subst htype
      split at h
      · cases h
      split at h
      · cases h
      split at h
      · cases h
      rename_i hchk
      simp only [Option.some.injEq, Prod.mk.injEq] at h
      obtain ⟨rfl, rfl⟩ := h
      have hsum := (inetChksumPbuf_eq_zero p).mp (not_not.mp hchk)
      rw [hp] at hsum
      obtain ⟨hdvd, hzero⟩ := icmpReply_sum hsum.2
      refine ⟨⟨rfl, rfl, ?_, ?_⟩, ?_, ?_⟩
      · rw [hp]
        rfl
      · rw [hp]
        rfl
      · intro p' hp'
        rw [inetChksumPbuf_eq_zero, hp', hp, Ne, hzero]
        constructor
        · rintro ⟨hne, -⟩ ⟨n, hn⟩
          refine hne ?_
          have hlen := congrArg List.length hn
          simp only [List.length_cons, List.length_append, List.length_replicate, List.length_nil] at hlen
          rw [hn, show data.length = n by omega]
        · exact fun hne => ⟨fun heq => hne ⟨_, heq⟩, hdvd⟩
      · intro dataptr opts hopts
        have hlen : ((icmpReplyHdr payload iphdr).bytes ++ opts).length ≤ 0x20000 := by
          rw [List.length_append, IpHdr.length_bytes]
          omega
        have hread := inetChksum_toNat dataptr hlen
        have hz : (0 : BitVec 16).toNat = 0 := rfl
        have heven : (icmpReplyHdr payload iphdr).bytes.length % 2 = 0 := by rw [IpHdr.length_bytes]
        have hadd := onesSum_add_leValue_even 0 heven opts
        rw [Nat.zero_add, Nat.zero_add, ← onesSum_ones_add, icmpReplyHdr_sum] at hadd
        have hmax := @onesSum_eq_max_iff 65535 (65535 + leValue opts) (by decide)
        rw [hadd] at hread
        rw [dvd_inetSum]
        constructor
        · intro h0
          rw [h0] at hread
          have hle := @onesSum_le 65535 (65535 + leValue opts) (by decide)
          have := (hmax.mp (by omega)).2
          omega
        · intro hdvd
          exact BitVec.eq_of_toNat_eq (by rw [hread, hmax.mpr ⟨by omega, by omega⟩, hz])

/-- The reply to the request that is all zero. -/
theorem echo_reply_verifies_zero : inetChksumPbuf [⟨0, [0, 0, 0, 0, 0, 0, 0, 0], by decide⟩] ≠ 0 := fun h =>
  ((echo_reply_verifies (show icmpInput true 0 ⟨0x45, 0x1c00, 0, 0, 64, 1, 0, 0x0104a8c0, 0x0204a8c0⟩
    [⟨0, [8, 0, 0xf7, 0xff, 0, 0, 0, 0], by decide⟩] = some (_, [0, 0, 0, 0, 0, 0, 0, 0]) from rfl)).2.1
      [⟨0, [0, 0, 0, 0, 0, 0, 0, 0], by decide⟩] rfl).mp h ⟨4, rfl⟩

end Nonos
