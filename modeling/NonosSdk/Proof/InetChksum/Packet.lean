import NonosSdk.Impl.Icmp
import NonosSdk.Proof.InetChksum.Standard

/-!
# The checksum of a packet

A packet is a chain of pbufs, cut anywhere and lying anywhere. The loops keep
`acc` right for what has been read up to a factor of 256, which `swapped` says
(`chksumPbuf_value`): a pbuf of odd length swaps the bytes of everything before
it rather than of everything behind. So the checksum does not depend on how the
packet is cut (`chksumPbufs_value`, `chksumPbufsPartial_value`), and is the
complement of the sum of the specification (`chksum_packet`).
-/

namespace Nonos

theorem pbufData_cons (q : Pbuf) (p : List Pbuf) : pbufData (q :: p) = q.bytes ++ pbufData p := rfl

theorem lwipChksum_toNat (dataptr : Nat) {data : List Byte} (h : data.length ≤ 0x20000) :
    (lwipChksum dataptr data).toNat = onesSum 65535 (leValue data) :=
  lwipStandardChksum2_toNat dataptr h

theorem onesSum_mul_congr {m a b : Nat} (c : Nat) (h : onesSum m a = onesSum m b) : onesSum m (c * a) = onesSum m (c * b) := by
  rw [← onesSum_mul, h, onesSum_mul]

theorem onesSum_add_congr {m a b : Nat} (c : Nat) (h : onesSum m a = onesSum m b) : onesSum m (a + c) = onesSum m (b + c) := by
  rw [← onesSum_ones_add, h, onesSum_ones_add]

theorem onesSum_leValue_append_odd (xs ys : List Byte) :
    onesSum 65535 (leValue (xs ++ ys)) =
      onesSum 65535 (leValue xs + oddFactor (decide (xs.length % 2 ≠ 0)) * leValue ys) := by
  rw [onesSum_leValue_append]
  by_cases h : xs.length % 2 = 0 <;> simp [oddFactor, h]

theorem oddFactor_not (odd : Bool) (n : Nat) :
    onesSum 65535 (oddFactor (!odd) * n) = onesSum 65535 (oddFactor odd * (256 * n)) := by
  cases odd with
  | false => simp [oddFactor]
  | true =>
    rw [Bool.not_true, oddFactor, if_neg (by decide), Nat.one_mul]
    exact (onesSum_65536_mul n).symm

/-- One pbuf: the sum with whatever is to follow. -/
theorem chksumPbuf_value {acc : Word} (hacc : acc.toNat ≤ 65535) (swapped : Bool) (q : Pbuf) (chklen n : Nat) :
    (chksumPbuf acc swapped q chklen).1.toNat ≤ 65535 ∧
      onesSum 65535 (oddFactor (chksumPbuf acc swapped q chklen).2 * ((chksumPbuf acc swapped q chklen).1.toNat + n)) =
        onesSum 65535 (oddFactor swapped * (acc.toNat +
          (leValue (q.bytes.take chklen) + oddFactor (decide (q.bytes.length % 2 ≠ 0)) * n))) := by
  have hlen : (q.bytes.take chklen).length ≤ 0x20000 := by
    have := q.len_lt
    rw [List.length_take]
    omega
  have hchk := lwipChksum_toNat q.payload hlen
  have hle : onesSum 65535 (leValue (q.bytes.take chklen)) ≤ 65535 := onesSum_le (by decide)
  have hadd : (acc + (lwipChksum q.payload (q.bytes.take chklen)).setWidth 32).toNat =
      acc.toNat + onesSum 65535 (leValue (q.bytes.take chklen)) := by
    rw [BitVec.toNat_add, BitVec.toNat_setWidth_of_le (by decide), hchk, Nat.mod_eq_of_lt (by omega)]
  have hfold : (foldU32t (acc + (lwipChksum q.payload (q.bytes.take chklen)).setWidth 32)).toNat =
      onesSum 65535 (acc.toNat + leValue (q.bytes.take chklen)) := by
    rw [foldU32t_of_add (by omega), hadd, onesSum_add_ones]
  have hsum : ∀ m, onesSum 65535 (acc.toNat + leValue (q.bytes.take chklen)) ≤ 65535 ∧
      onesSum 65535 (onesSum 65535 (acc.toNat + leValue (q.bytes.take chklen)) + m) =
        onesSum 65535 (acc.toNat + (leValue (q.bytes.take chklen) + m)) := fun m =>
    ⟨onesSum_le (by decide), by rw [onesSum_ones_add, Nat.add_assoc]⟩
  unfold chksumPbuf
  by_cases hodd : q.bytes.length % 2 ≠ 0
  · rw [if_pos hodd, decide_eq_true hodd]
    have hswap := @swapBytesInWord_toNat (foldU32t (acc + (lwipChksum q.payload (q.bytes.take chklen)).setWidth 32))
      (hfold ▸ (hsum 0).1)
    rw [hfold, onesSum_mul] at hswap
    refine ⟨hswap ▸ onesSum_le (by decide), ?_⟩
    -- the swap of what is before is a swap of what is behind, up to 65536
    rw [oddFactor_not, hswap]
    refine onesSum_mul_congr _ ?_
    rw [← onesSum_mul, onesSum_ones_add, onesSum_mul, Nat.mul_add, ← onesSum_ones_add, onesSum_65536_mul, onesSum_ones_add, Nat.add_assoc]
    rfl
  · rw [if_neg hodd, decide_eq_false hodd]
    refine ⟨hfold ▸ (hsum 0).1, ?_⟩
    refine onesSum_mul_congr _ ?_
    rw [hfold, (hsum n).2, oddFactor, if_neg (by decide), Nat.one_mul]

theorem chksumSwap_value {acc : Word} (hacc : acc.toNat ≤ 65535) (swapped : Bool) :
    (if swapped then swapBytesInWord acc else acc).toNat = onesSum 65535 (oddFactor swapped * acc.toNat) := by
  cases swapped with
  | false => rw [if_neg (by decide), oddFactor, if_neg (by decide), Nat.one_mul, onesSum_of_le hacc]
  | true => rw [if_pos rfl, swapBytesInWord_toNat hacc, oddFactor, if_pos rfl]

/-- A pbuf that is read whole, with the packet behind it. -/
theorem chksumPbuf_packet {acc : Word} (hacc : acc.toNat ≤ 65535) (swapped : Bool) (q : Pbuf) {chklen : Nat}
    (hq : q.bytes.length ≤ chklen) (bs : List Byte) :
    onesSum 65535 (oddFactor (chksumPbuf acc swapped q chklen).2 *
        ((chksumPbuf acc swapped q chklen).1.toNat + leValue bs)) =
      onesSum 65535 (oddFactor swapped * (acc.toNat + leValue (q.bytes ++ bs))) := by
  rw [(chksumPbuf_value hacc swapped q chklen (leValue bs)).2, List.take_of_length_le hq]
  refine onesSum_mul_congr _ ?_
  rw [← onesSum_add_ones, ← onesSum_leValue_append_odd, onesSum_add_ones]

theorem chksumPbufs_value (p : List Pbuf) {acc : Word} (hacc : acc.toNat ≤ 65535) (swapped : Bool) :
    (chksumPbufs p acc swapped).toNat = onesSum 65535 (oddFactor swapped * (acc.toNat + leValue (pbufData p))) := by
  induction p generalizing acc swapped with
  | nil => exact chksumSwap_value hacc swapped
  | cons q p ih =>
    rw [chksumPbufs, ih (chksumPbuf_value hacc swapped q q.bytes.length 0).1, pbufData_cons]
    exact chksumPbuf_packet hacc swapped q (Nat.le_refl _) (pbufData p)

theorem chksumPbufsPartial_value (p : List Pbuf) (chksumLen : Nat) {acc : Word} (hacc : acc.toNat ≤ 65535) (swapped : Bool) :
    (chksumPbufsPartial p chksumLen acc swapped).toNat =
      onesSum 65535 (oddFactor swapped * (acc.toNat + leValue ((pbufData p).take chksumLen))) := by
  induction p generalizing chksumLen acc swapped with
  | nil =>
    rw [pbufData, List.flatMap_nil, List.take_nil]
    exact chksumSwap_value hacc swapped
  | cons q p ih =>
    rw [chksumPbufsPartial, pbufData_cons]
    by_cases h0 : chksumLen > 0
    · rw [if_pos h0]
      have hstep := chksumPbuf_value hacc swapped q (min q.bytes.length chksumLen) 0
      rw [ih _ hstep.1]
      by_cases hle : q.bytes.length ≤ chksumLen
      · rw [List.take_append, List.take_of_length_le hle, Nat.min_eq_left hle]
        exact chksumPbuf_packet hacc swapped q (Nat.le_refl _) _
      · -- the last pbuf is read in part, so that nothing follows and its own swap is undone
        have hmin : min q.bytes.length chksumLen = chksumLen := Nat.min_eq_right (by omega)
        rw [hmin] at hstep ⊢
        rw [Nat.sub_self, List.take_zero, leValue_nil, hstep.2, Nat.mul_zero, Nat.add_zero,
          List.take_append_of_le_length (by omega)]
    · rw [if_neg h0, Nat.eq_zero_of_not_pos h0, List.take_zero]
      exact chksumSwap_value hacc swapped

/-! ## The pseudo-header -/

theorem leValue_addrBytes (addr : Word) : leValue (addrBytes addr) = addr.toNat := by
  have h := addr.isLt
  simp only [addrBytes, leValue_cons, leValue_nil, BitVec.toNat_setWidth, BitVec.toNat_ushiftRight, Nat.shiftRight_eq_div_pow]
  omega

/-- The two halves of an address are added one after the other. -/
theorem onesSum_add_halves (n : Nat) (addr : Word) :
    onesSum 65535 (n + (addr &&& 0xffff).toNat + ((addr >>> 16) &&& 0xffff).toNat) = onesSum 65535 (n + addr.toNat) := by
  have hlow : (addr &&& 0xffff).toNat = addr.toNat % 65536 := by
    rw [BitVec.toNat_and, show (0xffff : Word).toNat = 2 ^ 16 - 1 from rfl, Nat.and_two_pow_sub_one_eq_mod]
  have hhigh : ((addr >>> 16) &&& 0xffff).toNat = addr.toNat / 65536 := by
    have := addr.isLt
    rw [BitVec.toNat_and, show (0xffff : Word).toNat = 2 ^ 16 - 1 from rfl, Nat.and_two_pow_sub_one_eq_mod,
      BitVec.toNat_ushiftRight, Nat.shiftRight_eq_div_pow]
    omega
  rw [hlow, hhigh, Nat.add_assoc, Nat.add_comm (addr.toNat % 65536), ← onesSum_add_ones, onesSum_fold, onesSum_add_ones]

theorem length_addrBytes (addr : Word) : (addrBytes addr).length = 4 := rfl

theorem leValue_pseudoHeader (src dest : Word) (proto : Byte) (length : BitVec 16) (bs : List Byte) :
    onesSum 65535 (leValue (Spec.pseudoHeader (addrBytes src) (addrBytes dest) proto length ++ bs)) =
      onesSum 65535 (src.toNat + dest.toNat + (htons (proto.setWidth 16)).toNat + (htons length).toNat + leValue bs) := by
  have hproto : (htons (proto.setWidth 16)).toNat = leValue [0, proto] := by
    have h := proto.isLt
    have hz : (0 : Byte).toNat = 0 := rfl
    rw [htons_toNat, BitVec.toNat_setWidth_of_le (by decide), onesSum_of_le (by omega), leValue_cons, leValue_cons, leValue_nil]
    omega
  have hlength : (htons length).toNat = leValue [(length >>> 8).setWidth 8, length.setWidth 8] := by
    have h := length.isLt
    rw [htons_toNat, ← onesSum_swap (by omega)]
    simp only [leValue_cons, leValue_nil, BitVec.toNat_setWidth, BitVec.toNat_ushiftRight, Nat.shiftRight_eq_div_pow]
    omega
  have hsplit : Spec.pseudoHeader (addrBytes src) (addrBytes dest) proto length ++ bs =
      addrBytes src ++ (addrBytes dest ++ ([0, proto] ++ ([(length >>> 8).setWidth 8, length.setWidth 8] ++ bs))) := by
    simp [Spec.pseudoHeader]
  rw [hsplit, ← Nat.zero_add (leValue _), onesSum_add_leValue_even _ (by rw [length_addrBytes]),
    onesSum_add_leValue_even _ (by rw [length_addrBytes]), onesSum_add_leValue_even _ (by simp), onesSum_add_leValue_even _ (by simp),
    leValue_addrBytes, leValue_addrBytes, hproto, hlength, Nat.zero_add]

theorem toNat_add_half {acc w : Word} {n : Nat} (hacc : acc.toNat ≤ 65535 * n) (hn : n < 60000) (hw : w.toNat ≤ 65535) :
    (acc + w).toNat = acc.toNat + w.toNat ∧ (acc + w).toNat ≤ 65535 * (n + 1) := by
  have h : (acc + w).toNat = acc.toNat + w.toNat := by
    rw [BitVec.toNat_add, Nat.mod_eq_of_lt (by omega)]
  exact ⟨h, by omega⟩

/-- The end of the functions that add a pseudo-header. -/
theorem chksumPseudo_toNat {acc : Word} (hacc : acc.toNat ≤ 65535) (src dest : Word) (proto : Byte) (protoLen : BitVec 16)
    {bs : List Byte} (hbs : acc.toNat = onesSum 65535 (leValue bs)) :
    (chksumPseudo acc src dest proto protoLen).toNat =
      65535 - onesSum 65535 (leValue (Spec.pseudoHeader (addrBytes src) (addrBytes dest) proto protoLen ++ bs)) := by
  have hmask : ∀ w : Word, (w &&& 0xffff).toNat = w.toNat % 65536 := fun w => by
    rw [BitVec.toNat_and, show (0xffff : Word).toNat = 2 ^ 16 - 1 from rfl, Nat.and_two_pow_sub_one_eq_mod]
  have hhalf : ∀ w : Word, (w &&& 0xffff).toNat ≤ 65535 := fun w => by
    rw [hmask]
    omega
  have hshort : ∀ h : BitVec 16, (h.setWidth 32 : Word).toNat = h.toNat ∧ (h.setWidth 32 : Word).toNat ≤ 65535 := fun h => by
    rw [BitVec.toNat_setWidth_of_le (by decide)]
    exact ⟨rfl, Nat.le_of_lt_succ h.isLt⟩
  obtain ⟨e1, b1⟩ := toNat_add_half (n := 1) hacc (by decide) (hhalf src)
  obtain ⟨e2, b2⟩ := toNat_add_half b1 (by decide) (hhalf (src >>> 16))
  obtain ⟨e3, b3⟩ := toNat_add_half b2 (by decide) (hhalf dest)
  obtain ⟨e4, b4⟩ := toNat_add_half b3 (by decide) (hhalf (dest >>> 16))
  obtain ⟨e5, b5⟩ := toNat_add_half b4 (by decide) (hshort (htons (proto.setWidth 16))).2
  obtain ⟨e6, -⟩ := toNat_add_half b5 (by decide) (hshort (htons protoLen)).2
  have hdest := onesSum_add_halves (acc.toNat + (src &&& 0xffff).toNat + ((src >>> 16) &&& 0xffff).toNat) dest
  have hsrc := onesSum_add_halves acc.toNat src
  have hsum : onesSum 65535 (acc.toNat + (src &&& 0xffff).toNat + ((src >>> 16) &&& 0xffff).toNat + (dest &&& 0xffff).toNat +
      ((dest >>> 16) &&& 0xffff).toNat + (htons (proto.setWidth 16)).toNat + (htons protoLen).toNat) =
        onesSum 65535 (leValue (Spec.pseudoHeader (addrBytes src) (addrBytes dest) proto protoLen ++ bs)) := by
    rw [leValue_pseudoHeader, Nat.add_assoc _ (htons _).toNat, onesSum_add_congr _ hdest, Nat.add_assoc _ dest.toNat,
      onesSum_add_congr _ hsrc, hbs, Nat.add_assoc, onesSum_ones_add]
    exact congrArg _ (by ac_rfl)
  have hone := @onesSum_le 65535 (leValue (Spec.pseudoHeader (addrBytes src) (addrBytes dest) proto protoLen ++ bs)) (by decide)
  rw [chksumPseudo, BitVec.toNat_not, BitVec.toNat_setWidth, hmask, foldU32t_foldU32t, e6, e5, e4, e3, e2, e1, (hshort _).1,
    (hshort _).1, hsum]
  omega

/-! ## The checksums -/

theorem complement_toNat {c : BitVec 16} {bs : List Byte} (h : c.toNat = 65535 - onesSum 65535 (leValue bs)) :
    c = ~~~ htons (BitVec.ofNat 16 (Spec.inetSum bs)) := by
  refine BitVec.eq_of_toNat_eq ?_
  rw [h, BitVec.toNat_not, htons_inetSum]

theorem inetChksumPbuf_toNat (p : List Pbuf) : (inetChksumPbuf p).toNat = 65535 - onesSum 65535 (leValue (pbufData p)) := by
  have hacc := @chksumPbufs_value p 0 (by decide) false
  have hz : (0 : Word).toNat = 0 := rfl
  rw [hz, Nat.zero_add, oddFactor, if_neg (by decide), Nat.one_mul] at hacc
  have hone := @onesSum_le 65535 (leValue (pbufData p)) (by decide)
  rw [inetChksumPbuf, BitVec.toNat_not, BitVec.toNat_setWidth, hacc]
  omega

theorem inetChksumPseudo_toNat (p : List Pbuf) (src dest : Word) (proto : Byte) (protoLen : BitVec 16) :
    (inetChksumPseudo p src dest proto protoLen).toNat =
      65535 - onesSum 65535 (leValue (Spec.pseudoHeader (addrBytes src) (addrBytes dest) proto protoLen ++ pbufData p)) := by
  have hacc := @chksumPbufs_value p 0 (by decide) false
  have hz : (0 : Word).toNat = 0 := rfl
  rw [hz, Nat.zero_add, oddFactor, if_neg (by decide), Nat.one_mul] at hacc
  exact chksumPseudo_toNat (hacc ▸ onesSum_le (by decide)) src dest proto protoLen hacc

theorem inetChksumPseudoPartial_toNat (p : List Pbuf) (src dest : Word) (proto : Byte) (protoLen : BitVec 16) (chksumLen : Nat) :
    (inetChksumPseudoPartial p src dest proto protoLen chksumLen).toNat =
      65535 - onesSum 65535 (leValue (Spec.pseudoHeader (addrBytes src) (addrBytes dest) proto protoLen ++
        (pbufData p).take chksumLen)) := by
  have hacc := @chksumPbufsPartial_value p chksumLen 0 (by decide) false
  have hz : (0 : Word).toNat = 0 := rfl
  rw [hz, Nat.zero_add, oddFactor, if_neg (by decide), Nat.one_mul] at hacc
  exact chksumPseudo_toNat (hacc ▸ onesSum_le (by decide)) src dest proto protoLen hacc

/-- The checksum of a packet, however it is cut into pbufs and wherever they lie. -/
theorem chksum_packet (p : List Pbuf) (src dest : Word) (proto : Byte) (protoLen : BitVec 16) (chksumLen : Nat) :
    inetChksumPbuf p = ~~~ htons (BitVec.ofNat 16 (Spec.inetSum (pbufData p))) ∧
      inetChksumPseudo p src dest proto protoLen =
        ~~~ htons (BitVec.ofNat 16 (Spec.inetSum
          (Spec.pseudoHeader (addrBytes src) (addrBytes dest) proto protoLen ++ pbufData p))) ∧
      inetChksumPseudoPartial p src dest proto protoLen chksumLen =
        ~~~ htons (BitVec.ofNat 16 (Spec.inetSum
          (Spec.pseudoHeader (addrBytes src) (addrBytes dest) proto protoLen ++ (pbufData p).take chksumLen))) :=
  ⟨complement_toNat (inetChksumPbuf_toNat p), complement_toNat (inetChksumPseudo_toNat p src dest proto protoLen),
    complement_toNat (inetChksumPseudoPartial_toNat p src dest proto protoLen chksumLen)⟩

end Nonos
