import NonosSdk.Proof.InetChksum.Words

/-!
# The versions of `lwip_standard_chksum` agree

Each of the three gives the checksum of the specification, in the order of the
host, wherever the data lie: the first for as many bytes as its 16-bit length
can say, the second for as many as its comment says, the third for any.
-/

namespace Nonos

/-! ## The loops -/

theorem chksumLoop_value (sum : Word) (bs : List Byte) (h : sum.toNat + 65535 * (bs.length / 2) < 2 ^ 32) :
    (chksumLoop sum bs).2.length = bs.length % 2 ∧
      (chksumLoop sum bs).1.toNat ≤ sum.toNat + 65535 * (bs.length / 2) ∧
      onesSum 65535 ((chksumLoop sum bs).1.toNat + leValue (chksumLoop sum bs).2) = onesSum 65535 (sum.toNat + leValue bs) := by
  fun_induction chksumLoop sum bs with
  | case1 sum b0 b1 rest ih =>
    have hlen : (b0 :: b1 :: rest).length = rest.length + 2 := rfl
    have h0 := b0.isLt
    have h1 := b1.isLt
    have hadd : (sum + load16 b0 b1).toNat = sum.toNat + (b0.toNat + 256 * b1.toNat) := by
      rw [BitVec.toNat_add, load16_toNat, Nat.mod_eq_of_lt (by omega)]
    obtain ⟨hr, hle, hv⟩ := ih (by omega)
    refine ⟨by omega, by omega, ?_⟩
    rw [hv, hadd]
    refine Eq.trans ?_ (@onesSum_add_leValue_even sum.toNat [b0, b1] (by simp) rest).symm
    simp only [leValue_cons, leValue_nil, Nat.mul_zero, Nat.add_zero]
  | case2 sum rest hne =>
    have hlen : rest.length ≤ 1 := by
      rcases rest with _ | ⟨b0, _ | ⟨b1, rest⟩⟩
      · exact Nat.zero_le _
      · exact Nat.le_refl _
      · exact absurd rfl (hne b0 b1 rest)
    exact ⟨(Nat.mod_eq_of_lt (Nat.lt_of_le_of_lt hlen (by decide))).symm, Nat.le_add_right .., rfl⟩

theorem chksumNetLoop_value (acc : Word) (bs : List Byte) (h : acc.toNat + 65535 * (bs.length / 2) < 2 ^ 32) :
    (chksumNetLoop acc bs).2.length = bs.length % 2 ∧
      (chksumNetLoop acc bs).1.toNat ≤ acc.toNat + 65535 * (bs.length / 2) ∧
      onesSum 65535 ((chksumNetLoop acc bs).1.toNat + 256 * leValue (chksumNetLoop acc bs).2) =
        onesSum 65535 (acc.toNat + 256 * leValue bs) := by
  fun_induction chksumNetLoop acc bs with
  | case1 acc b0 b1 rest src ih =>
    have hlen : (b0 :: b1 :: rest).length = rest.length + 2 := rfl
    have h0 := b0.isLt
    have h1 := b1.isLt
    have hsrc : src.toNat = 256 * b0.toNat + b1.toNat := by
      have h1' : (b1.setWidth 16).toNat = b1.toNat := BitVec.toNat_setWidth_of_le (by decide)
      have h0' : (b0.setWidth 16 <<< 8 : BitVec 16).toNat = 2 ^ 8 * b0.toNat := by
        rw [BitVec.toNat_shiftLeft, BitVec.toNat_setWidth_of_le (by decide), Nat.shiftLeft_eq]
        omega
      rw [BitVec.toNat_or, h1', h0', ← Nat.two_pow_add_eq_or_of_lt h1]
    have hadd : (acc + src.setWidth 32).toNat = acc.toNat + (256 * b0.toNat + b1.toNat) := by
      rw [BitVec.toNat_add, BitVec.toNat_setWidth_of_le (by decide), hsrc, Nat.mod_eq_of_lt (by omega)]
    obtain ⟨hr, hle, hv⟩ := ih (by omega)
    refine ⟨by omega, by omega, ?_⟩
    rw [hv, hadd, leValue_cons, leValue_cons]
    refine onesSum_congr ?_ (by omega)
    unfold Nat.ModEq
    omega
  | case2 acc rest hne =>
    have hlen : rest.length ≤ 1 := by
      rcases rest with _ | ⟨b0, _ | ⟨b1, rest⟩⟩
      · exact Nat.zero_le _
      · exact Nat.le_refl _
      · exact absurd rfl (hne b0 b1 rest)
    exact ⟨(Nat.mod_eq_of_lt (Nat.lt_of_le_of_lt hlen (by decide))).symm, Nat.le_add_right .., rfl⟩

/-- The carry out of 32 bits is worth 1, as 65535 divides `2 ^ 32 - 1`. -/
theorem onesSum_addCarry (sum l : Word) : onesSum 65535 (addCarry sum l).toNat = onesSum 65535 (sum.toNat + l.toNat) := by
  have hs := sum.isLt
  have hl := l.isLt
  have hval : (addCarry sum l).toNat =
      if sum.toNat + l.toNat ≤ 4294967295 then sum.toNat + l.toNat else sum.toNat + l.toNat - 4294967295 := by
    have htmp : (sum + l).toNat = (sum.toNat + l.toNat) % 2 ^ 32 := BitVec.toNat_add ..
    unfold addCarry
    by_cases hle : sum.toNat + l.toNat ≤ 4294967295
    · rw [if_pos hle, if_neg (by rw [BitVec.lt_def]; omega), htmp, Nat.mod_eq_of_lt (by omega)]
    · rw [if_neg hle, if_pos (by rw [BitVec.lt_def]; omega), BitVec.toNat_add, htmp, show (1 : Word).toNat = 1 from rfl]
      omega
  rw [hval]
  exact onesSum_carry (by decide)

theorem chksumLongLoop_value (sum : Word) (bs : List Byte) :
    (chksumLongLoop sum bs).2.length < 8 ∧
      onesSum 65535 ((chksumLongLoop sum bs).1.toNat + leValue (chksumLongLoop sum bs).2) =
        onesSum 65535 (sum.toNat + leValue bs) := by
  fun_induction chksumLongLoop sum bs with
  | case1 sum b0 b1 b2 b3 b4 b5 b6 b7 rest ih =>
    refine ⟨ih.1, ?_⟩
    rw [ih.2, ← onesSum_ones_add, onesSum_addCarry, onesSum_ones_add, Nat.add_assoc, ← onesSum_ones_add, onesSum_addCarry, onesSum_ones_add,
      load32_toNat, load32_toNat]
    have hfour := @onesSum_add_leValue_even sum.toNat [b0, b1, b2, b3] (by simp) ([b4, b5, b6, b7] ++ rest)
    have height := @onesSum_add_leValue_even (sum.toNat + leValue [b0, b1, b2, b3]) [b4, b5, b6, b7] (by simp) rest
    refine Eq.trans ?_ (hfour.trans height).symm
    exact congrArg _ (by omega)
  | case2 sum rest hne =>
    refine ⟨?_, rfl⟩
    rcases rest with _ | ⟨b0, _ | ⟨b1, _ | ⟨b2, _ | ⟨b3, _ | ⟨b4, _ | ⟨b5, _ | ⟨b6, _ | ⟨b7, rest⟩⟩⟩⟩⟩⟩⟩⟩
    case cons.cons.cons.cons.cons.cons.cons.cons => exact absurd rfl (hne b0 b1 b2 b3 b4 b5 b6 b7 rest)
    all_goals simp only [List.length_cons, List.length_nil, Nat.zero_add, Nat.reduceAdd, Nat.reduceLT]

/-- One word up to the next 4-byte boundary. -/
theorem chksumWord_value (ps : Nat) (bs : List Byte) :
    onesSum 65535 ((chksumWord ps bs).1.toNat + leValue (chksumWord ps bs).2) = onesSum 65535 (leValue bs) := by
  have hz : (0 : Word).toNat = 0 := rfl
  fun_cases chksumWord ps bs with
  | case1 b0 b1 rest hps =>
    have hsplit := @onesSum_add_leValue_even 0 [b0, b1] (by simp) rest
    rw [Nat.zero_add, Nat.zero_add] at hsplit
    refine Eq.trans ?_ hsplit.symm
    simp only [load16_toNat, leValue_cons, leValue_nil, Nat.mul_zero, Nat.add_zero]
  | case2 b0 b1 rest hps => rw [hz, Nat.zero_add]
  | case3 bs hne => rw [hz, Nat.zero_add]

/-! ## The ends -/

/-- What an odd address multiplies by. -/
def oddFactor (odd : Bool) : Nat := if odd then 256 else 1

theorem onesSum_oddFactor_mul (odd : Bool) (n : Nat) :
    onesSum 65535 (oddFactor odd * (oddFactor odd * n)) = onesSum 65535 n := by
  cases odd with
  | false => rw [oddFactor, if_neg (by decide), Nat.one_mul, Nat.one_mul]
  | true =>
    rw [oddFactor, if_pos rfl]
    refine onesSum_congr ?_ (by omega)
    unfold Nat.ModEq
    omega

/-- The byte before the first word, and what follows it. -/
theorem chksumHead_value (odd : Bool) (data : List Byte) :
    (256 * (chksumHead odd data).1.toNat ≤ 65280 * (data.length - (chksumHead odd data).2.length)) ∧
      (chksumHead odd data).2.length ≤ data.length ∧
      onesSum 65535 (256 * (chksumHead odd data).1.toNat + leValue (chksumHead odd data).2) =
        onesSum 65535 (oddFactor odd * leValue data) := by
  cases data with
  | nil => simp [chksumHead]
  | cons b rest =>
    cases odd with
    | false => simp [chksumHead, oddFactor]
    | true =>
      have hb := b.isLt
      simp only [chksumHead, oddFactor, if_true, List.length_cons]
      refine ⟨by omega, by omega, ?_⟩
      rw [leValue_cons]
      refine onesSum_congr ?_ (by omega)
      unfold Nat.ModEq
      omega

/-- The end of the second and of the third version, whatever they have added and left. -/
theorem chksumEnd_value {odd : Bool} {t1 : Byte} {sum : Word} {rest : List Byte} (hrest : rest.length ≤ 1)
    (h : sum.toNat + 255 * rest.length + 256 * t1.toNat < 2 ^ 32) :
    (chksumEnd odd t1 sum rest).toNat =
      onesSum 65535 (oddFactor odd * (256 * t1.toNat + (sum.toNat + leValue rest))) := by
  have hhead : (rest.headD 0).toNat = leValue rest ∧ leValue rest ≤ 255 * rest.length := by
    rcases rest with _ | ⟨b, _ | ⟨c, rest⟩⟩
    · exact ⟨rfl, Nat.le_refl _⟩
    · have hb := b.isLt
      rw [leValue_cons, leValue_nil]
      simp only [List.headD_cons, List.length_singleton]
      omega
    · exact absurd hrest (by simp)
  have hadd : (sum + load16 (rest.headD 0) t1).toNat = 256 * t1.toNat + (sum.toNat + leValue rest) := by
    rw [BitVec.toNat_add, load16_toNat, hhead.1, Nat.mod_eq_of_lt (by omega)]
    omega
  have hfold := foldU32t_foldU32t (sum + load16 (rest.headD 0) t1)
  have hlt : ∀ n, onesSum 65535 n < 2 ^ 16 := fun n => Nat.lt_of_le_of_lt (onesSum_le (by decide)) (by decide)
  rw [hadd] at hfold
  unfold chksumEnd oddFactor
  cases odd with
  | false =>
    simp only [Bool.false_eq_true, if_false, Nat.one_mul]
    rw [BitVec.toNat_setWidth, hfold, Nat.mod_eq_of_lt (hlt _)]
  | true =>
    simp only [if_true]
    rw [BitVec.toNat_setWidth, swapBytesInWord_toNat (by rw [hfold]; exact onesSum_le (by decide)), hfold, onesSum_mul,
      Nat.mod_eq_of_lt (hlt _)]

/-! ## The versions -/

theorem and_high_eq_zero {u : Word} (h : u &&& 0xffff0000 = 0) : u.toNat < 65536 := by
  have hshift : (u >>> 16) &&& 0xffff = 0 := by
    have h' : (u &&& 0xffff0000) >>> 16 = 0 := by rw [h]; rfl
    rwa [BitVec.ushiftRight_and_distrib] at h'
  have hnat := congrArg BitVec.toNat hshift
  rw [BitVec.toNat_and, show (0xffff : Word).toNat = 2 ^ 16 - 1 from rfl, Nat.and_two_pow_sub_one_eq_mod,
    BitVec.toNat_ushiftRight, Nat.shiftRight_eq_div_pow] at hnat
  have hu := u.isLt
  have hz : (0 : Word).toNat = 0 := rfl
  omega

/-- The end of the first version. -/
theorem chksumNetEnd_value (acc : Word) :
    (htons ((if foldU32t acc &&& 0xffff0000 ≠ 0 then foldU32t (foldU32t acc) else foldU32t acc).setWidth 16)).toNat =
      onesSum 65535 (256 * acc.toNat) := by
  have hfold : (if foldU32t acc &&& 0xffff0000 ≠ 0 then foldU32t (foldU32t acc) else foldU32t acc).toNat =
      onesSum 65535 acc.toNat := by
    split
    · exact foldU32t_foldU32t acc
    · rename_i hz
      have hlt := and_high_eq_zero (not_not.mp hz)
      have hone : onesSum 65535 (foldU32t acc).toNat = (foldU32t acc).toNat := onesSum_of_le (by omega)
      rw [← hone, onesSum_foldU32t]
  have hone : onesSum 65535 acc.toNat ≤ 65535 := onesSum_le (by decide)
  rw [htons_toNat, BitVec.toNat_setWidth, hfold, Nat.mod_eq_of_lt (by omega), onesSum_mul]

theorem onesSum_65536_mul (n : Nat) : onesSum 65535 (256 * (256 * n)) = onesSum 65535 n := onesSum_oddFactor_mul true n

theorem lwipStandardChksum1_toNat {data : List Byte} (h : data.length < 2 ^ 16) :
    (lwipStandardChksum1 data).toNat = onesSum 65535 (leValue data) := by
  have hz : (0 : Word).toNat = 0 := rfl
  obtain ⟨hr, hle, hv⟩ := chksumNetLoop_value 0 data (by omega)
  unfold lwipStandardChksum1
  generalize chksumNetLoop 0 data = r at hr hle hv ⊢
  obtain ⟨acc, rest⟩ := r
  simp only [hz, Nat.zero_add] at hr hle hv ⊢
  rcases rest with _ | ⟨b, _ | ⟨c, rest⟩⟩
  · refine (chksumNetEnd_value acc).trans ?_
    rw [leValue_nil, Nat.mul_zero, Nat.add_zero] at hv
    rw [← onesSum_mul, hv, onesSum_mul, onesSum_65536_mul]
  · have hb := b.isLt
    have hsrc : ((b.setWidth 16 <<< 8 : BitVec 16).setWidth 32 : Word).toNat = 256 * b.toNat := by
      rw [BitVec.toNat_setWidth_of_le (by decide), BitVec.toNat_shiftLeft, BitVec.toNat_setWidth_of_le (by decide),
        Nat.shiftLeft_eq]
      omega
    refine (chksumNetEnd_value _).trans ?_
    rw [BitVec.toNat_add, hsrc, Nat.mod_eq_of_lt (by omega)]
    rw [leValue_cons, leValue_nil, Nat.mul_zero, Nat.add_zero] at hv
    rw [← onesSum_mul, hv, onesSum_mul, onesSum_65536_mul]
  · simp only [List.length_cons] at hr
    omega

theorem lwipStandardChksum2_toNat (dataptr : Nat) {data : List Byte} (h : data.length ≤ 0x20000) :
    (lwipStandardChksum2 dataptr data).toNat = onesSum 65535 (leValue data) := by
  have hz : (0 : Word).toNat = 0 := rfl
  obtain ⟨ht, hlen, hv⟩ := chksumHead_value (decide (dataptr % 2 = 1)) data
  simp only [lwipStandardChksum2]
  generalize chksumHead (decide (dataptr % 2 = 1)) data = head at ht hlen hv ⊢
  obtain ⟨hr, hle, hsum⟩ := chksumLoop_value 0 head.2 (by omega)
  rw [chksumEnd_value (by omega) (by omega), ← onesSum_mul, ← onesSum_add_ones, hsum, onesSum_add_ones, hz, Nat.zero_add, hv, onesSum_mul,
    onesSum_oddFactor_mul]

theorem lwipStandardChksum3_toNat (dataptr : Nat) (data : List Byte) :
    (lwipStandardChksum3 dataptr data).toNat = onesSum 65535 (leValue data) := by
  obtain ⟨ht, hlen, hv⟩ := chksumHead_value (decide (dataptr % 2 = 1)) data
  simp only [lwipStandardChksum3]
  generalize chksumHead (decide (dataptr % 2 = 1)) data = head at ht hlen hv ⊢
  generalize (if decide (dataptr % 2 = 1) = true ∧ data ≠ [] then dataptr + 1 else dataptr) = ps
  have hword := chksumWord_value ps head.2
  generalize chksumWord ps head.2 = word at hword ⊢
  obtain ⟨hlong, hlv⟩ := chksumLongLoop_value word.1 word.2
  generalize chksumLongLoop word.1 word.2 = long at hlong hlv ⊢
  have hfold : (foldU32t long.1).toNat ≤ 131070 := by
    have := long.1.isLt
    rw [foldU32t_toNat]
    omega
  obtain ⟨hr, hle, hloop⟩ := chksumLoop_value (foldU32t long.1) long.2 (by omega)
  have ht1 := head.1.isLt
  rw [chksumEnd_value (by omega) (by omega), ← onesSum_mul, ← onesSum_add_ones, hloop, ← onesSum_ones_add _ (foldU32t long.1).toNat,
    onesSum_foldU32t, onesSum_ones_add, hlv, hword, onesSum_add_ones, hv, onesSum_mul, onesSum_oddFactor_mul]

/-- The versions agree with the specification, at any address. -/
theorem standard_chksum_correct (dataptr : Nat) (data : List Byte) :
    lwipStandardChksum3 dataptr data = htons (BitVec.ofNat 16 (Spec.inetSum data)) ∧
      (data.length ≤ 0x20000 → lwipStandardChksum2 dataptr data = htons (BitVec.ofNat 16 (Spec.inetSum data))) ∧
      (data.length < 2 ^ 16 → lwipStandardChksum1 data = htons (BitVec.ofNat 16 (Spec.inetSum data))) := by
  refine ⟨?_, fun h => ?_, fun h => ?_⟩
  · exact BitVec.eq_of_toNat_eq (by rw [lwipStandardChksum3_toNat, htons_inetSum])
  · exact BitVec.eq_of_toNat_eq (by rw [lwipStandardChksum2_toNat dataptr h, htons_inetSum])
  · exact BitVec.eq_of_toNat_eq (by rw [lwipStandardChksum1_toNat h, htons_inetSum])

theorem standard_chksum_correct_five :
    lwipStandardChksum2 3 [0x45, 0, 0, 0x54, 0xa6] = htons (BitVec.ofNat 16 (Spec.inetSum [0x45, 0, 0, 0x54, 0xa6])) :=
  (standard_chksum_correct 3 [0x45, 0, 0, 0x54, 0xa6]).2.1 (by decide)

end Nonos
