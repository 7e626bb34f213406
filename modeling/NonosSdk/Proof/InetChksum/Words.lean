import NonosSdk.Framework.OnesSum
import NonosSdk.Impl.InetChksum
import NonosSdk.Spec.InetChksum

/-!
# The three versions of `lwip_standard_chksum`

Each loop keeps the value of what it has added and of what is left, modulo 65535
(`chksumLoop_value`, `chksumNetLoop_value`, `chksumLongLoop_value`); the two
folds at the end then give the sum of the bytes as a number in base 256
(`foldU32t_foldU32t`), an odd address 256 times it, which the swap takes back
(`chksumEnd_value`). The specification adds the words in network order, which is
256 times the number again (`htons_inetSum`).
-/

namespace Nonos

/-! ## Words -/

theorem lwipPlatformHtons_toNat (n : Word) :
    (lwipPlatformHtons n).toNat = n.toNat % 256 * 256 + n.toNat / 256 % 256 := by
  have h1 : ((n &&& 0xff) <<< 8).toNat = n.toNat % 256 * 256 := by
    rw [BitVec.toNat_shiftLeft, BitVec.toNat_and, show (0xff : Word).toNat = 2 ^ 8 - 1 from rfl, Nat.and_two_pow_sub_one_eq_mod,
      Nat.shiftLeft_eq]
    omega
  have h2 : ((n >>> 8) &&& 0xff).toNat = n.toNat / 256 % 256 := by
    rw [BitVec.toNat_and, show (0xff : Word).toNat = 2 ^ 8 - 1 from rfl, Nat.and_two_pow_sub_one_eq_mod,
      BitVec.toNat_ushiftRight, Nat.shiftRight_eq_div_pow]
  rw [lwipPlatformHtons, BitVec.toNat_setWidth, BitVec.toNat_or, h1, h2, Nat.mul_comm, ← Nat.two_pow_add_eq_or_of_lt
    (i := 8) (Nat.mod_lt _ (by decide)), Nat.mod_eq_of_lt (by omega)]

theorem onesSum_swap {n : Nat} (h : n ≤ 65535) : n % 256 * 256 + n / 256 % 256 = onesSum 65535 (256 * n) := by
  have hle : n % 256 * 256 + n / 256 % 256 ≤ 65535 := by omega
  have hmul : 256 * n = 65535 * (n / 256) + (n % 256 * 256 + n / 256 % 256) := by omega
  rw [← onesSum_of_le hle, hmul]
  exact onesSum_congr (Nat.mul_add_mod ..).symm (by omega)

/-- `htons` is a multiplication by 256. -/
theorem htons_toNat (n : BitVec 16) : (htons n).toNat = onesSum 65535 (256 * n.toNat) := by
  have hlt : n.toNat < 65536 := n.isLt
  rw [htons, lwipPlatformHtons_toNat, BitVec.toNat_setWidth_of_le (by decide), onesSum_swap (by omega)]

theorem swapBytesInWord_toNat {w : Word} (h : w.toNat ≤ 65535) :
    (swapBytesInWord w).toNat = onesSum 65535 (256 * w.toNat) := by
  rw [swapBytesInWord, BitVec.toNat_setWidth, lwipPlatformHtons_toNat, onesSum_swap h]
  exact Nat.mod_eq_of_lt (Nat.lt_of_le_of_lt (onesSum_le (by decide)) (by decide))

theorem foldU32t_toNat (u : Word) : (foldU32t u).toNat = u.toNat / 65536 + u.toNat % 65536 := by
  have h1 : (u &&& 0xffff).toNat = u.toNat % 65536 := by
    rw [BitVec.toNat_and, show (0xffff : Word).toNat = 2 ^ 16 - 1 from rfl, Nat.and_two_pow_sub_one_eq_mod]
  rw [foldU32t, BitVec.toNat_add, h1, BitVec.toNat_ushiftRight, Nat.shiftRight_eq_div_pow]
  omega

theorem onesSum_foldU32t (u : Word) : onesSum 65535 (foldU32t u).toNat = onesSum 65535 u.toNat := by
  rw [foldU32t_toNat]
  exact onesSum_fold 65535 u.toNat

/-- Two folds bring every carry round. -/
theorem foldU32t_foldU32t (u : Word) : (foldU32t (foldU32t u)).toNat = onesSum 65535 u.toNat := by
  have hle : (foldU32t (foldU32t u)).toNat ≤ 65535 := by
    rw [foldU32t_toNat, foldU32t_toNat]
    omega
  rw [← onesSum_of_le hle, onesSum_foldU32t, onesSum_foldU32t]

theorem foldU32t_of_add {u : Word} (h : u.toNat ≤ 65535 + 65535) : (foldU32t u).toNat = onesSum 65535 u.toNat := by
  have hle : (foldU32t u).toNat ≤ 65535 := by
    rw [foldU32t_toNat]
    omega
  rw [← onesSum_of_le hle, onesSum_foldU32t]

theorem load16_toNat (b0 b1 : Byte) : (load16 b0 b1).toNat = b0.toNat + 256 * b1.toNat := by
  rw [load16, BitVec.toNat_setWidth, BitVec.toNat_append, Nat.shiftLeft_eq, Nat.mul_comm b1.toNat,
    ← Nat.two_pow_add_eq_or_of_lt b0.isLt]
  omega

theorem load32_toNat (b0 b1 b2 b3 : Byte) : (load32 b0 b1 b2 b3).toNat = leValue [b0, b1, b2, b3] := by
  simp only [load32, BitVec.toNat_append, Nat.shiftLeft_eq, leValue_cons, leValue_nil]
  rw [Nat.mul_comm (_ ||| _) (2 ^ 8), ← Nat.two_pow_add_eq_or_of_lt b0.isLt, Nat.mul_comm (_ ||| _) (2 ^ 8),
    ← Nat.two_pow_add_eq_or_of_lt b1.isLt, Nat.mul_comm b3.toNat, ← Nat.two_pow_add_eq_or_of_lt b2.isLt]
  omega

/-- The bytes of a string that stand before the rest. -/
theorem onesSum_add_leValue_append (a : Nat) (xs ys : List Byte) :
    onesSum 65535 (a + leValue (xs ++ ys)) =
      onesSum 65535 (a + leValue xs + (if xs.length % 2 = 0 then 1 else 256) * leValue ys) := by
  rw [← onesSum_add_ones, onesSum_leValue_append, onesSum_add_ones, Nat.add_assoc]

theorem onesSum_add_leValue_even (a : Nat) {xs : List Byte} (h : xs.length % 2 = 0) (ys : List Byte) :
    onesSum 65535 (a + leValue (xs ++ ys)) = onesSum 65535 (a + leValue xs + leValue ys) := by
  rw [onesSum_add_leValue_append, if_pos h, Nat.one_mul]

/-! ## The specification -/

theorem onesAdd_eq {a b : Nat} (ha : a ≤ 65535) (hb : b ≤ 65535) : Spec.onesAdd a b = onesSum 65535 (a + b) := by
  have hle : Spec.onesAdd a b ≤ 65535 := by
    unfold Spec.onesAdd
    split <;> omega
  rw [← onesSum_of_le hle, ← onesSum_carry (Nat.dvd_refl 65535)]
  refine congrArg _ ?_
  unfold Spec.onesAdd
  split <;> split <;> omega

theorem foldl_onesAdd {ws : List Nat} (hws : ∀ w ∈ ws, w ≤ 65535) (a : Nat) (ha : a ≤ 65535) :
    ws.foldl Spec.onesAdd a = onesSum 65535 (a + ws.sum) := by
  induction ws generalizing a with
  | nil => exact (onesSum_of_le ha).symm
  | cons w ws ih =>
    have hw : w ≤ 65535 := hws w List.mem_cons_self
    rw [List.foldl_cons, onesAdd_eq ha hw, ih (fun w h => hws w (List.mem_cons_of_mem _ h)) _ (onesSum_le (by decide)),
      onesSum_ones_add, List.sum_cons, Nat.add_assoc]

theorem netWords_le (bs : List Byte) : ∀ w ∈ Spec.netWords bs, w ≤ 65535 := by
  fun_induction Spec.netWords bs with
  | case1 => simp
  | case2 b =>
    intro w hw
    have := b.isLt
    simp only [List.mem_singleton] at hw
    omega
  | case3 b c bs ih =>
    intro w hw
    rcases List.mem_cons.mp hw with rfl | hw
    · have := b.isLt
      have := c.isLt
      omega
    · exact ih w hw

/-- The network words are 256 times the number. -/
theorem onesSum_netWords (bs : List Byte) : onesSum 65535 (Spec.netWords bs).sum = onesSum 65535 (256 * leValue bs) := by
  fun_induction Spec.netWords bs with
  | case1 => rfl
  | case2 b => rw [List.sum_singleton, leValue_cons, leValue_nil, Nat.mul_zero, Nat.add_zero, Nat.mul_comm]
  | case3 b c bs ih =>
    rw [List.sum_cons, ← onesSum_add_ones, ih, onesSum_add_ones, leValue_cons, leValue_cons]
    refine onesSum_congr ?_ (by omega)
    unfold Nat.ModEq
    omega

theorem inetSum_eq (bs : List Byte) : Spec.inetSum bs = onesSum 65535 (256 * leValue bs) := by
  rw [Spec.inetSum, foldl_onesAdd (netWords_le bs) 0 (Nat.zero_le _), Nat.zero_add, onesSum_netWords]

/-- The sum in the order of the host. -/
theorem htons_inetSum (bs : List Byte) : (htons (BitVec.ofNat 16 (Spec.inetSum bs))).toNat = onesSum 65535 (leValue bs) := by
  have hsum := inetSum_eq bs
  have hle : Spec.inetSum bs ≤ 65535 := hsum ▸ onesSum_le (by decide)
  rw [htons_toNat, BitVec.toNat_ofNat, Nat.mod_eq_of_lt (by omega), hsum, onesSum_mul]
  refine onesSum_congr ?_ (by omega)
  unfold Nat.ModEq
  omega

end Nonos
