import Mathlib.Data.BitVec
import Mathlib.Tactic.IntervalCases
import Mathlib.Tactic.Ring
import NonosSdk.Impl.DhcpServer

/-!
# The default address pool

The addresses `addr 0, addr 1, …` follow one another from `start_ip` on. Their last
octet is the highest byte of the word, so while it does not overflow they are
ordered like their numbers (`addr_lt_addr`). The default pool is the first
hundred, up to `end_ip`, and at least one more address follows before the last
octet overflows (`init_isDefault`).
-/

namespace Nonos

theorem getLsbD_htonl (n : Word) {i : Nat} (hi : i < 32) :
    (htonl n).getLsbD i = n.getLsbD (8 * (3 - i / 8) + i % 8) := by
  unfold htonl
  interval_cases i <;> simp

@[simp] theorem htonl_htonl (n : Word) : htonl (htonl n) = n := by
  apply BitVec.eq_of_getLsbD_eq
  intro i hi
  rw [getLsbD_htonl _ hi, getLsbD_htonl _ (by omega)]
  congr 1
  omega

theorem toNat_htonl (n : Word) : (htonl n).toNat =
    n.toNat % 256 * 2 ^ 24 + n.toNat / 256 % 256 * 2 ^ 16 + n.toNat / 256 / 256 % 256 * 2 ^ 8 +
      n.toNat / 256 / 256 / 256 := by
  have hbytes : htonl n =
      n.extractLsb' 0 8 ++ n.extractLsb' 8 8 ++ n.extractLsb' 16 8 ++ n.extractLsb' 24 8 := by
    apply BitVec.eq_of_getLsbD_eq
    intro i hi
    rw [getLsbD_htonl _ hi]
    simp only [BitVec.getLsbD_append, BitVec.getLsbD_extractLsb']
    interval_cases i <;> simp
  have happend : ∀ {w : Nat} (x : BitVec w) (b : Byte), (x ++ b).toNat = x.toNat * 256 + b.toNat := by
    intro w x b
    rw [BitVec.toNat_append, ← Nat.shiftLeft_add_eq_or_of_lt b.isLt, Nat.shiftLeft_eq]
  have hlt := n.isLt
  have h16 : n.toNat / 256 / 256 = n.toNat / 2 ^ 16 := Nat.div_div_eq_div_mul _ _ _
  have h24 : n.toNat / 256 / 256 / 256 = n.toNat / 2 ^ 24 := by omega
  rw [hbytes, happend, happend, happend, h24, h16]
  simp only [BitVec.extractLsb'_toNat, Nat.shiftRight_eq_div_pow]
  omega

namespace DhcpsLease

variable (d : DhcpsLease)

/-- The address `k` places after `start_ip`. -/
def addr (k : Nat) : Word := htonl (htonl d.startIp + BitVec.ofNat 32 k)

/-- The last octet of `start_ip`. -/
def octet : Nat := (htonl d.startIp).toNat % 256

/-- A hundred addresses, with one more before the last octet overflows. -/
structure IsDefault : Prop where
  pos : 1 ≤ d.octet
  le : d.octet + 100 ≤ 255
  endIp : d.endIp = d.addr 99

theorem addr_zero : d.addr 0 = d.startIp := by
  simp [addr]

theorem htonl_addr (k : Nat) : htonl (d.addr k) = htonl d.startIp + BitVec.ofNat 32 k := htonl_htonl _

theorem addr_succ (k : Nat) : htonl (htonl (d.addr k) + 1) = d.addr (k + 1) := by
  rw [htonl_addr, addr, BitVec.ofNat_add, BitVec.add_assoc]
  rfl

variable {d}

/-- Up to 255 the last octet counts. -/
theorem toNat_htonl_addr {k : Nat} (hk : d.octet + k ≤ 255) :
    (htonl (d.addr k)).toNat = (htonl d.startIp).toNat + k := by
  have hlt := (htonl d.startIp).isLt
  unfold octet at hk
  rw [htonl_addr, BitVec.toNat_add, BitVec.toNat_ofNat, Nat.mod_eq_of_lt (show k < 2 ^ 32 by omega)]
  exact Nat.mod_eq_of_lt (by omega)

theorem toNat_addr {k : Nat} (hk : d.octet + k ≤ 255) : (d.addr k).toNat = d.startIp.toNat + k * 2 ^ 24 := by
  have hsum := toNat_htonl_addr hk
  unfold octet at hk
  have hword := toNat_htonl (htonl (d.addr k))
  have hstart := toNat_htonl (htonl d.startIp)
  rw [htonl_htonl] at hword hstart
  have hmod : ((htonl d.startIp).toNat + k) % 256 = (htonl d.startIp).toNat % 256 + k := by omega
  have hdiv : ((htonl d.startIp).toNat + k) / 256 = (htonl d.startIp).toNat / 256 := by omega
  rw [hword, hstart, hsum, hmod, hdiv]
  ring

/-- Then it is 0. -/
theorem toNat_addr_overflow {k : Nat} (hk : d.octet + k = 256) : (d.addr k).toNat < 2 ^ 24 := by
  unfold octet at hk
  rw [addr, toNat_htonl, BitVec.toNat_add, BitVec.toNat_ofNat]
  omega

theorem addr_lt_addr {i j : Nat} (hij : i < j) (hj : d.octet + j ≤ 255) : d.addr i < d.addr j := by
  rw [BitVec.lt_def, toNat_addr hj, toNat_addr (by omega)]
  omega

theorem octet_le_startIp : d.octet * 2 ^ 24 ≤ d.startIp.toNat := by
  have hs : d.startIp = htonl (htonl d.startIp) := (htonl_htonl _).symm
  rw [hs, toNat_htonl, octet]
  omega

/-- After all of them comes a lower one. -/
theorem IsDefault.overflow_lt (h : d.IsDefault) {k : Nat} (hk : d.octet + k = 256) : d.addr k < d.startIp := by
  have h1 := toNat_addr_overflow hk
  have h2 := octet_le_startIp (d := d)
  have h3 := h.pos
  rw [BitVec.lt_def]
  omega

/-- Only 255.255.255.255 is followed by 0.0.0.0. -/
theorem addr_succ_ne_zero {k : Nat} (hk : d.addr k ≠ 0xFFFFFFFF) : d.addr (k + 1) ≠ 0 := by
  intro h0
  rw [← addr_succ] at h0
  have h1 : htonl (d.addr k) + 1 = 0 := by
    rw [← htonl_htonl (htonl (d.addr k) + 1), h0]
    rfl
  have h2 : htonl (d.addr k) = 0xFFFFFFFF := by bv_omega
  apply hk
  rw [← htonl_htonl (d.addr k), h2]
  rfl

end DhcpsLease

/-- Putting the last octet in. -/
theorem toNat_host (x l : Word) (hl : l.toNat < 256) :
    (x &&& 0xFFFFFF00 ||| l).toNat = x.toNat / 256 * 256 + l.toNat := by
  have hx : x &&& (0xFFFFFF00 : Word) = (x >>> 8) <<< 8 := by
    apply BitVec.eq_of_getLsbD_eq
    intro i hi
    interval_cases i <;> simp
  have := x.isLt
  have hs : ((x >>> 8) <<< 8).toNat = x.toNat / 256 * 256 := by
    rw [BitVec.toNat_shiftLeft, BitVec.toNat_ushiftRight, Nat.shiftRight_eq_div_pow, Nat.shiftLeft_eq]
    omega
  rw [hx, BitVec.toNat_or, hs]
  have hor := Nat.shiftLeft_add_eq_or_of_lt (i := 8) hl (x.toNat / 256)
  rw [Nat.shiftLeft_eq] at hor
  exact hor.symm

/-- `wifi_softap_init_dhcps_lease`, with no pool of the user's. -/
theorem init_isDefault {lease : DhcpsLease} (h : lease.enable = false) (ip : Word) :
    (wifiSoftapInitDhcpsLease lease ip).IsDefault := by
  unfold wifiSoftapInitDhcpsLease
  simp only [h, Bool.false_and, Bool.false_eq_true, if_false]
  have hlow : (htonl ip &&& 0xFF).toNat = (htonl ip).toNat % 256 := by
    rw [BitVec.toNat_and]
    exact Nat.and_two_pow_sub_one_eq_mod _ 8
  generalize hl : (if htonl ip &&& 0xFF ≥ 0x80 then (htonl ip &&& 0xFF) - dhcpsMaxLease
    else (htonl ip &&& 0xFF) + 1) = l
  have hl' : 1 ≤ l.toNat ∧ l.toNat ≤ 155 := by
    rw [← hl]
    split <;> rename_i hge <;> rw [ge_iff_le, BitVec.le_def, hlow] at hge
    · have h80 : (0x80 : Word).toNat = 128 := rfl
      have h64 : dhcpsMaxLease.toNat = 100 := rfl
      rw [BitVec.toNat_sub_of_le (by rw [BitVec.le_def, hlow]; omega), hlow, h64]
      omega
    · have h80 : (0x80 : Word).toNat = 128 := rfl
      have h1 : (1 : Word).toNat = 1 := rfl
      rw [BitVec.toNat_add, hlow, h1]
      omega
  have hstart := toNat_host (htonl ip) l (by omega)
  have hlast : (l + dhcpsMaxLease - 1).toNat = l.toNat + 99 := by
    have h99 : l + dhcpsMaxLease - 1 = l + 99 := by
      unfold dhcpsMaxLease
      bv_omega
    rw [h99, BitVec.toNat_add]
    show (l.toNat + 99) % 2 ^ 32 = _
    omega
  have hend := toNat_host (htonl ip) (l + dhcpsMaxLease - 1) (by omega)
  have hx := (htonl ip).isLt
  refine ⟨?_, ?_, ?_⟩
  · rw [DhcpsLease.octet, htonl_htonl, hstart]
    omega
  · rw [DhcpsLease.octet, htonl_htonl, hstart]
    omega
  · rw [DhcpsLease.addr, htonl_htonl]
    refine congrArg htonl (BitVec.eq_of_toNat_eq ?_)
    rw [hend, hlast, BitVec.toNat_add, hstart]
    show _ = (_ + 99) % 2 ^ 32
    omega

end Nonos
