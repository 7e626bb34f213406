import Mathlib.Data.Nat.ModEq
import Mathlib.Data.Nat.Digits.Defs
import NonosSdk.Framework.Mem

/-!
# Sums with an end-around carry

A sum whose carries come back in at the bottom keeps its value modulo the
largest word `m`, and is 0 only if everything added is 0. `onesSum m n` is the one
word with both properties (`onesSum_congr`), so that it does not matter when the
carries are brought round (`onesSum_ones_add`, `onesSum_fold`, `onesSum_carry`), and what
is added to a sum to give `m` is its complement (`onesSum_add_eq_max_iff`).

A byte string is summed as its value as a number in base 256 (`leValue`): modulo
65535 every other power of 256 is 1.
-/

namespace Nonos

/-- `n` with its carries brought round. -/
def onesSum (m n : Nat) : Nat := if n = 0 then 0 else (n - 1) % m + 1

section

variable {m a b n : Nat}

@[simp] theorem onesSum_zero (m : Nat) : onesSum m 0 = 0 := rfl

theorem onesSum_eq_zero : onesSum m n = 0 ↔ n = 0 := by
  unfold onesSum
  split
  · simp [*]
  · simp [*]

theorem onesSum_le (hm : 0 < m) : onesSum m n ≤ m := by
  unfold onesSum
  split
  · exact Nat.zero_le m
  · exact Nat.mod_lt _ hm

theorem onesSum_of_le (h : n ≤ m) : onesSum m n = n := by
  unfold onesSum
  split
  · exact Eq.symm ‹_›
  · rw [Nat.mod_eq_of_lt (by omega)]
    omega

theorem onesSum_modEq (m n : Nat) : onesSum m n ≡ n [MOD m] := by
  unfold onesSum
  split
  · rename_i h
    rw [h]
  · have h := (Nat.mod_modEq (n - 1) m).add_right 1
    rwa [Nat.sub_add_cancel (by omega)] at h

/-- Only the residue counts, and whether it is 0. -/
theorem onesSum_congr (h : a ≡ b [MOD m]) (h0 : a = 0 ↔ b = 0) : onesSum m a = onesSum m b := by
  unfold onesSum
  by_cases ha : a = 0
  · rw [if_pos ha, if_pos (h0.mp ha)]
  · rw [if_neg ha, if_neg (mt h0.mpr ha)]
    refine congrArg (· + 1) (Nat.ModEq.add_right_cancel' 1 ?_)
    rwa [Nat.sub_add_cancel (by omega), Nat.sub_add_cancel (by omega)]

theorem onesSum_ones_add (m a b : Nat) : onesSum m (onesSum m a + b) = onesSum m (a + b) :=
  onesSum_congr ((onesSum_modEq m a).add_right b) (by rw [Nat.add_eq_zero_iff, Nat.add_eq_zero_iff, onesSum_eq_zero])

theorem onesSum_add_ones (m a b : Nat) : onesSum m (a + onesSum m b) = onesSum m (a + b) := by
  rw [Nat.add_comm, onesSum_ones_add, Nat.add_comm]

theorem onesSum_mul (m c a : Nat) : onesSum m (c * onesSum m a) = onesSum m (c * a) :=
  onesSum_congr ((onesSum_modEq m a).mul_left c) (by rw [Nat.mul_eq_zero, Nat.mul_eq_zero, onesSum_eq_zero])

/-- The high part added to the low one. -/
theorem onesSum_fold (m u : Nat) : onesSum m (u / (m + 1) + u % (m + 1)) = onesSum m u := by
  have hdiv := Nat.div_add_mod u (m + 1)
  refine onesSum_congr ?_ ?_
  · conv_rhs => rw [← hdiv]
    refine Nat.ModEq.add_right _ ?_
    have h : u / (m + 1) + m * (u / (m + 1)) ≡ u / (m + 1) + 0 [MOD m] :=
      Nat.ModEq.add_left _ (Nat.modEq_zero_iff_dvd.mpr (Nat.dvd_mul_right m _))
    rw [Nat.add_mul, Nat.one_mul, Nat.add_comm (m * _)]
    exact h.symm
  · rw [Nat.add_eq_zero_iff]
    constructor
    · rintro ⟨h1, h2⟩
      rw [← hdiv, h1, h2, Nat.mul_zero]
    · rintro rfl
      exact ⟨Nat.zero_div _, Nat.zero_mod _⟩

/-- The carry out of a larger word, added at once. -/
theorem onesSum_carry {M : Nat} (hM : m ∣ M) : onesSum m (if a + b ≤ M then a + b else a + b - M) = onesSum m (a + b) := by
  split
  · rfl
  · rename_i h
    refine onesSum_congr ?_ (by omega)
    obtain ⟨k, rfl⟩ := hM
    have hk : a + b - m * k + m * k = a + b := Nat.sub_add_cancel (by omega)
    conv_rhs => rw [← hk]
    exact (Nat.ModEq.add_left _ (Nat.modEq_zero_iff_dvd.mpr (Nat.dvd_mul_right m k))).symm

/-- A sum that comes to `m`. -/
theorem onesSum_eq_max_iff (hm : 0 < m) : onesSum m n = m ↔ n ≠ 0 ∧ m ∣ n := by
  constructor
  · intro h
    refine ⟨fun h0 => ?_, ?_⟩
    · rw [h0, onesSum_zero] at h
      omega
    · have hmod := onesSum_modEq m n
      rw [h] at hmod
      exact Nat.modEq_zero_iff_dvd.mp (hmod.symm.trans (Nat.modEq_zero_iff_dvd.mpr (Nat.dvd_refl m)))
  · rintro ⟨h0, hdvd⟩
    have hmod : n ≡ m [MOD m] := (Nat.modEq_zero_iff_dvd.mpr hdvd).trans (Nat.modEq_zero_iff_dvd.mpr (Nat.dvd_refl m)).symm
    rw [onesSum_congr hmod (by omega), onesSum_of_le (Nat.le_refl m)]

/-- What brings a sum to `m`: its complement, or `m` itself if it is there already. -/
theorem onesSum_add_eq_max_iff {v : Nat} (hm : 0 < m) (hv : v ≤ m) :
    onesSum m (n + v) = m ↔ v = m - onesSum m n ∨ (onesSum m n = m ∧ v = m) := by
  have hle : onesSum m n ≤ m := onesSum_le hm
  rw [← onesSum_ones_add, ← onesSum_carry (Nat.dvd_refl m)]
  by_cases h0 : onesSum m n + v ≤ m
  · rw [if_pos h0, onesSum_of_le h0]
    omega
  · rw [if_neg h0, onesSum_of_le (by omega)]
    omega

end

/-! ## Byte strings -/

/-- The number a byte string is in base 256, its first byte the lowest. -/
def leValue (bs : List Byte) : Nat := Nat.ofDigits 256 (bs.map BitVec.toNat)

@[simp] theorem leValue_nil : leValue [] = 0 := rfl

theorem leValue_cons (b : Byte) (bs : List Byte) : leValue (b :: bs) = b.toNat + 256 * leValue bs := by
  rw [leValue, List.map_cons, Nat.ofDigits_cons]
  rfl

theorem leValue_append (xs ys : List Byte) : leValue (xs ++ ys) = leValue xs + 256 ^ xs.length * leValue ys := by
  rw [leValue, List.map_append, Nat.ofDigits_append, List.length_map]
  rfl

theorem leValue_eq_zero {bs : List Byte} : leValue bs = 0 ↔ bs = List.replicate bs.length 0 := by
  induction bs with
  | nil => simp
  | cons b bs ih =>
    rw [leValue_cons, Nat.add_eq_zero_iff, Nat.mul_eq_zero, List.length_cons, List.replicate_succ, List.cons.injEq, ← ih]
    have hb : b.toNat = 0 ↔ b = 0 := ⟨fun h => BitVec.eq_of_toNat_eq h, fun h => congrArg BitVec.toNat h⟩
    simp [hb]

theorem pow_modEq (n : Nat) : 256 ^ n ≡ if n % 2 = 0 then 1 else 256 [MOD 65535] := by
  induction n with
  | zero => exact Nat.ModEq.refl 1
  | succ n ih =>
    rw [pow_succ]
    refine (ih.mul_right 256).trans ?_
    rcases Nat.mod_two_eq_zero_or_one n with h | h
    · rw [if_pos h, if_neg (by omega)]
    · rw [if_neg (by omega), if_pos (by omega)]
      decide

/-- Modulo 65535 a byte string counts from where it starts: at an even or at an odd place. -/
theorem onesSum_leValue_append (xs ys : List Byte) :
    onesSum 65535 (leValue (xs ++ ys)) =
      onesSum 65535 (leValue xs + (if xs.length % 2 = 0 then 1 else 256) * leValue ys) := by
  rw [leValue_append]
  refine onesSum_congr (((pow_modEq xs.length).mul_right _).add_left _) ?_
  rw [Nat.add_eq_zero_iff, Nat.add_eq_zero_iff, Nat.mul_eq_zero, Nat.mul_eq_zero]
  split <;> simp

end Nonos
