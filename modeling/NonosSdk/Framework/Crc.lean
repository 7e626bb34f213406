import Mathlib.Data.BitVec
import Mathlib.Data.List.Count
import Mathlib.Logic.Function.Iterate

/-!
# Cyclic redundancy checks

A reflected CRC register over a generator `p`: `shift` moves it one bit to the
right and xors `p` in when the bit shifted out is set, `feed` xors a message
bit in first, and `feeds` takes a message, first bit first. All three are
linear (`shift_xor`, `feeds_xor`), so what an error pattern does to the
register does not depend on the message.

Up to `w` bits may be xored in at once and shifted out together
(`feeds_eq_iterate`), which is how tables and bytes come in. If the top bit of
`p` is set, `shift` forgets nothing (`shift_eq_zero`), so messages that differ
within `w` bits leave different registers (`feeds_window_ne`), and three kinds of
error patterns leave a register of 0 nonzero: bursts of at most `w` bits
(`feeds_burst_ne_zero`), patterns of odd weight if the weight of `p` is odd
(`feeds_odd_ne_zero`), and two bits less than a period apart
(`feeds_two_ne_zero`).
-/

namespace Nonos

variable {w : Nat}

/-- One shift of the register. -/
def shift (p c : BitVec w) : BitVec w := if c.getLsbD 0 then (c >>> 1) ^^^ p else c >>> 1

/-- A message as a register value, its first bit lowest. -/
def ofBits (bs : List Bool) : BitVec w := (BitVec.ofBoolListLE bs).setWidth w

/-- One bit of the message. -/
def feed (p c : BitVec w) (b : Bool) : BitVec w := shift p (c ^^^ ofBits [b])

/-- The bits of a message. -/
def feeds (p c : BitVec w) (bs : List Bool) : BitVec w := bs.foldl (feed p) c

@[simp] theorem getLsbD_ofBits (bs : List Bool) (i : Nat) :
    (ofBits bs : BitVec w).getLsbD i = (decide (i < w) && bs.getD i false) := by
  simp [ofBits]

@[simp] theorem feeds_nil (p c : BitVec w) : feeds p c [] = c := rfl

@[simp] theorem feeds_cons (p c : BitVec w) (b : Bool) (bs : List Bool) :
    feeds p c (b :: bs) = feeds p (feed p c b) bs := rfl

theorem feeds_append (p c : BitVec w) (as bs : List Bool) :
    feeds p c (as ++ bs) = feeds p (feeds p c as) bs := List.foldl_append

/-! ## Linearity -/

@[simp] theorem shift_zero (p : BitVec w) : shift p 0#w = 0#w := by
  simp [shift]

theorem shift_xor (p a b : BitVec w) : shift p (a ^^^ b) = shift p a ^^^ shift p b := by
  simp only [shift, BitVec.getLsbD_xor, BitVec.ushiftRight_xor_distrib]
  apply BitVec.eq_of_getLsbD_eq
  intro i hi
  cases a.getLsbD 0 <;> cases b.getLsbD 0 <;> simp <;> grind

theorem ofBits_false : (ofBits [false] : BitVec w) = 0#w := by
  apply BitVec.eq_of_getLsbD_eq
  intro i hi
  cases i <;> simp

theorem feed_false (p c : BitVec w) : feed p c false = shift p c := by
  rw [feed, ofBits_false, BitVec.xor_zero]

theorem ofBits_xor (a b : Bool) : (ofBits [a ^^ b] : BitVec w) = ofBits [a] ^^^ ofBits [b] := by
  apply BitVec.eq_of_getLsbD_eq
  intro i hi
  rw [BitVec.getLsbD_xor, getLsbD_ofBits, getLsbD_ofBits, getLsbD_ofBits]
  cases i <;> simp [hi]

theorem feed_xor (p c d : BitVec w) (a b : Bool) :
    feed p (c ^^^ d) (a ^^ b) = feed p c a ^^^ feed p d b := by
  rw [feed, feed, feed, ← shift_xor, ofBits_xor]
  congr 1
  ac_rfl

/-- The register after a message with errors is the sum of two registers. -/
theorem feeds_xor (p : BitVec w) {as bs : List Bool} (h : as.length = bs.length) (c d : BitVec w) :
    feeds p (c ^^^ d) (List.zipWith xor as bs) = feeds p c as ^^^ feeds p d bs := by
  induction as generalizing bs c d with
  | nil => cases bs with
    | nil => rfl
    | cons b bs => simp at h
  | cons a as ih => cases bs with
    | nil => simp at h
    | cons b bs =>
      simp only [List.length_cons, Nat.add_right_cancel_iff] at h
      rw [List.zipWith_cons_cons, feeds_cons, feed_xor, ih h]
      rfl

theorem feeds_replicate (p c : BitVec w) (n : Nat) :
    feeds p c (List.replicate n false) = (shift p)^[n] c := by
  induction n generalizing c with
  | zero => rfl
  | succ n ih => rw [List.replicate_succ, feeds_cons, feed_false, ih, Function.iterate_succ_apply]

theorem iterate_shift_xor (p : BitVec w) (n : Nat) (a b : BitVec w) :
    (shift p)^[n] (a ^^^ b) = (shift p)^[n] a ^^^ (shift p)^[n] b := by
  induction n generalizing a b with
  | zero => rfl
  | succ n ih => simp only [Function.iterate_succ_apply, shift_xor, ih]

theorem iterate_shift_zero (p : BitVec w) (n : Nat) : (shift p)^[n] 0#w = 0#w := by
  induction n with
  | zero => rfl
  | succ n ih => rw [Function.iterate_succ_apply, shift_zero, ih]

/-! ## Several bits at once -/

/-- Bits above the lowest only move. -/
theorem shift_ofBits_false (p : BitVec w) {bs : List Bool} (h : bs.length < w) :
    shift p (ofBits (false :: bs)) = ofBits bs := by
  have h0 : (ofBits (false :: bs) : BitVec w).getLsbD 0 = false := by simp
  rw [shift, if_neg (by simp [h0])]
  apply BitVec.eq_of_getLsbD_eq
  intro i hi
  rw [BitVec.getLsbD_ushiftRight, getLsbD_ofBits, getLsbD_ofBits, Nat.add_comm, List.getD_cons_succ]
  by_cases hw : i + 1 < w
  · simp [hw, hi]
  · simp [hw, List.getElem?_eq_none (show bs.length ≤ i by omega)]

theorem ofBits_cons (b : Bool) (bs : List Bool) :
    (ofBits (b :: bs) : BitVec w) = ofBits [b] ^^^ ofBits (false :: bs) := by
  apply BitVec.eq_of_getLsbD_eq
  intro i hi
  rw [BitVec.getLsbD_xor, getLsbD_ofBits, getLsbD_ofBits, getLsbD_ofBits]
  cases i <;> simp [hi]

/-- Up to `w` bits may be xored in together. -/
theorem feeds_eq_iterate (p c : BitVec w) {bs : List Bool} (h : bs.length ≤ w) :
    feeds p c bs = (shift p)^[bs.length] (c ^^^ ofBits bs) := by
  induction bs generalizing c with
  | nil =>
    have h0 : (ofBits [] : BitVec w) = 0#w := by
      apply BitVec.eq_of_getLsbD_eq; intro i hi; simp
    simp [h0]
  | cons b bs ih =>
    simp only [List.length_cons] at h ⊢
    rw [feeds_cons, ih _ (by omega), Function.iterate_succ_apply, ofBits_cons, ← BitVec.xor_assoc,
      shift_xor, shift_ofBits_false p (by omega), feed]

/-! ## Nothing is forgotten -/

/-- With the top bit of the generator set, a shift is one-to-one. -/
theorem shift_eq_zero {p c : BitVec w} (hp : p.msb = true) (h : shift p c = 0#w) : c = 0#w := by
  have hw : 0 < w := by
    rcases Nat.eq_zero_or_pos w with rfl | h
    · simp [BitVec.msb, BitVec.getMsbD] at hp
    · exact h
  unfold shift at h
  by_cases h0 : c.getLsbD 0
  · rw [if_pos h0] at h
    have hb := congrArg (fun v => v.getLsbD (w - 1)) h
    rw [BitVec.msb_eq_getLsbD_last] at hp
    simp [hp, show 1 + (w - 1) = w by omega] at hb
  · rw [if_neg h0] at h
    apply BitVec.eq_of_getLsbD_eq
    intro i hi
    cases i with
    | zero => simpa using h0
    | succ i =>
      have hb := congrArg (fun v => v.getLsbD i) h
      simpa [Nat.add_comm] using hb

theorem iterate_shift_eq_zero {p c : BitVec w} (hp : p.msb = true) {n : Nat}
    (h : (shift p)^[n] c = 0#w) : c = 0#w := by
  induction n generalizing c with
  | zero => exact h
  | succ n ih => exact shift_eq_zero hp (ih h)

theorem shift_injective {p : BitVec w} (hp : p.msb = true) : Function.Injective (shift p) := by
  intro a b h
  rw [← BitVec.xor_eq_zero_iff, ← shift_xor] at h
  exact BitVec.xor_eq_zero_iff.mp (shift_eq_zero hp h)

/-- After the same message, two registers agree only if they did before it. -/
theorem feeds_injective {p : BitVec w} (hp : p.msb = true) (bs : List Bool) {c d : BitVec w}
    (h : feeds p c bs = feeds p d bs) : c = d := by
  induction bs generalizing c d with
  | nil => exact h
  | cons b bs ih =>
    have hs : c ^^^ ofBits [b] = d ^^^ ofBits [b] := shift_injective hp (ih h)
    rw [← BitVec.xor_zero (x := c), ← BitVec.xor_self (x := ofBits [b]), ← BitVec.xor_assoc, hs,
      BitVec.xor_assoc, BitVec.xor_self, BitVec.xor_zero]

theorem ofBits_injective {as bs : List Bool} (hl : as.length = bs.length) (hw : as.length ≤ w)
    (h : (ofBits as : BitVec w) = ofBits bs) : as = bs := by
  apply List.ext_getElem hl
  intro i ha hb
  have hbit := congrArg (fun v => v.getLsbD i) h
  simp only [getLsbD_ofBits] at hbit
  simpa [ha, hb, show i < w by omega] using hbit

/-- Messages that differ within `w` bits. -/
theorem feeds_window_ne {p : BitVec w} (hp : p.msb = true) (c : BitVec w) (l r : List Bool) {as bs : List Bool}
    (hl : as.length = bs.length) (hw : as.length ≤ w) (hne : as ≠ bs) :
    feeds p c (l ++ (as ++ r)) ≠ feeds p c (l ++ (bs ++ r)) := by
  intro h
  rw [feeds_append, feeds_append, feeds_append, feeds_append] at h
  have hab := feeds_injective hp r h
  rw [feeds_eq_iterate _ (feeds p c l) hw, feeds_eq_iterate _ (feeds p c l) (by omega), ← hl] at hab
  have hx := (shift_injective hp).iterate as.length hab
  rw [BitVec.xor_right_inj] at hx
  exact hne (ofBits_injective hl hw hx)

theorem feeds_replicate_ne_zero {p c : BitVec w} (hp : p.msb = true) (hc : c ≠ 0#w) (n : Nat) :
    feeds p c (List.replicate n false) ≠ 0#w := by
  rw [feeds_replicate]
  exact fun h => hc (iterate_shift_eq_zero hp h)

/-! ## What a message of zeros with errors leaves -/

theorem feeds_zeros_append (p : BitVec w) (n : Nat) (bs : List Bool) :
    feeds p 0#w (List.replicate n false ++ bs) = feeds p 0#w bs := by
  rw [feeds_append, feeds_replicate, iterate_shift_zero]

theorem ofBits_ne_zero {bs : List Bool} (h : bs.length ≤ w) (ht : true ∈ bs) :
    (ofBits bs : BitVec w) ≠ 0#w := by
  obtain ⟨i, hi, hb⟩ := List.getElem_of_mem ht
  intro h0
  have hv := congrArg (fun v => v.getLsbD i) h0
  simp only [getLsbD_ofBits] at hv
  simp [hi, hb, show i < w by omega] at hv

/-- A burst of at most `w` bits. -/
theorem feeds_burst_ne_zero {p : BitVec w} (hp : p.msb = true) {bs : List Bool} (h : bs.length ≤ w)
    (ht : true ∈ bs) (m n : Nat) :
    feeds p 0#w (List.replicate m false ++ (bs ++ List.replicate n false)) ≠ 0#w := by
  rw [feeds_zeros_append, feeds_append]
  refine feeds_replicate_ne_zero hp ?_ n
  rw [feeds_eq_iterate p _ h, BitVec.zero_xor]
  exact fun h0 => ofBits_ne_zero h ht (iterate_shift_eq_zero hp h0)

/-- The parity of the lowest `n` bits. -/
def parity (c : BitVec w) : Nat → Bool
  | 0 => false
  | n + 1 => parity c n ^^ c.getLsbD n

theorem parity_xor (a b : BitVec w) (n : Nat) : parity (a ^^^ b) n = (parity a n ^^ parity b n) := by
  induction n with
  | zero => rfl
  | succ n ih =>
    simp only [parity, ih, BitVec.getLsbD_xor]
    cases parity a n <;> cases parity b n <;> simp

theorem parity_ushiftRight (c : BitVec w) (n : Nat) :
    (parity (c >>> 1) n ^^ c.getLsbD 0) = parity c (n + 1) := by
  induction n with
  | zero => simp [parity]
  | succ n ih =>
    rw [parity, Bool.xor_assoc, Bool.xor_comm _ (c.getLsbD 0), ← Bool.xor_assoc, ih,
      BitVec.getLsbD_ushiftRight, Nat.add_comm 1 n]
    rfl

theorem parity_width_succ (c : BitVec w) : parity c (w + 1) = parity c w := by
  simp [parity]

/-- A generator of odd weight keeps the parity of the register. -/
theorem parity_shift {p : BitVec w} (hp : parity p w = true) (c : BitVec w) :
    parity (shift p c) w = parity c w := by
  have h := parity_ushiftRight c w
  rw [parity_width_succ] at h
  unfold shift
  by_cases h0 : c.getLsbD 0
  · rw [if_pos h0, parity_xor, hp, ← h, h0]
  · rw [if_neg h0, ← h, Bool.eq_false_iff.mpr h0, Bool.xor_false]

theorem parity_ofBits (b : Bool) (n : Nat) : parity (ofBits [b] : BitVec w) n = (decide (0 < n ∧ 0 < w) && b) := by
  induction n with
  | zero => simp [parity]
  | succ n ih =>
    rw [parity, ih, getLsbD_ofBits]
    cases n <;> simp

theorem parity_feeds {p : BitVec w} (hw : 0 < w) (hp : parity p w = true) (c : BitVec w) (bs : List Bool) :
    parity (feeds p c bs) w = (parity c w ^^ decide (bs.count true % 2 = 1)) := by
  induction bs generalizing c with
  | nil => simp
  | cons b bs ih =>
    rw [feeds_cons, ih, feed, parity_shift hp, parity_xor, parity_ofBits]
    cases b
    · simp [hw]
    · have hc : decide ((true :: bs).count true % 2 = 1) = !decide (bs.count true % 2 = 1) := by
        rw [List.count_cons_self]
        by_cases h : bs.count true % 2 = 1
        · simp [h, show (bs.count true + 1) % 2 = 0 by omega]
        · simp [h, show (bs.count true + 1) % 2 = 1 by omega]
      rw [hc]; simp [hw]

theorem parity_zero (n : Nat) : parity (0#w) n = false := by
  induction n with
  | zero => rfl
  | succ n ih => simp [parity, ih]

/-- An odd number of errors. -/
theorem feeds_odd_ne_zero {p : BitVec w} (hw : 0 < w) (hp : parity p w = true) {bs : List Bool}
    (h : bs.count true % 2 = 1) : feeds p 0#w bs ≠ 0#w := by
  intro h0
  have hf := parity_feeds hw hp (0#w) bs
  rw [h0, parity_zero] at hf
  simp [h] at hf

/-- A pattern with its set bits inside a window of `n`. -/
theorem eq_window {bs : List Bool} {k n : Nat} (h : ∀ i, bs[i]? = some true → k ≤ i ∧ i < k + n) :
    bs = List.replicate (bs.take k).length false ++
      ((bs.drop k).take n ++ List.replicate (bs.drop (k + n)).length false) := by
  have h1 : bs.take k = List.replicate (bs.take k).length false := by
    refine List.eq_replicate_iff.mpr ⟨rfl, fun b hb => Bool.eq_false_iff.mpr ?_⟩
    rintro rfl
    obtain ⟨i, hi⟩ := List.mem_iff_getElem?.mp hb
    rw [List.getElem?_take] at hi
    split at hi
    · have := h i hi; omega
    · cases hi
  have h2 : bs.drop (k + n) = List.replicate (bs.drop (k + n)).length false := by
    refine List.eq_replicate_iff.mpr ⟨rfl, fun b hb => Bool.eq_false_iff.mpr ?_⟩
    rintro rfl
    obtain ⟨i, hi⟩ := List.mem_iff_getElem?.mp hb
    rw [List.getElem?_drop] at hi
    have := h _ hi; omega
  rw [← h1, ← h2, ← List.drop_drop, List.take_append_drop, List.take_append_drop]

theorem eq_replicate_of_count_zero {bs : List Bool} (h : bs.count true = 0) :
    bs = List.replicate bs.length false := by
  rw [List.eq_replicate_iff]
  refine ⟨rfl, fun b hb => ?_⟩
  cases b with
  | false => rfl
  | true => exact absurd hb (List.count_eq_zero.mp h)

/-- The first bit set. -/
theorem exists_first_of_count {bs : List Bool} {n : Nat} (h : bs.count true = n + 1) :
    ∃ m rest, bs = List.replicate m false ++ true :: rest ∧ rest.count true = n := by
  induction bs with
  | nil => simp at h
  | cons b bs ih =>
    cases b with
    | true => exact ⟨0, bs, rfl, by simpa using h⟩
    | false =>
      obtain ⟨m, rest, rfl, hr⟩ := ih (by simpa using h)
      exact ⟨m + 1, rest, rfl, hr⟩

/-- Two errors, less than a period of the generator apart. -/
theorem feeds_two_ne_zero {p : BitVec w} (hw : 0 < w) (hp : p.msb = true) {bs : List Bool}
    (hd : ∀ d, 0 < d → d < bs.length → (shift p)^[d] 1#w ≠ 1#w) (h : bs.count true = 2) :
    feeds p 0#w bs ≠ 0#w := by
  obtain ⟨m, rest, rfl, hr⟩ := exists_first_of_count h
  obtain ⟨k, last, rfl, hl⟩ := exists_first_of_count hr
  have h1 : (ofBits [true] : BitVec w) = 1#w := by
    apply BitVec.eq_of_getLsbD_eq
    intro i hi
    rw [getLsbD_ofBits]
    cases i <;> simp [hw, hi]
  rw [feeds_zeros_append, feeds_cons, feeds_append, feeds_cons, feeds_replicate,
    eq_replicate_of_count_zero hl]
  refine feeds_replicate_ne_zero hp ?_ _
  intro h0
  rw [feed, feed, h1, BitVec.zero_xor] at h0
  have h2 := shift_eq_zero hp h0
  rw [← Function.iterate_succ_apply, BitVec.xor_eq_zero_iff] at h2
  refine hd (k + 1) (by omega) ?_ h2
  simp only [List.length_append, List.length_cons, List.length_replicate]
  omega

/-- Whether the next `n` shifts of `c` stay away from 1. -/
def avoidsOne (p : BitVec w) : Nat → BitVec w → Bool
  | 0, _ => true
  | n + 1, c => shift p c != 1#w && avoidsOne p n (shift p c)

theorem avoidsOne_spec {p : BitVec w} {n : Nat} {c : BitVec w} (h : avoidsOne p n c = true) {d : Nat}
    (h0 : 0 < d) (hd : d ≤ n) : (shift p)^[d] c ≠ 1#w := by
  induction n generalizing c d with
  | zero => omega
  | succ n ih =>
    simp only [avoidsOne, Bool.and_eq_true, bne_iff_ne] at h
    cases d with
    | zero => omega
    | succ d =>
      rw [Function.iterate_succ_apply]
      cases d with
      | zero => exact h.1
      | succ d => exact ih h.2 (by omega) (by omega)

end Nonos
