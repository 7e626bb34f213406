import NonosSdk.Framework.Mem

/-!
# Cyclic storage

`N` cells of a memory from `base`, used round and round: `wrap` brings a
position back into the storage (positions stay below `2 N`, so one
subtraction does), `back N p x` is how far `x` lies after `p`, and
`ringRead` and `ringWrite` read and write `n` cells from a position on.

A write of `n` cells that starts where a reading of `u` cells ends extends
the reading (`ringRead_ringWrite_append`) as long as `u + n ≤ N`, and a
reading splits at every point (`ringRead_add`). `store_eq_ringWrite` and
`store_store_eq_ringWrite` recognise one or two linear copies as a cyclic
write, `cells_eq_ringRead` a linear run of cells as a cyclic reading.
`readOut` copies cells of the storage out to `des`, in one or two pieces; to
a destination disjoint from the storage it delivers them (`readOut_eq_store`),
and it commutes with a write that reaches neither its source nor its destination
(`readOut_ringWrite`).
-/

namespace Nonos

/-- A position below `2 N`, brought back below `N`. -/
def wrap (N i : Nat) : Nat := if i < N then i else i - N

/-- How many cells `x` is after `p`. -/
def back (N p x : Nat) : Nat := if p ≤ x then x - p else N + x - p

theorem wrap_lt {N i : Nat} (h : i < 2 * N) : wrap N i < N := by
  unfold wrap; split <;> omega

theorem wrap_of_lt {N i : Nat} (h : i < N) : wrap N i = i := by
  simp [wrap, h]

theorem wrap_of_ge {N i : Nat} (h : N ≤ i) : wrap N i = i - N := by
  simp [wrap, Nat.not_lt.mpr h]

theorem wrap_wrap_add {N p a b : Nat} (hp : p < N) (h : a + b ≤ N) :
    wrap N (wrap N (p + a) + b) = wrap N (p + (a + b)) := by
  unfold wrap; split_ifs <;> omega

theorem back_lt {N p x : Nat} (hp : p < N) (hx : x < N) : back N p x < N := by
  unfold back; split <;> omega

theorem wrap_back {N p x : Nat} (hp : p < N) (hx : x < N) : wrap N (p + back N p x) = x := by
  unfold wrap back; split_ifs <;> omega

theorem back_wrap {N p i : Nat} (hp : p < N) (hi : i < N) : back N p (wrap N (p + i)) = i := by
  unfold wrap back; split_ifs <;> omega

/-- A position moved `n` on is `n` further after the tail, short of once round. -/
theorem back_wrap_add {N t h n : Nat} (ht : t < N) (hh : h < N) (hn : back N t h + n < N) :
    back N t (wrap N (h + n)) = back N t h + n := by
  revert hn; unfold wrap back; split_ifs <;> omega

/-- Once round, it is back at the tail. -/
theorem wrap_add_sub_back {N t h : Nat} (ht : t < N) (hh : h < N) : wrap N (h + (N - back N t h)) = t := by
  unfold wrap back; split_ifs <;> omega

/-- A tail moved `d` on is `d` less before the head. -/
theorem back_wrap_left {N t h d : Nat} (ht : t < N) (hh : h < N) (hd : d ≤ back N t h) :
    back N (wrap N (t + d)) h = back N t h - d := by
  revert hd; unfold wrap back; split_ifs <;> omega

theorem back_wrap_self {N t d : Nat} (h0 : 0 < d) (hd : d ≤ N) :
    back N (wrap N (t + d)) t = N - d := by
  unfold wrap back; split_ifs <;> omega

namespace Mem

variable {α : Type}

/-- The `n` cells of the storage from position `p`. -/
def ringRead (m : Mem α) (base N p n : Nat) : List α :=
  (List.range n).map fun i => m (base + wrap N (p + i))

/-- `n` cells of the storage written from position `p`. -/
def ringWrite (m : Mem α) (base N p : Nat) (src : Nat → α) (n : Nat) : Mem α := fun x =>
  if base ≤ x ∧ x < base + N ∧ back N p (x - base) < n then src (back N p (x - base)) else m x

/-- A write of `n` cells from position `p` reaches `x`. -/
def RingReaches (base N p n x : Nat) : Prop := base ≤ x ∧ x < base + N ∧ back N p (x - base) < n

instance (base N p n x : Nat) : Decidable (RingReaches base N p n x) :=
  inferInstanceAs (Decidable (_ ∧ _))

@[simp] theorem length_ringRead (m : Mem α) (base N p n : Nat) :
    (m.ringRead base N p n).length = n := by
  simp [ringRead]

theorem ringRead_zero (m : Mem α) (base N p : Nat) : m.ringRead base N p 0 = [] := rfl

theorem ringRead_congr {m m' : Mem α} {base N p n : Nat}
    (h : ∀ i < n, m (base + wrap N (p + i)) = m' (base + wrap N (p + i))) :
    m.ringRead base N p n = m'.ringRead base N p n :=
  List.map_congr_left fun i hi => h i (List.mem_range.mp hi)

/-- A reading splits at every point. -/
theorem ringRead_add (m : Mem α) (base : Nat) {N p a b : Nat} (hp : p < N) (h : a + b ≤ N) :
    m.ringRead base N p (a + b) = m.ringRead base N p a ++ m.ringRead base N (wrap N (p + a)) b := by
  simp only [ringRead, List.range_add, List.map_append, List.map_map]
  refine congrArg (_ ++ ·) (List.map_congr_left fun i hi => ?_)
  have hi := List.mem_range.mp hi
  simp only [Function.comp_apply]
  rw [wrap_wrap_add hp (by omega)]

/-- The first cells of a reading. -/
theorem ringRead_take (m : Mem α) {base N p n k : Nat} (h : k ≤ n) :
    (m.ringRead base N p n).take k = m.ringRead base N p k := by
  rw [ringRead, ringRead, ← List.map_take, List.take_range, Nat.min_eq_left h]

/-- The cells after the first ones. -/
theorem ringRead_drop (m : Mem α) (base : Nat) {N p n k : Nat} (hp : p < N) (hk : k ≤ n) (hn : n ≤ N) :
    (m.ringRead base N p n).drop k = m.ringRead base N (wrap N (p + k)) (n - k) := by
  obtain ⟨j, rfl⟩ := Nat.exists_eq_add_of_le hk
  rw [ringRead_add _ _ hp hn, List.drop_left' (length_ringRead ..), Nat.add_sub_cancel_left]

/-- A reading that does not reach the end of the storage is linear. -/
theorem cells_eq_ringRead (m : Mem α) {base N p n : Nat} (h : p + n ≤ N) :
    m.cells (base + p) n = m.ringRead base N p n :=
  List.map_congr_left fun i hi => by
    rw [wrap_of_lt (by have := List.mem_range.mp hi; omega), Nat.add_assoc]

theorem ringWrite_of_reaches (m : Mem α) {base N p n x : Nat} (src : Nat → α)
    (h : RingReaches base N p n x) : m.ringWrite base N p src n x = src (back N p (x - base)) := if_pos h

theorem ringWrite_of_not_reaches (m : Mem α) {base N p n x : Nat} (src : Nat → α)
    (h : ¬ RingReaches base N p n x) : m.ringWrite base N p src n x = m x := if_neg h

/-- A cyclic write stays inside the storage. -/
theorem ringWrite_outside (m : Mem α) {base N p n x : Nat} (src : Nat → α)
    (h : x < base ∨ base + N ≤ x) : m.ringWrite base N p src n x = m x :=
  ringWrite_of_not_reaches m src fun hr => by unfold RingReaches at hr; omega

theorem ringWrite_zero (m : Mem α) (base N p : Nat) (src : Nat → α) :
    m.ringWrite base N p src 0 = m := by
  funext x; simp [ringWrite]

/-- The cells written. -/
theorem ringWrite_apply (m : Mem α) {base N p n i : Nat} (src : Nat → α) (hp : p < N) (hn : n ≤ N)
    (hi : i < n) : m.ringWrite base N p src n (base + wrap N (p + i)) = src i := by
  have hw := wrap_lt (show p + i < 2 * N by omega)
  unfold ringWrite
  rw [Nat.add_sub_cancel_left, back_wrap hp (by omega), if_pos ⟨by omega, by omega, hi⟩]

/-- The other cells of the storage. -/
theorem ringWrite_of_back_ge (m : Mem α) {base N p n c : Nat} (src : Nat → α)
    (h : n ≤ back N p c) : m.ringWrite base N p src n (base + c) = m (base + c) := by
  unfold ringWrite; rw [Nat.add_sub_cancel_left, if_neg (by omega)]

/-- The cells that lie before the write, from a tail that leaves room for it. -/
theorem ringWrite_before (m : Mem α) {base N t h n i : Nat} (src : Nat → α) (ht : t < N) (hh : h < N)
    (hn : back N t h + n ≤ N) (hi : i < back N t h) :
    m.ringWrite base N h src n (base + wrap N (t + i)) = m (base + wrap N (t + i)) := by
  apply ringWrite_of_back_ge m src
  revert hn hi; unfold wrap back; split_ifs <;> omega

/-- A write where a reading ends extends the reading. -/
theorem ringRead_ringWrite_append (m : Mem α) {base N t h n : Nat} (src : Nat → α) (ht : t < N)
    (hh : h < N) (hn : back N t h + n ≤ N) :
    (m.ringWrite base N h src n).ringRead base N t (back N t h + n) =
      m.ringRead base N t (back N t h) ++ (List.range n).map src := by
  rw [ringRead_add _ _ ht hn]
  congr 1
  · exact ringRead_congr fun i hi => ringWrite_before m src ht hh hn hi
  · rw [wrap_back ht hh]
    exact List.map_congr_left fun i hi =>
      ringWrite_apply m src hh (by omega) (List.mem_range.mp hi)

/-- A write after `k` cells that have been read extends the reading, also
where it fills the storage. -/
theorem ringRead_ringWrite_add (m : Mem α) {base N t k n : Nat} (src : Nat → α) (ht : t < N)
    (hn : k + n ≤ N) :
    (m.ringWrite base N (wrap N (t + k)) src n).ringRead base N t (k + n) =
      m.ringRead base N t k ++ (List.range n).map src := by
  rcases Nat.lt_or_ge k N with hk | hk
  · have hb := back_wrap ht hk
    have happend := @ringRead_ringWrite_append α m base N t _ n src ht
      (wrap_lt (show t + k < 2 * N by omega)) (by omega)
    rwa [hb] at happend
  · obtain rfl : n = 0 := by omega
    simp [ringWrite_zero]

/-- A linear copy into the storage. -/
theorem store_eq_ringWrite (m : Mem α) {base N p n : Nat} (src : Nat → α) (h : p + n ≤ N) :
    m.store (base + p) src n = m.ringWrite base N p src n := by
  funext x
  unfold store ringWrite back
  split_ifs <;> first | rfl | omega | exact congrArg src (by omega)

/-- A copy up to the end of the storage and one from its start. -/
theorem store_store_eq_ringWrite (m : Mem α) {base N p n : Nat} (src : Nat → α) (hp : p < N)
    (hn : n ≤ N) (h : N ≤ p + n) :
    (m.store (base + p) src (N - p)).store base (fun i => src (N - p + i)) (n - (N - p)) =
      m.ringWrite base N p src n := by
  funext x
  unfold store ringWrite back
  split_ifs <;> first | rfl | omega | exact congrArg src (by omega)

/-- `n` cells of the storage from position `p`, copied to `des`: in one piece,
or up to the end of the storage and then from its start. -/
def readOut (m : Mem α) (base N p des n : Nat) : Mem α :=
  if p + n ≤ N then m.memcpy des (base + p) n
  else (m.memcpy des (base + p) (N - p)).memcpy (des + (N - p)) base (n - (N - p))

/-- Copying out changes only the destination. -/
theorem readOut_outside (m : Mem α) {base N p des n x : Nat} (h : x < des ∨ des + n ≤ x) :
    m.readOut base N p des n x = m x := by
  unfold readOut
  split
  · exact memcpy_outside m h
  · rw [memcpy_outside _ (by omega), memcpy_outside _ (by omega)]

/-- A destination disjoint from the storage gets the cells read. -/
theorem readOut_eq_store (m : Mem α) {base N p des n : Nat} (hp : p < N) (hn : n ≤ N)
    (hd : des + n ≤ base ∨ base + N ≤ des) :
    m.readOut base N p des n = m.store des (fun i => m (base + wrap N (p + i))) n := by
  funext x
  by_cases hx : des ≤ x ∧ x < des + n
  · obtain ⟨i, rfl⟩ := Nat.exists_eq_add_of_le hx.1
    rw [store, if_pos hx, Nat.add_sub_cancel_left, readOut]
    split
    · rw [memcpy_apply m (by omega) (by omega), wrap_of_lt (by omega), Nat.add_assoc]
    · by_cases hi : i < N - p
      · rw [memcpy_outside _ (by omega), memcpy_apply m hi (by omega), wrap_of_lt (by omega),
          Nat.add_assoc]
      · rw [show des + i = des + (N - p) + (i - (N - p)) by omega,
          memcpy_apply _ (by omega) (by omega), memcpy_outside _ (by omega), wrap_of_ge (by omega),
          show i - (N - p) = p + i - N by omega]
  · rw [readOut_outside m (by omega), store, if_neg hx]

/-- A cell that a cyclic write does not reach takes no part in it. -/
theorem ringWrite_update (m : Mem α) {base N p n x : Nat} (src : Nat → α) (v : α)
    (h : ¬ RingReaches base N p n x) :
    ringWrite (Function.update m x v) base N p src n =
      Function.update (m.ringWrite base N p src n) x v := by
  funext y
  by_cases hy : y = x
  · subst hy; rw [ringWrite_of_not_reaches _ src h, Function.update_self, Function.update_self]
  · rw [Function.update_of_ne hy]
    simp only [ringWrite, Function.update_of_ne hy]

/-- Copying cells of the storage and writing others commute. -/
theorem memcpy_ringWrite (m : Mem α) {base N p n dst c k : Nat} (src : Nat → α)
    (hd : ∀ i < k, ¬ RingReaches base N p n (dst + i)) (hc : ∀ i < k, n ≤ back N p (c + i)) :
    (m.ringWrite base N p src n).memcpy dst (base + c) k =
      (m.memcpy dst (base + c) k).ringWrite base N p src n := by
  induction k with
  | zero => rfl
  | succ k ih =>
    have hk := ih (fun i hi => hd i (by omega)) fun i hi => hc i (by omega)
    rw [memcpy, hk, Nat.add_assoc, ringWrite_of_back_ge _ src (hc k (by omega)),
      ← ringWrite_update _ src _ (hd k (by omega)), memcpy, Nat.add_assoc]

/-- A write after the unread cells does not reach the first `d` of them: neither
those up to the end of the storage nor those from its start. -/
theorem le_back_of_unread {N t h n d : Nat} (ht : t < N) (hh : h < N) (hn : back N t h + n ≤ N)
    (hb : d ≤ back N t h) : (∀ i, i < d → t + i < N → n ≤ back N h (t + i)) ∧
      ∀ i < d - (N - t), n ≤ back N h (0 + i) := by
  constructor <;> intro i hi <;> revert hn hb <;> unfold back <;> split_ifs <;> omega

/-- Reading out from a tail and writing after the unread cells commute. -/
theorem readOut_ringWrite (m : Mem α) {base N t h n des d : Nat} (src : Nat → α) (ht : t < N)
    (hh : h < N) (hn : back N t h + n ≤ N) (hb : d ≤ back N t h)
    (hd : ∀ i < d, ¬ RingReaches base N h n (des + i)) :
    (m.ringWrite base N h src n).readOut base N t des d =
      (m.readOut base N t des d).ringWrite base N h src n := by
  obtain ⟨h1, h2⟩ := le_back_of_unread ht hh hn hb
  unfold readOut
  split
  · exact memcpy_ringWrite m src hd fun i hi => h1 i hi (by omega)
  · rw [memcpy_ringWrite m src (fun i hi => hd i (by omega)) fun i hi => h1 i (by omega) (by omega)]
    refine memcpy_ringWrite _ src (fun i hi => ?_) h2
    rw [Nat.add_assoc]; exact hd _ (by omega)

/-- Reading out cells of one value, wherever they go. -/
theorem readOut_const (m : Mem α) {base N p des n : Nat} {v : α} (hp : p < N)
    (h : ∀ i < n, m (base + wrap N (p + i)) = v) :
    m.readOut base N p des n = m.store des (fun _ => v) n := by
  unfold readOut
  split
  · apply memcpy_const m
    intro i hi
    have := h i hi
    rwa [wrap_of_lt (by omega), ← Nat.add_assoc] at this
  · have h1 : ∀ i < N - p, m (base + p + i) = v := by
      intro i hi
      have := h i (by omega)
      rwa [wrap_of_lt (by omega), ← Nat.add_assoc] at this
    have h2 : ∀ i < n - (N - p), m.store des (fun _ => v) (N - p) (base + i) = v := by
      intro i hi
      unfold store
      split
      · rfl
      · have := h (N - p + i) (by omega)
        rwa [wrap_of_ge (by omega), show p + (N - p + i) - N = i by omega] at this
    rw [memcpy_const m h1, memcpy_const _ h2]
    funext x
    unfold store
    split_ifs <;> first | rfl | omega

end Mem

end Nonos
