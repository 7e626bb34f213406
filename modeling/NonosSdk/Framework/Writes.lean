import Mathlib.Data.List.GetD
import NonosSdk.Framework.Mem

/-!
# Writing lists to memory

A list is written from an address on (`put`), or at a cursor that moves behind it
(`emit`). What was written is there (`put_holds`), everything else stays
(`cells_put`), and writes at one cursor are one write of all (`emit_emit`).
-/

namespace Nonos

namespace Mem

variable {α : Type}

theorem cells_memset (m : Mem α) {a b n k : Nat} {v : α} (h : b + n ≤ a ∨ a + k ≤ b) :
    (m.memset a v k).cells b n = m.cells b n :=
  cells_congr fun i hi => if_neg (by omega)

theorem cells_memset_inside (m : Mem α) {a b n k : Nat} {v : α} (hb : a ≤ b) (hn : b + n ≤ a + k) :
    (m.memset a v k).cells b n = List.replicate n v := by
  refine List.eq_replicate_iff.mpr ⟨length_cells _ _ _, fun x hx => ?_⟩
  obtain ⟨i, hi, rfl⟩ := List.mem_map.mp hx
  have hi := List.mem_range.mp hi
  exact if_pos (by omega)

variable [Inhabited α]

/-- `xs` from `a` on. -/
def put (m : Mem α) (a : Nat) (xs : List α) : Mem α := m.store a (fun i => xs.getD i default) xs.length

theorem put_outside (m : Mem α) {a x : Nat} {xs : List α} (h : x < a ∨ a + xs.length ≤ x) : m.put a xs x = m x := by
  rw [put, store, if_neg (by omega)]

theorem put_inside (m : Mem α) {a i : Nat} {xs : List α} (hi : i < xs.length) : m.put a xs (a + i) = xs.getD i default := by
  rw [put, store, if_pos (by omega), Nat.add_sub_cancel_left]

theorem put_holds (m : Mem α) (a : Nat) (xs : List α) : (m.put a xs).Holds a xs := by
  refine List.ext_getElem (length_cells _ _ _) fun i hi hi' => ?_
  simp only [cells, List.getElem_map, List.getElem_range]
  rw [put_inside m hi', List.getD_eq_getElem _ _ hi']

/-- Everything else stays. -/
theorem cells_put (m : Mem α) {a b n : Nat} {xs : List α} (h : b + n ≤ a ∨ a + xs.length ≤ b) :
    (m.put a xs).cells b n = m.cells b n :=
  cells_congr fun i hi => put_outside m (by omega)

theorem put_put (m : Mem α) (a : Nat) (xs ys : List α) : (m.put a xs).put (a + xs.length) ys = m.put a (xs ++ ys) := by
  funext x
  rcases Nat.lt_or_ge x a with hx | hx
  · rw [put_outside _ (.inl (by omega)), put_outside _ (.inl hx), put_outside _ (.inl hx)]
  · obtain ⟨i, rfl⟩ := Nat.exists_eq_add_of_le hx
    rcases Nat.lt_or_ge i xs.length with hi | hi
    · rw [put_outside _ (.inl (by omega)), put_inside _ hi, put_inside _ (by rw [List.length_append]; omega),
        List.getD_append _ _ _ _ hi]
    · rcases Nat.lt_or_ge i (xs.length + ys.length) with hi' | hi'
      · have hsplit : a + i = a + xs.length + (i - xs.length) := by omega
        rw [put_inside m (by rw [List.length_append]; exact hi'), List.getD_append_right _ _ _ _ hi, hsplit,
          put_inside _ (by omega)]
      · rw [put_outside _ (.inr (by omega)), put_outside _ (.inr (by omega)),
          put_outside _ (.inr (by rw [List.length_append]; omega))]

/-- `*p++ = x` for each `x` of `xs`: the memory, and `p`. -/
def emit (c : Mem α × Nat) (xs : List α) : Mem α × Nat := (c.1.put c.2 xs, c.2 + xs.length)

theorem emit_emit (c : Mem α × Nat) (xs ys : List α) : emit (emit c xs) ys = emit c (xs ++ ys) := by
  rw [emit, emit, emit, put_put, List.length_append, Nat.add_assoc]

end Mem

end Nonos
