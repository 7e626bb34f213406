import Mathlib.Logic.Function.Basic
import Mathlib.Data.List.Basic
import Mathlib.Tactic.SplitIfs
import Mathlib.Data.BitVec

/-!
# Memory: copies and the cells they reach

A flat memory of cells (`Mem`), what its cells hold from an address on (`Holds`), C's
`memcpy` as an ascending loop (`memcpy`), and a copy from an object that is not in the
memory (`store`). An ascending copy delivers a source cell unless an earlier iteration
has overwritten it (`memcpy_apply`), which no copy to a lower or to a disjoint address
does; cells of one value are copied as they are, wherever they go (`memcpy_const`).
-/

namespace Nonos

/-- `uint8_t`. -/
abbrev Byte := BitVec 8

/-- `uint32_t`. -/
abbrev Word := BitVec 32

/-- A memory: a value in every cell. -/
abbrev Mem (α : Type) := Nat → α

namespace Mem

variable {α : Type}

/-- The `n` cells from `a`. -/
def cells (m : Mem α) (a n : Nat) : List α := (List.range n).map fun i => m (a + i)

@[simp] theorem length_cells (m : Mem α) (a n : Nat) : (m.cells a n).length = n := by
  simp [cells]

theorem cells_congr {m m' : Mem α} {a a' n : Nat} (h : ∀ i < n, m (a + i) = m' (a' + i)) :
    m.cells a n = m'.cells a' n :=
  List.map_congr_left fun i hi => h i (List.mem_range.mp hi)

theorem cells_succ (m : Mem α) (a n : Nat) : m.cells a (n + 1) = m a :: m.cells (a + 1) n := by
  rw [cells, List.range_succ_eq_map, List.map_cons, List.map_map, Nat.add_zero]
  refine congrArg (m a :: ·) (List.map_congr_left fun i _ => ?_)
  show m (a + (i + 1)) = m (a + 1 + i)
  rw [Nat.add_assoc, Nat.add_comm 1]

theorem cells_add (m : Mem α) (a k n : Nat) : m.cells a (k + n) = m.cells a k ++ m.cells (a + k) n := by
  induction k generalizing a with
  | zero => rw [Nat.zero_add]; rfl
  | succ k ih => rw [Nat.add_right_comm, cells_succ, ih, cells_succ, List.cons_append, Nat.add_assoc, Nat.add_comm 1]

theorem drop_cells (m : Mem α) (a n k : Nat) : (m.cells a n).drop k = m.cells (a + k) (n - k) := by
  rcases Nat.lt_or_ge n k with hk | hk
  · rw [List.drop_eq_nil_of_le (by rw [length_cells]; omega), Nat.sub_eq_zero_of_le (by omega)]; rfl
  · conv_lhs => rw [← Nat.add_sub_cancel' hk, cells_add]
    exact List.drop_left' (length_cells m a k)

/-- The cells from `a` are `xs`. -/
def Holds (m : Mem α) (a : Nat) (xs : List α) : Prop := m.cells a xs.length = xs

theorem holds_append {m : Mem α} {a : Nat} {xs ys : List α} :
    m.Holds a (xs ++ ys) ↔ m.Holds a xs ∧ m.Holds (a + xs.length) ys := by
  rw [Holds, List.length_append, cells_add]
  exact ⟨fun h => List.append_inj h (length_cells m a _), fun ⟨h₁, h₂⟩ => by rw [h₁, h₂]⟩

theorem holds_cons {m : Mem α} {a : Nat} {x : α} {xs : List α} :
    m.Holds a (x :: xs) ↔ m a = x ∧ m.Holds (a + 1) xs := by
  rw [Holds, List.length_cons, cells_succ, List.cons.injEq, Holds]

theorem Holds.cells_eq_take {m : Mem α} {a : Nat} {xs : List α} (h : m.Holds a xs) {k : Nat} (hk : k ≤ xs.length) :
    m.cells a k = xs.take k := by
  have hsplit : m.cells a k ++ m.cells (a + k) (xs.length - k) = xs := by
    rw [← cells_add, Nat.add_sub_cancel' hk]
    exact h
  rw [← hsplit, List.take_left' (length_cells m a k)]

/-- `memcpy(dst, src, n)`, one cell at a time from the first. -/
def memcpy (m : Mem α) (dst src : Nat) : Nat → Mem α
  | 0 => m
  | n + 1 => Function.update (memcpy m dst src n) (dst + n) (memcpy m dst src n (src + n))

/-- A copy changes only its destination. -/
theorem memcpy_outside (m : Mem α) {dst src n x : Nat} (h : x < dst ∨ dst + n ≤ x) :
    memcpy m dst src n x = m x := by
  induction n with
  | zero => rfl
  | succ n ih =>
    rw [memcpy, Function.update_of_ne (by omega), ih (by omega)]

/-- A copied cell is the source cell that its iteration finds. -/
theorem memcpy_iteration (m : Mem α) {dst src n i : Nat} (hi : i < n) :
    memcpy m dst src n (dst + i) = memcpy m dst src i (src + i) := by
  induction n with
  | zero => omega
  | succ n ih =>
    rw [memcpy]
    by_cases he : i = n
    · subst he; rw [Function.update_self]
    · rw [Function.update_of_ne (by omega), ih (by omega)]

/-- It is the original one if no earlier iteration has overwritten it. -/
theorem memcpy_apply (m : Mem α) {dst src n i : Nat} (hi : i < n)
    (h : dst ≤ src ∨ src + i < dst) : memcpy m dst src n (dst + i) = m (src + i) := by
  rw [memcpy_iteration m hi, memcpy_outside m (by omega)]

/-- `memcpy(dst, src, n)` from an object outside the memory, given by its
content. -/
def store (m : Mem α) (dst : Nat) (src : Nat → α) (n : Nat) : Mem α := fun x =>
  if dst ≤ x ∧ x < dst + n then src (x - dst) else m x

/-- A copy of one cell. -/
theorem update_eq_store (m : Mem α) (a : Nat) (v : α) : Function.update m a v = m.store a (fun _ => v) 1 := by
  funext x
  by_cases hx : x = a
  · rw [hx, Function.update_self, store, if_pos (by omega)]
  · rw [Function.update_of_ne hx, store, if_neg (by omega)]

/-- Copying cells of one value, also onto themselves. -/
theorem memcpy_const (m : Mem α) {dst src n : Nat} {v : α} (h : ∀ i < n, m (src + i) = v) :
    memcpy m dst src n = m.store dst (fun _ => v) n := by
  have hs : ∀ k ≤ n, memcpy m dst src k = m.store dst (fun _ => v) k := by
    intro k
    induction k with
    | zero =>
      intro _
      funext x
      rw [memcpy, store, if_neg (by omega)]
    | succ k ih =>
      intro hk
      -- a source cell that an earlier iteration has overwritten holds the value too
      have hv : m.store dst (fun _ => v) k (src + k) = v := by
        unfold store
        split
        · rfl
        · exact h k (by omega)
      funext x
      rw [memcpy, ih (by omega), hv]
      by_cases hx : x = dst + k
      · rw [hx, Function.update_self, store, if_pos (by omega)]
      · rw [Function.update_of_ne hx]
        unfold store
        split_ifs <;> first | rfl | omega
  exact hs n (Nat.le_refl n)

/-- `memset(dst, v, n)`. -/
def memset (m : Mem α) (dst : Nat) (v : α) (n : Nat) : Mem α := m.store dst (fun _ => v) n

end Mem

end Nonos
