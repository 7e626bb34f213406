import Mathlib.Data.List.Basic
import Mathlib.Data.List.Perm.Basic

/-!
# Delta lists

A list of things due, each with the time from the one before. `absolute` gives
the times from a common origin; in these terms an insertion puts the new entry
behind everything due by then (`absolute_deltaInsert`), and a removal takes an
entry away and leaves the others where they are (`absolute_deltaErase`).
-/

namespace Nonos

variable {α : Type}

/-- The times from an origin `base`. -/
def absolute (base : Nat) : List (Nat × α) → List (Nat × α)
  | [] => []
  | (d, x) :: l => (base + d, x) :: absolute (base + d) l

@[simp] theorem absolute_nil (base : Nat) : absolute base ([] : List (Nat × α)) = [] := rfl

@[simp] theorem absolute_cons (base d : Nat) (x : α) (l : List (Nat × α)) :
    absolute base ((d, x) :: l) = (base + d, x) :: absolute (base + d) l := rfl

theorem base_le_absolute {base : Nat} {l : List (Nat × α)} : ∀ e ∈ absolute base l, base ≤ e.1 := by
  induction l generalizing base with
  | nil => simp
  | cons f l ih =>
    intro e he
    rcases List.mem_cons.mp he with rfl | he
    · exact Nat.le_add_right ..
    · exact Nat.le_trans (Nat.le_add_right ..) (ih e he)

/-- The times are in order. -/
theorem absolute_sorted (base : Nat) (l : List (Nat × α)) : (absolute base l).Pairwise (fun e f => e.1 ≤ f.1) := by
  induction l generalizing base with
  | nil => exact .nil
  | cons f l ih => exact .cons (fun e he => base_le_absolute e he) (ih _)

/-- A later origin. -/
theorem absolute_add (base d : Nat) (l : List (Nat × α)) :
    absolute (base + d) l = (absolute base l).map fun e => (e.1 + d, e.2) := by
  induction l generalizing base with
  | nil => rfl
  | cons f l ih =>
    rw [absolute_cons, absolute_cons, List.map_cons, Nat.add_right_comm base d, ih]

/-! ## Insertion -/

/-- `e` behind everything due no later. -/
def insertDue (e : Nat × α) : List (Nat × α) → List (Nat × α)
  | [] => [e]
  | f :: l => if f.1 > e.1 then e :: f :: l else f :: insertDue e l

theorem insertDue_perm (e : Nat × α) (l : List (Nat × α)) : (insertDue e l).Perm (e :: l) := by
  induction l with
  | nil => exact .refl _
  | cons f l ih =>
    unfold insertDue
    split
    · exact .refl _
    · exact (ih.cons f).trans (.swap ..)

/-- `x`, `d` from the origin. -/
def deltaInsert (d : Nat) (x : α) : List (Nat × α) → List (Nat × α)
  | [] => [(d, x)]
  | (d', y) :: l => if d' > d then (d, x) :: (d' - d, y) :: l else (d', y) :: deltaInsert (d - d') x l

theorem absolute_deltaInsert (base d : Nat) (x : α) (l : List (Nat × α)) :
    absolute base (deltaInsert d x l) = insertDue (base + d, x) (absolute base l) := by
  induction l generalizing base d with
  | nil => rfl
  | cons f l ih =>
    obtain ⟨d', y⟩ := f
    unfold deltaInsert
    by_cases h : d' > d
    · have hsum : base + d + (d' - d) = base + d' := by omega
      rw [if_pos h, absolute_cons, absolute_cons, absolute_cons, hsum, insertDue, if_pos (by simp only; omega)]
    · have hsum : base + d' + (d - d') = base + d := by omega
      rw [if_neg h, absolute_cons, absolute_cons, ih, hsum, insertDue, if_neg (by simp only; omega)]

/-! ## Removal -/

/-- What is removed, and what stays. -/
theorem perm_find_eraseP (p : α → Bool) (l : List α) : l.Perm ((l.find? p).toList ++ l.eraseP p) := by
  induction l with
  | nil => exact .refl _
  | cons x l ih =>
    by_cases h : p x
    · rw [List.find?_cons_of_pos h, List.eraseP_cons_of_pos h]
      exact .refl _
    · rw [List.find?_cons_of_neg h, List.eraseP_cons_of_neg h]
      exact (ih.cons x).trans List.perm_middle.symm

/-- The first entry with `p`, whose time goes to the next. -/
def deltaErase (p : α → Bool) : List (Nat × α) → List (Nat × α)
  | [] => []
  | [(d, x)] => if p x then [] else [(d, x)]
  | (d, x) :: (d', y) :: l => if p x then (d' + d, y) :: l else (d, x) :: deltaErase p ((d', y) :: l)

theorem absolute_deltaErase (base : Nat) (p : α → Bool) (l : List (Nat × α)) :
    absolute base (deltaErase p l) = (absolute base l).eraseP (p ·.2) := by
  induction l generalizing base with
  | nil => rfl
  | cons f l ih =>
    obtain ⟨d, x⟩ := f
    rcases l with _ | ⟨⟨d', y⟩, l⟩
    · cases h : p x <;> simp [deltaErase, h]
    · unfold deltaErase
      by_cases h : p x
      · rw [if_pos h, absolute_cons, absolute_cons, absolute_cons,
          List.eraseP_cons_of_pos (p := fun e : Nat × α => p e.2) h, Nat.add_assoc, Nat.add_comm d]
      · rw [if_neg h, absolute_cons, absolute_cons, List.eraseP_cons_of_neg (p := fun e : Nat × α => p e.2) h, ih,
          absolute_cons]

end Nonos
