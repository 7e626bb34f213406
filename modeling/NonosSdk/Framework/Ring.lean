import NonosSdk.Framework.Cyclic

/-!
# Items in cyclic storage

`RingHolds m base N o items` says that the storage holds `items` from offset
`o` on, round its end if need be. Items are written after the last one
(`RingHolds.append`, `RingHolds.push`) and taken from the first
(`RingHolds.drop`, `RingHolds.cells`, `RingHolds.head`).

A ring that overwrites is read as a window: the whole storage from the
position the next item goes to, oldest cell first. A write moves the window on
by as many cells as it writes (`ringRead_ringWrite_window`), and the items
between a tail and that position are its last cells (`drop_window`).
-/

namespace Nonos.Mem

variable {α : Type} {m : Mem α} {base N o : Nat} {items : List α}

/-- The storage holds `items` from offset `o` on. -/
structure RingHolds (m : Mem α) (base N o : Nat) (items : List α) : Prop where
  lt : o < N
  length_le : items.length ≤ N
  read : m.ringRead base N o items.length = items

namespace RingHolds

theorem nil (m : Mem α) (base : Nat) (h : o < N) : RingHolds m base N o [] :=
  ⟨h, Nat.zero_le _, rfl⟩

/-- The position after the last item. -/
theorem end_lt (h : RingHolds m base N o items) : wrap N (o + items.length) < N :=
  wrap_lt (by have := h.lt; have := h.length_le; omega)

/-- `n` items written after the last one. -/
theorem append (h : RingHolds m base N o items) {n : Nat} (src : Nat → α) (hn : items.length + n ≤ N) :
    RingHolds (m.ringWrite base N (wrap N (o + items.length)) src n) base N o
      (items ++ (List.range n).map src) := by
  have hl : (items ++ (List.range n).map src).length = items.length + n := by simp
  refine ⟨h.lt, by omega, ?_⟩
  rw [hl, ringRead_ringWrite_add _ _ h.lt hn, h.read]

/-- One item. -/
theorem push (h : RingHolds m base N o items) (x : α) (hn : items.length < N) :
    RingHolds (Function.update m (base + wrap N (o + items.length)) x) base N o (items ++ [x]) := by
  rw [update_eq_store, store_eq_ringWrite _ _ (Nat.succ_le_of_lt h.end_lt)]
  exact h.append (fun _ => x) (n := 1) hn

/-- The items after the first `n`. -/
theorem drop (h : RingHolds m base N o items) {n : Nat} (hn : n ≤ items.length) :
    RingHolds m base N (wrap N (o + n)) (items.drop n) := by
  have hlt := h.lt
  have hle := h.length_le
  refine ⟨wrap_lt (by omega), by rw [List.length_drop]; omega, ?_⟩
  rw [List.length_drop, ← ringRead_drop _ _ h.lt hn h.length_le, h.read]

/-- The first `n` items, where they do not reach the end of the storage. -/
theorem cells (h : RingHolds m base N o items) {n : Nat} (hn : n ≤ items.length) (hl : o + n ≤ N) :
    m.cells (base + o) n = items.take n := by
  rw [cells_eq_ringRead _ hl, ← ringRead_take _ hn, h.read]

/-- The first item. -/
theorem head {x : α} {rest : List α} (h : RingHolds m base N o (x :: rest)) : m (base + o) = x := by
  have h1 := h.cells (n := 1) (by simp) h.lt
  simpa [Mem.cells] using h1

/-- The items after the first. -/
theorem tail {x : α} {rest : List α} (h : RingHolds m base N o (x :: rest)) :
    RingHolds m base N (wrap N (o + 1)) rest :=
  h.drop (n := 1) (by simp)

end RingHolds

/-! ## The window before a position -/

/-- Writing `n` cells at `h` moves the window on by `n`. -/
theorem ringRead_ringWrite_window (m : Mem α) (base : Nat) {N h n : Nat} (src : Nat → α) (hh : h < N)
    (hn : n ≤ N) : (m.ringWrite base N h src n).ringRead base N (wrap N (h + n)) N =
      (m.ringRead base N h N).drop n ++ (List.range n).map src := by
  have hp := wrap_lt (show h + n < 2 * N by omega)
  have hsplit := ringRead_add (m.ringWrite base N h src n) base hp (show N - n + n ≤ N by omega)
  rw [Nat.sub_add_cancel hn] at hsplit
  rw [hsplit, ringRead_drop _ _ hh hn (Nat.le_refl N)]
  congr 1
  · refine ringRead_congr fun i hi => ringWrite_of_back_ge m src ?_
    -- the first `N - n` cells of the new window lie after the ones written
    unfold wrap back
    split_ifs <;> omega
  · rw [wrap_wrap_add hh (by omega), Nat.add_sub_cancel' hn, wrap_of_ge (by omega), Nat.add_sub_cancel]
    exact List.map_congr_left fun i hi => ringWrite_apply m src hh hn (List.mem_range.mp hi)

/-- The cells between a tail and the position are the last ones of the window. -/
theorem drop_window (m : Mem α) (base : Nat) {N t h : Nat} (ht : t < N) (hh : h < N) :
    (m.ringRead base N h N).drop (N - back N t h) = m.ringRead base N t (back N t h) := by
  have hb := back_lt ht hh
  rw [ringRead_drop _ _ hh (by omega) (Nat.le_refl N), Nat.sub_sub_self (by omega)]
  congr 1
  exact wrap_add_sub_back ht hh

end Nonos.Mem
