import NonosSdk.Framework.Ring
import NonosSdk.Impl.MqttQueue

/-!
# What a `RINGBUF` holds

`Holds r items`: the ring holds `items` from `p_r` on, `p_w` follows the last
of them and `fill_cnt` counts them. `RINGBUF_Put` appends while there is a free
cell (`put`), `RINGBUF_Get` takes the first (`get_cons`, `get_nil`), and calls
of `RINGBUF_Put` for a list of characters append the ones that fit (`puts`).
-/

namespace Nonos

namespace MqttRingbuf

/-- The ring holds `items`. -/
structure Holds (r : MqttRingbuf) (items : List Byte) : Prop where
  ring : r.mem.RingHolds r.pO r.size (r.pR - r.pO) items
  pO_le : r.pO ≤ r.pR
  pW : r.pW = r.pO + wrap r.size (r.pR - r.pO + items.length)
  fillCnt : r.fillCnt = items.length

/-- The compare-and-reset moves a pointer on by one cell. -/
theorem reset_eq {pO size i : Nat} (h : i < size) :
    (if pO + i + 1 ≥ pO + size then pO else pO + i + 1) = pO + wrap size (i + 1) := by
  unfold wrap
  split_ifs <;> omega

theorem init_holds (mem : Mem Byte) (buf : Nat) {size : Nat} (h : 2 ≤ size) :
    ∃ r, ringbufInit mem buf size = some r ∧ r.Holds [] ∧ r.size = size := by
  unfold ringbufInit
  rw [if_neg (by omega)]
  refine ⟨_, rfl, ⟨Mem.RingHolds.nil _ _ (by simp only; omega), Nat.le_refl _, ?_, rfl⟩, rfl⟩
  simp [wrap_of_lt (show 0 < size by omega)]

namespace Holds

variable {r : MqttRingbuf} {items : List Byte}

theorem length_le (h : r.Holds items) : items.length ≤ r.size := h.ring.length_le

theorem put (h : r.Holds items) (c : Byte) (hn : items.length < r.size) :
    ∃ r', ringbufPut r c = some r' ∧ r'.Holds (items ++ [c]) ∧ r'.size = r.size := by
  have hlt := h.ring.lt
  have hend := h.ring.end_lt
  unfold ringbufPut
  rw [if_neg (by rw [h.fillCnt]; omega)]
  refine ⟨_, rfl, ⟨?_, h.pO_le, ?_, ?_⟩, rfl⟩
  · show Mem.RingHolds (Function.update r.mem r.pW c) r.pO r.size (r.pR - r.pO) (items ++ [c])
    rw [h.pW]
    exact h.ring.push c hn
  · show (if r.pW + 1 ≥ r.pO + r.size then r.pO else r.pW + 1) = _
    rw [h.pW, reset_eq hend, wrap_wrap_add hlt hn, List.length_append, List.length_singleton]
  · simp [h.fillCnt]

theorem put_full (h : r.Holds items) (c : Byte) (hn : items.length = r.size) : ringbufPut r c = none := by
  unfold ringbufPut
  rw [if_pos (by rw [h.fillCnt]; omega)]

theorem get_nil (h : r.Holds []) : ringbufGet r = none := by
  unfold ringbufGet
  rw [if_pos (by rw [h.fillCnt]; simp)]

theorem get_cons {c : Byte} {rest : List Byte} (h : r.Holds (c :: rest)) :
    ∃ r', ringbufGet r = some (c, r') ∧ r'.Holds rest ∧ r'.size = r.size := by
  have hlt := h.ring.lt
  have hle := h.pO_le
  have hfill := h.fillCnt
  have hlen := h.length_le
  rw [List.length_cons] at hfill hlen
  have hpR : r.pR = r.pO + (r.pR - r.pO) := by omega
  have hc : r.mem r.pR = c := by
    rw [hpR]
    exact h.ring.head
  have hreset : (if r.pR + 1 ≥ r.pO + r.size then r.pO else r.pR + 1) =
      r.pO + wrap r.size (r.pR - r.pO + 1) := by
    conv_lhs => rw [hpR]
    exact reset_eq hlt
  unfold ringbufGet
  rw [if_neg (by omega), hc]
  dsimp only
  rw [hreset]
  refine ⟨_, rfl, ⟨?_, Nat.le_add_right _ _, ?_, ?_⟩, rfl⟩
  · show r.mem.RingHolds r.pO r.size (r.pO + wrap r.size (r.pR - r.pO + 1) - r.pO) rest
    rw [Nat.add_sub_cancel_left]
    exact h.ring.tail
  · show r.pW = r.pO + wrap r.size (r.pO + wrap r.size (r.pR - r.pO + 1) - r.pO + rest.length)
    rw [Nat.add_sub_cancel_left, wrap_wrap_add hlt (by omega), Nat.add_comm 1, h.pW, List.length_cons]
  · show r.fillCnt - 1 = rest.length
    omega

/-- Calls of `RINGBUF_Put` append what fits, and succeed if all of it does. -/
theorem puts (h : r.Holds items) (xs : List Byte) :
    ((ringbufPuts r xs).1 = true ↔ items.length + xs.length ≤ r.size) ∧
      (ringbufPuts r xs).2.Holds (items ++ xs.take (r.size - items.length)) ∧
      (ringbufPuts r xs).2.size = r.size := by
  induction xs generalizing r items with
  | nil => exact ⟨by simpa [ringbufPuts] using h.length_le, by simpa [ringbufPuts] using h, rfl⟩
  | cons c cs ih =>
    have hle := h.length_le
    rcases Nat.lt_or_ge items.length r.size with hn | hn
    · obtain ⟨r', hput, h', hsize⟩ := h.put c hn
      obtain ⟨hok, hh, hs⟩ := ih h'
      have hstep : ringbufPuts r (c :: cs) = ringbufPuts r' cs := by
        rw [ringbufPuts, hput]
      have htake : (c :: cs).take (r.size - items.length) = c :: cs.take (r.size - (items ++ [c]).length) := by
        rw [List.length_append, List.length_singleton,
          show r.size - items.length = r.size - (items.length + 1) + 1 by omega, List.take_succ_cons]
      rw [hstep, htake]
      refine ⟨hok.trans ?_, ?_, hs.trans hsize⟩
      · rw [hsize, List.length_append, List.length_singleton, List.length_cons]
        omega
      · rw [hsize, List.append_assoc] at hh
        exact hh
    · have hfull : items.length = r.size := by omega
      rw [ringbufPuts, h.put_full c hfull]
      refine ⟨?_, ?_, rfl⟩
      · simp only [Bool.false_eq_true, false_iff, List.length_cons]
        omega
      · rw [hfull, Nat.sub_self, List.take_zero, List.append_nil]
        exact h

end Holds

end MqttRingbuf

theorem ringbufPuts_append (r : MqttRingbuf) (xs ys : List Byte) :
    ringbufPuts r (xs ++ ys) =
      if (ringbufPuts r xs).1 then ringbufPuts (ringbufPuts r xs).2 ys else (false, (ringbufPuts r xs).2) := by
  induction xs generalizing r with
  | nil => simp [ringbufPuts]
  | cons c cs ih =>
    rw [List.cons_append, ringbufPuts, ringbufPuts]
    cases ringbufPut r c with
    | none => simp
    | some r' => exact ih r'

end Nonos
