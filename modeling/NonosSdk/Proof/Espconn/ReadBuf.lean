import NonosSdk.Framework.Ring
import NonosSdk.Framework.Runs
import NonosSdk.Impl.EspconnBuf
import Mathlib.Data.List.DropRight

/-!
# The read buffer keeps the newest bytes

`Holds rb items`: the ring holds `items` from `tail` on and `head` follows the
last of them. A turn of the write loop moves the window before `head` on
(`writeLoop_window`), whether or not it passes `tail`, so that a write of any
length leaves the newest `capacity` of the bytes held and written
(`Holds.write`): what does not fit pushes the oldest out. `ringbuf_memcpy_from`
takes the oldest bytes (`Holds.read`), and `ringbuf_findchr` looks through what
is held in order (`Holds.findchr`). So over any calls the ring is a list that
is cut to its newest `capacity` bytes (`readbuf_newest`).
-/

namespace Nonos

theorem map_getD_range (src : List Byte) {n : Nat} (h : n ≤ src.length) :
    (List.range n).map (src.getD · 0) = src.take n := by
  refine List.ext_getElem (by simp [h]) fun i hi hi' => ?_
  simp only [List.getElem_map, List.getElem_range, List.getElem_take]
  exact (List.getElem_eq_getD 0).symm

namespace EspconnRingbuf

/-- The ring holds `items`. -/
structure Holds (rb : EspconnRingbuf) (items : List Byte) : Prop where
  ring : rb.mem.RingHolds rb.buf rb.size (rb.tail - rb.buf) items
  tail : rb.buf ≤ rb.tail
  head : rb.head = rb.buf + wrap rb.size (rb.tail - rb.buf + items.length)
  room : items.length < rb.size

/-- All cells, from the one the next byte goes to: oldest first. -/
def window (rb : EspconnRingbuf) : List Byte := rb.mem.ringRead rb.buf rb.size (rb.head - rb.buf) rb.size

theorem new_holds (mem : Mem Byte) (buf capacity : Nat) : (ringbufNew mem buf capacity).Holds [] := by
  refine ⟨Mem.RingHolds.nil _ _ ?_, Nat.le_refl _, ?_, Nat.succ_pos _⟩
  · simp [ringbufNew, ringbufReset]
  · simp [ringbufNew, ringbufReset, wrap_of_lt]

theorem wrap_add_mod {N i : Nat} (k : Nat) : (wrap N i + k) % N = (i + k) % N := by
  rcases Nat.lt_or_ge i N with h | h
  · rw [wrap_of_lt h]
  · rw [wrap_of_ge h, ← Nat.add_mod_right (i - N + k), Nat.add_right_comm, Nat.sub_add_cancel h]

theorem mod_eq_wrap {N i : Nat} (h : i < 2 * N) : i % N = wrap N i := by
  rcases Nat.lt_or_ge i N with hi | hi
  · rw [wrap_of_lt hi, Nat.mod_eq_of_lt hi]
  · rw [wrap_of_ge hi, Nat.mod_eq_sub_mod hi, Nat.mod_eq_of_lt (by omega)]

/-- The loop, from a `head` in the buffer: it ends, and moves the window on. -/
theorem writeLoop_window {n : Nat} {dst : EspconnRingbuf} {h : Nat} (hhead : dst.head = dst.buf + h)
    (hlt : h < dst.size) (src : List Byte) (hn : src.length ≤ n) :
    let r := ringbufWriteLoop n dst src
    (r.buf = dst.buf ∧ r.size = dst.size ∧ r.tail = dst.tail ∧ r.head = dst.buf + (h + src.length) % dst.size) ∧
      r.window = (dst.window ++ src).drop src.length ∧
      ∀ x, x < dst.buf ∨ dst.buf + dst.size ≤ x → r.mem x = dst.mem x := by
  induction n generalizing dst h src with
  | zero =>
    obtain rfl := List.eq_nil_of_length_eq_zero (Nat.le_zero.mp hn)
    simp [ringbufWriteLoop, hhead, Nat.mod_eq_of_lt hlt]
  | succ n ih =>
    rw [ringbufWriteLoop]
    by_cases hs : src.length = 0
    · obtain rfl := List.eq_nil_of_length_eq_zero hs
      simp [hhead, Nat.mod_eq_of_lt hlt]
    · dsimp only
      rw [if_neg hs]
      obtain ⟨len, hlen⟩ : ∃ len, min (ringbufEnd dst - dst.head) src.length = len := ⟨_, rfl⟩
      have hend : ringbufEnd dst - dst.head = dst.size - h := by
        rw [ringbufEnd, ringbufBufferSize, hhead, Nat.add_sub_add_left]
      have hroom : h + len ≤ dst.size := by omega
      have hle : len ≤ src.length := by omega
      have hpos : 0 < len := by omega
      have hwrap := wrap_lt (show h + len < 2 * dst.size by omega)
      have hnext : (if dst.head + len = ringbufEnd dst then dst.buf else dst.head + len) =
          dst.buf + wrap dst.size (h + len) := by
        rw [ringbufEnd, ringbufBufferSize, hhead]
        unfold wrap
        split_ifs <;> omega
      have hstore : dst.mem.store dst.head (src.getD · 0) len =
          dst.mem.ringWrite dst.buf dst.size h (src.getD · 0) len := by
        rw [hhead, Mem.store_eq_ringWrite _ _ hroom]
      rw [hlen, hnext, hstore]
      have hdrop : (src.drop len).length = src.length - len := List.length_drop
      have hturn : ({ dst with mem := dst.mem.ringWrite dst.buf dst.size h (src.getD · 0) len,
                               head := dst.buf + wrap dst.size (h + len) } : EspconnRingbuf).head =
          dst.buf + wrap dst.size (h + len) := rfl
      obtain ⟨⟨hbuf, hsize, htail, hhead'⟩, hwindow, hout⟩ := ih hturn hwrap (src.drop len) (by omega)
      refine ⟨⟨hbuf, hsize, htail, ?_⟩, ?_, ?_⟩
      · rw [hhead', hdrop, wrap_add_mod, Nat.add_assoc, Nat.add_sub_cancel' hle]
      · -- the turn moves the window on by `len`, the rest of the loop by what is left
        have hmove := Mem.ringRead_ringWrite_window dst.mem dst.buf (src.getD · 0) hlt (show len ≤ dst.size by omega)
        rw [map_getD_range src hle] at hmove
        have hwin : dst.window.length = dst.size := Mem.length_ringRead ..
        have hold : dst.window = dst.mem.ringRead dst.buf dst.size h dst.size := by
          rw [window, hhead, Nat.add_sub_cancel_left]
        rw [hwindow, window]
        dsimp only
        rw [Nat.add_sub_cancel_left, hmove, ← hold, hdrop, List.append_assoc, List.take_append_drop,
          ← List.drop_append_of_le_length (by omega), List.drop_drop, Nat.add_sub_cancel' hle]
      · intro x hx
        refine (hout x hx).trans ?_
        dsimp only
        exact Mem.ringWrite_outside dst.mem _ hx

/-- What a ring holds, by its window. -/
theorem holds_drop_window {rb : EspconnRingbuf} {t h : Nat} (htail : rb.tail = rb.buf + t) (hhead : rb.head = rb.buf + h)
    (ht : t < rb.size) (hh : h < rb.size) : rb.Holds (rb.window.drop (rb.size - back rb.size t h)) := by
  have hb := back_lt ht hh
  have hwin : rb.window.drop (rb.size - back rb.size t h) = rb.mem.ringRead rb.buf rb.size t (back rb.size t h) := by
    rw [window, hhead, Nat.add_sub_cancel_left]
    exact Mem.drop_window _ _ ht hh
  rw [hwin]
  refine ⟨⟨?_, ?_, ?_⟩, by omega, ?_, ?_⟩
  · rwa [htail, Nat.add_sub_cancel_left]
  · rw [Mem.length_ringRead]
    omega
  · rw [htail, Nat.add_sub_cancel_left, Mem.length_ringRead]
  · rw [htail, Nat.add_sub_cancel_left, Mem.length_ringRead, wrap_back ht hh, hhead]
  · rwa [Mem.length_ringRead]

theorem rtake_append_replicate (xs : List Byte) (c : Byte) {k n : Nat} (h : k ≤ n) :
    (xs ++ List.replicate n c).rtake k = List.replicate k c := by
  rw [List.rtake, List.length_append, List.length_replicate, Nat.add_sub_assoc h, List.drop_append,
    List.drop_eq_nil_of_le (Nat.le_add_right _ _), List.nil_append, List.drop_replicate, Nat.add_sub_cancel_left,
    Nat.sub_sub_self h]

/-- What a cut has dropped, a later cut to the same length would drop. -/
theorem rtake_append_rtake (xs ys : List Byte) (k : Nat) : (xs.rtake k ++ ys).rtake k = (xs ++ ys).rtake k := by
  have hlen : (xs.rtake k).length = min k xs.length := by
    rw [List.rtake, List.length_drop]
    omega
  rcases Nat.le_total xs.length k with hk | hk
  · rw [List.rtake, List.rtake, Nat.sub_eq_zero_of_le hk, List.drop_zero, List.rtake]
  · rw [List.rtake, List.length_append, hlen, Nat.min_eq_left hk, Nat.add_sub_cancel_left, List.rtake, List.rtake,
      List.length_append, ← List.drop_append_of_le_length (Nat.sub_le _ _), List.drop_drop]
    congr 1
    omega

namespace Holds

variable {rb : EspconnRingbuf} {items : List Byte}

theorem tail_eq (h : rb.Holds items) : rb.tail = rb.buf + (rb.tail - rb.buf) := (Nat.add_sub_cancel' h.tail).symm

theorem bytesFree (h : rb.Holds items) : ringbufBytesFree rb = rb.size - 1 - items.length := by
  have hlt := h.ring.lt
  have hroom := h.room
  rw [ringbufBytesFree, ringbufCapacity, ringbufBufferSize, h.head, h.tail_eq]
  unfold wrap
  split_ifs <;> omega

theorem bytesUsed (h : rb.Holds items) : ringbufBytesUsed rb = items.length := by
  have hroom := h.room
  rw [ringbufBytesUsed, h.bytesFree, ringbufCapacity, ringbufBufferSize]
  omega

theorem unique {items' : List Byte} (h : rb.Holds items) (h' : rb.Holds items') : items = items' := by
  have hlen : items.length = items'.length := h.bytesUsed.symm.trans h'.bytesUsed
  rw [← h.ring.read, ← h'.ring.read, hlen]

/-- The bytes held are the last of the window. -/
theorem window_drop (h : rb.Holds items) : rb.window.drop (rb.size - items.length) = items := by
  have hend := wrap_lt (show rb.tail - rb.buf + items.length < 2 * rb.size by
    have := h.ring.lt; have := h.room; omega)
  have hdrop := Mem.drop_window rb.mem rb.buf h.ring.lt hend
  rw [window, h.head, Nat.add_sub_cancel_left]
  rwa [back_wrap h.ring.lt h.room, h.ring.read] at hdrop

/-- A write leaves the newest bytes. -/
theorem write (h : rb.Holds items) (src : List Byte) {n : Nat} (hn : src.length ≤ n) :
    let r := ringbufOverflow (ringbufWriteLoop n rb src) (src.length > ringbufBytesFree rb)
    r.Holds ((items ++ src).rtake (rb.size - 1)) ∧ (r.buf = rb.buf ∧ r.size = rb.size) ∧
      ∀ x, x < rb.buf ∨ rb.buf + rb.size ≤ x → r.mem x = rb.mem x := by
  have hroom := h.room
  have ht := h.ring.lt
  have hend := wrap_lt (show rb.tail - rb.buf + items.length < 2 * rb.size by omega)
  obtain ⟨⟨hbuf, hsize, htail, hhead⟩, hwindow, hout⟩ := writeLoop_window h.head hend src hn
  have hback := back_wrap ht hroom
  have hwin : rb.window.length = rb.size := Mem.length_ringRead ..
  have hsplit : (rb.window ++ src).drop (rb.size - items.length) = items ++ src := by
    rw [List.drop_append_of_le_length (by omega), h.window_drop]
  generalize wrap rb.size (rb.tail - rb.buf + items.length) = e at *
  generalize ringbufWriteLoop n rb src = r at *
  dsimp only
  rw [h.bytesFree, List.rtake, List.length_append, ← hsplit, List.drop_drop]
  unfold ringbufOverflow
  split
  · -- `tail` comes to stand one cell after `head`
    rename_i hover
    obtain ⟨x, hx⟩ : ∃ x, (e + src.length) % rb.size = x := ⟨_, rfl⟩
    have hlt : x < rb.size := hx ▸ Nat.mod_lt _ (by omega)
    have hnext : ringbufNextp r r.head = r.buf + wrap rb.size (x + 1) := by
      rw [ringbufNextp, ringbufBufferSize, hhead, hbuf, hsize, hx, Nat.add_assoc, Nat.add_sub_cancel_left,
        mod_eq_wrap (by omega)]
    refine ⟨?_, ⟨hbuf, hsize⟩, hout⟩
    rw [hnext]
    have hhead' : ({ r with tail := r.buf + wrap rb.size (x + 1) } : EspconnRingbuf).head = r.buf + x := by
      rw [← hx, hbuf]
      exact hhead
    have hholds := holds_drop_window rfl hhead' (hsize ▸ wrap_lt (by omega)) (hsize ▸ hlt)
    have hwindow' : ({ r with tail := r.buf + wrap rb.size (x + 1) } : EspconnRingbuf).window =
        (rb.window ++ src).drop src.length := hwindow
    rw [hwindow', hsize, back_wrap_self Nat.one_pos (by omega), List.drop_drop] at hholds
    rwa [hsize, show rb.size - items.length + (items.length + src.length - (rb.size - 1)) =
      src.length + (rb.size - (rb.size - 1)) by omega]
  · rename_i hfits
    refine ⟨?_, ⟨hbuf, hsize⟩, hout⟩
    have hhead' : r.head = r.buf + wrap rb.size (e + src.length) := by
      rw [hhead, hbuf, mod_eq_wrap (by omega)]
    have htail' : r.tail = r.buf + (rb.tail - rb.buf) := by
      rw [htail, hbuf]
      exact h.tail_eq
    have hholds := holds_drop_window htail' hhead' (hsize ▸ ht) (hsize ▸ wrap_lt (by omega))
    rw [hwindow, hsize, back_wrap_add ht hend (by omega), hback, List.drop_drop] at hholds
    rwa [show rb.size - items.length + (items.length + src.length - (rb.size - 1)) =
      src.length + (rb.size - (items.length + src.length)) by omega]

/-- `ringbuf_memcpy_into`. -/
theorem memcpyInto (h : rb.Holds items) (src : List Byte) :
    (ringbufMemcpyInto rb src).Holds ((items ++ src).rtake (rb.size - 1)) ∧
      ((ringbufMemcpyInto rb src).buf = rb.buf ∧ (ringbufMemcpyInto rb src).size = rb.size) ∧
      ∀ x, x < rb.buf ∨ rb.buf + rb.size ≤ x → (ringbufMemcpyInto rb src).mem x = rb.mem x :=
  h.write src (Nat.le_refl _)

/-- Several writes are one. -/
theorem memcpyInto_foldl (h : rb.Holds items) (p : List (List Byte)) :
    (p.foldl ringbufMemcpyInto rb).Holds ((items ++ p.flatten).rtake (rb.size - 1)) ∧
      (p.foldl ringbufMemcpyInto rb).size = rb.size := by
  induction p generalizing rb items with
  | nil =>
    have hroom := h.room
    rw [List.flatten_nil, List.append_nil, List.rtake, Nat.sub_eq_zero_of_le (by omega)]
    exact ⟨h, rfl⟩
  | cons src p ih =>
    obtain ⟨hholds, ⟨-, hsize⟩, -⟩ := h.memcpyInto src
    obtain ⟨hrest, hsize'⟩ := ih hholds
    rw [hsize, rtake_append_rtake, List.append_assoc, ← List.flatten_cons] at hrest
    exact ⟨hrest, hsize'.trans hsize⟩

/-- `ringbuf_memset` writes the byte as often as it is asked to, as far as can be seen. -/
theorem memset (h : rb.Holds items) (c : Byte) (len : Nat) :
    (ringbufMemset rb c len).Holds ((items ++ List.replicate len c).rtake (rb.size - 1)) ∧
      ((ringbufMemset rb c len).buf = rb.buf ∧ (ringbufMemset rb c len).size = rb.size) ∧
      ∀ x, x < rb.buf ∨ rb.buf + rb.size ≤ x → (ringbufMemset rb c len).mem x = rb.mem x := by
  have hwrite := h.write (List.replicate (min len rb.size) c) (n := min len rb.size) (by simp)
  rw [List.length_replicate] at hwrite
  have hroom := h.room
  have hsame : (items ++ List.replicate len c).rtake (rb.size - 1) =
      (items ++ List.replicate (min len rb.size) c).rtake (rb.size - 1) := by
    rcases Nat.le_total len rb.size with hle | hle
    · rw [Nat.min_eq_left hle]
    · rw [rtake_append_replicate _ c (by omega), rtake_append_replicate _ c (by omega)]
  rw [hsame]
  exact hwrite

/-- The loop of `ringbuf_memcpy_from` takes the oldest bytes. -/
theorem readLoop (h : rb.Holds items) {count n : Nat} (hc : count ≤ items.length) (hn : count ≤ n) :
    (ringbufReadLoop n rb count).1 = items.take count ∧ (ringbufReadLoop n rb count).2.Holds (items.drop count) ∧
      (ringbufReadLoop n rb count).2.buf = rb.buf ∧ (ringbufReadLoop n rb count).2.size = rb.size ∧
      (ringbufReadLoop n rb count).2.mem = rb.mem := by
  induction n generalizing rb items count with
  | zero =>
    obtain rfl := Nat.le_zero.mp hn
    exact ⟨rfl, h, rfl, rfl, rfl⟩
  | succ n ih =>
    rw [ringbufReadLoop]
    split
    · rename_i hzero
      subst hzero
      exact ⟨rfl, h, rfl, rfl, rfl⟩
    · dsimp only
      obtain ⟨len, hlen⟩ : ∃ len, min (ringbufEnd rb - rb.tail) count = len := ⟨_, rfl⟩
      have hlt := h.ring.lt
      have hend : ringbufEnd rb - rb.tail = rb.size - (rb.tail - rb.buf) := by
        have := h.tail
        rw [ringbufEnd, ringbufBufferSize]
        omega
      have hroom := h.room
      have hle : len ≤ items.length := by omega
      have hnext : (if rb.tail + len = ringbufEnd rb then rb.buf else rb.tail + len) =
          rb.buf + wrap rb.size (rb.tail - rb.buf + len) := by
        rw [ringbufEnd, ringbufBufferSize, h.tail_eq, Nat.add_sub_cancel_left]
        unfold wrap
        split_ifs <;> omega
      have hcells : rb.mem.cells rb.tail len = items.take len := by
        rw [h.tail_eq]
        exact h.ring.cells hle (by omega)
      rw [hlen, hnext, hcells]
      have hrest : ({ rb with tail := rb.buf + wrap rb.size (rb.tail - rb.buf + len) } : EspconnRingbuf).Holds
          (items.drop len) := by
        refine ⟨?_, Nat.le_add_right _ _, ?_, ?_⟩
        · dsimp only
          rw [Nat.add_sub_cancel_left]
          exact h.ring.drop hle
        · dsimp only
          rw [Nat.add_sub_cancel_left, List.length_drop, wrap_wrap_add hlt (by omega), Nat.add_sub_cancel' hle, h.head]
        · rw [List.length_drop]
          dsimp only
          omega
      have hmore : count - len ≤ (items.drop len).length := by
        rw [List.length_drop]
        omega
      obtain ⟨hdst, hholds, hbuf, hsize, hmem⟩ := ih hrest hmore (by omega)
      rw [List.drop_drop, Nat.add_sub_cancel' (show len ≤ count by omega)] at hholds
      refine ⟨?_, hholds, hbuf, hsize, hmem⟩
      rw [hdst, ← List.take_add, Nat.add_sub_cancel' (show len ≤ count by omega)]

/-- `ringbuf_memcpy_from` takes the oldest bytes, or none. -/
theorem memcpyFrom (h : rb.Holds items) (count : Nat) :
    (ringbufMemcpyFrom rb count).1 = (if items.length < count then none else some (items.take count)) ∧
      (ringbufMemcpyFrom rb count).2.Holds (if items.length < count then items else items.drop count) ∧
      ((ringbufMemcpyFrom rb count).2.buf = rb.buf ∧ (ringbufMemcpyFrom rb count).2.size = rb.size) ∧
      (ringbufMemcpyFrom rb count).2.mem = rb.mem := by
  by_cases hc : items.length < count
  · have hcall : ringbufMemcpyFrom rb count = (none, rb) := by
      rw [ringbufMemcpyFrom, h.bytesUsed]
      exact if_pos hc
    rw [hcall, if_pos hc, if_pos hc]
    exact ⟨rfl, h, ⟨rfl, rfl⟩, rfl⟩
  · obtain ⟨hdst, hholds, hbuf, hsize, hmem⟩ := h.readLoop (Nat.not_lt.mp hc) (Nat.le_refl count)
    have hcall : ringbufMemcpyFrom rb count = (some (items.take count), (ringbufReadLoop count rb count).2) := by
      rw [ringbufMemcpyFrom, h.bytesUsed, ← hdst]
      exact if_neg hc
    rw [hcall, if_neg hc, if_neg hc]
    exact ⟨rfl, hholds, ⟨hbuf, hsize⟩, hmem⟩

theorem reset (h : rb.Holds items) : (ringbufReset rb).Holds [] := by
  have hroom := h.room
  refine ⟨Mem.RingHolds.nil _ _ ?_, Nat.le_refl _, ?_, by simp only [List.length_nil]; exact Nat.zero_lt_of_lt hroom⟩
  · simp only [ringbufReset, Nat.sub_self]
    exact Nat.zero_lt_of_lt hroom
  · simp [ringbufReset, wrap_of_lt (Nat.zero_lt_of_lt hroom)]

/-- The calls of `ringbuf_findchr`, each of which looks through what is left up to the end of the buffer. -/
theorem findchrLoop (h : rb.Holds items) (c : Byte) {n : Nat} (offset : Nat) (hn : items.length - offset < n) :
    ringbufFindchrLoop rb c n offset =
      if c ∈ items.drop offset then offset + (items.drop offset).idxOf c else items.length := by
  induction n generalizing offset with
  | zero => omega
  | succ n ih =>
    rw [ringbufFindchrLoop, h.bytesUsed]
    dsimp only
    by_cases hoff : offset ≥ items.length
    · rw [if_pos hoff, List.drop_eq_nil_of_le hoff, if_neg List.not_mem_nil]
    rw [if_neg hoff]
    have hroom := h.room
    have ht := h.ring.lt
    have hrest := h.ring.drop (n := offset) (by omega)
    have hstart : (rb.tail - rb.buf + offset) % ringbufBufferSize rb = wrap rb.size (rb.tail - rb.buf + offset) := by
      rw [ringbufBufferSize, mod_eq_wrap (by omega)]
    rw [hstart, ringbufEnd, ringbufBufferSize, Nat.add_sub_add_left]
    have hlt := hrest.lt
    generalize wrap rb.size (rb.tail - rb.buf + offset) = start at hrest hlt
    have hlen : (items.drop offset).length = items.length - offset := List.length_drop
    obtain ⟨len, hmin⟩ : ∃ len, min (rb.size - start) (items.length - offset) = len := ⟨_, rfl⟩
    rw [hmin, hrest.cells (n := len) (by omega) (by omega), memchr]
    have hsplit := List.take_append_drop len (items.drop offset)
    rw [List.drop_drop] at hsplit
    by_cases hc : c ∈ (items.drop offset).take len
    · rw [if_pos hc, if_pos (List.mem_of_mem_take hc), ← hsplit, List.idxOf_append_of_mem]
      · rw [hsplit]
      · exact hc
    · have hmem : c ∈ items.drop offset ↔ c ∈ items.drop (offset + len) := by
        rw [← hsplit, List.mem_append]
        exact or_iff_right hc
      rw [if_neg hc]
      dsimp only
      rw [ih (offset + len) (by omega)]
      simp only [hmem]
      split
      · have hidx : (items.drop offset).idxOf c = len + (items.drop (offset + len)).idxOf c := by
          conv_lhs => rw [← hsplit]
          rw [List.idxOf_append_of_notMem hc, List.length_take, Nat.min_eq_left (by omega)]
        rw [hidx, Nat.add_assoc]
      · rfl

/-- `ringbuf_findchr` finds the first such byte from the offset on, or the end. -/
theorem findchr (h : rb.Holds items) (c : Byte) (offset : Nat) :
    ringbufFindchr rb c offset =
      if c ∈ items.drop offset then offset + (items.drop offset).idxOf c else items.length := by
  rw [ringbufFindchr, h.bytesUsed]
  exact h.findchrLoop c offset (by omega)

end Holds

end EspconnRingbuf

/-- A call that changes the ring. -/
inductive RingbufCall where
  | reset
  | memset (c : Byte) (len : Nat)
  | memcpyInto (src : List Byte)
  | memcpyFrom (count : Nat)

/-- The ring after a call. -/
def ringbufStep (rb : EspconnRingbuf) : RingbufCall → EspconnRingbuf
  | .reset => ringbufReset rb
  | .memset c len => ringbufMemset rb c len
  | .memcpyInto src => ringbufMemcpyInto rb src
  | .memcpyFrom count => (ringbufMemcpyFrom rb count).2

/-- What it does to a list that is cut to its newest `capacity` bytes. -/
def newestStep (capacity : Nat) (s : List Byte) : RingbufCall → List Byte
  | .reset => []
  | .memset c len => (s ++ List.replicate len c).rtake capacity
  | .memcpyInto src => (s ++ src).rtake capacity
  | .memcpyFrom count => if s.length < count then s else s.drop count

/-- The ring of `ringbuf_new(capacity)` holds `s` and leaves the memory around it alone. -/
structure Newest (mem : Mem Byte) (buf capacity : Nat) (rb : EspconnRingbuf) (s : List Byte) : Prop where
  holds : rb.Holds s
  start : rb.buf = buf
  length : rb.size = capacity + 1
  outside : ∀ x, x < buf ∨ buf + (capacity + 1) ≤ x → rb.mem x = mem x

theorem ringbufStep_newest {mem : Mem Byte} {buf capacity : Nat} (rb : EspconnRingbuf) (s : List Byte) (e : RingbufCall)
    (h : Newest mem buf capacity rb s) : Newest mem buf capacity (ringbufStep rb e) (newestStep capacity s e) := by
  have hwrite : ∀ {rb' : EspconnRingbuf} {s' : List Byte}, (rb'.Holds (s'.rtake (rb.size - 1)) ∧
      (rb'.buf = rb.buf ∧ rb'.size = rb.size) ∧ ∀ x, x < rb.buf ∨ rb.buf + rb.size ≤ x → rb'.mem x = rb.mem x) →
      Newest mem buf capacity rb' (s'.rtake capacity) := by
    rintro rb' s' ⟨hholds, ⟨hbuf, hsize⟩, hout⟩
    rw [h.length, Nat.add_sub_cancel] at hholds
    rw [h.start, h.length] at hout
    exact ⟨hholds, hbuf.trans h.start, hsize.trans h.length, fun x hx => (hout x hx).trans (h.outside x hx)⟩
  cases e with
  | reset => exact ⟨h.holds.reset, h.start, h.length, h.outside⟩
  | memset c len => exact hwrite (h.holds.memset c len)
  | memcpyInto src => exact hwrite (h.holds.memcpyInto src)
  | memcpyFrom count =>
    obtain ⟨-, hholds, ⟨hbuf, hsize⟩, hmem⟩ := h.holds.memcpyFrom count
    exact ⟨hholds, hbuf.trans h.start, hsize.trans h.length, fun x hx => (congrFun hmem x).trans (h.outside x hx)⟩

theorem ringbufNew_newest (mem : Mem Byte) (buf capacity : Nat) :
    Newest mem buf capacity (ringbufNew mem buf capacity) [] := by
  refine ⟨EspconnRingbuf.new_holds mem buf capacity, rfl, rfl, fun x hx => ?_⟩
  simp only [ringbufNew, ringbufReset, Mem.memset, Mem.store]
  exact if_neg (by omega)

/-- After any calls the ring is a list cut to its newest `capacity` bytes, in all that can be seen of it: what
`ringbuf_memcpy_from` copies, what is used and free, and where `ringbuf_findchr` finds a byte. The memory around
the buffer is untouched. -/
theorem readbuf_newest (mem : Mem Byte) (buf capacity : Nat) (es : List RingbufCall) :
    let rb := run ringbufStep (ringbufNew mem buf capacity) es
    let s := run (newestStep capacity) [] es
    (s.length ≤ capacity ∧ ringbufBytesUsed rb = s.length ∧ ringbufBytesFree rb = capacity - s.length) ∧
      (∀ count, (ringbufMemcpyFrom rb count).1 = if s.length < count then none else some (s.take count)) ∧
      (∀ c offset, ringbufFindchr rb c offset =
        if c ∈ s.drop offset then offset + (s.drop offset).idxOf c else s.length) ∧
      ∀ x, x < buf ∨ buf + (capacity + 1) ≤ x → rb.mem x = mem x := by
  intro rb s
  have h : Newest mem buf capacity rb s :=
    (Along.of_mem (P := fun _ _ => True) (fun _ _ _ => trivial) _).sim
      (fun rb s e h _ => ringbufStep_newest rb s e h) (ringbufNew_newest mem buf capacity)
  have hroom := h.holds.room
  have hfree := h.holds.bytesFree
  rw [h.length] at hroom hfree
  exact ⟨⟨by omega, h.holds.bytesUsed, hfree⟩, fun count => (h.holds.memcpyFrom count).1, h.holds.findchr, h.outside⟩

example : run (newestStep 3) [] [.memcpyInto [1, 2], .memcpyInto [3, 4], .memcpyFrom 1] = [3, 4] := by decide

end Nonos
