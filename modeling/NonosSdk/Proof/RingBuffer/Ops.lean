import NonosSdk.Framework.Cyclic
import NonosSdk.Impl.RingBuffer

/-!
# What one ring operation does

On a ring whose indices are inside its storage (`Ringbuf.Valid`), with at most
`2³¹` cells, no 32-bit index computation wraps: `put` writes cyclically from
the head (`userRbPut_eq`) and `get` reads cyclically from the tail
(`userRbGet_eq`). Everything else about the ring is proved from these two
equations. `unread` is the sequence of bytes still readable.
-/

namespace Nonos

/-- The indices lie in a storage of at most `2³¹` cells. -/
structure Ringbuf.Valid (rb : Ringbuf) : Prop where
  size_le : rb.size.toNat ≤ 2 ^ 31
  head_lt : rb.head.toNat < rb.size.toNat
  tail_lt : rb.tail.toNat < rb.size.toNat

/-- How many bytes are unread. -/
def Ringbuf.used (rb : Ringbuf) : Nat := back rb.size.toNat rb.tail.toNat rb.head.toNat

theorem Ringbuf.Valid.used_lt {rb : Ringbuf} (hv : rb.Valid) : rb.used < rb.size.toNat :=
  back_lt hv.tail_lt hv.head_lt

theorem clamp_toNat (sz len : Word) : (clamp sz len).toNat = min sz.toNat len.toNat := by
  unfold clamp; split <;> bv_omega

theorem foldIndex_toNat (size i : Word) (h : i.toNat < 2 * size.toNat) :
    (foldIndex size i).toNat = wrap size.toNat i.toNat := by
  unfold foldIndex wrap; split_ifs <;> bv_omega

theorem userRbUnreadSize_toNat {rb : Ringbuf} (hv : rb.Valid) :
    (userRbUnreadSize rb).toNat = rb.used := by
  obtain ⟨h1, h2, h3⟩ := hv
  unfold userRbUnreadSize Ringbuf.used back
  split_ifs <;> bv_omega

/-- The unread bytes, oldest first: `user_rb_unread_size` of them, from the
tail, wrapping. -/
def RbState.unread (s : RbState) : List Byte :=
  s.mem.ringRead s.rb.pbuf s.rb.size.toNat s.rb.tail.toNat (userRbUnreadSize s.rb).toNat

theorem RbState.unread_eq {s : RbState} (hv : s.rb.Valid) :
    s.unread = s.mem.ringRead s.rb.pbuf s.rb.size.toNat s.rb.tail.toNat s.rb.used := by
  rw [RbState.unread, userRbUnreadSize_toNat hv]

/-- An index moved on by at most the size, and folded back. -/
theorem foldIndex_add {size i n : Word} (hs : size.toNat ≤ 2 ^ 31) (hi : i.toNat < size.toNat)
    (hn : n.toNat ≤ size.toNat) :
    foldIndex size (i + n) = BitVec.ofNat 32 (wrap size.toNat (i.toNat + n.toNat)) := by
  apply BitVec.eq_of_toNat_eq
  have ha : (i + n).toNat = i.toNat + n.toNat := by bv_omega
  have hw := wrap_lt (show i.toNat + n.toNat < 2 * size.toNat by omega)
  rw [foldIndex_toNat _ _ (by omega), ha, BitVec.toNat_ofNat, Nat.mod_eq_of_lt (by omega)]

/-- What `put` accepts: as much as fits into the free cells. -/
def Ringbuf.accepts (rb : Ringbuf) (len : Word) : Nat := min len.toNat (rb.size.toNat - rb.used)

theorem Ringbuf.accepts_le {rb : Ringbuf} (len : Word) : rb.accepts len ≤ rb.size.toNat - rb.used :=
  Nat.min_le_right ..

/-- `put` writes what it accepts cyclically from the head. -/
theorem userRbPut_eq {s : RbState} (hv : s.rb.Valid) (src : Nat → Byte) (len : Word) :
    userRbPut s src len =
      (BitVec.ofNat 32 (s.rb.accepts len),
        { mem := s.mem.ringWrite s.rb.pbuf s.rb.size.toNat s.rb.head.toNat src (s.rb.accepts len),
          rb := { s.rb with
            head := BitVec.ofNat 32 (wrap s.rb.size.toNat (s.rb.head.toNat + s.rb.accepts len)) } }) := by
  obtain ⟨mem, pbuf, head, tail, size, lock⟩ := s
  obtain ⟨hs, hh, ht⟩ := hv
  simp only [userRbPut, Ringbuf.accepts, Ringbuf.used] at hs hh ht ⊢
  by_cases hc : head ≥ tail
  · -- free cells from the head to the end, and from the start to the tail
    have hb : back size.toNat tail.toNat head.toNat = head.toNat - tail.toNat := by
      unfold back; rw [if_pos (by bv_omega)]
    have hsz : (clamp (size + tail - head) len).toNat =
        min len.toNat (size.toNat - (head.toNat - tail.toNat)) := by
      rw [clamp_toNat]; bv_omega
    have hrz : (size - head).toNat = size.toNat - head.toNat := by bv_omega
    rw [if_pos hc, hb, ← hsz]
    generalize clamp (size + tail - head) len = sz at hsz ⊢
    rw [foldIndex_add hs hh (by omega)]
    apply Prod.ext (by simp)
    simp only [RbState.mk.injEq, and_true]
    split
    · exact Mem.store_eq_ringWrite mem src (by bv_omega)
    · rw [show (sz - (size - head)).toNat = sz.toNat - (size.toNat - head.toNat) by bv_omega, hrz]
      exact Mem.store_store_eq_ringWrite mem src hh (by omega) (by bv_omega)
  · have hb : back size.toNat tail.toNat head.toNat = size.toNat + head.toNat - tail.toNat := by
      unfold back; rw [if_neg (by bv_omega)]
    have hsz : (clamp (tail - head) len).toNat =
        min len.toNat (size.toNat - (size.toNat + head.toNat - tail.toNat)) := by
      rw [clamp_toNat]; bv_omega
    rw [if_neg hc, hb, ← hsz]
    generalize clamp (tail - head) len = sz at hsz ⊢
    rw [foldIndex_add hs hh (by omega)]
    apply Prod.ext (by simp)
    simp only [RbState.mk.injEq, and_true]
    exact Mem.store_eq_ringWrite mem src (by bv_omega)

/-- What `get` delivers: as much as is unread. -/
def Ringbuf.delivers (rb : Ringbuf) (len : Word) : Nat := min len.toNat rb.used

theorem Ringbuf.delivers_le {rb : Ringbuf} (len : Word) : rb.delivers len ≤ rb.used :=
  Nat.min_le_right ..

theorem Ringbuf.delivers_le_len {rb : Ringbuf} (len : Word) : rb.delivers len ≤ len.toNat :=
  Nat.min_le_left ..

/-- `get` copies what it delivers out, cyclically from the tail. -/
theorem userRbGet_eq {s : RbState} (hv : s.rb.Valid) (des : Nat) (len : Word) :
    userRbGet s des len =
      (BitVec.ofNat 32 (s.rb.delivers len),
        { mem := s.mem.readOut s.rb.pbuf s.rb.size.toNat s.rb.tail.toNat des (s.rb.delivers len),
          rb := { s.rb with
            tail := BitVec.ofNat 32 (wrap s.rb.size.toNat (s.rb.tail.toNat + s.rb.delivers len)) } }) := by
  obtain ⟨mem, pbuf, head, tail, size, lock⟩ := s
  obtain ⟨hs, hh, ht⟩ := hv
  simp only [userRbGet, Ringbuf.delivers, Ringbuf.used] at hs hh ht ⊢
  by_cases hc : head ≥ tail
  · have hb : back size.toNat tail.toNat head.toNat = head.toNat - tail.toNat := by
      unfold back; rw [if_pos (by bv_omega)]
    have hsz : (clamp (head - tail) len).toNat = min len.toNat (head.toNat - tail.toNat) := by
      rw [clamp_toNat]; bv_omega
    rw [if_pos hc, hb, ← hsz]
    generalize clamp (head - tail) len = sz at hsz ⊢
    rw [foldIndex_add hs ht (by omega)]
    apply Prod.ext (by simp)
    simp only [RbState.mk.injEq, and_true]
    rw [Mem.readOut, if_pos (by omega)]
  · have hb : back size.toNat tail.toNat head.toNat = size.toNat + head.toNat - tail.toNat := by
      unfold back; rw [if_neg (by bv_omega)]
    have hsz : (clamp (size + head - tail) len).toNat =
        min len.toNat (size.toNat + head.toNat - tail.toNat) := by
      rw [clamp_toNat]; bv_omega
    have hrz : (size - tail).toNat = size.toNat - tail.toNat := by bv_omega
    rw [if_neg hc, hb, ← hsz]
    generalize clamp (size + head - tail) len = sz at hsz ⊢
    rw [foldIndex_add hs ht (by bv_omega)]
    apply Prod.ext (by simp)
    simp only [RbState.mk.injEq, and_true, Mem.readOut]
    by_cases hr : size - tail ≥ sz
    · rw [if_pos hr, if_pos (by bv_omega)]
    · rw [if_neg hr, if_neg (by bv_omega), hrz,
        show (sz - (size - tail)).toNat = sz.toNat - (size.toNat - tail.toNat) by bv_omega]

end Nonos
