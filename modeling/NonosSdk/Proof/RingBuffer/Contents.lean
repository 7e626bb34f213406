import NonosSdk.Proof.RingBuffer.Ops

/-!
# The ring's content across an operation

A `put` that leaves a free cell appends what it accepts to the unread bytes
(`userRbPut_unread`); one that fills the last free cell makes the head meet
the tail, which reads as an empty ring (`userRbPut_used_of_full`). A `get`
takes what it delivers from the front (`userRbGet_unread`), to a destination
that does not overlap the storage. Both keep the indices inside it.
-/

namespace Nonos

variable {s : RbState}

section Init

variable (s) {pbuf : Nat} {size : Word} (hp : pbuf ≠ 0) (h1 : 1 ≤ size.toNat)
include hp h1

theorem userRbInit_eq : userRbInit s pbuf size =
    { mem := s.mem.memset pbuf 0 size.toNat, rb := ⟨pbuf, 0, 0, size, false⟩ } := by
  have hz : size ≠ 0 := by rintro rfl; simp at h1
  simp only [userRbInit, hp, hz, or_self, if_false]

theorem userRbInit_valid (h2 : size.toNat ≤ 2 ^ 31) : (userRbInit s pbuf size).rb.Valid := by
  rw [userRbInit_eq s hp h1]; exact ⟨h2, h1, h1⟩

theorem userRbInit_used : (userRbInit s pbuf size).rb.used = 0 := by
  rw [userRbInit_eq s hp h1]; rfl

/-- A ring just set up has nothing to read. -/
theorem userRbInit_unread (h2 : size.toNat ≤ 2 ^ 31) : (userRbInit s pbuf size).unread = [] := by
  rw [RbState.unread_eq (userRbInit_valid s hp h1 h2), userRbInit_used s hp h1, Mem.ringRead_zero]

end Init

section Put

variable (hv : s.rb.Valid) (src : Nat → Byte) (len : Word)
include hv

theorem accepts_lt : s.rb.accepts len < 2 ^ 32 := by
  have := hv.size_le; have := s.rb.accepts_le len; omega

theorem userRbPut_count : (userRbPut s src len).1.toNat = s.rb.accepts len := by
  rw [userRbPut_eq hv, BitVec.toNat_ofNat, Nat.mod_eq_of_lt (accepts_lt hv len)]

theorem userRbPut_head : (userRbPut s src len).2.rb.head.toNat =
    wrap s.rb.size.toNat (s.rb.head.toNat + s.rb.accepts len) := by
  have h1 := hv.size_le; have h2 := hv.head_lt; have h3 := s.rb.accepts_le len
  have := wrap_lt (show s.rb.head.toNat + s.rb.accepts len < 2 * s.rb.size.toNat by omega)
  rw [userRbPut_eq hv]
  simp only [BitVec.toNat_ofNat]
  rw [Nat.mod_eq_of_lt (by omega)]

theorem userRbPut_valid : (userRbPut s src len).2.rb.Valid := by
  have hh := userRbPut_head hv src len
  have h1 := hv.size_le; have h2 := hv.head_lt; have h3 := s.rb.accepts_le len
  have hw := wrap_lt (show s.rb.head.toNat + s.rb.accepts len < 2 * s.rb.size.toNat by omega)
  rw [userRbPut_eq hv] at hh ⊢
  exact ⟨hv.size_le, by rw [hh]; exact hw, hv.tail_lt⟩

/-- Unless it takes the last free cell, a `put` lengthens the content. -/
theorem userRbPut_used (hr : s.rb.accepts len < s.rb.size.toNat - s.rb.used) :
    (userRbPut s src len).2.rb.used = s.rb.used + s.rb.accepts len := by
  have hh := userRbPut_head hv src len
  rw [userRbPut_eq hv] at hh ⊢
  simp only [Ringbuf.used] at hh hr ⊢
  rw [hh]
  exact back_wrap_add hv.tail_lt hv.head_lt (by omega)

/-- Taking the last free cell, it leaves a ring that reads as empty. -/
theorem userRbPut_used_of_full (hr : s.rb.accepts len = s.rb.size.toNat - s.rb.used) :
    (userRbPut s src len).2.rb.used = 0 := by
  have hh := userRbPut_head hv src len
  rw [userRbPut_eq hv] at hh ⊢
  simp only [Ringbuf.used] at hh hr ⊢
  rw [hh, hr, wrap_add_sub_back hv.tail_lt hv.head_lt]
  simp [back]

theorem userRbPut_unread (hr : s.rb.accepts len < s.rb.size.toNat - s.rb.used) :
    (userRbPut s src len).2.unread = s.unread ++ (List.range (s.rb.accepts len)).map src := by
  rw [RbState.unread_eq (userRbPut_valid hv src len), userRbPut_used hv src len hr,
    RbState.unread_eq hv, userRbPut_eq hv]
  exact Mem.ringRead_ringWrite_append s.mem src hv.tail_lt hv.head_lt
    (by have := hr; simp only [Ringbuf.used] at this ⊢; omega)

end Put

section Get

variable (hv : s.rb.Valid) (des : Nat) (len : Word)
include hv

theorem userRbGet_count : (userRbGet s des len).1.toNat = s.rb.delivers len := by
  have := hv.size_le; have := hv.used_lt; have := s.rb.delivers_le len
  rw [userRbGet_eq hv, BitVec.toNat_ofNat, Nat.mod_eq_of_lt (by omega)]

theorem userRbGet_tail : (userRbGet s des len).2.rb.tail.toNat =
    wrap s.rb.size.toNat (s.rb.tail.toNat + s.rb.delivers len) := by
  have h1 := hv.size_le; have h2 := hv.tail_lt; have h3 := hv.used_lt; have h4 := s.rb.delivers_le len
  have := wrap_lt (show s.rb.tail.toNat + s.rb.delivers len < 2 * s.rb.size.toNat by omega)
  rw [userRbGet_eq hv]
  simp only [BitVec.toNat_ofNat]
  rw [Nat.mod_eq_of_lt (by omega)]

theorem userRbGet_valid : (userRbGet s des len).2.rb.Valid := by
  have ht := userRbGet_tail hv des len
  have h2 := hv.tail_lt; have h3 := hv.used_lt; have h4 := s.rb.delivers_le len
  have hw := wrap_lt (show s.rb.tail.toNat + s.rb.delivers len < 2 * s.rb.size.toNat by omega)
  rw [userRbGet_eq hv] at ht ⊢
  exact ⟨hv.size_le, hv.head_lt, by rw [ht]; exact hw⟩

theorem userRbGet_used :
    (userRbGet s des len).2.rb.used = s.rb.used - s.rb.delivers len := by
  have ht := userRbGet_tail hv des len
  rw [userRbGet_eq hv] at ht ⊢
  simp only [Ringbuf.used] at ht ⊢
  rw [ht]
  exact back_wrap_left hv.tail_lt hv.head_lt (s.rb.delivers_le len)

/-- The bytes after the call, where the bytes delivered do not go to the storage. -/
theorem userRbGet_mem_of_outside
    (hd : des + s.rb.delivers len ≤ s.rb.pbuf ∨ s.rb.pbuf + s.rb.size.toNat ≤ des) :
    (userRbGet s des len).2.mem = s.mem.store des
      (fun i => s.mem (s.rb.pbuf + wrap s.rb.size.toNat (s.rb.tail.toNat + i))) (s.rb.delivers len) := by
  have h3 := hv.used_lt; have h4 := s.rb.delivers_le len
  rw [userRbGet_eq hv]
  exact Mem.readOut_eq_store s.mem hv.tail_lt (by omega) (by omega)

/-- The delivered bytes were the oldest unread ones, and the others stay. -/
theorem userRbGet_unread
    (hd : des + s.rb.delivers len ≤ s.rb.pbuf ∨ s.rb.pbuf + s.rb.size.toNat ≤ des) :
    (userRbGet s des len).2.mem.cells des (s.rb.delivers len) = s.unread.take (s.rb.delivers len) ∧
      (userRbGet s des len).2.unread = s.unread.drop (s.rb.delivers len) := by
  have h3 := hv.used_lt; have h4 := s.rb.delivers_le len
  have hm := userRbGet_mem_of_outside hv des len hd
  have ht := userRbGet_tail hv des len
  have hp : (userRbGet s des len).2.rb.pbuf = s.rb.pbuf ∧ (userRbGet s des len).2.rb.size = s.rb.size := by
    rw [userRbGet_eq hv]; exact ⟨rfl, rfl⟩
  have hsplit := Mem.ringRead_add s.mem s.rb.pbuf hv.tail_lt
    (show s.rb.delivers len + (s.rb.used - s.rb.delivers len) ≤ s.rb.size.toNat by omega)
  rw [show s.rb.delivers len + (s.rb.used - s.rb.delivers len) = s.rb.used by omega,
    ← RbState.unread_eq hv] at hsplit
  refine ⟨?_, ?_⟩
  · rw [hsplit, List.take_left' (by simp), hm]
    exact List.map_congr_left fun i hi => by
      have := List.mem_range.mp hi
      rw [Mem.store, if_pos (by omega), Nat.add_sub_cancel_left]
  · rw [hsplit, List.drop_left' (by simp), RbState.unread_eq (userRbGet_valid hv des len),
      userRbGet_used hv, ht, hp.1, hp.2]
    apply Mem.ringRead_congr
    intro i hi
    have hw := wrap_lt (show s.rb.tail.toNat + s.rb.delivers len < 2 * s.rb.size.toNat by
      have := hv.tail_lt; omega)
    have hw' := wrap_lt (show wrap s.rb.size.toNat (s.rb.tail.toNat + s.rb.delivers len) + i <
      2 * s.rb.size.toNat by omega)
    rw [hm, Mem.store, if_neg (by omega)]

/-- The same for a read into the storage itself, from its start, as long as the
unread bytes lie in one piece: the copy then goes down over cells that are
already read. -/
theorem userRbGet_unread_self (hu : s.rb.tail.toNat + s.rb.used ≤ s.rb.size.toNat) :
    (userRbGet s s.rb.pbuf len).2.mem.cells s.rb.pbuf (s.rb.delivers len) =
        s.unread.take (s.rb.delivers len) ∧
      (userRbGet s s.rb.pbuf len).2.unread = s.unread.drop (s.rb.delivers len) := by
  have h3 := hv.used_lt; have h4 := s.rb.delivers_le len; have h5 := hv.tail_lt
  have ht := userRbGet_tail hv s.rb.pbuf len
  have hsplit := Mem.ringRead_add s.mem s.rb.pbuf hv.tail_lt
    (show s.rb.delivers len + (s.rb.used - s.rb.delivers len) ≤ s.rb.size.toNat by omega)
  rw [show s.rb.delivers len + (s.rb.used - s.rb.delivers len) = s.rb.used by omega,
    ← RbState.unread_eq hv] at hsplit
  have hm : (userRbGet s s.rb.pbuf len).2.mem =
      s.mem.memcpy s.rb.pbuf (s.rb.pbuf + s.rb.tail.toNat) (s.rb.delivers len) := by
    rw [userRbGet_eq hv]; simp only [Mem.readOut]; rw [if_pos (by omega)]
  have hp : (userRbGet s s.rb.pbuf len).2.rb.pbuf = s.rb.pbuf ∧
      (userRbGet s s.rb.pbuf len).2.rb.size = s.rb.size := by
    rw [userRbGet_eq hv]; exact ⟨rfl, rfl⟩
  refine ⟨?_, ?_⟩
  · rw [hsplit, List.take_left' (by simp), ← Mem.cells_eq_ringRead s.mem (by omega), hm]
    exact Mem.cells_congr fun i hi => Mem.memcpy_apply s.mem hi (by omega)
  · rw [hsplit, List.drop_left' (by simp), RbState.unread_eq (userRbGet_valid hv s.rb.pbuf len),
      userRbGet_used hv, ht, hp.1, hp.2]
    apply Mem.ringRead_congr
    intro i hi
    rw [wrap_of_lt (show s.rb.tail.toNat + s.rb.delivers len < s.rb.size.toNat by omega),
      wrap_of_lt (by omega), hm, Mem.memcpy_outside s.mem (by omega)]

end Get

end Nonos
