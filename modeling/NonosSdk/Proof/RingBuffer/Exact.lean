import NonosSdk.Proof.RingBuffer.Contents

/-!
# The exact effect of a `put`

On a ring of at most `2³¹` cells no index computation of `user_rb_put` leaves 32 bits
(`Ringbuf.PutArith`), and its copies go to cells of the storage that hold no unread
byte (`putCopies_free`). What a call leaves behind depends on one thing only: whether
it takes the last free cell (`put_exact`).
-/

namespace Nonos

/-- Cell `x` holds an unread byte. -/
def Ringbuf.Unread (rb : Ringbuf) (x : Nat) : Prop :=
  ∃ j < (userRbUnreadSize rb).toNat, x = wrap rb.size.toNat (rb.tail.toNat + j)

/-- Each index computation of `user_rb_put` that is reached, as on integers; `sz` and `rz`
are the variables of the source, `sz` before and `n` after it is brought down to `len`. -/
structure Ringbuf.PutArith (rb : Ringbuf) (len n : Word) : Prop where
  /-- `sz = size + tail - head; rz = size - head;` -/
  high : rb.head ≥ rb.tail →
    (rb.size + rb.tail).toNat = rb.size.toNat + rb.tail.toNat ∧
    ((rb.size + rb.tail - rb.head).toNat : Int) = rb.size.toNat + rb.tail.toNat - rb.head.toNat ∧
    ((rb.size - rb.head).toNat : Int) = rb.size.toNat - rb.head.toNat ∧
    n = clamp (rb.size + rb.tail - rb.head) len
  /-- `sz - rz` -/
  split : rb.head ≥ rb.tail → ¬ rb.size - rb.head ≥ n →
    ((n - (rb.size - rb.head)).toNat : Int) = n.toNat - (rb.size - rb.head).toNat
  /-- `sz = tail - head;` -/
  low : ¬ rb.head ≥ rb.tail →
    ((rb.tail - rb.head).toNat : Int) = rb.tail.toNat - rb.head.toNat ∧ n = clamp (rb.tail - rb.head) len
  /-- `head += sz;` -/
  head : (rb.head + n).toNat = rb.head.toNat + n.toNat
  /-- `head -= size;` -/
  fold : rb.head + n ≥ rb.size → ((rb.head + n - rb.size).toNat : Int) = (rb.head + n).toNat - rb.size.toNat

variable {s : RbState}

/-- The copies are what `user_rb_put` does to the memory. -/
theorem userRbPut_copies (s : RbState) (src : Nat → Byte) (len : Word) :
    (userRbPut s src len).2.mem = (s.rb.putCopies len).foldl
      (fun m c => m.store (s.rb.pbuf + c.cell.toNat) (fun i => src (c.off.toNat + i)) c.count.toNat) s.mem := by
  unfold userRbPut Ringbuf.putCopies
  dsimp only
  split_ifs <;> simp

theorem putArith {rb : Ringbuf} (hv : rb.Valid) (mem : Mem Byte) (src : Nat → Byte) (len : Word) :
    rb.PutArith len (userRbPut ⟨mem, rb⟩ src len).1 := by
  obtain ⟨hs, hh, ht⟩ := hv
  have hn : (userRbPut ⟨mem, rb⟩ src len).1 =
      if rb.head ≥ rb.tail then clamp (rb.size + rb.tail - rb.head) len else clamp (rb.tail - rb.head) len := by
    unfold userRbPut
    dsimp only
    split_ifs <;> rfl
  rw [hn]
  have hc := clamp_toNat (rb.size + rb.tail - rb.head) len
  have hc' := clamp_toNat (rb.tail - rb.head) len
  split_ifs with hge
  · generalize hsz : clamp (rb.size + rb.tail - rb.head) len = n at hc
    exact ⟨fun _ => ⟨by bv_omega, by bv_omega, by bv_omega, hsz.symm⟩, fun _ _ => by bv_omega,
      fun h => absurd hge h, by bv_omega, fun _ => by bv_omega⟩
  · generalize hsz : clamp (rb.tail - rb.head) len = n at hc'
    exact ⟨fun h => absurd h hge, fun h => absurd h hge, fun _ => ⟨by bv_omega, hsz.symm⟩, by bv_omega,
      fun _ => by bv_omega⟩

/-- The cells from the head on, as many as `put` accepts, hold no unread byte. -/
theorem not_unread {rb : Ringbuf} (hv : rb.Valid) {k : Nat} (hk : rb.used + k < rb.size.toNat) :
    ¬ rb.Unread (wrap rb.size.toNat (rb.head.toNat + k)) := by
  rintro ⟨j, hj, he⟩
  rw [userRbUnreadSize_toNat hv] at hj
  -- the cell is `used + k` cells after the tail
  have hb := back_wrap_add hv.tail_lt hv.head_lt hk
  have hu := hv.used_lt
  rw [he, back_wrap hv.tail_lt (by omega)] at hb
  simp only [Ringbuf.used] at hj hb
  omega

/-- A cell that a copy of `user_rb_put` goes to is in the storage and free. -/
theorem putCopies_free {rb : Ringbuf} (hv : rb.Valid) (len : Word) {c : PutCopy} (hc : c ∈ rb.putCopies len)
    {i : Nat} (hi : i < c.count.toNat) :
    c.cell.toNat + i < rb.size.toNat ∧ ¬ rb.Unread (c.cell.toNat + i) := by
  have hs := hv.size_le; have hh := hv.head_lt; have ht := hv.tail_lt
  -- it is some `k`-th cell from the head on
  suffices h : ∃ k, rb.used + k < rb.size.toNat ∧ c.cell.toNat + i = wrap rb.size.toNat (rb.head.toNat + k) by
    obtain ⟨k, hk, he⟩ := h
    rw [he]
    exact ⟨wrap_lt (by omega), not_unread hv hk⟩
  have hsz := clamp_toNat (rb.size + rb.tail - rb.head) len
  have hsz' := clamp_toNat (rb.tail - rb.head) len
  unfold Ringbuf.putCopies at hc
  dsimp only at hc
  unfold Ringbuf.used back
  split_ifs at hc with hge hrz
  · generalize clamp (rb.size + rb.tail - rb.head) len = sz at hc hsz hrz
    obtain rfl := List.mem_singleton.mp hc
    refine ⟨i, ?_, ?_⟩
    · rw [if_pos (by bv_omega)]; bv_omega
    · rw [wrap_of_lt (by bv_omega)]
  · generalize clamp (rb.size + rb.tail - rb.head) len = sz at hc hsz hrz
    rcases List.mem_cons.mp hc with rfl | hc
    · refine ⟨i, ?_, ?_⟩
      · rw [if_pos (by bv_omega)]; bv_omega
      · rw [wrap_of_lt (by bv_omega)]
    · obtain rfl := List.mem_singleton.mp hc
      refine ⟨(rb.size - rb.head).toNat + i, ?_, ?_⟩
      · rw [if_pos (by bv_omega)]; bv_omega
      · rw [wrap_of_ge (by bv_omega)]; bv_omega
  · generalize clamp (rb.tail - rb.head) len = sz at hc hsz'
    obtain rfl := List.mem_singleton.mp hc
    refine ⟨i, ?_, ?_⟩
    · rw [if_neg (by bv_omega)]; bv_omega
    · rw [wrap_of_lt (by bv_omega)]

/-- What `user_rb_put` may be relied on for: its result `n` and the state `s'` after it. -/
structure PutExact (s : RbState) (src : Nat → Byte) (len n : Word) (s' : RbState) : Prop where
  returns : n.toNat = min len.toNat (s.rb.size.toNat - (userRbUnreadSize s.rb).toNat)
  arith : s.rb.PutArith len n
  copies : s'.mem = (s.rb.putCopies len).foldl
    (fun m c => m.store (s.rb.pbuf + c.cell.toNat) (fun i => src (c.off.toNat + i)) c.count.toNat) s.mem
  free : ∀ c ∈ s.rb.putCopies len, ∀ i < c.count.toNat,
    c.cell.toNat + i < s.rb.size.toNat ∧ ¬ s.rb.Unread (c.cell.toNat + i)
  /-- Only the head moves. -/
  ring : s'.rb = { s.rb with head := s'.rb.head }
  head_lt : s'.rb.head.toNat < s.rb.size.toNat
  tail_lt : s'.rb.tail.toNat < s.rb.size.toNat
  appends : n.toNat < s.rb.size.toNat - (userRbUnreadSize s.rb).toNat →
    s'.unread = s.unread ++ (List.range n.toNat).map src
  /-- The last free cell is taken. -/
  overruns : n.toNat = s.rb.size.toNat - (userRbUnreadSize s.rb).toNat → s'.unread = []

/-- On every ring, with every source and length. -/
theorem put_exact (hv : s.rb.Valid) (src : Nat → Byte) (len : Word) :
    PutExact s src len (userRbPut s src len).1 (userRbPut s src len).2 := by
  have hcount := userRbPut_count hv src len
  have hused := userRbUnreadSize_toNat hv
  have hvalid := userRbPut_valid hv src len
  have hring : (userRbPut s src len).2.rb = { s.rb with head := (userRbPut s src len).2.rb.head } := by
    rw [userRbPut_eq hv]
  constructor
  · rw [hcount, hused]; rfl
  · exact putArith hv s.mem src len
  · exact userRbPut_copies s src len
  · exact fun c hc i hi => putCopies_free hv len hc hi
  · exact hring
  · have h := hvalid.head_lt
    rwa [userRbPut_eq hv] at h ⊢
  · have h := hvalid.tail_lt
    rwa [userRbPut_eq hv] at h ⊢
  · rw [hcount, hused]
    exact userRbPut_unread hv src len
  · rw [hcount, hused]
    intro hfull
    rw [RbState.unread_eq hvalid, userRbPut_used_of_full hv src len hfull, Mem.ringRead_zero]

/-- Two of the three free cells of a ring of four are taken, from the last cell on. -/
theorem put_two_wraps : PutExact ⟨fun _ => 0, ⟨0x1000, 3, 2, 4, false⟩⟩ (fun i => BitVec.ofNat 8 (i + 7)) 2 2
    (userRbPut ⟨fun _ => 0, ⟨0x1000, 3, 2, 4, false⟩⟩ (fun i => BitVec.ofNat 8 (i + 7)) 2).2 :=
  put_exact (s := ⟨fun _ => 0, ⟨0x1000, 3, 2, 4, false⟩⟩) ⟨by decide, by decide, by decide⟩ _ 2

end Nonos
