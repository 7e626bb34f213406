import NonosSdk.Framework.Runs
import NonosSdk.Proof.RingBuffer.Contents

/-!
# Reads in chunks

Several `user_rb_get` calls in a row (`Reading`), each to a destination of its own. What
they deliver and the ring they leave depend only on how many bytes they ask for together
(`Reads`, kept by a call: `Reads.step`), so they agree with one call for the sum of their
lengths (`get_chunks`).
-/

namespace Nonos

/-- What was delivered so far, the sum of the values returned, and the state. -/
structure Reading where
  bytes : List Byte
  count : Nat
  st : RbState

/-- Before any call. -/
def Reading.start (s : RbState) : Reading := ⟨[], 0, s⟩

/-- `user_rb_get( p_rb, des, len )` -/
def Reading.step (r : Reading) (call : Nat × Word) : Reading :=
  let (n, st) := userRbGet r.st call.1 call.2
  { bytes := r.bytes ++ st.mem.cells call.1 n.toNat, count := r.count + n.toNat, st }

/-- The bytes the call delivers do not go to the storage. -/
def Reading.Apart (r : Reading) (call : Nat × Word) : Prop :=
  call.1 + min call.2.toNat (userRbUnreadSize r.st.rb).toNat ≤ r.st.rb.pbuf ∨
    r.st.rb.pbuf + r.st.rb.size.toNat ≤ call.1

instance (r : Reading) (call : Nat × Word) : Decidable (r.Apart call) :=
  inferInstanceAs (Decidable (_ ∨ _))

/-- How many bytes the calls ask for. -/
def asked (calls : List (Nat × Word)) : Nat := (calls.map (·.2.toNat)).sum

variable {s : RbState} {r : Reading} {k : Nat}

/-- `r` has been reached from `s` by calls for `k` bytes. -/
structure Reads (s : RbState) (k : Nat) (r : Reading) : Prop where
  bytes : r.bytes = s.unread.take k
  count : r.count = min k s.rb.used
  valid : r.st.rb.Valid
  /-- Only the tail moves. -/
  ring : ∃ t, r.st.rb = { s.rb with tail := t }
  tail : r.st.rb.tail.toNat = wrap s.rb.size.toNat (s.rb.tail.toNat + min k s.rb.used)
  storage : r.st.mem.cells s.rb.pbuf s.rb.size.toNat = s.mem.cells s.rb.pbuf s.rb.size.toNat
  unread : r.st.unread = s.unread.drop k
  used : r.st.rb.used = s.rb.used - min k s.rb.used

theorem Reads.start (hv : s.rb.Valid) : Reads s 0 (.start s) := by
  refine ⟨by simp [Reading.start], by simp [Reading.start], hv, ⟨_, rfl⟩, ?_, rfl, rfl, by simp [Reading.start]⟩
  rw [Nat.zero_min, Nat.add_zero, wrap_of_lt hv.tail_lt]
  rfl

/-- A call for `n` bytes more. -/
theorem Reads.step (hv : s.rb.Valid) (h : Reads s k r) {call : Nat × Word} (ha : r.Apart call) :
    Reads s (k + call.2.toNat) (r.step call) := by
  obtain ⟨des, len⟩ := call
  show Reads s (k + len.toNat) _
  obtain ⟨t, hring⟩ := h.ring
  have hpbuf : r.st.rb.pbuf = s.rb.pbuf := by rw [hring]
  have hsize : r.st.rb.size = s.rb.size := by rw [hring]
  have hd : r.st.rb.delivers len = min len.toNat r.st.rb.used := rfl
  have hu := h.used
  have hlt := hv.used_lt
  -- what this call and the earlier ones deliver together
  have hsum : min k s.rb.used + r.st.rb.delivers len = min (k + len.toNat) s.rb.used := by omega
  have hout : des + r.st.rb.delivers len ≤ r.st.rb.pbuf ∨ r.st.rb.pbuf + r.st.rb.size.toNat ≤ des := by
    rwa [Reading.Apart, userRbUnreadSize_toNat h.valid] at ha
  obtain ⟨hbytes, hrest⟩ := userRbGet_unread h.valid des len hout
  have hlen : r.st.unread.length = r.st.rb.used := by
    rw [RbState.unread_eq h.valid, Mem.length_ringRead]
  constructor
  · show r.bytes ++ (userRbGet r.st des len).2.mem.cells des (userRbGet r.st des len).1.toNat = _
    rw [userRbGet_count h.valid, hbytes, hd, ← hlen, ← List.take_eq_take_min, h.bytes, h.unread,
      List.take_add]
  · show r.count + (userRbGet r.st des len).1.toNat = _
    rw [userRbGet_count h.valid, h.count, hsum]
  · exact userRbGet_valid h.valid des len
  · refine ⟨(userRbGet r.st des len).2.rb.tail, ?_⟩
    show (userRbGet r.st des len).2.rb = _
    rw [userRbGet_eq h.valid, hring]
  · show (userRbGet r.st des len).2.rb.tail.toNat = _
    rw [userRbGet_tail h.valid, h.tail, hsize, wrap_wrap_add hv.tail_lt (by omega), hsum]
  · show (userRbGet r.st des len).2.mem.cells s.rb.pbuf s.rb.size.toNat = _
    rw [← h.storage, userRbGet_mem_of_outside h.valid des len hout]
    refine Mem.cells_congr fun i hi => ?_
    rw [hpbuf, hsize] at hout
    rw [Mem.store, if_neg (by omega)]
  · show (userRbGet r.st des len).2.unread = _
    rw [hrest, hd, ← hlen, ← List.drop_eq_drop_min, h.unread, List.drop_drop]
  · show (userRbGet r.st des len).2.rb.used = _
    rw [userRbGet_used h.valid, hu]
    omega

/-- Any number of calls. -/
theorem Reads.run (hv : s.rb.Valid) {calls : List (Nat × Word)} (h : Reads s k r)
    (hc : Along Reading.step Reading.Apart r calls) :
    Reads s (k + asked calls) (Nonos.run Reading.step r calls) := by
  induction calls generalizing r k with
  | nil => exact h
  | cons call calls ih =>
    have hrest := ih (h.step hv hc.1) hc.2
    rwa [Nat.add_assoc] at hrest

/-- What calls for the same number of bytes agree in. -/
structure Reading.Agrees (s : RbState) (r r' : Reading) : Prop where
  bytes : r.bytes = r'.bytes
  count : r.count = r'.count
  ring : r.st.rb = r'.st.rb
  storage : r.st.mem.cells s.rb.pbuf s.rb.size.toNat = r'.st.mem.cells s.rb.pbuf s.rb.size.toNat

theorem Reads.agrees {r' : Reading} (h : Reads s k r) (h' : Reads s k r') : r.Agrees s r' := by
  refine ⟨h.bytes.trans h'.bytes.symm, h.count.trans h'.count.symm, ?_, h.storage.trans h'.storage.symm⟩
  have htail : r.st.rb.tail = r'.st.rb.tail := BitVec.eq_of_toNat_eq (h.tail.trans h'.tail.symm)
  obtain ⟨t, ht⟩ := h.ring
  obtain ⟨t', ht'⟩ := h'.ring
  rw [ht, ht'] at htail ⊢
  rw [show t = t' from htail]

theorem Reads.lowers (hv : s.rb.Valid) (h : Reads s k r) :
    (userRbUnreadSize r.st.rb).toNat + r.count = (userRbUnreadSize s.rb).toNat := by
  have hused := h.used; have hcount := h.count
  rw [userRbUnreadSize_toNat h.valid, userRbUnreadSize_toNat hv]
  omega

/-- Calls in a row agree with one call for all they ask for, and `user_rb_unread_size`
goes down by what they deliver. -/
theorem get_chunks (hv : s.rb.Valid) {calls : List (Nat × Word)} (hsum : asked calls < 2 ^ 32)
    (hc : Along Reading.step Reading.Apart (.start s) calls) {des : Nat}
    (hd : (Reading.start s).Apart (des, BitVec.ofNat 32 (asked calls))) :
    let chunks := run Reading.step (.start s) calls
    let single := (Reading.start s).step (des, BitVec.ofNat 32 (asked calls))
    chunks.Agrees s single ∧
      (userRbUnreadSize chunks.st.rb).toNat + chunks.count = (userRbUnreadSize s.rb).toNat ∧
      (userRbUnreadSize single.st.rb).toNat + single.count = (userRbUnreadSize s.rb).toNat := by
  have hchunks := (Reads.start hv).run hv hc
  have hsingle := (Reads.start hv).step hv hd
  rw [BitVec.toNat_ofNat, Nat.mod_eq_of_lt hsum] at hsingle
  exact ⟨hchunks.agrees hsingle, hchunks.lowers hv, hsingle.lowers hv⟩

/-- Three bytes that wrap, read as two and one and as three. -/
theorem get_chunks_two_one :
    let s : RbState := ⟨fun a => BitVec.ofNat 8 a, ⟨0x1000, 1, 2, 4, false⟩⟩
    (run Reading.step (.start s) [(0x10, 2), (0x20, 1)]).Agrees s ((Reading.start s).step (0x40, 3)) :=
  (@get_chunks ⟨fun a => BitVec.ofNat 8 a, ⟨0x1000, 1, 2, 4, false⟩⟩ ⟨by decide, by decide, by decide⟩
    [(0x10, 2), (0x20, 1)] (by decide) (by decide) 0x40 (by decide)).1

end Nonos
