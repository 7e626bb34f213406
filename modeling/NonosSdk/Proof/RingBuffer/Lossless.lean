import NonosSdk.Framework.Runs
import NonosSdk.Proof.RingBuffer.Contents
import NonosSdk.Spec.Fifo

/-!
# The ring as a queue

Any sequence of `put` and `get` calls after `user_rb_init`, with the bytes
`put` reported as accepted and those `get` delivered (`Ledger`). As long as
no `put` takes the last free cell, the ring refines the queue of
`Spec.Fifo` (`ledger_refines_fifo`), so nothing is lost, repeated or
reordered. A `put` that does take it loses a whole ring of bytes, for good
(`ledger_balance`): the law holds of exactly the runs without one
(`lossless_iff_leaves_room`).
-/

namespace Nonos

/-- A call of the ring, with its arguments. -/
inductive RbCall where
  | put (src : Nat → Byte) (len : Word)
  | get (des : Nat) (len : Word)

/-- The destination of a `get` does not overlap the storage. -/
def RbCall.Outside (pbuf : Nat) (size : Word) : RbCall → Prop
  | put _ _ => True
  | get des len => des + len.toNat ≤ pbuf ∨ pbuf + size.toNat ≤ des

/-- The ring, the bytes accepted so far and the bytes delivered so far. -/
structure Ledger where
  st : RbState
  accepted : List Byte
  delivered : List Byte

/-- `user_rb_init`, before any call. -/
def Ledger.start (s : RbState) (pbuf : Nat) (size : Word) : Ledger :=
  ⟨userRbInit s pbuf size, [], []⟩

/-- A call; the accepted and delivered bytes are as many as it returned. -/
def Ledger.step (l : Ledger) : RbCall → Ledger
  | .put src len =>
    { l with st := (userRbPut l.st src len).2,
             accepted := l.accepted ++ (List.range (userRbPut l.st src len).1.toNat).map src }
  | .get des len =>
    { l with st := (userRbGet l.st des len).2,
             delivered := l.delivered ++
               (userRbGet l.st des len).2.mem.cells des (userRbGet l.st des len).1.toNat }

/-- The delivered bytes and then the unread ones are the accepted ones. -/
def Ledger.Lossless (l : Ledger) : Prop := l.delivered ++ l.st.unread = l.accepted

/-- A `put` asks for less than the free cells. -/
def Ledger.LeavesRoom (l : Ledger) : RbCall → Prop
  | .put _ len => len.toNat < l.st.rb.size.toNat - (userRbUnreadSize l.st.rb).toNat
  | .get _ _ => True

instance (l : Ledger) : ∀ c, Decidable (l.LeavesRoom c)
  | .put _ _ => inferInstanceAs (Decidable (_ < _))
  | .get _ _ => isTrue trivial

/-- The same calls on the abstract queue. -/
def Spec.Fifo.call (q : Spec.Fifo Byte) : RbCall → Spec.Fifo Byte
  | .put src len => q.enqueue ((List.range len.toNat).map src)
  | .get _ len => q.dequeue len.toNat

/-- A ring in the storage `user_rb_init` was given. -/
structure Ledger.At (l : Ledger) (pbuf : Nat) (size : Word) : Prop where
  valid : l.st.rb.Valid
  pbuf : l.st.rb.pbuf = pbuf
  size : l.st.rb.size = size

theorem Ledger.start_at (s : RbState) {pbuf : Nat} {size : Word} (hp : pbuf ≠ 0)
    (h1 : 1 ≤ size.toNat) (h2 : size.toNat ≤ 2 ^ 31) : (Ledger.start s pbuf size).At pbuf size := by
  refine ⟨userRbInit_valid s hp h1 h2, ?_, ?_⟩ <;> simp only [Ledger.start, userRbInit_eq s hp h1]

theorem Ledger.At.step {l : Ledger} {pbuf : Nat} {size : Word} (ha : l.At pbuf size) (c : RbCall) :
    (l.step c).At pbuf size := by
  cases c with
  | put src len =>
    refine ⟨userRbPut_valid ha.valid src len, ?_, ?_⟩ <;> simp only [Ledger.step, userRbPut_eq ha.valid]
    · exact ha.pbuf
    · exact ha.size
  | get des len =>
    refine ⟨userRbGet_valid ha.valid des len, ?_, ?_⟩ <;> simp only [Ledger.step, userRbGet_eq ha.valid]
    · exact ha.pbuf
    · exact ha.size

/-- A `put` with room accepts all it is given. -/
theorem accepts_of_room {rb : Ringbuf} (hv : rb.Valid) {len : Word}
    (h : len.toNat < rb.size.toNat - (userRbUnreadSize rb).toNat) :
    rb.accepts len = len.toNat ∧ rb.accepts len < rb.size.toNat - rb.used := by
  rw [userRbUnreadSize_toNat hv] at h
  unfold Ringbuf.accepts
  omega

/-- A ring and the queue it stands for. -/
structure Ledger.Refines (l : Ledger) (q : Spec.Fifo Byte) : Prop where
  items : l.st.unread = q.items
  accepted : l.accepted = q.accepted
  delivered : l.delivered = q.delivered

theorem Ledger.Refines.step {l : Ledger} {q : Spec.Fifo Byte} {pbuf : Nat} {size : Word}
    (ha : l.At pbuf size) (hr : l.Refines q) {c : RbCall} (ho : c.Outside pbuf size)
    (hc : l.LeavesRoom c) : (l.step c).Refines (q.call c) := by
  cases c with
  | put src len =>
    obtain ⟨he, hl⟩ := accepts_of_room ha.valid hc
    refine ⟨?_, ?_, hr.delivered⟩
    · simp only [Ledger.step, userRbPut_unread ha.valid src len hl, hr.items, he]; rfl
    · simp only [Ledger.step, userRbPut_count ha.valid, hr.accepted, he]; rfl
  | get des len =>
    simp only [RbCall.Outside, ← ha.pbuf, ← ha.size] at ho
    have hle := l.st.rb.delivers_le_len len
    obtain ⟨hd, hu⟩ := userRbGet_unread ha.valid des len (by omega)
    have hlen : l.st.unread.length = l.st.rb.used := by
      rw [RbState.unread_eq ha.valid, Mem.length_ringRead]
    -- taking or dropping beyond the end is taking or dropping everything
    have htake : l.st.unread.take (l.st.rb.delivers len) = l.st.unread.take len.toNat := by
      rw [Ringbuf.delivers, ← hlen, ← List.take_eq_take_min]
    have hdrop : l.st.unread.drop (l.st.rb.delivers len) = l.st.unread.drop len.toNat := by
      rw [Ringbuf.delivers, ← hlen, ← List.drop_eq_drop_min]
    refine ⟨?_, hr.accepted, ?_⟩
    · simp only [Ledger.step]; rw [hu, hdrop, hr.items]; rfl
    · simp only [Ledger.step, userRbGet_count ha.valid]
      rw [hd, htake, hr.delivered, hr.items]; rfl

/-- Without a filling `put`, the ring refines the queue of the same calls. -/
theorem ledger_refines_fifo (s : RbState) {pbuf : Nat} {size : Word} (hp : pbuf ≠ 0)
    (h1 : 1 ≤ size.toNat) (h2 : size.toNat ≤ 2 ^ 31) {calls : List RbCall}
    (ho : ∀ c ∈ calls, c.Outside pbuf size)
    (hc : Along Ledger.step Ledger.LeavesRoom (Ledger.start s pbuf size) calls) :
    (run Ledger.step (Ledger.start s pbuf size) calls).Refines (run Spec.Fifo.call .empty calls) := by
  have hs : (Ledger.start s pbuf size).Refines .empty := ⟨userRbInit_unread s hp h1 h2, rfl, rfl⟩
  refine (Along.sim (R := fun (l : Ledger) q => l.At pbuf size ∧ l.Refines q) (fun l q c h hc => ?_)
    ⟨Ledger.start_at s hp h1 h2, hs⟩ (hc.and_mem ho)).2
  exact ⟨h.1.step c, h.2.step h.1 hc.2 hc.1⟩

/-- As many bytes as were accepted were delivered, are unread, or are among
the `d` that filling `put`s have lost. -/
def Ledger.Balanced (l : Ledger) (d : Nat) : Prop :=
  l.accepted.length = l.delivered.length + l.st.rb.used + d

/-- A call with room keeps the balance; a `put` without loses a ring of bytes. -/
theorem ledger_balance {l : Ledger} {pbuf : Nat} {size : Word} {d : Nat} (ha : l.At pbuf size)
    (hb : l.Balanced d) (c : RbCall) :
    (l.LeavesRoom c → (l.step c).Balanced d) ∧
      (¬ l.LeavesRoom c → (l.step c).Balanced (d + l.st.rb.size.toNat)) := by
  unfold Ledger.Balanced at hb ⊢
  cases c with
  | put src len =>
    have hu := ha.valid.used_lt
    refine ⟨fun hc => ?_, fun hc => ?_⟩
    · obtain ⟨-, hl⟩ := accepts_of_room ha.valid hc
      simp only [Ledger.step, userRbPut_used ha.valid src len hl, userRbPut_count ha.valid,
        List.length_append, List.length_map, List.length_range]
      omega
    · have hl : l.st.rb.accepts len = l.st.rb.size.toNat - l.st.rb.used := by
        rw [Ledger.LeavesRoom, userRbUnreadSize_toNat ha.valid] at hc
        unfold Ringbuf.accepts; omega
      simp only [Ledger.step, userRbPut_used_of_full ha.valid src len hl, userRbPut_count ha.valid,
        List.length_append, List.length_map, List.length_range]
      omega
  | get des len =>
    refine ⟨fun _ => ?_, fun hc => absurd trivial hc⟩
    have := l.st.rb.delivers_le len
    simp only [Ledger.step, userRbGet_used ha.valid, userRbGet_count ha.valid, List.length_append,
      Mem.length_cells]
    omega

/-- The loss never shrinks, and a filling `put` makes it positive. -/
theorem ledger_loss {pbuf : Nat} {size : Word} (h1 : 1 ≤ size.toNat) :
    ∀ (calls : List RbCall) (l : Ledger) (d : Nat), l.At pbuf size → l.Balanced d →
      ∃ d', d ≤ d' ∧ (run Ledger.step l calls).Balanced d' ∧
        (¬ Along Ledger.step Ledger.LeavesRoom l calls → d < d')
  | [], _, d, _, hb => ⟨d, Nat.le_refl d, hb, fun h => absurd trivial h⟩
  | c :: cs, l, d, ha, hb => by
    by_cases hc : l.LeavesRoom c
    · obtain ⟨d', hd, hb', hn⟩ := ledger_loss h1 cs _ d (ha.step c) ((ledger_balance ha hb c).1 hc)
      exact ⟨d', hd, hb', fun h => hn fun h' => h ⟨hc, h'⟩⟩
    · obtain ⟨d', hd, hb', -⟩ := ledger_loss h1 cs _ _ (ha.step c) ((ledger_balance ha hb c).2 hc)
      rw [ha.size] at hd
      exact ⟨d', by omega, hb', fun _ => by omega⟩

/-- The bytes delivered and then those still unread are the bytes accepted,
in order, after exactly the runs in which every `put` asks for less than the
free cells. -/
theorem lossless_iff_leaves_room (s : RbState) (pbuf : Nat) (size : Word) (hp : pbuf ≠ 0)
    (h1 : 1 ≤ size.toNat) (h2 : size.toNat ≤ 2 ^ 31) (calls : List RbCall)
    (ho : ∀ c ∈ calls, c.Outside pbuf size) :
    (run Ledger.step (Ledger.start s pbuf size) calls).Lossless ↔
      Along Ledger.step Ledger.LeavesRoom (Ledger.start s pbuf size) calls := by
  constructor
  · intro hl
    by_contra hc
    have ha := Ledger.start_at s hp h1 h2
    have hb : (Ledger.start s pbuf size).Balanced 0 := by
      simp only [Ledger.Balanced, Ledger.start, userRbInit_used s hp h1]; rfl
    obtain ⟨d, -, hd, hn⟩ := ledger_loss h1 calls _ 0 ha hb
    have ha' : (run Ledger.step (Ledger.start s pbuf size) calls).At pbuf size :=
      run_inv (I := fun l : Ledger => l.At pbuf size) (fun _ c h => h.step c) ha calls
    have hlen := congrArg List.length hl
    rw [List.length_append, RbState.unread_eq ha'.valid, Mem.length_ringRead, hd] at hlen
    have := hn hc
    omega
  · intro hc
    obtain ⟨hi, hacc, hdel⟩ := ledger_refines_fifo s hp h1 h2 ho hc
    rw [Ledger.Lossless, hi, hacc, hdel]
    exact Spec.Fifo.law _

/-- A ring of one cell: the byte `put` reports as accepted is not readable. -/
theorem put_fills_one_cell_loses :
    ¬ (run Ledger.step (Ledger.start ⟨fun _ => 0, ⟨0, 0, 0, 0, false⟩⟩ 16 1)
      [.put (fun _ => 7) 1]).Lossless := by
  unfold Ledger.Lossless
  decide

/-- Two bytes through a ring of two cells, one at a time. -/
theorem lossless_two_cells :
    (run Ledger.step (Ledger.start ⟨fun _ => 0, ⟨0, 0, 0, 0, false⟩⟩ 16 2)
      [.put (fun _ => 7) 1, .get 32 1, .put (fun _ => 9) 1]).Lossless :=
  (lossless_iff_leaves_room ⟨fun _ => 0, ⟨0, 0, 0, 0, false⟩⟩ 16 2 (by decide) (by decide)
    (by decide) _ (by simp [RbCall.Outside])).mpr (by decide)

end Nonos
