import NonosSdk.Proof.RingBuffer.GetSteps

/-!
# A `put` between two statements of a `get`

The UART interrupt can call `user_rb_put` while the timer task is inside
`user_rb_get` (`preempted`). `PreemptSafe` is what one would want: the copies
of the `put` stay in the storage, the indices end inside it, and the outcome is
that of one of the two orders. The statements are `Exposed` to some `put`s:

* after the test `head >= tail`, a `put` that wraps makes `head - tail` negative;
* after `tail += sz`, before the tail is folded back, a `put` takes everything
  up to the tail for free and writes past the end of the storage;
* from `sz` to `tail += sz`, a `put` does not find the cells that the `get` is
  about to free, and accepts less than it would in either order; and if the
  destination overlaps the storage, as in `user_tcp_send_loop`, the copies to
  come go over the bytes of the `put`.

Everywhere else the outcome is serial (`serial_preempted`) and the storage is
all that is written (`inside_preempted`).
-/

namespace Nonos

/-- The order of two calls that do not overlap. -/
inductive CallOrder where
  | putFirst
  | getFirst

namespace CallOrder

variable (o : CallOrder) (s : RbState) (des : Nat) (len : Word) (src : Nat → Byte) (plen : Word)

/-- The ring the `put` finds. -/
def before : RbState :=
  match o with
  | putFirst => s
  | getFirst => (userRbGet s des len).2

/-- What the `get` returns, and the state after both. -/
def outcome : Word × RbState :=
  match o with
  | putFirst => userRbGet (userRbPut s src plen).2 des len
  | getFirst => ((userRbGet s des len).1, (userRbPut (userRbGet s des len).2 src plen).2)

/-- The `put` leaves at least one byte free. -/
def Room : Prop :=
  (userRbPut (o.before s des len) src plen).1.toNat +
    (userRbUnreadSize (o.before s des len).rb).toNat < s.rb.size.toNat

end CallOrder

/-- The bytes delivered, and those left in the ring. -/
def observe (des : Nat) (r : Word × RbState) : List Byte × List Byte :=
  (r.2.mem.cells des r.1.toNat, r.2.unread)

/-- The call after `k` statements. -/
def getAfter (s : RbState) (des : Nat) (len : Word) (k : Nat) : GetState :=
  (getStep des len)^[k] (.enter s)

/-- `user_rb_get`, with a `user_rb_put` after its first `k` statements. -/
def preempted (s : RbState) (des : Nat) (len : Word) (k : Nat) (src : Nat → Byte) (plen : Word) :
    Word × RbState :=
  let g := getAfter s des len k
  getResult des len { g with st := (userRbPut g.st src plen).2 }

structure PreemptSafe (s : RbState) (des : Nat) (len : Word) (k : Nat) (src : Nat → Byte)
    (plen : Word) : Prop where
  inside : ∀ x, x < s.rb.pbuf ∨ s.rb.pbuf + s.rb.size.toNat ≤ x →
    (userRbPut (getAfter s des len k).st src plen).2.mem x = (getAfter s des len k).st.mem x
  head_lt : (preempted s des len k src plen).2.rb.head.toNat < s.rb.size.toNat
  tail_lt : (preempted s des len k src plen).2.rb.tail.toNat < s.rb.size.toNat
  serial : (∃ o : CallOrder, o.Room s des len src plen) → ∃ o : CallOrder,
    observe des (preempted s des len k src plen) = observe des (o.outcome s des len src plen)

/-- The statement a call stops before; the bytes in memory have no part in it. -/
def stopsAt (rb : Ringbuf) (des : Nat) (len : Word) (k : Nat) : GetPc :=
  (getAfter ⟨fun _ => 0, rb⟩ des len k).pc

/-- The `n` cells from `a` meet those that a `put` of `plen` bytes writes. -/
def Ringbuf.Meets (rb : Ringbuf) (plen : Word) (a n : Nat) : Prop :=
  ∃ i < n, Mem.RingReaches rb.pbuf rb.size.toNat rb.head.toNat plen.toNat (a + i)

/-- A `put` before the `get` changes how much the `get` delivers. -/
def Ringbuf.Shifts (rb : Ringbuf) (len plen : Word) : Prop :=
  rb.used < len.toNat ∨ rb.size.toNat - rb.used ≤ plen.toNat

/-- `sz` is computed, and nothing is copied yet. -/
def GetPc.Sized : GetPc → Prop
  | .linCmp | .linClamp | .linCopy | .wrapRz | .wrapCmp | .wrapClamp | .split | .copyAll | .copyEnd => True
  | .test | .linSz | .wrapSz | .copyStart | .tailAdd | .tailCmp | .tailSub | .ret => False

/-- A `put` of `plen` bytes before the statement `pc` goes wrong. -/
def Exposed (rb : Ringbuf) (des : Nat) (len plen : Word) (pc : GetPc) : Prop :=
  let N := rb.size.toNat
  let H := rb.head.toNat
  let T := rb.tail.toNat
  let F := N - rb.used
  let d := rb.delivers len
  match pc with
  | .test | .ret => False
  | .linSz => N - H ≤ plen.toNat ∧ plen.toNat < F ∧ N - T < len.toNat
  | .wrapSz => plen.toNat < F + d ∧
      (F < plen.toNat ∨ F = plen.toNat ∧ (rb.used < len.toNat ∨ rb.Meets plen des d))
  | .linCmp | .linClamp | .linCopy | .wrapRz | .wrapCmp | .wrapClamp | .split | .copyAll | .copyEnd =>
    plen.toNat < F + d ∧ (F < plen.toNat ∨ rb.Meets plen des d ∧ rb.Shifts len plen)
  | .copyStart => plen.toNat < F + d ∧ (F < plen.toNat ∨
      rb.Meets plen (des + (N - T)) (d - (N - T)) ∧ (rb.Shifts len plen ∨ rb.Meets plen des (N - T)))
  | .tailAdd => plen.toNat < F + d ∧ F < plen.toNat
  | .tailCmp | .tailSub => 0 < H ∧ H < T ∧ N - T < len.toNat ∧ N - H < plen.toNat

instance (rb : Ringbuf) (plen : Word) (a n : Nat) : Decidable (rb.Meets plen a n) :=
  inferInstanceAs (Decidable (∃ i < n, _))

instance (rb : Ringbuf) (len plen : Word) : Decidable (rb.Shifts len plen) :=
  inferInstanceAs (Decidable (_ ∨ _))

instance (rb : Ringbuf) (des : Nat) (len plen : Word) : (pc : GetPc) → Decidable (Exposed rb des len plen pc)
  | .test | .ret => inferInstanceAs (Decidable False)
  | .linSz | .wrapSz | .tailCmp | .tailSub | .linCmp | .linClamp | .linCopy | .wrapRz | .wrapCmp
  | .wrapClamp | .split | .copyAll | .copyEnd | .copyStart | .tailAdd => inferInstanceAs (Decidable (_ ∧ _))

section

variable {s : RbState} {des : Nat} {len : Word} {src : Nat → Byte} {plen : Word}

theorem getAfter_getAt (hv : s.rb.Valid) (k : Nat) : GetAt s des len (getAfter s des len k) :=
  GetAt.iterate hv (show GetAt s des len (.enter s) from rfl) k

theorem getStep_congr {g g' : GetState} (hp : g.pc = g'.pc) (hz : g.sz = g'.sz) (hr : g.rz = g'.rz)
    (hb : g.st.rb = g'.st.rb) :
    (getStep des len g).pc = (getStep des len g').pc ∧ (getStep des len g).sz = (getStep des len g').sz ∧
      (getStep des len g).rz = (getStep des len g').rz ∧
      (getStep des len g).st.rb = (getStep des len g').st.rb := by
  obtain ⟨⟨m, rb⟩, pc, sz, rz⟩ := g
  obtain ⟨⟨m', rb'⟩, pc', sz', rz'⟩ := g'
  obtain rfl : pc = pc' := hp
  obtain rfl : sz = sz' := hz
  obtain rfl : rz = rz' := hr
  obtain rfl : rb = rb' := hb
  cases pc <;> exact ⟨rfl, rfl, rfl, rfl⟩

theorem getAfter_pc (k : Nat) : (getAfter s des len k).pc = stopsAt s.rb des len k := by
  have h : (getAfter s des len k).pc = stopsAt s.rb des len k ∧
      (getAfter s des len k).sz = (getAfter ⟨fun _ => 0, s.rb⟩ des len k).sz ∧
      (getAfter s des len k).rz = (getAfter ⟨fun _ => 0, s.rb⟩ des len k).rz ∧
      (getAfter s des len k).st.rb = (getAfter ⟨fun _ => 0, s.rb⟩ des len k).st.rb := by
    induction k with
    | zero => exact ⟨rfl, rfl, rfl, rfl⟩
    | succ k ih =>
      simp only [stopsAt, getAfter, Function.iterate_succ_apply'] at ih ⊢
      exact getStep_congr ih.1 ih.2.1 ih.2.2.1 ih.2.2.2
  exact h.1

theorem userRbPut_tail (s : RbState) (src : Nat → Byte) (plen : Word) :
    (userRbPut s src plen).2.rb.tail = s.rb.tail ∧ (userRbPut s src plen).2.rb.size = s.rb.size ∧
      (userRbPut s src plen).2.rb.pbuf = s.rb.pbuf := by
  unfold userRbPut
  simp only
  split_ifs <;> exact ⟨rfl, rfl, rfl⟩

/-- Whatever the bytes in memory are, a `put` writes the same cells. -/
theorem userRbPut_mem (hv : s.rb.Valid) (m : Mem Byte) :
    (userRbPut { s with mem := m } src plen).2 =
      { (userRbPut s src plen).2 with
        mem := m.ringWrite s.rb.pbuf s.rb.size.toNat s.rb.head.toNat src (s.rb.accepts plen) } := by
  rw [userRbPut_eq hv, userRbPut_eq (s := { s with mem := m }) hv]

/-- On a ring, the copies of a `put` stay in the storage. -/
theorem userRbPut_inside (hv : s.rb.Valid) {x : Nat}
    (hx : x < s.rb.pbuf ∨ s.rb.pbuf + s.rb.size.toNat ≤ x) :
    (userRbPut s src plen).2.mem x = s.mem x := by
  rw [userRbPut_eq hv]; exact Mem.ringWrite_outside _ _ hx

theorem take_valid {d : Nat} (hv : s.rb.Valid) (des : Nat) (hd : d ≤ s.rb.size.toNat) :
    (s.take des d).2.rb.Valid := by
  have h1 := hv.size_le; have h2 := hv.tail_lt
  have hw := wrap_lt (show s.rb.tail.toNat + d < 2 * s.rb.size.toNat by omega)
  refine ⟨h1, hv.head_lt, ?_⟩
  simp only [RbState.take, BitVec.toNat_ofNat]
  rw [Nat.mod_eq_of_lt (by omega)]; exact hw

/-- Before anything is copied, a `put` leaves the call on its way. -/
theorem Mid.put {d : Nat} {g : GetState} (hm : Mid s des len d g) (hp : g.pc.Sized) :
    Mid (userRbPut s src plen).2 des len d { g with st := (userRbPut g.st src plen).2 } := by
  obtain ⟨ht, hs, -⟩ := userRbPut_tail s src plen
  obtain ⟨st, pc, sz, rz⟩ := g
  cases pc
  case test | linSz | wrapSz | copyStart | tailAdd | tailCmp | tailSub | ret => exact hp.elim
  all_goals
    simp only [Mid, hs, ht] at hm ⊢
    obtain ⟨rfl, h⟩ := hm
    exact ⟨rfl, h⟩

end

section

variable {s : RbState} {des : Nat} {len : Word} {src : Nat → Byte} {plen : Word} (hv : s.rb.Valid)

include hv

theorem userRbGet_size : (userRbGet s des len).2.rb.size = s.rb.size := by
  rw [userRbGet_eq hv]

/-- So the call delivers what it was going to, with the `put` already in the ring. -/
theorem Mid.put_result {g : GetState} (hm : Mid s des len (s.rb.delivers len) g) (hp : g.pc.Sized) :
    getResult des len { g with st := (userRbPut g.st src plen).2 } =
      (userRbPut s src plen).2.take des (s.rb.delivers len) := by
  obtain ⟨ht, hs, -⟩ := userRbPut_tail s src plen
  have hu := hv.used_lt; have hb := s.rb.delivers_le len
  refine (hm.put hp).result ?_ ?_ ?_
  · rw [hs]; exact hv.size_le
  · rw [hs, ht]; exact hv.tail_lt
  · rw [hs]; omega

/-- A `put` after the copies. -/
theorem getResult_put_tailAdd {d : Nat} {sz rz : Word} (hd : d ≤ s.rb.size.toNat) (hz : sz.toNat = d)
    (m : Mem Byte) : getResult des len ⟨(userRbPut { s with mem := m } src plen).2, .tailAdd, sz, rz⟩ =
      (BitVec.ofNat 32 d, { ((userRbPut s src plen).2.take des d).2 with
        mem := m.ringWrite s.rb.pbuf s.rb.size.toNat s.rb.head.toNat src (s.rb.accepts plen) }) := by
  obtain ⟨ht, hs, -⟩ := userRbPut_tail s src plen
  rw [getResult_tailAdd, userRbPut_mem hv]
  simp only [RbState.take]
  rw [ht, hs, foldIndex_add hv.size_le hv.tail_lt (by omega), hz, ← hz, BitVec.ofNat_toNat,
    BitVec.setWidth_eq]

/-- A `put` between the two copies. -/
theorem getResult_put_copyStart {d : Nat} {sz rz : Word} (hd : d ≤ s.rb.size.toNat) (hz : sz.toNat = d)
    (hr : rz.toNat = s.rb.size.toNat - s.rb.tail.toNat) (hw : s.rb.size.toNat < s.rb.tail.toNat + d)
    (m : Mem Byte) : getResult des len ⟨(userRbPut { s with mem := m } src plen).2, .copyStart, sz, rz⟩ =
      (BitVec.ofNat 32 d, { ((userRbPut s src plen).2.take des d).2 with
        mem := (m.ringWrite s.rb.pbuf s.rb.size.toNat s.rb.head.toNat src (s.rb.accepts plen)).memcpy
          (des + (s.rb.size.toNat - s.rb.tail.toNat)) s.rb.pbuf
          (d - (s.rb.size.toNat - s.rb.tail.toNat)) }) := by
  obtain ⟨ht, hs, hp⟩ := userRbPut_tail s src plen
  have h3 := hv.tail_lt
  have hsub : (sz - rz).toNat = d - (s.rb.size.toNat - s.rb.tail.toNat) := by bv_omega
  rw [getResult_copyStart, userRbPut_mem hv]
  simp only [RbState.take]
  rw [ht, hs, hp, foldIndex_add hv.size_le hv.tail_lt (by omega), hsub, hr, hz, ← hz, BitVec.ofNat_toNat,
    BitVec.setWidth_eq]

/-- What the calls come to one after the other, if the bytes of the `put` fit in
before the `get` as well. -/
theorem outcome_getFirst (hr : plen.toNat ≤ s.rb.size.toNat - s.rb.used) :
    CallOrder.getFirst.outcome s des len src plen =
      (BitVec.ofNat 32 (s.rb.delivers len),
        { ((userRbPut s src plen).2.take des (s.rb.delivers len)).2 with
          mem := (s.mem.readOut s.rb.pbuf s.rb.size.toNat s.rb.tail.toNat des (s.rb.delivers len)).ringWrite
            s.rb.pbuf s.rb.size.toNat s.rb.head.toNat src plen.toNat }) := by
  have hb := s.rb.delivers_le len; have hu := hv.used_lt
  have ha : s.rb.accepts plen = plen.toNat := Nat.min_eq_left hr
  have ha' : (userRbGet s des len).2.rb.accepts plen = plen.toNat := by
    rw [Ringbuf.accepts, userRbGet_used hv, userRbGet_size hv]
    exact Nat.min_eq_left (by omega)
  simp only [CallOrder.outcome]
  rw [userRbPut_eq (userRbGet_valid hv des len), ha', userRbPut_eq hv, ha, userRbGet_eq hv]
  rfl

/-- A `put` that does not change how much is delivered may come first. -/
theorem outcome_putFirst (hs : ¬ s.rb.Shifts len plen) :
    CallOrder.putFirst.outcome s des len src plen =
      (userRbPut s src plen).2.take des (s.rb.delivers len) := by
  unfold Ringbuf.Shifts at hs
  have hv' := userRbPut_valid hv src plen
  have ha : s.rb.accepts plen = plen.toNat := Nat.min_eq_left (by omega)
  have hd : (userRbPut s src plen).2.rb.delivers len = s.rb.delivers len := by
    rw [Ringbuf.delivers, Ringbuf.delivers, userRbPut_used hv src plen (by omega)]; omega
  rw [CallOrder.outcome, userRbGet_eq hv', hd]
  rfl

/-- Nor does it matter which comes first if the bytes of the `put` fit in, and
the `get` does not copy over them. -/
theorem take_put (hr : plen.toNat ≤ s.rb.size.toNat - s.rb.used)
    (hm : ¬ s.rb.Meets plen des (s.rb.delivers len)) :
    (userRbPut s src plen).2.take des (s.rb.delivers len) =
      CallOrder.getFirst.outcome s des len src plen := by
  have hb := s.rb.delivers_le len; have hu := hv.used_lt
  have ha : s.rb.accepts plen = plen.toNat := Nat.min_eq_left hr
  have hc := Mem.readOut_ringWrite s.mem src hv.tail_lt hv.head_lt (by rw [← Ringbuf.used]; omega) hb
    fun i hi hx => hm ⟨i, hi, hx⟩
  rw [outcome_getFirst hv hr, ← hc, RbState.take, userRbPut_eq hv, ha]

end

/-- The indices are inside the storage and, unless the `put` fills it even after
the `get`, the outcome is that of one of the two orders. -/
def Serial (s : RbState) (des : Nat) (len : Word) (src : Nat → Byte) (plen : Word)
    (r : Word × RbState) : Prop :=
  r.2.rb.head.toNat < s.rb.size.toNat ∧ r.2.rb.tail.toNat < s.rb.size.toNat ∧
    (plen.toNat < s.rb.size.toNat - s.rb.used + s.rb.delivers len →
      ∃ o : CallOrder, r = o.outcome s des len src plen)

section Safe

variable {s : RbState} {des : Nat} {len : Word} {src : Nat → Byte} {plen : Word} (hv : s.rb.Valid)
  {g : GetState}

section

include hv

theorem serial_outcome (o : CallOrder) : Serial s des len src plen (o.outcome s des len src plen) := by
  cases o with
  | putFirst =>
    have hr := userRbGet_valid (userRbPut_valid hv src plen) des len
    have hs : (userRbGet (userRbPut s src plen).2 des len).2.rb.size = s.rb.size :=
      (userRbGet_size (userRbPut_valid hv src plen)).trans (userRbPut_tail s src plen).2.1
    exact ⟨hs ▸ hr.head_lt, hs ▸ hr.tail_lt, fun _ => ⟨.putFirst, rfl⟩⟩
  | getFirst =>
    have hr := userRbPut_valid (userRbGet_valid hv des len) src plen
    have hs : (userRbPut (userRbGet s des len).2 src plen).2.rb.size = s.rb.size :=
      (userRbPut_tail _ src plen).2.1.trans (userRbGet_size hv)
    exact ⟨hs ▸ hr.head_lt, hs ▸ hr.tail_lt, fun _ => ⟨.getFirst, rfl⟩⟩

/-- A call that has read nothing of the ring yet takes the `put` to be earlier. -/
theorem serial_of_getAt (ha : GetAt (userRbPut s src plen).2 des len g) :
    Serial s des len src plen (getResult des len g) := by
  rw [ha.result (userRbPut_valid hv src plen)]
  exact serial_outcome hv .putFirst

/-- The indices of a call that takes `d` bytes with the `put` already in the ring. -/
theorem serial_of_rb {d : Nat} {r : Word × RbState} (hd : d ≤ s.rb.size.toNat)
    (hr : r.2.rb = ((userRbPut s src plen).2.take des d).2.rb)
    (ho : plen.toNat < s.rb.size.toNat - s.rb.used + s.rb.delivers len → ∃ o : CallOrder,
      r = o.outcome s des len src plen) : Serial s des len src plen r := by
  have hs := (userRbPut_tail s src plen).2.1
  have hr' := take_valid (userRbPut_valid hv src plen) des (hs.symm ▸ hd)
  have hs' : ((userRbPut s src plen).2.take des d).2.rb.size = s.rb.size := hs
  rw [← hr] at hr' hs'
  exact ⟨hs' ▸ hr'.head_lt, hs' ▸ hr'.tail_lt, ho⟩

theorem serial_sized (hm : Mid s des len (s.rb.delivers len) g) (hp : g.pc.Sized)
    (hx : ¬ Exposed s.rb des len plen g.pc) :
    Serial s des len src plen (getResult des len { g with st := (userRbPut g.st src plen).2 }) := by
  have hb := s.rb.delivers_le len; have hu := hv.used_lt
  have hx' : ¬ (plen.toNat < s.rb.size.toNat - s.rb.used + s.rb.delivers len ∧
      (s.rb.size.toNat - s.rb.used < plen.toNat ∨
        s.rb.Meets plen des (s.rb.delivers len) ∧ s.rb.Shifts len plen)) := by
    revert hp hx; cases g.pc <;> first | exact fun h => h.elim | exact fun _ h => h
  rw [hm.put_result hv hp]
  apply serial_of_rb hv (by omega) rfl
  intro hr
  have hfit : plen.toNat ≤ s.rb.size.toNat - s.rb.used := Nat.not_lt.mp fun h => hx' ⟨hr, .inl h⟩
  by_cases hmeet : s.rb.Meets plen des (s.rb.delivers len)
  · exact ⟨.putFirst, (outcome_putFirst hv fun h => hx' ⟨hr, .inr ⟨hmeet, h⟩⟩).symm⟩
  · exact ⟨.getFirst, take_put hv hfit hmeet⟩

theorem serial_tailAdd (hm : Mid s des len (s.rb.delivers len) g) (hp : g.pc = .tailAdd)
    (hx : ¬ Exposed s.rb des len plen .tailAdd) :
    Serial s des len src plen (getResult des len { g with st := (userRbPut g.st src plen).2 }) := by
  have hb := s.rb.delivers_le len; have hu := hv.used_lt
  obtain ⟨st, pc, sz, rz⟩ := g
  obtain rfl : pc = .tailAdd := hp
  obtain ⟨rfl, hz⟩ := hm
  simp only at hz ⊢
  rw [getResult_put_tailAdd hv (by omega) hz]
  refine serial_of_rb hv (by omega) rfl fun hr => ⟨.getFirst, ?_⟩
  have hfit : plen.toNat ≤ s.rb.size.toNat - s.rb.used := Nat.not_lt.mp fun h => hx ⟨hr, h⟩
  rw [outcome_getFirst hv hfit, Ringbuf.accepts, Nat.min_eq_left hfit]

/-- A `put` between the two copies is earlier for the second, later for the first. -/
theorem serial_copyStart (hm : Mid s des len (s.rb.delivers len) g) (hp : g.pc = .copyStart)
    (hx : ¬ Exposed s.rb des len plen .copyStart) :
    Serial s des len src plen (getResult des len { g with st := (userRbPut g.st src plen).2 }) := by
  have hb := s.rb.delivers_le len; have hu := hv.used_lt
  obtain ⟨st, pc, sz, rz⟩ := g
  obtain rfl : pc = .copyStart := hp
  obtain ⟨rfl, hz, hrz, hw⟩ := hm
  simp only at hz hrz ⊢
  rw [getResult_put_copyStart hv (by omega) hz hrz hw]
  refine serial_of_rb hv (by omega) rfl fun hr => ?_
  have hfit : plen.toNat ≤ s.rb.size.toNat - s.rb.used := Nat.not_lt.mp fun h => hx ⟨hr, .inl h⟩
  have ha : s.rb.accepts plen = plen.toNat := Nat.min_eq_left hfit
  obtain ⟨h1, h2⟩ := Mem.le_back_of_unread hv.tail_lt hv.head_lt
    (show back s.rb.size.toNat s.rb.tail.toNat s.rb.head.toNat + plen.toNat ≤ s.rb.size.toNat by
      rw [← Ringbuf.used]; omega) hb
  rw [ha]
  by_cases hmeet : s.rb.Meets plen (des + (s.rb.size.toNat - s.rb.tail.toNat))
      (s.rb.delivers len - (s.rb.size.toNat - s.rb.tail.toNat))
  · -- the second copy goes over the bytes of the `put`, so the first must not
    have hs : ¬ s.rb.Shifts len plen := fun h => hx ⟨hr, .inr ⟨hmeet, .inl h⟩⟩
    have h1 : ∀ i < s.rb.size.toNat - s.rb.tail.toNat,
        plen.toNat ≤ back s.rb.size.toNat s.rb.head.toNat (s.rb.tail.toNat + i) :=
      fun i hi => h1 i (by omega) (by omega)
    have hc := Mem.memcpy_ringWrite s.mem src
      (fun i hi hy => hx ⟨hr, .inr ⟨hmeet, .inr ⟨i, hi, hy⟩⟩⟩) h1
    refine ⟨.putFirst, ?_⟩
    rw [outcome_putFirst hv hs, RbState.take, ← hc, userRbPut_eq hv, ha]
    simp only [Mem.readOut, if_neg (Nat.not_le.mpr hw)]
  · have hc := Mem.memcpy_ringWrite
      (s.mem.memcpy des (s.rb.pbuf + s.rb.tail.toNat) (s.rb.size.toNat - s.rb.tail.toNat)) src
      (fun i hi hy => hmeet ⟨i, hi, hy⟩) h2
    refine ⟨.getFirst, ?_⟩
    rw [outcome_getFirst hv hfit, Mem.readOut, if_neg (Nat.not_le.mpr hw)]
    rw [Nat.add_zero] at hc
    rw [hc]

theorem serial_linSz {sz rz : Word} (hl : s.rb.tail.toNat ≤ s.rb.head.toNat)
    (hx : ¬ Exposed s.rb des len plen .linSz) :
    Serial s des len src plen (getResult des len ⟨(userRbPut s src plen).2, .linSz, sz, rz⟩) := by
  obtain ⟨ht, hs, -⟩ := userRbPut_tail s src plen
  have hv' := userRbPut_valid hv src plen
  have hh := userRbPut_head hv src plen
  have h1 := hv.size_le; have h2 := hv.head_lt; have h3 := hv.tail_lt
  have hu : s.rb.used = s.rb.head.toNat - s.rb.tail.toNat := if_pos hl
  have ha : s.rb.accepts plen = min plen.toNat (s.rb.size.toNat - s.rb.used) := rfl
  by_cases hw : s.rb.tail.toNat ≤ (userRbPut s src plen).2.rb.head.toNat
  · exact serial_of_getAt hv ⟨rfl, by rw [ht]; exact hw⟩
  -- the `put` has wrapped: `head - tail` is negative, and `len` bytes are read up to the end
  have hlen : s.rb.tail.toNat + len.toNat ≤ s.rb.size.toNat := by
    simp only [Exposed] at hx
    rw [hh] at hw
    revert hw hx; unfold wrap; split_ifs <;> omega
  have hsz : ((userRbPut s src plen).2.rb.head - (userRbPut s src plen).2.rb.tail).toNat ≥ 2 ^ 31 := by
    rw [ht]; bv_omega
  have hm : Mid (userRbPut s src plen).2 des len len.toNat
      (getStep des len ⟨(userRbPut s src plen).2, .linSz, sz, rz⟩) := by
    simp only [getStep, Mid]
    exact ⟨trivial, by omega, by rw [ht, hs]; exact hlen⟩
  have hdel : (userRbPut s src plen).2.rb.delivers len = len.toNat := by
    apply Nat.min_eq_left
    simp only [Ringbuf.used, back]
    rw [ht, hs, if_neg hw]; omega
  rw [← getResult_step, hm.result (hs.symm ▸ h1) (by rw [hs, ht]; exact h3) (by rw [hs]; omega)]
  refine serial_of_rb hv (by omega) rfl fun _ => ⟨.putFirst, ?_⟩
  rw [CallOrder.outcome, userRbGet_eq hv', hdel]
  rfl

/-- A `put` that fills the ring after the test `head < tail`: the `get` takes it
for full, not for empty. -/
theorem getResult_wrapSz_filled {sz rz : Word} (hl : s.rb.head.toNat < s.rb.tail.toNat)
    (hf : s.rb.size.toNat - s.rb.used ≤ plen.toNat) :
    getResult des len ⟨(userRbPut s src plen).2, .wrapSz, sz, rz⟩ =
      (userRbPut s src plen).2.take des (min s.rb.size.toNat len.toNat) := by
  obtain ⟨ht, hs, -⟩ := userRbPut_tail s src plen
  have hh := userRbPut_head hv src plen
  have h1 := hv.size_le; have h2 := hv.head_lt; have h3 := hv.tail_lt
  have hu : s.rb.used = s.rb.size.toNat + s.rb.head.toNat - s.rb.tail.toNat := if_neg (by omega)
  rw [Ringbuf.accepts, wrap_of_lt (by omega)] at hh
  have hsz : ((userRbPut s src plen).2.rb.size + (userRbPut s src plen).2.rb.head -
      (userRbPut s src plen).2.rb.tail).toNat = s.rb.size.toNat := by
    rw [ht, hs]; bv_omega
  have hm : Mid (userRbPut s src plen).2 des len (min s.rb.size.toNat len.toNat)
      (getStep des len ⟨(userRbPut s src plen).2, .wrapSz, sz, rz⟩) := by
    simp only [getStep, Mid]
    exact ⟨trivial, by rw [hsz]⟩
  rw [← getResult_step, hm.result (hs.symm ▸ h1) (by rw [hs, ht]; exact h3) (by rw [hs]; omega)]

theorem serial_wrapSz {sz rz : Word} (hl : s.rb.head.toNat < s.rb.tail.toNat)
    (hx : ¬ Exposed s.rb des len plen .wrapSz) :
    Serial s des len src plen (getResult des len ⟨(userRbPut s src plen).2, .wrapSz, sz, rz⟩) := by
  have h2 := hv.head_lt; have h3 := hv.tail_lt
  have hu : s.rb.used = s.rb.size.toNat + s.rb.head.toNat - s.rb.tail.toNat := if_neg (by omega)
  by_cases hf : plen.toNat < s.rb.size.toNat - s.rb.used
  · have hh := userRbPut_head hv src plen
    rw [Ringbuf.accepts, wrap_of_lt (by omega)] at hh
    refine serial_of_getAt hv ⟨rfl, ?_⟩
    rw [(userRbPut_tail s src plen).1]; omega
  have hf := Nat.not_lt.mp hf
  rw [getResult_wrapSz_filled hv hl hf]
  refine serial_of_rb hv (by omega) rfl fun hr => ⟨.getFirst, ?_⟩
  have he : s.rb.size.toNat - s.rb.used = plen.toNat :=
    Nat.le_antisymm hf (Nat.not_lt.mp fun h => hx ⟨hr, .inl h⟩)
  have hlen : len.toNat ≤ s.rb.used := Nat.not_lt.mp fun h => hx ⟨hr, .inr ⟨he, .inl h⟩⟩
  have hmin : min s.rb.size.toNat len.toNat = s.rb.delivers len := by
    unfold Ringbuf.delivers; omega
  rw [hmin, take_put hv he.ge fun h => hx ⟨hr, .inr ⟨he, .inr h⟩⟩]

/-- A tail that has still to be folded back: the `put` takes all up to it for
free. As long as that does not reach the end of the storage, it does what it
would do after the `get`. -/
theorem userRbPut_of_tail_ge {t : Word} (h1 : s.rb.size.toNat ≤ t.toNat)
    (hi : s.rb.head.toNat + min plen.toNat (t.toNat - s.rb.head.toNat) ≤ s.rb.size.toNat) :
    (userRbPut { s with rb := { s.rb with tail := t } } src plen).2 =
      { mem := s.mem.ringWrite s.rb.pbuf s.rb.size.toNat s.rb.head.toNat src
          (min plen.toNat (t.toNat - s.rb.head.toNat)),
        rb := { s.rb with
          tail := t,
          head := BitVec.ofNat 32 (wrap s.rb.size.toNat
            (s.rb.head.toNat + min plen.toNat (t.toNat - s.rb.head.toNat))) } } := by
  have h2 := hv.size_le; have h3 := hv.head_lt
  have hsz : (clamp (t - s.rb.head) plen).toNat = min plen.toNat (t.toNat - s.rb.head.toNat) := by
    rw [clamp_toNat]; bv_omega
  unfold userRbPut
  simp only
  rw [if_neg (by bv_omega), ← hsz, foldIndex_add h2 h3 (by omega),
    Mem.store_eq_ringWrite (N := s.rb.size.toNat) s.mem src (by omega)]

theorem head_lt_tail (hw : s.rb.size.toNat ≤ s.rb.tail.toNat + s.rb.delivers len) :
    s.rb.head.toNat < s.rb.tail.toNat := by
  have h2 := hv.head_lt; have hb := s.rb.delivers_le len
  by_contra hc
  have hu : s.rb.used = s.rb.head.toNat - s.rb.tail.toNat := if_pos (by omega)
  omega

theorem moved_tail (des : Nat) (len : Word) : (s.moved des (s.rb.delivers len)).rb.tail.toNat =
    s.rb.tail.toNat + s.rb.delivers len := by
  have h1 := hv.size_le; have h3 := hv.tail_lt; have h4 := hv.used_lt; have hb := s.rb.delivers_le len
  simp only [RbState.moved]
  bv_omega

theorem moved_of_lt (hw : s.rb.tail.toNat + s.rb.delivers len < s.rb.size.toNat) :
    s.moved des (s.rb.delivers len) = (userRbGet s des len).2 := by
  rw [RbState.moved, userRbGet_eq hv, wrap_of_lt hw]

/-- The `put` that finds the tail beyond the storage. -/
theorem moved_put {pc : GetPc} (hp : pc = .tailCmp ∨ pc = .tailSub)
    (hx : ¬ Exposed s.rb des len plen pc) (hw : s.rb.size.toNat ≤ s.rb.tail.toNat + s.rb.delivers len) :
    (userRbPut (s.moved des (s.rb.delivers len)) src plen).2 =
      { mem := (s.moved des (s.rb.delivers len)).mem.ringWrite s.rb.pbuf s.rb.size.toNat
          s.rb.head.toNat src
          (min plen.toNat (s.rb.tail.toNat + s.rb.delivers len - s.rb.head.toNat)),
        rb := { (s.moved des (s.rb.delivers len)).rb with
          head := BitVec.ofNat 32 (wrap s.rb.size.toNat (s.rb.head.toNat +
            min plen.toNat (s.rb.tail.toNat + s.rb.delivers len - s.rb.head.toNat))) } } := by
  have h2 := hv.head_lt; have h3 := hv.tail_lt
  have hH := head_lt_tail hv hw
  have hu : s.rb.used = s.rb.size.toNat + s.rb.head.toNat - s.rb.tail.toNat := if_neg (by omega)
  have hdl : s.rb.delivers len = min len.toNat s.rb.used := rfl
  have hi : s.rb.head.toNat + min plen.toNat (s.rb.tail.toNat + s.rb.delivers len - s.rb.head.toNat) ≤
      s.rb.size.toNat := by
    rcases hp with rfl | rfl <;> simp only [Exposed] at hx <;> omega
  have ht := moved_tail hv des len
  rw [← ht] at hw hi ⊢
  exact userRbPut_of_tail_ge (s := { s with mem := (s.moved des (s.rb.delivers len)).mem }) hv hw hi

theorem serial_tail (hm : Mid s des len (s.rb.delivers len) g) (hp : g.pc = .tailCmp ∨ g.pc = .tailSub)
    (hx : ¬ Exposed s.rb des len plen g.pc) :
    Serial s des len src plen (getResult des len { g with st := (userRbPut g.st src plen).2 }) := by
  have h1 := hv.size_le; have h3 := hv.tail_lt; have h4 := hv.used_lt
  have hb := s.rb.delivers_le len
  have hmt := moved_tail hv des len
  have hv' := userRbGet_valid hv des len
  obtain ⟨st, pc, sz, rz⟩ := g
  simp only at hp hx ⊢
  have hst : st = s.moved des (s.rb.delivers len) ∧ sz.toNat = s.rb.delivers len ∧
      (pc = .tailSub → s.rb.size.toNat ≤ s.rb.tail.toNat + s.rb.delivers len) := by
    rcases hp with rfl | rfl
    · exact ⟨hm.1, hm.2, by simp⟩
    · exact ⟨hm.1, hm.2.1, fun _ => hm.2.2⟩
  obtain ⟨rfl, hsz, hsub⟩ := hst
  have hsz' : sz = (userRbGet s des len).1 := by
    rw [userRbGet_eq hv]; apply BitVec.eq_of_toNat_eq; simp only; rw [hsz]; bv_omega
  obtain ⟨ht, hs, -⟩ := userRbPut_tail (s.moved des (s.rb.delivers len)) src plen
  have hms : (s.moved des (s.rb.delivers len)).rb.size = s.rb.size := rfl
  by_cases hw : s.rb.tail.toNat + s.rb.delivers len < s.rb.size.toNat
  · -- the tail does not reach the end: the read is done
    obtain rfl : pc = .tailCmp := hp.resolve_right fun h => absurd (hsub h) (by omega)
    have hfold : foldIndex s.rb.size (s.moved des (s.rb.delivers len)).rb.tail =
        (userRbPut (s.moved des (s.rb.delivers len)) src plen).2.rb.tail := by
      rw [ht, foldIndex, if_neg (by bv_omega)]
    rw [getResult_tailCmp, ht, hs, hms, hfold, hsz', moved_of_lt hv hw]
    exact serial_outcome hv .getFirst
  · have hw := Nat.not_lt.mp hw
    have hH := head_lt_tail hv hw
    have hu : s.rb.used = s.rb.size.toNat + s.rb.head.toNat - s.rb.tail.toNat := if_neg (by omega)
    have hacc : (userRbGet s des len).2.rb.accepts plen =
        min plen.toNat (s.rb.tail.toNat + s.rb.delivers len - s.rb.head.toNat) := by
      rw [Ringbuf.accepts, userRbGet_used hv, userRbGet_size hv, hu]; congr 1; omega
    have hfold : (s.moved des (s.rb.delivers len)).rb.tail - s.rb.size =
        BitVec.ofNat 32 (s.rb.tail.toNat + s.rb.delivers len - s.rb.size.toNat) := by
      bv_omega
    have hres : getResult des len
        ⟨(userRbPut (s.moved des (s.rb.delivers len)) src plen).2, pc, sz, rz⟩ =
        (sz, { (userRbPut (s.moved des (s.rb.delivers len)) src plen).2 with
          rb.tail := BitVec.ofNat 32 (s.rb.tail.toNat + s.rb.delivers len - s.rb.size.toNat) }) := by
      rcases hp with rfl | rfl
      · rw [getResult_tailCmp, ht, hs, hms, foldIndex, if_pos (by bv_omega), hfold]
      · rw [getResult_tailSub, ht, hs, hms, hfold]
    rw [hres]
    have ho : (sz, { (userRbPut (s.moved des (s.rb.delivers len)) src plen).2 with
        rb.tail := BitVec.ofNat 32 (s.rb.tail.toNat + s.rb.delivers len - s.rb.size.toNat) }) =
        CallOrder.getFirst.outcome s des len src plen := by
      simp only [CallOrder.outcome]
      rw [userRbPut_eq hv', hacc, ← hsz', moved_put hv hp hx hw, userRbGet_eq hv, wrap_of_ge hw]
      rfl
    rw [ho]
    exact serial_outcome hv .getFirst

/-- Where no statement is exposed, the outcome is serial. -/
theorem serial_preempted (k : Nat) (hx : ¬ Exposed s.rb des len plen (getAfter s des len k).pc) :
    Serial s des len src plen (preempted s des len k src plen) := by
  have ha : GetAt s des len (getAfter s des len k) := getAfter_getAt hv k
  unfold preempted
  revert ha hx
  generalize getAfter s des len k = g
  intro hx ha
  obtain ⟨st, pc, sz, rz⟩ := g
  cases pc
  case test =>
    obtain rfl : st = s := ha
    exact serial_of_getAt hv rfl
  case linSz =>
    obtain ⟨rfl, h⟩ := ha
    exact serial_linSz hv h hx
  case wrapSz =>
    obtain ⟨rfl, h⟩ := ha
    exact serial_wrapSz hv h hx
  case copyStart => exact serial_copyStart hv ha rfl hx
  case tailAdd => exact serial_tailAdd hv ha rfl hx
  case tailCmp => exact serial_tail hv ha (.inl rfl) hx
  case tailSub => exact serial_tail hv ha (.inr rfl) hx
  case ret =>
    obtain ⟨rfl, h⟩ := ha
    have hz : sz = (userRbGet s des len).1 := by
      have := hv.size_le
      rw [userRbGet_eq hv]; apply BitVec.eq_of_toNat_eq; simp only at h ⊢; rw [h]; bv_omega
    have hg : (s.take des (s.rb.delivers len)).2 = (userRbGet s des len).2 := by
      rw [userRbGet_eq hv]; rfl
    rw [hg, hz]
    exact serial_outcome hv .getFirst
  all_goals exact serial_sized hv ha trivial hx

/-- Where no statement is exposed, the `put` writes to the storage only. -/
theorem inside_preempted (k : Nat) (hx : ¬ Exposed s.rb des len plen (getAfter s des len k).pc) {x : Nat}
    (hi : x < s.rb.pbuf ∨ s.rb.pbuf + s.rb.size.toNat ≤ x) :
    (userRbPut (getAfter s des len k).st src plen).2.mem x = (getAfter s des len k).st.mem x := by
  have ha : GetAt s des len (getAfter s des len k) := getAfter_getAt hv k
  have hget : (userRbPut (userRbGet s des len).2 src plen).2.mem x = (userRbGet s des len).2.mem x :=
    userRbPut_inside (userRbGet_valid hv des len) (by rw [userRbGet_eq hv]; exact hi)
  have htail : ∀ pc, pc = .tailCmp ∨ pc = .tailSub → ¬ Exposed s.rb des len plen pc →
      (userRbPut (s.moved des (s.rb.delivers len)) src plen).2.mem x =
        (s.moved des (s.rb.delivers len)).mem x := by
    intro pc hp hx
    by_cases hw : s.rb.tail.toNat + s.rb.delivers len < s.rb.size.toNat
    · rw [moved_of_lt hv hw]; exact hget
    · rw [moved_put hv hp hx (Nat.not_lt.mp hw)]
      exact Mem.ringWrite_outside _ _ hi
  revert ha hx
  generalize getAfter s des len k = g
  intro hx ha
  obtain ⟨st, pc, sz, rz⟩ := g
  cases pc
  case test =>
    obtain rfl : st = s := ha
    exact userRbPut_inside hv hi
  case tailCmp =>
    obtain ⟨rfl, -⟩ := ha
    exact htail _ (.inl rfl) hx
  case tailSub =>
    obtain ⟨rfl, -⟩ := ha
    exact htail _ (.inr rfl) hx
  case ret =>
    obtain ⟨rfl, h⟩ := ha
    have hg : (s.take des (s.rb.delivers len)).2 = (userRbGet s des len).2 := by
      rw [userRbGet_eq hv]; rfl
    rw [hg]; exact hget
  case copyStart | tailAdd =>
    obtain ⟨rfl, -⟩ := ha
    refine userRbPut_inside ?_ hi
    exact hv
  all_goals
    obtain ⟨rfl, -⟩ := ha
    exact userRbPut_inside hv hi

end

end Safe

end Nonos
