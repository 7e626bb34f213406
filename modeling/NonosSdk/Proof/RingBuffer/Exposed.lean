import NonosSdk.Proof.RingBuffer.Preempt

/-!
# When preempting a `get` is safe

At an exposed statement some bytes make the interruption visible. After the
test, the read runs past the end of the storage (`exposed_linSz`); between the
move of the tail and its folding, the `put` writes there (`exposed_tail`). In
between, the counts are those of neither order if the ring gets full
(`exposed_filled`), and otherwise the copies of the `get` show where they go
over the bytes of the `put` (`exposed_sized`, `exposed_copyStart`). So
`PreemptSafe` holds for all bytes exactly where no statement is exposed
(`preempted_safe_iff`).
-/

namespace Nonos

section

variable {s : RbState} {des : Nat} {len : Word} {src : Nat → Byte} {plen : Word}

/-- After the `get` there is room for the cells it frees as well. -/
theorem room_getFirst (hv : s.rb.Valid) : CallOrder.getFirst.Room s des len src plen ↔
    plen.toNat < s.rb.size.toNat - s.rb.used + s.rb.delivers len := by
  have hu := hv.used_lt; have hb := s.rb.delivers_le len
  have hg := userRbGet_valid hv des len
  simp only [CallOrder.Room, CallOrder.before]
  rw [userRbPut_count hg, userRbUnreadSize_toNat hg, Ringbuf.accepts, userRbGet_used hv,
    userRbGet_size hv]
  omega

theorem exists_room (hv : s.rb.Valid) : (∃ o : CallOrder, o.Room s des len src plen) ↔
    plen.toNat < s.rb.size.toNat - s.rb.used + s.rb.delivers len := by
  refine ⟨?_, fun h => ⟨.getFirst, (room_getFirst hv).mpr h⟩⟩
  rintro ⟨_ | _, ho⟩
  · simp only [CallOrder.Room, CallOrder.before] at ho
    rw [userRbPut_count hv, userRbUnreadSize_toNat hv, Ringbuf.accepts] at ho
    omega
  · exact (room_getFirst hv).mp ho

/-! ## What an observer sees -/

variable {r r' : Word × RbState}

theorem observe_counts (h : observe des r = observe des r') :
    r.1.toNat = r'.1.toNat ∧ (userRbUnreadSize r.2.rb).toNat = (userRbUnreadSize r'.2.rb).toNat := by
  have h1 := congrArg (fun p => p.1.length) h
  have h2 := congrArg (fun p => p.2.length) h
  simp only [observe, RbState.unread, Mem.length_cells, Mem.length_ringRead] at h1 h2
  exact ⟨h1, h2⟩

theorem observe_delivered (h : observe des r = observe des r') {i : Nat} (hi : i < r.1.toNat) :
    r.2.mem (des + i) = r'.2.mem (des + i) := by
  have hc := congrArg Prod.fst h
  simp only [observe, Mem.cells, ← (observe_counts h).1] at hc
  exact List.map_inj_left.mp hc i (List.mem_range.mpr hi)

theorem observe_unread (h : observe des r = observe des r') (hrb : r.2.rb = r'.2.rb) {i : Nat}
    (hi : i < (userRbUnreadSize r.2.rb).toNat) :
    r.2.mem (r.2.rb.pbuf + wrap r.2.rb.size.toNat (r.2.rb.tail.toNat + i)) =
      r'.2.mem (r.2.rb.pbuf + wrap r.2.rb.size.toNat (r.2.rb.tail.toNat + i)) := by
  have hc := congrArg Prod.snd h
  simp only [observe, RbState.unread, Mem.ringRead, ← hrb] at hc
  exact List.map_inj_left.mp hc i (List.mem_range.mpr hi)

/-! ## A full ring -/

/-- The indices of a call that takes `d` bytes, with the `put` already in the ring. -/
theorem take_indices (hv : s.rb.Valid) (des : Nat) (src : Nat → Byte) (plen : Word) {d : Nat}
    (hd : d ≤ s.rb.size.toNat) :
    ((userRbPut s src plen).2.take des d).1.toNat = d ∧
    ((userRbPut s src plen).2.take des d).2.rb.tail.toNat = wrap s.rb.size.toNat (s.rb.tail.toNat + d) ∧
    (userRbUnreadSize ((userRbPut s src plen).2.take des d).2.rb).toNat =
      back s.rb.size.toNat (wrap s.rb.size.toNat (s.rb.tail.toNat + d))
        (wrap s.rb.size.toNat (s.rb.head.toNat + s.rb.accepts plen)) := by
  obtain ⟨ht, hs, -⟩ := userRbPut_tail s src plen
  have h1 := hv.size_le; have h3 := hv.tail_lt
  have hw := wrap_lt (show s.rb.tail.toNat + d < 2 * s.rb.size.toNat by omega)
  have htail : ((userRbPut s src plen).2.take des d).2.rb.tail.toNat =
      wrap s.rb.size.toNat (s.rb.tail.toNat + d) := by
    simp only [RbState.take, BitVec.toNat_ofNat]
    rw [ht, hs, Nat.mod_eq_of_lt (by omega)]
  refine ⟨by simp only [RbState.take]; bv_omega, htail, ?_⟩
  rw [userRbUnreadSize_toNat (take_valid (userRbPut_valid hv src plen) des (by rw [hs]; exact hd)),
    Ringbuf.used, htail, ← userRbPut_head hv src plen]
  exact congrArg (fun z : Word => back z.toNat _ _) hs

/-- A `put` that fills the ring during a `get` of `d` bytes: the counts are those
of neither order. -/
theorem exposed_filled (hv : s.rb.Valid) {d : Nat} (h0 : 0 < d) (hd : d ≤ s.rb.size.toNat)
    (hf : s.rb.size.toNat - s.rb.used ≤ plen.toNat)
    (hr : plen.toNat < s.rb.size.toNat - s.rb.used + s.rb.delivers len)
    (hx : d = s.rb.delivers len → s.rb.size.toNat - s.rb.used < plen.toNat)
    (hc : r.1 = BitVec.ofNat 32 d) (hrb : r.2.rb = ((userRbPut s src plen).2.take des d).2.rb)
    (o : CallOrder) : observe des r ≠ observe des (o.outcome s des len src plen) := by
  intro he
  obtain ⟨h1, h2⟩ := observe_counts he
  obtain ⟨hd1, -, hd2⟩ := take_indices hv des src plen hd
  have hu : back s.rb.size.toNat (wrap s.rb.size.toNat (s.rb.tail.toNat + d))
      (wrap s.rb.size.toNat (s.rb.head.toNat + s.rb.accepts plen)) = s.rb.size.toNat - d := by
    have ha : s.rb.accepts plen = s.rb.size.toNat - s.rb.used := Nat.min_eq_right hf
    rw [ha, Ringbuf.used, wrap_add_sub_back hv.tail_lt hv.head_lt, back_wrap_self h0 hd]
  have hc' : r.1.toNat = d := by rw [hc]; exact hd1
  rw [hc'] at h1
  rw [hrb, hd2, hu] at h2
  cases o with
  | putFirst =>
    have hz := userRbPut_used_of_full hv src plen (Nat.min_eq_right hf)
    have hg := userRbGet_count (userRbPut_valid hv src plen) des len
    have hle := (userRbPut s src plen).2.rb.delivers_le len
    simp only [CallOrder.outcome] at h1
    omega
  | getFirst =>
    have hv' := userRbGet_valid hv des len
    have hb := s.rb.delivers_le len; have hlt := hv.used_lt
    have hacc : (userRbGet s des len).2.rb.accepts plen = plen.toNat := by
      rw [Ringbuf.accepts, userRbGet_used hv, userRbGet_size hv]; omega
    simp only [CallOrder.outcome] at h1 h2
    rw [userRbGet_count hv] at h1
    rw [userRbUnreadSize_toNat (userRbPut_valid hv' src plen),
      userRbPut_used hv' src plen (by rw [hacc, userRbGet_used hv, userRbGet_size hv]; omega), hacc,
      userRbGet_used hv] at h2
    have := hx h1
    omega

/-- The bytes of the `put` are among those an observer sees. -/
theorem observe_agree (hv : s.rb.Valid) (hf : plen.toNat ≤ s.rb.size.toNat - s.rb.used)
    (hr : plen.toNat < s.rb.size.toNat - s.rb.used + s.rb.delivers len) {c c' : Word} {m m' : Mem Byte}
    (h : observe des (c, { ((userRbPut s src plen).2.take des (s.rb.delivers len)).2 with mem := m }) =
      observe des (c', { ((userRbPut s src plen).2.take des (s.rb.delivers len)).2 with mem := m' }))
    {x : Nat} (hx : Mem.RingReaches s.rb.pbuf s.rb.size.toNat s.rb.head.toNat plen.toNat x) : m x = m' x := by
  have hb := s.rb.delivers_le len; have hu := hv.used_lt
  have h2 := hv.head_lt; have h3 := hv.tail_lt
  obtain ⟨-, ht, hn⟩ := take_indices hv des src plen
    (show s.rb.delivers len ≤ s.rb.size.toNat by omega)
  obtain ⟨-, hs, hp⟩ := userRbPut_tail s src plen
  have ha : s.rb.accepts plen = plen.toNat := Nat.min_eq_left hf
  obtain ⟨hx1, hx2, hx3⟩ := hx
  -- the bytes of the `put` come after what the `get` leaves
  have hback : back s.rb.size.toNat (wrap s.rb.size.toNat (s.rb.tail.toNat + s.rb.delivers len))
      s.rb.head.toNat = s.rb.used - s.rb.delivers len := back_wrap_left h3 h2 hb
  have hw := wrap_lt (show s.rb.tail.toNat + s.rb.delivers len < 2 * s.rb.size.toNat by omega)
  rw [ha, back_wrap_add hw h2 (by omega), hback] at hn
  have hi : s.rb.used - s.rb.delivers len + back s.rb.size.toNat s.rb.head.toNat (x - s.rb.pbuf) <
      (userRbUnreadSize ((userRbPut s src plen).2.take des (s.rb.delivers len)).2.rb).toNat := by omega
  have hw : wrap s.rb.size.toNat (wrap s.rb.size.toNat (s.rb.tail.toNat + s.rb.delivers len) +
      (s.rb.used - s.rb.delivers len + back s.rb.size.toNat s.rb.head.toNat (x - s.rb.pbuf))) =
      x - s.rb.pbuf := by
    rw [← hback, ← wrap_wrap_add hw (by omega), wrap_back hw h2, wrap_back h2 (by omega)]
  have he := observe_unread h rfl hi
  simp only [ht] at he
  have hs' : ((userRbPut s src plen).2.take des (s.rb.delivers len)).2.rb.size = s.rb.size := hs
  have hp' : ((userRbPut s src plen).2.take des (s.rb.delivers len)).2.rb.pbuf = s.rb.pbuf := hp
  rw [hs', hp', hw, Nat.add_sub_cancel' hx1] at he
  exact he

/-- A `put` that changes how much is delivered does not come first unnoticed. -/
theorem putFirst_count_ne (hv : s.rb.Valid) (hf : plen.toNat ≤ s.rb.size.toNat - s.rb.used)
    (hr : plen.toNat < s.rb.size.toNat - s.rb.used + s.rb.delivers len) (h0 : 0 < plen.toNat)
    (hs : s.rb.Shifts len plen) :
    (CallOrder.putFirst.outcome s des len src plen).1.toNat ≠ s.rb.delivers len := by
  simp only [CallOrder.outcome]
  rw [userRbGet_count (userRbPut_valid hv src plen), Ringbuf.delivers, Ringbuf.delivers]
  rw [Ringbuf.delivers] at hr
  have ha : s.rb.accepts plen = plen.toNat := Nat.min_eq_left hf
  by_cases hfull : s.rb.size.toNat - s.rb.used = plen.toNat
  · rw [userRbPut_used_of_full hv src plen (ha.trans hfull.symm)]; omega
  · rw [userRbPut_used hv src plen (by omega), ha]
    unfold Ringbuf.Shifts at hs
    omega

/-- Up to the move of the tail, the counts of an interrupted call are those of a
call that takes its bytes with the `put` already in the ring. -/
theorem Mid.put_counts (hv : s.rb.Valid) {g : GetState} (hm : Mid s des len (s.rb.delivers len) g)
    (hp : g.pc.Sized ∨ g.pc = .copyStart ∨ g.pc = .tailAdd) :
    (getResult des len { g with st := (userRbPut g.st src plen).2 }).1 =
        BitVec.ofNat 32 (s.rb.delivers len) ∧
      (getResult des len { g with st := (userRbPut g.st src plen).2 }).2.rb =
        ((userRbPut s src plen).2.take des (s.rb.delivers len)).2.rb := by
  have hb := s.rb.delivers_le len; have hu := hv.used_lt
  rcases hp with hp | hp | hp
  · rw [hm.put_result hv hp]; exact ⟨rfl, rfl⟩
  · obtain ⟨st, pc, sz, rz⟩ := g
    obtain rfl : pc = .copyStart := hp
    obtain ⟨rfl, hz, hrz, hw⟩ := hm
    simp only at hz hrz ⊢
    rw [getResult_put_copyStart hv (by omega) hz hrz hw]; exact ⟨rfl, rfl⟩
  · obtain ⟨st, pc, sz, rz⟩ := g
    obtain rfl : pc = .tailAdd := hp
    obtain ⟨rfl, hz⟩ := hm
    simp only at hz ⊢
    rw [getResult_put_tailAdd hv (by omega) hz]; exact ⟨rfl, rfl⟩

theorem exposed_mid (hv : s.rb.Valid) {g : GetState} (hm : Mid s des len (s.rb.delivers len) g)
    (hp : g.pc.Sized ∨ g.pc = .copyStart ∨ g.pc = .tailAdd)
    (hr : plen.toNat < s.rb.size.toNat - s.rb.used + s.rb.delivers len)
    (hf : s.rb.size.toNat - s.rb.used < plen.toNat) (o : CallOrder) :
    observe des (getResult des len { g with st := (userRbPut g.st src plen).2 }) ≠
      observe des (o.outcome s des len src plen) := by
  have hb := s.rb.delivers_le len; have hu := hv.used_lt
  obtain ⟨hc, hrb⟩ := hm.put_counts hv hp
  exact exposed_filled hv (by omega) (by omega) hf.le hr (fun _ => hf) hc hrb o

end

/-! ## Copies over the bytes of the `put` -/

/-- A ring in a memory of zeros. -/
def zeros (rb : Ringbuf) : RbState := ⟨fun _ => 0, rb⟩

/-- A memory of zeros after a `put` of ones. -/
def ones (rb : Ringbuf) (plen : Word) : Mem Byte :=
  Mem.ringWrite (fun _ => 0) rb.pbuf rb.size.toNat rb.head.toNat (fun _ => 1) plen.toNat

section

variable {rb : Ringbuf} {des : Nat} {len plen : Word}

theorem store_zeros (a n : Nat) : Mem.store (fun _ => (0 : Byte)) a (fun _ => 0) n = fun _ => 0 := by
  funext x; simp [Mem.store]

theorem ones_of_reaches {x : Nat}
    (hx : Mem.RingReaches rb.pbuf rb.size.toNat rb.head.toNat plen.toNat x) : ones rb plen x = 1 :=
  Mem.ringWrite_of_reaches _ _ hx

variable (hv : rb.Valid) (hf : plen.toNat ≤ rb.size.toNat - rb.used)
include hv hf

/-- The `put`'s ones, and the zeros that the `get` copies. -/
theorem zeros_take : ((userRbPut (zeros rb) (fun _ => 1) plen).2.take des (rb.delivers len)).2.mem =
    (ones rb plen).store des (fun _ => 0) (rb.delivers len) := by
  have hb := rb.delivers_le len; have hu := hv.used_lt
  have ha : rb.accepts plen = plen.toNat := Nat.min_eq_left hf
  have hv' : (zeros rb).rb.Valid := hv
  rw [RbState.take, userRbPut_eq hv']
  simp only [zeros, ha]
  apply Mem.readOut_const _ hv.tail_lt
  intro i hi
  exact Mem.ringWrite_before _ _ hv.tail_lt hv.head_lt (by rw [← Ringbuf.used]; omega)
    (by rw [← Ringbuf.used]; omega)

/-- The `put` after the copies of the `get`. -/
theorem zeros_getFirst : CallOrder.getFirst.outcome (zeros rb) des len (fun _ => 1) plen =
    (BitVec.ofNat 32 (rb.delivers len),
      { ((userRbPut (zeros rb) (fun _ => 1) plen).2.take des (rb.delivers len)).2 with
        mem := ones rb plen }) := by
  have hv' : (zeros rb).rb.Valid := hv
  rw [outcome_getFirst hv' hf]
  simp only [zeros]
  rw [Mem.readOut_const (fun _ => 0) hv.tail_lt fun _ _ => rfl, store_zeros]
  rfl

/-- The `put` between them: the second copy takes zeros over its ones. -/
theorem zeros_copyStart {g : GetState} (hg : Mid (zeros rb) des len (rb.delivers len) g)
    (hp : g.pc = .copyStart) :
    getResult des len { g with st := (userRbPut g.st (fun _ => 1) plen).2 } =
      (BitVec.ofNat 32 (rb.delivers len),
        { ((userRbPut (zeros rb) (fun _ => 1) plen).2.take des (rb.delivers len)).2 with
          mem := (ones rb plen).store (des + (rb.size.toNat - rb.tail.toNat)) (fun _ => 0)
            (rb.delivers len - (rb.size.toNat - rb.tail.toNat)) }) := by
  have hv' : (zeros rb).rb.Valid := hv
  have hb := rb.delivers_le len; have hu := hv.used_lt
  have ha : (zeros rb).rb.accepts plen = plen.toNat := Nat.min_eq_left hf
  obtain ⟨st, pc, sz, rz⟩ := g
  obtain rfl : pc = .copyStart := hp
  obtain ⟨rfl, hz, hrz, hw⟩ := hg
  simp only at hz hrz ⊢
  rw [getResult_put_copyStart hv' (hb.trans hu.le) hz hrz hw, ha]
  have h1 : (zeros rb).mem.memcpy des (rb.pbuf + rb.tail.toNat) (rb.size.toNat - rb.tail.toNat) =
      fun _ => 0 := by
    rw [zeros, Mem.memcpy_const (fun _ => 0) fun _ _ => rfl, store_zeros]
  have h2 : ∀ i < rb.delivers len - (rb.size.toNat - rb.tail.toNat), ones rb plen (rb.pbuf + i) = 0 := by
    intro i hi
    have hn : back rb.size.toNat rb.tail.toNat rb.head.toNat + plen.toNat ≤ rb.size.toNat := by
      rw [← Ringbuf.used]; omega
    have hle := (Mem.le_back_of_unread hv.tail_lt hv.head_lt hn hb).2 i hi
    rw [Nat.zero_add] at hle
    exact Mem.ringWrite_of_back_ge _ _ hle
  have h3 : (ones rb plen).memcpy (des + (rb.size.toNat - rb.tail.toNat)) rb.pbuf
      (rb.delivers len - (rb.size.toNat - rb.tail.toNat)) = _ := Mem.memcpy_const _ h2
  simp only [zeros] at h1 ⊢
  rw [h1, ← h3]
  rfl

variable (hr : plen.toNat < rb.size.toNat - rb.used + rb.delivers len)
include hr

/-- Before the copies, with a destination that the `put` has written to. -/
theorem exposed_sized (hs : rb.Shifts len plen) (hm : rb.Meets plen des (rb.delivers len)) (o : CallOrder) :
    observe des ((userRbPut (zeros rb) (fun _ => 1) plen).2.take des (rb.delivers len)) ≠
      observe des (o.outcome (zeros rb) des len (fun _ => 1) plen) := by
  have hv' : (zeros rb).rb.Valid := hv
  have hd : rb.delivers len ≤ rb.size.toNat := (rb.delivers_le len).trans hv.used_lt.le
  obtain ⟨i, hi, hx⟩ := hm
  intro he
  cases o with
  | putFirst =>
    have hc := (observe_counts he).1
    rw [(take_indices hv' des _ plen hd).1] at hc
    exact putFirst_count_ne hv' hf hr (Nat.zero_lt_of_lt hx.2.2) hs hc.symm
  | getFirst =>
    rw [zeros_getFirst hv hf] at he
    have hx' : ((userRbPut (zeros rb) (fun _ => 1) plen).2.take des (rb.delivers len)).2.mem (des + i) =
        ones rb plen (des + i) := observe_agree hv' hf hr he hx
    rw [zeros_take hv hf, Mem.store, if_pos (by omega), ones_of_reaches hx] at hx'
    exact absurd hx' (by decide)

/-- Between the copies, where the second goes over bytes of the `put`, and the
first does too or the `put` cannot come first. -/
theorem exposed_copyStart (hm : rb.Meets plen (des + (rb.size.toNat - rb.tail.toNat))
      (rb.delivers len - (rb.size.toNat - rb.tail.toNat)))
    (hs : rb.Shifts len plen ∨ rb.Meets plen des (rb.size.toNat - rb.tail.toNat))
    {g : GetState} (hg : Mid (zeros rb) des len (rb.delivers len) g) (hp : g.pc = .copyStart)
    (o : CallOrder) :
    observe des (getResult des len { g with st := (userRbPut g.st (fun _ => 1) plen).2 }) ≠
      observe des (o.outcome (zeros rb) des len (fun _ => 1) plen) := by
  have hv' : (zeros rb).rb.Valid := hv
  have hd : rb.delivers len ≤ rb.size.toNat := (rb.delivers_le len).trans hv.used_lt.le
  rw [zeros_copyStart hv hf hg hp]
  obtain ⟨i, hi, hx⟩ := hm
  intro he
  cases o with
  | getFirst =>
    rw [zeros_getFirst hv hf] at he
    have hx' := observe_agree hv' hf hr he hx
    rw [Mem.store, if_pos (by omega), ones_of_reaches hx] at hx'
    exact absurd hx' (by decide)
  | putFirst =>
    by_cases hsh : rb.Shifts len plen
    · have hc := (observe_counts he).1
      have hd1 : (BitVec.ofNat 32 (rb.delivers len)).toNat = rb.delivers len :=
        (take_indices hv' des (fun _ => 1) plen hd).1
      simp only [hd1] at hc
      exact putFirst_count_ne hv' hf hr (Nat.zero_lt_of_lt hx.2.2) hsh hc.symm
    · obtain ⟨j, hj, hy⟩ := hs.resolve_left hsh
      rw [outcome_putFirst hv' hsh] at he
      have hy' : _ = ((userRbPut (zeros rb) (fun _ => 1) plen).2.take des (rb.delivers len)).2.mem (des + j) :=
        observe_agree hv' hf hr he hy
      rw [zeros_take hv hf, Mem.store, if_neg (by omega), ones_of_reaches hy, Mem.store,
        if_pos (by omega)] at hy'
      exact absurd hy' (by decide)

end

/-! ## A read past the end of the storage -/

section

variable {s : RbState} {des : Nat} {len : Word} {src : Nat → Byte} {plen : Word}

/-- After the test and a `put` that wraps, the read goes on past the end of the
storage where a call that comes later goes on at its start. -/
theorem linSz_visible (hv : s.rb.Valid) (hl : s.rb.tail.toNat ≤ s.rb.head.toNat)
    (hx : Exposed s.rb des len plen .linSz) {sz rz : Word} {o : CallOrder}
    (he : observe des (getResult des len ⟨(userRbPut s src plen).2, .linSz, sz, rz⟩) =
      observe des (o.outcome s des len src plen)) :
    s.rb.size.toNat - s.rb.head.toNat < plen.toNat ∧
    (userRbPut s src plen).2.mem.memcpy des (s.rb.pbuf + s.rb.tail.toNat)
        (s.rb.size.toNat - s.rb.tail.toNat) (s.rb.pbuf + s.rb.size.toNat) =
      (userRbPut s src plen).2.mem.memcpy des (s.rb.pbuf + s.rb.tail.toNat)
        (s.rb.size.toNat - s.rb.tail.toNat) s.rb.pbuf := by
  obtain ⟨hx1, hx2, hx3⟩ := hx
  have h1 := hv.size_le; have h2 := hv.head_lt; have h3 := hv.tail_lt
  have hu : s.rb.used = s.rb.head.toNat - s.rb.tail.toNat := if_pos hl
  have hv' : (userRbPut s src plen).2.rb.Valid := userRbPut_valid hv _ _
  obtain ⟨ht, hs, hp⟩ := userRbPut_tail s src plen
  have ha : s.rb.accepts plen = plen.toNat := Nat.min_eq_left hx2.le
  have hh : (userRbPut s src plen).2.rb.head.toNat = s.rb.head.toNat + plen.toNat - s.rb.size.toNat := by
    rw [userRbPut_head hv, ha, wrap_of_ge (by omega)]
  have hz : s.rb.size.toNat - s.rb.tail.toNat <
      (clamp ((userRbPut s src plen).2.rb.head - (userRbPut s src plen).2.rb.tail) len).toNat := by
    rw [clamp_toNat, ht]; bv_omega
  rw [getResult_linSz] at he
  generalize clamp _ len = z at hz he
  have hc := (observe_counts he).1
  have hd := observe_delivered he hz
  simp only at hc hd
  cases o with
  | getFirst =>
    -- it delivers more than was unread
    simp only [CallOrder.outcome] at hc
    rw [userRbGet_count hv] at hc
    have hb := s.rb.delivers_le len
    omega
  | putFirst =>
    simp only [CallOrder.outcome] at hc hd
    rw [userRbGet_count hv'] at hc
    have hb := (userRbPut s src plen).2.rb.delivers_le len
    rw [userRbPut_used hv src plen (by omega), ha] at hb
    refine ⟨by omega, ?_⟩
    rw [userRbGet_eq hv', ← hc, ht, hs, hp] at hd
    simp only [Mem.readOut] at hd
    rw [if_neg (by omega), Mem.memcpy_iteration _ hz,
      show s.rb.pbuf + s.rb.tail.toNat + (s.rb.size.toNat - s.rb.tail.toNat) =
        s.rb.pbuf + s.rb.size.toNat by omega] at hd
    rw [hd]
    exact Mem.memcpy_iteration _ (show 0 < z.toNat - (s.rb.size.toNat - s.rb.tail.toNat) by omega)

end

section

variable {rb : Ringbuf} {des : Nat} {len plen : Word} (hv : rb.Valid)
include hv

/-- One cell set: the one after the storage if the `get` copies over the first
cell of the storage, and that first cell, by the `put`, otherwise. -/
theorem exposed_linSz (hl : rb.tail.toNat ≤ rb.head.toNat) (hx : Exposed rb des len plen .linSz) :
    ∃ mem src, ∀ sz rz o, observe des (getResult des len ⟨(userRbPut ⟨mem, rb⟩ src plen).2, .linSz, sz, rz⟩) ≠
      observe des (CallOrder.outcome o ⟨mem, rb⟩ des len src plen) := by
  obtain ⟨hx1, hx2, hx3⟩ := id hx
  have h2 := hv.head_lt; have h3 := hv.tail_lt
  have hu : rb.used = rb.head.toNat - rb.tail.toNat := if_pos hl
  have ha : rb.accepts plen = plen.toNat := Nat.min_eq_left hx2.le
  by_cases hd : des ≤ rb.pbuf ∧ rb.pbuf < des + (rb.size.toNat - rb.tail.toNat)
  · refine ⟨fun x => if x = rb.pbuf + rb.size.toNat then 1 else 0, fun _ => 0, fun sz rz o he => ?_⟩
    have hvis := (linSz_visible (s := ⟨_, rb⟩) hv hl hx he).2
    rw [userRbPut_eq (s := ⟨_, rb⟩) hv] at hvis
    simp only at hvis
    rw [Mem.memcpy_const (v := 0) _ fun i hi => ?_] at hvis
    · rw [Mem.store, Mem.store, if_pos hd, if_neg (by omega), Mem.ringWrite_outside _ _ (.inr (by omega)),
        if_pos rfl] at hvis
      exact absurd hvis (by decide)
    · unfold Mem.ringWrite
      split
      · rfl
      · exact if_neg (by omega)
  · refine ⟨fun _ => 0, fun i => if i = rb.size.toNat - rb.head.toNat then 1 else 0, fun sz rz o he => ?_⟩
    obtain ⟨hlt, hvis⟩ := linSz_visible (s := ⟨_, rb⟩) hv hl hx he
    rw [userRbPut_eq (s := ⟨_, rb⟩) hv] at hvis
    simp only [ha] at hlt hvis
    have hzero : ∀ i, Mem.ringWrite (fun _ => 0) rb.pbuf rb.size.toNat rb.head.toNat
        (fun i => if i = rb.size.toNat - rb.head.toNat then (1 : Byte) else 0) plen.toNat
        (rb.pbuf + rb.tail.toNat + i) = 0 := by
      intro i
      simp only [Mem.ringWrite]
      split_ifs with h4 h5
      · exfalso; revert h5; unfold back; split_ifs <;> omega
      · rfl
      · rfl
    have hback : back rb.size.toNat rb.head.toNat 0 = rb.size.toNat - rb.head.toNat := if_neg (by omega)
    rw [Mem.memcpy_const (v := 0) _ fun i _ => hzero i] at hvis
    rw [Mem.store, Mem.store, if_neg hd, Mem.ringWrite_outside _ _ (.inr (by omega)), ite_self,
      Mem.ringWrite_of_reaches _ _ ⟨by omega, by omega, by rw [Nat.sub_self, hback]; exact hlt⟩,
      Nat.sub_self, hback, if_pos rfl] at hvis
    exact absurd hvis (by decide)

/-- The `put` before the tail is folded back, with a byte that differs from the
one after the storage. -/
theorem exposed_tail {pc : GetPc} (hp : pc = .tailCmp ∨ pc = .tailSub) (hx : Exposed rb des len plen pc)
    (mem : Mem Byte) : ∃ src, (userRbPut (RbState.moved ⟨mem, rb⟩ des (rb.delivers len)) src plen).2.mem
        (rb.pbuf + rb.size.toNat) ≠
      (RbState.moved ⟨mem, rb⟩ des (rb.delivers len)).mem (rb.pbuf + rb.size.toNat) := by
  have hx' : 0 < rb.head.toNat ∧ rb.head.toNat < rb.tail.toNat ∧
      rb.size.toNat - rb.tail.toNat < len.toNat ∧ rb.size.toNat - rb.head.toNat < plen.toNat := by
    rcases hp with rfl | rfl <;> exact hx
  obtain ⟨hx1, hx2, hx3, hx4⟩ := hx'
  have h1 := hv.size_le; have h2 := hv.head_lt; have h3 := hv.tail_lt
  have hu : rb.used = rb.size.toNat + rb.head.toNat - rb.tail.toNat := if_neg (by omega)
  have hdl : rb.delivers len = min len.toNat rb.used := rfl
  have ht := moved_tail (s := ⟨mem, rb⟩) hv des len
  refine ⟨fun _ => ~~~ (RbState.moved ⟨mem, rb⟩ des (rb.delivers len)).mem (rb.pbuf + rb.size.toNat), ?_⟩
  generalize hm : RbState.moved ⟨mem, rb⟩ des (rb.delivers len) = m at ht
  have hr : m.rb.head = rb.head ∧ m.rb.pbuf = rb.pbuf := by rw [← hm]; exact ⟨rfl, rfl⟩
  have hsz : (clamp (m.rb.tail - m.rb.head) plen).toNat =
      min plen.toNat (rb.tail.toNat + rb.delivers len - rb.head.toNat) := by
    rw [clamp_toNat, hr.1]; simp only at ht; bv_omega
  unfold userRbPut
  simp only
  rw [if_neg (by rw [hr.1]; simp only at ht; bv_omega)]
  simp only [Mem.store]
  rw [hsz, hr.1, hr.2, if_pos (by omega)]
  exact fun he => absurd he (by generalize m.mem _ = v; revert v; decide)

/-- From `sz` to the move of the tail: a ring that gets full, or copies over the
bytes of the `put`. -/
theorem exposed_of_mid {g : GetState} (ha : GetAt (zeros rb) des len g)
    (hp : g.pc.Sized ∨ g.pc = .copyStart ∨ g.pc = .tailAdd) (hx : Exposed rb des len plen g.pc) (o : CallOrder) :
    observe des (getResult des len { g with st := (userRbPut g.st (fun _ => 1) plen).2 }) ≠
      observe des (o.outcome (zeros rb) des len (fun _ => 1) plen) := by
  have hv' : (zeros rb).rb.Valid := hv
  have hm : Mid (zeros rb) des len (rb.delivers len) g := by
    obtain ⟨st, pc, sz, rz⟩ := g
    cases pc <;> first | exact ha | simp [GetPc.Sized] at hp
  have hr : plen.toNat < rb.size.toNat - rb.used + rb.delivers len := by
    revert hp hx
    cases g.pc <;> first | exact fun _ hx => hx.1 | exact fun hp _ => (by simp [GetPc.Sized] at hp)
  by_cases hf : rb.size.toNat - rb.used < plen.toNat
  · exact exposed_mid hv' hm hp hr hf o
  have hf' := Nat.not_lt.mp hf
  rcases hp with hp | hp | hp
  · have hx' : rb.Meets plen des (rb.delivers len) ∧ rb.Shifts len plen := by
      revert hp hx
      cases g.pc <;> first | exact fun _ h => h.elim | exact fun hx _ => hx.2.resolve_left hf
    have hres : getResult des len { g with st := (userRbPut g.st (fun _ => 1) plen).2 } =
        (userRbPut (zeros rb) (fun _ => 1) plen).2.take des (rb.delivers len) := hm.put_result hv' hp
    rw [hres]
    exact exposed_sized hv hf' hr hx'.2 hx'.1 o
  · rw [hp] at hx
    obtain ⟨hmeet, hs⟩ := hx.2.resolve_left hf
    exact exposed_copyStart hv hf' hr hmeet hs hm hp o
  · rw [hp] at hx
    exact absurd hx.2 hf

/-- After the test `head < tail`, with a `put` that fills the ring. -/
theorem exposed_wrapSz (hl : rb.head.toNat < rb.tail.toNat) (hx : Exposed rb des len plen .wrapSz)
    (sz rz : Word) (o : CallOrder) :
    observe des (getResult des len ⟨(userRbPut (zeros rb) (fun _ => 1) plen).2, .wrapSz, sz, rz⟩) ≠
      observe des (o.outcome (zeros rb) des len (fun _ => 1) plen) := by
  have hv' : (zeros rb).rb.Valid := hv
  have hu := hv.used_lt
  obtain ⟨hr, hx⟩ := hx
  have hdl : rb.delivers len = min len.toNat rb.used := rfl
  have hf : rb.size.toNat - rb.used ≤ plen.toNat := hx.elim Nat.le_of_lt fun h => h.1.le
  have hres : getResult des len ⟨(userRbPut (zeros rb) (fun _ => 1) plen).2, .wrapSz, sz, rz⟩ =
      (userRbPut (zeros rb) (fun _ => 1) plen).2.take des (min rb.size.toNat len.toNat) :=
    getResult_wrapSz_filled hv' hl hf
  rw [hres]
  by_cases hlen : min rb.size.toNat len.toNat = rb.delivers len ∧ rb.size.toNat - rb.used = plen.toNat
  · obtain ⟨he, hfull⟩ := hlen
    have hmeet : rb.Meets plen des (rb.delivers len) := by
      rcases hx with h | ⟨-, h | h⟩
      · omega
      · omega
      · exact h
    rw [he]
    exact exposed_sized hv hfull.ge hr (.inr hf) hmeet o
  · have h0 : 0 < min rb.size.toNat len.toNat := by omega
    exact exposed_filled hv' h0 (Nat.min_le_left ..) hf hr
      (fun h => Nat.lt_of_le_of_ne hf fun hfull => hlen ⟨h, hfull⟩) rfl rfl o

/-! ## Exposed statements are not safe -/

/-- A call that has come to `pc`, whatever the bytes are. -/
theorem getAfter_eq {pc : GetPc} {k : Nat} (hp : stopsAt rb des len k = pc) (mem : Mem Byte) :
    ∃ st sz rz, getAfter ⟨mem, rb⟩ des len k = ⟨st, pc, sz, rz⟩ ∧ GetAt ⟨mem, rb⟩ des len ⟨st, pc, sz, rz⟩ := by
  have ha : GetAt ⟨mem, rb⟩ des len (getAfter ⟨mem, rb⟩ des len k) := getAfter_getAt hv k
  have hpc : (getAfter ⟨mem, rb⟩ des len k).pc = pc := (getAfter_pc k).trans hp
  revert ha hpc
  generalize getAfter ⟨mem, rb⟩ des len k = g
  rintro ha rfl
  exact ⟨g.st, g.sz, g.rz, rfl, ha⟩

omit hv in
/-- Bytes that show which order it was not. -/
theorem not_safe_of_observe {k : Nat} {mem : Mem Byte} {src : Nat → Byte} (hv : rb.Valid)
    (hr : plen.toNat < rb.size.toNat - rb.used + rb.delivers len)
    (h : ∀ o : CallOrder, observe des (preempted ⟨mem, rb⟩ des len k src plen) ≠
      observe des (o.outcome ⟨mem, rb⟩ des len src plen)) : ¬ PreemptSafe ⟨mem, rb⟩ des len k src plen := by
  intro hs
  obtain ⟨o, ho⟩ := hs.serial ((exists_room (s := ⟨mem, rb⟩) hv).mpr hr)
  exact h o ho

theorem not_safe_of_exposed {k : Nat} (hx : Exposed rb des len plen (stopsAt rb des len k)) :
    ∃ mem src, ¬ PreemptSafe ⟨mem, rb⟩ des len k src plen := by
  have hv' : (zeros rb).rb.Valid := hv
  have hb := rb.delivers_le len; have hu := hv.used_lt
  cases hp : stopsAt rb des len k <;> rw [hp] at hx
  case test | ret => exact hx.elim
  case linSz =>
    obtain ⟨st, sz, rz, -, -, hl⟩ := getAfter_eq hv hp fun _ => 0
    obtain ⟨mem, src, h⟩ := exposed_linSz hv hl hx
    refine ⟨mem, src, not_safe_of_observe hv (Nat.lt_add_right _ hx.2.1) fun o => ?_⟩
    obtain ⟨st, sz, rz, hg, rfl, -⟩ := getAfter_eq hv hp mem
    rw [preempted, hg]
    exact h sz rz o
  case tailCmp | tailSub =>
    obtain ⟨st, sz, rz, hg, hm⟩ := getAfter_eq hv hp fun _ => 0
    obtain ⟨rfl, -⟩ := hm
    obtain ⟨src, hne⟩ := exposed_tail hv (by simp) hx fun _ => 0
    refine ⟨fun _ => 0, src, fun hs => hne ?_⟩
    have hin := hs.inside (rb.pbuf + rb.size.toNat) (.inr (Nat.le_refl _))
    rw [hg] at hin
    exact hin
  case wrapSz =>
    obtain ⟨st, sz, rz, hg, rfl, hl⟩ := getAfter_eq hv hp fun _ => 0
    refine ⟨fun _ => 0, fun _ => 1, not_safe_of_observe hv hx.1 fun o => ?_⟩
    rw [preempted, hg]
    exact exposed_wrapSz hv hl hx sz rz o
  all_goals
    obtain ⟨st, sz, rz, hg, hm⟩ := getAfter_eq hv hp fun _ => 0
    refine ⟨fun _ => 0, fun _ => 1, not_safe_of_observe hv hx.1 fun o => ?_⟩
    rw [preempted, hg]
    refine exposed_of_mid hv hm ?_ hx o
    first | exact .inl trivial | exact .inr (.inl rfl) | exact .inr (.inr rfl)

end

/-- Eight cells, six bytes from cell 4 over the end to cell 2. -/
def wrappedRing : Ringbuf := { pbuf := 16, head := 2, tail := 4, size := 8, lock := false }

end Nonos
