import NonosSdk.Proof.DhcpServer.Leases

/-!
# Expiry and eviction

A `dhcps_coarse_tmr` leaves the leases whose lowered timer is not 0 (`coarseTmr_eq`).
`kill_oldest_dhcps_pool` then removes the first of the oldest leases after the first one
(`killOldestDhcpsPool_eq`), and marks the last lease offline as it goes. So of eight or
more leases it removes the oldest and nothing else exactly if the first one is not older
than all others, the last one was offline or is the one removed, and their number does
not come to less than eight in a `uint8` (`evicts_oldest_iff`).
-/

namespace Nonos

namespace DhcpServer

/-- A tick of the timer. -/
def lower (pool : DhcpsPool) : DhcpsPool :=
  if pool.type = .dynamic then { pool with leaseTimer := pool.leaseTimer - 1 } else pool

/-- The leases that have not expired. -/
def remaining (plist : List DhcpsPool) : List DhcpsPool := (plist.map lower).filter (·.leaseTimer ≠ 0)

theorem coarseTmr_eq (plist : List DhcpsPool) : coarseTmr plist = remaining plist := by
  induction plist with
  | nil => rfl
  | cons pool plist ih =>
    have hstep : coarseTmr (pool :: plist) =
        if (lower pool).leaseTimer = 0 then coarseTmr plist else lower pool :: coarseTmr plist := rfl
    rw [hstep, ih, remaining, remaining, List.map_cons, List.filter_cons]
    by_cases h0 : (lower pool).leaseTimer = 0
    · rw [if_pos h0, if_neg (by simpa using h0)]
    · rw [if_neg h0, if_pos (by simpa using h0)]

/-- The search: `minp` if nothing in the list is older, and the first of the oldest
otherwise. -/
theorem oldest_spec (m : DhcpsNode) (i : Nat) (plist : List DhcpsPool) :
    oldest m i plist = m ∧ (∀ y ∈ plist, m.2.leaseTimer ≤ y.leaseTimer) ∨
      ∃ pre q post, plist = pre ++ q :: post ∧ oldest m i plist = (i + pre.length, q) ∧
        q.leaseTimer < m.2.leaseTimer ∧ (∀ y ∈ pre, q.leaseTimer < y.leaseTimer) ∧
        ∀ y ∈ post, q.leaseTimer ≤ y.leaseTimer := by
  induction plist generalizing m i with
  | nil => exact .inl ⟨rfl, by simp⟩
  | cons p plist ih =>
    rw [oldest]
    split_ifs with hlt
    · -- `p` is the oldest so far
      refine .inr ?_
      rcases ih (i, p) (i + 1) with ⟨he, hle⟩ | ⟨pre, q, post, rfl, he, hq, hpre, hpost⟩
      · exact ⟨[], p, plist, rfl, he, hlt, by simp, hle⟩
      · refine ⟨p :: pre, q, post, rfl, ?_, BitVec.lt_trans hq hlt, ?_, hpost⟩
        · rw [he, List.length_cons, Nat.add_assoc, Nat.add_comm 1]
        · intro y hy
          rcases List.mem_cons.mp hy with rfl | hy
          · exact hq
          · exact hpre y hy
    · have hmp : m.2.leaseTimer ≤ p.leaseTimer := BitVec.not_lt.mp hlt
      rcases ih m (i + 1) with ⟨he, hle⟩ | ⟨pre, q, post, rfl, he, hq, hpre, hpost⟩
      · refine .inl ⟨he, fun y hy => ?_⟩
        rcases List.mem_cons.mp hy with rfl | hy
        · exact hmp
        · exact hle y hy
      · refine .inr ⟨p :: pre, q, post, rfl, ?_, hq, ?_, hpost⟩
        · rw [he, List.length_cons, Nat.add_assoc, Nat.add_comm 1]
        · intro y hy
          rcases List.mem_cons.mp hy with rfl | hy
          · bv_omega
          · exact hpre y hy

/-- `pdhcps_pool->state = DHCPS_STATE_OFFLINE;` -/
def setOffline (pool : DhcpsPool) : DhcpsPool := { pool with state := .offline }

/-- The last lease goes offline. -/
def lastOffline (plist : List DhcpsPool) : List DhcpsPool := plist.modify (plist.length - 1) setOffline

theorem lastOffline_append (l : List DhcpsPool) (p : DhcpsPool) : lastOffline (l ++ [p]) = l ++ [setOffline p] := by
  have hmodify : ∀ l : List DhcpsPool, (l ++ [p]).modify l.length setOffline = l ++ [setOffline p] := by
    intro l
    induction l with
    | nil => rfl
    | cons q l ih => exact congrArg (q :: ·) ih
  rw [lastOffline, List.length_append, List.length_singleton, Nat.add_sub_cancel, hmodify]

/-- `kill_oldest_dhcps_pool` removes the first of the oldest leases after the first lease. -/
theorem killOldestDhcpsPool_eq (first : DhcpsPool) {rest : List DhcpsPool} (hr : rest ≠ []) :
    ∃ pre q post, rest = pre ++ q :: post ∧ (∀ y ∈ pre, q.leaseTimer < y.leaseTimer) ∧
      (∀ y ∈ post, q.leaseTimer ≤ y.leaseTimer) ∧
      killOldestDhcpsPool (first :: rest) = first :: (pre ++ lastOffline post) := by
  -- what the search finds, as a place in the list
  obtain ⟨pre, q, post, rfl, hpre, hpost, hkill⟩ : ∃ pre q post, rest = pre ++ q :: post ∧
      (∀ y ∈ pre, q.leaseTimer < y.leaseTimer) ∧ (∀ y ∈ post, q.leaseTimer ≤ y.leaseTimer) ∧
      killOldestDhcpsPool (first :: rest) = (first :: lastOffline rest).eraseIdx (1 + pre.length) := by
    match rest with
    | [] => exact absurd rfl hr
    | p :: plist =>
      rcases oldest_spec (1, p) 1 (p :: plist) with ⟨he, hle⟩ | ⟨pre, q, post, hs, he, -, hpre, hpost⟩
      · refine ⟨[], p, plist, rfl, by simp, fun y hy => hle y (List.mem_cons_of_mem _ hy), ?_⟩
        rw [killOldestDhcpsPool, he]; rfl
      · refine ⟨pre, q, post, hs, hpre, hpost, ?_⟩
        rw [killOldestDhcpsPool, he]; rfl
  refine ⟨pre, q, post, rfl, hpre, hpost, hkill.trans ?_⟩
  rcases List.eq_nil_or_concat post with rfl | ⟨post', last, rfl⟩
  · rw [lastOffline_append, Nat.add_comm]
    exact eraseIdx_middle (first :: pre) [] (setOffline q)
  · rw [List.concat_eq_append, ← List.cons_append, ← List.append_assoc, lastOffline_append, lastOffline_append,
      Nat.add_comm, List.append_assoc, List.cons_append]
    exact eraseIdx_middle (first :: pre) (post' ++ [setOffline last]) q

/-! ## The eviction -/

/-- The oldest lease goes, and nothing else changes. -/
def RemovesOldest (plist plist' : List DhcpsPool) : Prop :=
  ∃ pre x post, plist = pre ++ x :: post ∧ plist' = pre ++ post ∧ ∀ y ∈ plist, x.leaseTimer ≤ y.leaseTimer

/-- `plist'` is what is left of `plist` if the expired leases go and, where at least
`MAX_STATION_NUM` remain, the oldest one of them. -/
def EvictsOldest (plist plist' : List DhcpsPool) : Prop :=
  if (remaining plist).length < maxStationNum.toNat then plist' = remaining plist
  else RemovesOldest (remaining plist) plist'

/-- The first lease is not older than all others, and the last one is offline or the oldest
after the first. -/
def VictimInReach (plist : List DhcpsPool) : Prop :=
  ∃ first ∈ plist.head?, ∃ last ∈ plist.getLast?, (∃ y ∈ plist.tail, y.leaseTimer ≤ first.leaseTimer) ∧
    (last.state = .offline ∨ ∀ y ∈ plist.tail.dropLast, last.leaseTimer < y.leaseTimer)

instance (plist : List DhcpsPool) : Decidable (VictimInReach plist) :=
  inferInstanceAs (Decidable (∃ first ∈ plist.head?, ∃ last ∈ plist.getLast?,
    (∃ y ∈ plist.tail, y.leaseTimer ≤ first.leaseTimer) ∧
      (last.state = .offline ∨ ∀ y ∈ plist.tail.dropLast, last.leaseTimer < y.leaseTimer)))

/-- Fewer leases than `MAX_STATION_NUM` remain, or there is one that
`kill_oldest_dhcps_pool` removes as it should. -/
def Evictable (plist : List DhcpsPool) : Prop :=
  (remaining plist).length < maxStationNum.toNat ∨
    maxStationNum.toNat ≤ (remaining plist).length % 256 ∧ VictimInReach (remaining plist)

instance (plist : List DhcpsPool) : Decidable (Evictable plist) := inferInstanceAs (Decidable (_ ∨ _))

theorem dhcpsCoarseTmr_plist (s : DhcpServer) : s.dhcpsCoarseTmr.plist =
    if maxStationNum.toNat ≤ (remaining s.plist).length % 256 then killOldestDhcpsPool (remaining s.plist)
    else remaining s.plist := by
  unfold dhcpsCoarseTmr
  simp only [coarseTmr_eq, ge_iff_le, BitVec.le_def, BitVec.toNat_ofNat]

theorem removesOldest_of_victim {first : DhcpsPool} {rest : List DhcpsPool} (hr : rest ≠ [])
    (h : VictimInReach (first :: rest)) : RemovesOldest (first :: rest) (killOldestDhcpsPool (first :: rest)) := by
  obtain ⟨pre, q, post, rfl, hpre, hpost, hkill⟩ := killOldestDhcpsPool_eq first hr
  obtain ⟨_, hf, last, hlast, ⟨y, hy, hyf⟩, hoff⟩ := h
  obtain rfl := Option.some.inj hf
  -- the lease that goes is the oldest after the first
  have hq : ∀ y ∈ pre ++ q :: post, q.leaseTimer ≤ y.leaseTimer := by
    intro y hy
    rcases List.mem_append.mp hy with hy | hy
    · exact BitVec.le_of_lt (hpre y hy)
    · rcases List.mem_cons.mp hy with rfl | hy
      · exact BitVec.le_refl _
      · exact hpost y hy
  have hmin : ∀ y ∈ first :: (pre ++ q :: post), q.leaseTimer ≤ y.leaseTimer := by
    intro z hz
    rcases List.mem_cons.mp hz with rfl | hz
    · exact BitVec.le_trans (hq y hy) hyf
    · exact hq z hz
  suffices hpost' : lastOffline post = post by
    rw [hpost'] at hkill
    exact ⟨first :: pre, q, post, rfl, hkill, hmin⟩
  rcases List.eq_nil_or_concat post with rfl | ⟨post', l, rfl⟩
  · rfl
  · rw [List.concat_eq_append] at hlast hoff hpost ⊢
    obtain rfl : l = last := by
      have hl : (first :: (pre ++ q :: (post' ++ [l]))).getLast? = some l := by
        rw [← List.cons_append, ← List.cons_append, ← List.append_assoc, List.getLast?_concat]
      exact Option.some.inj (hl.symm.trans hlast)
    have hstate : l.state = .offline := by
      refine hoff.resolve_right fun hall => ?_
      have hmid : q ∈ (first :: (pre ++ q :: (post' ++ [l]))).tail.dropLast := by
        rw [List.tail_cons, ← List.cons_append, ← List.append_assoc, List.dropLast_concat]
        simp
      have hlt := hall q hmid
      have hle := hpost l (by simp)
      bv_omega
    rw [lastOffline_append, setOffline, ← hstate]

/-- The place of a lease is determined by its client. -/
theorem eq_of_split {l pre post pre' post' : List DhcpsPool} {q x : DhcpsPool}
    (hn : (l.map DhcpsPool.mac).Nodup) (h : l = pre ++ q :: post) (h' : l = pre' ++ x :: post')
    (hk : (pre ++ post).map DhcpsPool.mac = (pre' ++ post').map DhcpsPool.mac) :
    pre = pre' ∧ q = x ∧ post = post' := by
  have hperm : (pre ++ q :: post).Perm (q :: (pre ++ post)) := List.perm_middle
  have hq := (hperm.map DhcpsPool.mac).nodup_iff.mp (h ▸ hn)
  rw [List.map_cons, List.nodup_cons, hk, List.map_append, List.mem_append, not_or] at hq
  have hmap := congrArg (List.map DhcpsPool.mac) (h'.symm.trans h)
  rw [List.map_append, List.map_append, List.map_cons, List.map_cons] at hmap
  have hpre := ((List.append_cons_inj_of_notMem hq.1.1 hq.1.2).mp hmap).1
  have hlen : pre.length = pre'.length := by simpa using (congrArg List.length hpre).symm
  obtain ⟨h1, h2⟩ := List.append_inj (h.symm.trans h') hlen
  exact ⟨h1, List.head_eq_of_cons_eq h2, List.tail_eq_of_cons_eq h2⟩

theorem lastOffline_mac (l : List DhcpsPool) : (lastOffline l).map DhcpsPool.mac = l.map DhcpsPool.mac := by
  rcases List.eq_nil_or_concat l with rfl | ⟨l, p, rfl⟩
  · rfl
  · rw [List.concat_eq_append, lastOffline_append, List.map_append, List.map_append]
    rfl

theorem victim_of_removesOldest {first : DhcpsPool} {rest : List DhcpsPool} (hr : rest ≠ [])
    (hn : ((first :: rest).map DhcpsPool.mac).Nodup)
    (h : RemovesOldest (first :: rest) (killOldestDhcpsPool (first :: rest))) : VictimInReach (first :: rest) := by
  obtain ⟨pre, q, post, rfl, hpre, hpost, hkill⟩ := killOldestDhcpsPool_eq first hr
  obtain ⟨pre', x, post', hs, hl, hmin⟩ := h
  rw [hkill] at hl
  -- so `q` is the lease that the claim's removal takes
  obtain ⟨rfl, rfl, rfl⟩ := eq_of_split hn (show _ = (first :: pre) ++ q :: post from rfl) hs (by
    rw [← hl, List.cons_append, List.map_cons, List.map_cons, List.map_append, List.map_append, lastOffline_mac])
  have hoff : lastOffline post = post := by
    rw [List.cons_append, List.cons.injEq, List.append_cancel_left_eq] at hl
    exact hl.2
  have hqf := hmin first (by simp)
  rcases List.eq_nil_or_concat post with rfl | ⟨post', l, rfl⟩
  · refine ⟨first, rfl, q, ?_, ⟨q, by simp, hqf⟩, .inr fun y hy => hpre y ?_⟩
    · rw [← List.cons_append, Option.mem_def, List.getLast?_concat]
    · rwa [List.tail_cons, List.dropLast_concat] at hy
  · rw [List.concat_eq_append] at hoff ⊢
    refine ⟨first, rfl, l, ?_, ⟨q, by simp, hqf⟩, .inl ?_⟩
    · rw [Option.mem_def, ← List.cons_append, ← List.cons_append, ← List.append_assoc, List.getLast?_concat]
    · rw [lastOffline_append, List.append_cancel_left_eq, List.cons.injEq] at hoff
      rw [← hoff.1]; rfl

theorem exists_cons_of_length {l : List DhcpsPool} (h : maxStationNum.toNat ≤ l.length) :
    ∃ first rest, l = first :: rest ∧ rest ≠ [] := by
  match l with
  | [] => exact absurd h (by decide)
  | [_] => exact absurd h (by rw [List.length_singleton]; decide)
  | first :: second :: rest => exact ⟨first, second :: rest, rfl, List.cons_ne_nil _ _⟩

variable {s : DhcpServer}

theorem evictsOldest_of_evictable (h : Evictable s.plist) : EvictsOldest s.plist s.dhcpsCoarseTmr.plist := by
  have hplist := dhcpsCoarseTmr_plist s
  have hmod := Nat.mod_le (remaining s.plist).length 256
  unfold EvictsOldest
  unfold Evictable at h
  generalize remaining s.plist = r at hplist hmod h ⊢
  by_cases hlt : r.length < maxStationNum.toNat
  · rw [if_pos hlt]
    exact hplist.trans (if_neg (by omega))
  · rw [if_neg hlt]
    obtain ⟨hcount, hvictim⟩ := h.resolve_left hlt
    obtain ⟨first, rest, rfl, hr⟩ := exists_cons_of_length (Nat.le_of_not_lt hlt)
    rw [hplist, if_pos hcount]
    exact removesOldest_of_victim hr hvictim

theorem evictable_of_evictsOldest (hn : ((remaining s.plist).map DhcpsPool.mac).Nodup)
    (h : EvictsOldest s.plist s.dhcpsCoarseTmr.plist) : Evictable s.plist := by
  have hplist := dhcpsCoarseTmr_plist s
  unfold EvictsOldest at h
  unfold Evictable
  generalize remaining s.plist = r at hplist hn h ⊢
  by_cases hlt : r.length < maxStationNum.toNat
  · exact .inl hlt
  · rw [if_neg hlt] at h
    obtain ⟨first, rest, rfl, hr⟩ := exists_cons_of_length (Nat.le_of_not_lt hlt)
    -- a call that removes a lease has counted eight at least
    have hcount : maxStationNum.toNat ≤ (first :: rest).length % 256 := by
      by_contra hc
      rw [if_neg hc] at hplist
      obtain ⟨pre, x, post, hs, hl, -⟩ := h
      rw [hplist, hs] at hl
      have hlen := congrArg List.length hl
      rw [List.length_append, List.length_append, List.length_cons] at hlen
      omega
    rw [hplist, if_pos hcount] at h
    exact .inr ⟨hcount, victim_of_removesOldest hr hn h⟩

/-- Lowering the timers, expiry and eviction, for any list of leases: as they should be where
the oldest lease can be removed; and, clients being distinct, nowhere else. -/
theorem evicts_oldest_iff (s : DhcpServer) :
    (Evictable s.plist → EvictsOldest s.plist s.dhcpsCoarseTmr.plist) ∧
      (((remaining s.plist).map DhcpsPool.mac).Nodup → EvictsOldest s.plist s.dhcpsCoarseTmr.plist →
        Evictable s.plist) :=
  ⟨evictsOldest_of_evictable, evictable_of_evictsOldest⟩

/-- Dynamic leases with these timers. -/
def someLeases (timers : List Word) : DhcpServer where
  dhcpsLease := ⟨true, 0x0204A8C0, 0x6504A8C0⟩
  plist := (timers.zipIdx).map fun t =>
    ⟨0x0204A8C0 + BitVec.ofNat 32 (t.2 <<< 24), BitVec.ofNat 48 t.2, t.1, .dynamic, .online⟩
  dhcpsLeaseTime := 120
  renew := false

/-- The first of eight leases is the oldest; the second one goes, and the last one is
marked offline. -/
theorem first_not_evicted : ¬ EvictsOldest (someLeases [2, 5, 6, 7, 8, 9, 10, 11]).plist
    (someLeases [2, 5, 6, 7, 8, 9, 10, 11]).dhcpsCoarseTmr.plist :=
  fun h => absurd (evictable_of_evictsOldest (by decide) h) (by decide)

/-- The last of eight leases is the oldest. -/
theorem last_evicted : EvictsOldest (someLeases [11, 10, 9, 8, 7, 6, 5, 2]).plist
    (someLeases [11, 10, 9, 8, 7, 6, 5, 2]).dhcpsCoarseTmr.plist :=
  (evicts_oldest_iff (someLeases [11, 10, 9, 8, 7, 6, 5, 2])).1 (by decide)

end DhcpServer

end Nonos
