import Mathlib.Data.List.Sort
import NonosSdk.Impl.DhcpServer

/-!
# The lease list

The list is `Unique` if its addresses ascend strictly, so that no address is in it
twice, and no client is. Releasing leases and letting them expire keep it so,
because the addresses and clients of the leases that stay are unchanged
(`Unique.of_key`). So do the changes that a request makes: another client for an
address (`Unique.replace`), and a lease for an address that nobody has
(`Unique.insert`).
-/

namespace Nonos

/-- No address and no client twice; the addresses ascend. -/
structure Unique (plist : List DhcpsPool) : Prop where
  ips : (plist.map DhcpsPool.ip).Pairwise (· < ·)
  macs : (plist.map DhcpsPool.mac).Nodup

instance (plist : List DhcpsPool) : Decidable (Unique plist) :=
  decidable_of_iff ((plist.map DhcpsPool.ip).Pairwise (· < ·) ∧ (plist.map DhcpsPool.mac).Nodup)
    ⟨fun h => ⟨h.1, h.2⟩, fun h => ⟨h.ips, h.macs⟩⟩

/-- The address and the client of a lease. -/
def DhcpsPool.key (p : DhcpsPool) : Word × BitVec 48 := (p.ip, p.mac)

theorem eraseIdx_middle (pre post : List DhcpsPool) (p : DhcpsPool) :
    (pre ++ p :: post).eraseIdx pre.length = pre ++ post := by
  rw [List.eraseIdx_append_of_length_le (Nat.le_refl _), Nat.sub_self, List.eraseIdx_cons_zero]

namespace Unique

variable {l l' pre post : List DhcpsPool} {p q : DhcpsPool}

theorem of_key (h : Unique l) (hk : (l'.map DhcpsPool.key).Sublist (l.map DhcpsPool.key)) : Unique l' := by
  have hi := hk.map Prod.fst
  have hm := hk.map Prod.snd
  rw [List.map_map, List.map_map] at hi hm
  exact ⟨h.ips.sublist hi, h.macs.sublist hm⟩

theorem ips_nodup (h : Unique l) : (l.map DhcpsPool.ip).Nodup := by
  refine List.Pairwise.imp (fun {a b} hlt (he : a = b) => ?_) h.ips
  rw [he] at hlt
  exact BitVec.lt_irrefl _ hlt

/-- The other leases, without this one. -/
theorem erase (h : Unique (pre ++ p :: post)) :
    Unique (pre ++ post) ∧ (∀ x ∈ pre ++ post, x.ip ≠ p.ip) ∧ ∀ x ∈ pre ++ post, x.mac ≠ p.mac := by
  have hperm : (pre ++ p :: post).Perm (p :: (pre ++ post)) := List.perm_middle
  have hi := (hperm.map DhcpsPool.ip).nodup_iff.mp h.ips_nodup
  have hm := (hperm.map DhcpsPool.mac).nodup_iff.mp h.macs
  rw [List.map_cons, List.nodup_cons] at hi hm
  refine ⟨h.of_key ?_, fun x hx he => hi.1 (he ▸ List.mem_map_of_mem hx),
    fun x hx he => hm.1 (he ▸ List.mem_map_of_mem hx)⟩
  exact (List.Sublist.append_left (List.sublist_cons_self p post) pre).map DhcpsPool.key

/-- Another client for one of the addresses. -/
theorem replace (h : Unique (pre ++ p :: post)) (hip : q.ip = p.ip)
    (hmac : ∀ x ∈ pre ++ post, x.mac ≠ q.mac) : Unique (pre ++ q :: post) := by
  have hperm : (pre ++ q :: post).Perm (q :: (pre ++ post)) := List.perm_middle
  refine ⟨?_, (hperm.map DhcpsPool.mac).nodup_iff.mpr ?_⟩
  · have hi := h.ips
    rw [List.map_append, List.map_cons] at hi ⊢
    rwa [hip]
  · rw [List.map_cons, List.nodup_cons]
    refine ⟨fun hq => ?_, h.erase.1.macs⟩
    obtain ⟨x, hx, he⟩ := List.mem_map.mp hq
    exact hmac x hx he

end Unique

/-- `node_insert_to_list` is insertion by address. -/
theorem nodeInsertToList_perm (l : List DhcpsPool) (q : DhcpsPool) : (nodeInsertToList l q).Perm (q :: l) := by
  induction l with
  | nil => exact .refl _
  | cons p l ih =>
    rw [nodeInsertToList]
    split
    · exact .refl _
    · exact (ih.cons p).trans (.swap q p l)

theorem nodeInsertToList_ips {l : List DhcpsPool} {q : DhcpsPool} (h : (l.map DhcpsPool.ip).Pairwise (· < ·))
    (hq : ∀ x ∈ l, x.ip ≠ q.ip) : ((nodeInsertToList l q).map DhcpsPool.ip).Pairwise (· < ·) := by
  induction l with
  | nil => exact List.pairwise_singleton _ _
  | cons p l ih =>
    rw [List.map_cons, List.pairwise_cons] at h
    rw [nodeInsertToList]
    split
    · rename_i hlt
      rw [List.map_cons, List.map_cons, List.pairwise_cons, List.pairwise_cons]
      refine ⟨fun a ha => ?_, h⟩
      rcases List.mem_cons.mp ha with rfl | ha
      · exact hlt
      · exact BitVec.lt_trans hlt (h.1 a ha)
    · rename_i hge
      have hlt : p.ip < q.ip := by
        have := hq p (by simp)
        bv_omega
      rw [List.map_cons, List.pairwise_cons]
      refine ⟨fun a ha => ?_, ih h.2 fun x hx => hq x (List.mem_cons_of_mem _ hx)⟩
      have ha' := ((nodeInsertToList_perm l q).map DhcpsPool.ip).mem_iff.mp ha
      rcases List.mem_cons.mp ha' with rfl | ha'
      · exact hlt
      · exact h.1 a ha'

/-- A lease for a new address and a new client. -/
theorem Unique.insert {l : List DhcpsPool} {q : DhcpsPool} (h : Unique l) (hip : ∀ x ∈ l, x.ip ≠ q.ip)
    (hmac : ∀ x ∈ l, x.mac ≠ q.mac) : Unique (nodeInsertToList l q) := by
  refine ⟨nodeInsertToList_ips h.ips hip, ((nodeInsertToList_perm l q).map DhcpsPool.mac).nodup_iff.mpr ?_⟩
  rw [List.map_cons, List.nodup_cons]
  refine ⟨fun hq => ?_, h.macs⟩
  obtain ⟨x, hx, he⟩ := List.mem_map.mp hq
  exact hmac x hx he

/-- An address that is leased already. -/
theorem not_unique_insert {l : List DhcpsPool} {x q : DhcpsPool} (hx : x ∈ l) (he : x.ip = q.ip) :
    ¬ Unique (nodeInsertToList l q) := by
  intro h
  have hn := ((nodeInsertToList_perm l q).map DhcpsPool.ip).nodup_iff.mp h.ips_nodup
  rw [List.map_cons, List.nodup_cons] at hn
  exact hn.1 (he ▸ List.mem_map_of_mem hx)

namespace DhcpServer

variable {s : DhcpServer} {bssid : BitVec 48}

theorem clientLeave_key (ip : Word) (force : Bool) (l : List DhcpsPool) :
    ((clientLeave bssid ip force l).map DhcpsPool.key).Sublist (l.map DhcpsPool.key) := by
  induction l with
  | nil => exact .refl _
  | cons p l ih =>
    rw [clientLeave]
    split
    · split
      · exact List.sublist_cons_self _ _
      · exact .refl _
    · exact ih.cons_cons _

theorem coarseTmr_key (l : List DhcpsPool) :
    ((coarseTmr l).map DhcpsPool.key).Sublist (l.map DhcpsPool.key) := by
  induction l with
  | nil => exact .refl _
  | cons p l ih =>
    rw [coarseTmr]
    generalize hq : (if p.type = .dynamic then { p with leaseTimer := p.leaseTimer - 1 } else p) = q
    have hk : q.key = p.key := by
      rw [← hq]
      split <;> rfl
    split
    · exact ih.cons _
    · rw [List.map_cons, hk]
      exact ih.cons_cons _

theorem killOldestDhcpsPool_key (l : List DhcpsPool) :
    ((killOldestDhcpsPool l).map DhcpsPool.key).Sublist (l.map DhcpsPool.key) := by
  unfold killOldestDhcpsPool
  split
  · rename_i pre p plist
    apply ((List.eraseIdx_sublist _ _).map _).trans
    have hk : ((p :: plist).modify plist.length fun pool => { pool with state := .offline }).map DhcpsPool.key =
        (p :: plist).map DhcpsPool.key := by
      apply List.ext_getElem?
      intro n
      rw [List.getElem?_map, List.getElem?_map, List.getElem?_modify]
      cases (p :: plist)[n]? with
      | none => rfl
      | some x => by_cases hn : plist.length = n <;> simp [hn, DhcpsPool.key]
    rw [List.map_cons, hk]
    exact .refl _
  · exact .refl _

theorem dhcpsCoarseTmr_unique (h : Unique s.plist) : Unique s.dhcpsCoarseTmr.plist := by
  apply h.of_key
  unfold dhcpsCoarseTmr
  dsimp only
  split
  · exact (killOldestDhcpsPool_key _).trans (coarseTmr_key _)
  · exact coarseTmr_key _

theorem wifiSoftapDhcpsClientLeave_unique (h : Unique s.plist) (ip : Word) (force : Bool) :
    Unique (s.wifiSoftapDhcpsClientLeave bssid ip force).plist :=
  h.of_key (clientLeave_key ip force _)

end DhcpServer

end Nonos
