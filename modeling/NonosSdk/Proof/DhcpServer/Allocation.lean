import NonosSdk.Framework.Runs
import NonosSdk.Proof.DhcpServer.Search

/-!
# Granting any address

A client that asks for no address in particular gets the one found by the search,
and nobody asks again whether it is free. The search relies on the leases before it
being `addr 0, addr 1, …`; a lease that a client has chosen outside the pool may
stand between these in the list and end it early. So the address is right exactly
if every lease outside the pool has a free address of the pool before it or just
after it, or else lies above the pool with nothing to grant (`Searchable`,
`searchable_iff`). In a run, all addresses leased are distinct and all addresses
chosen by the server are in the pool exactly if every request finds the list
`Searchable` (`distinct_iff_searchable`).
-/

namespace Nonos

/-- In the pool, by the order of the words and by that of the addresses. -/
def DhcpsLease.InPool (d : DhcpsLease) (ip : Word) : Prop :=
  d.startIp ≤ ip ∧ ip ≤ d.endIp ∧ htonl d.startIp ≤ htonl ip ∧ htonl ip ≤ htonl d.endIp

instance (d : DhcpsLease) (ip : Word) : Decidable (d.InPool ip) := inferInstanceAs (Decidable (_ ∧ _))

theorem DhcpsLease.IsDefault.inPool {d : DhcpsLease} (h : d.IsDefault) {k : Nat} (hk : k < 100) :
    d.InPool (d.addr k) := by
  have ho := h.le
  have hk' := DhcpsLease.toNat_addr (d := d) (k := k) (by omega)
  have hend := DhcpsLease.toNat_addr (d := d) (k := 99) (by omega)
  have hhost := DhcpsLease.toNat_htonl_addr (d := d) (k := k) (by omega)
  have hhost' := DhcpsLease.toNat_htonl_addr (d := d) (k := 99) (by omega)
  refine ⟨?_, ?_, ?_, ?_⟩
  · rw [BitVec.le_def]
    omega
  · rw [h.endIp, BitVec.le_def]
    omega
  · rw [BitVec.le_def, hhost]
    omega
  · rw [h.endIp, BitVec.le_def, hhost, hhost']
    omega

namespace DhcpServer

variable {s : DhcpServer} {bssid : BitVec 48} {pre post : List DhcpsPool}

/-- The list begins with the addresses from `start_ip` up to the last octet 255, and the one
after that is not 0.0.0.0. -/
def Wraps (s : DhcpServer) : Prop :=
  (List.range (256 - s.dhcpsLease.octet)).map s.dhcpsLease.addr <+: s.plist.map DhcpsPool.ip ∧
    s.dhcpsLease.addr (256 - s.dhcpsLease.octet) ≠ 0

/-- Each lease outside the pool has an address of the pool before it, or first after it, that is not
leased to another client; or it lies above the pool, the client has no lease, and the addresses do
not wrap. -/
def Searchable (s : DhcpServer) (bssid : BitVec 48) : Prop :=
  ∀ x ∈ s.plist, (∀ k < 100, x.ip ≠ s.dhcpsLease.addr k) →
    (∃ k < 100, s.Free bssid (s.dhcpsLease.addr k) ∧ ∀ i < k, s.dhcpsLease.addr i < x.ip) ∨
      s.dhcpsLease.endIp < x.ip ∧ (∀ p ∈ s.plist, p.mac ≠ bssid) ∧ ¬ s.Wraps

namespace Passes

/-- The leases passed are those for the first addresses. -/
theorem mem_pre_iff (h : s.Passes bssid pre post) {ip : Word} :
    ip ∈ pre.map DhcpsPool.ip ↔ ∃ k < pre.length, s.dhcpsLease.addr k = ip := by
  rw [h.ips, List.mem_map]
  simp only [List.mem_range]

theorem not_free (h : s.Passes bssid pre post) {k : Nat} (hk : k < pre.length) :
    ¬ s.Free bssid (s.dhcpsLease.addr k) := by
  obtain ⟨x, hx, he⟩ := List.mem_map.mp (h.mem_pre_iff.mpr ⟨k, hk, rfl⟩)
  exact fun hfree => h.macs x hx (hfree x (h.plist ▸ List.mem_append_left _ hx) he)

/-- They are before all others. -/
theorem lt_post (h : s.Passes bssid pre post) (hu : Unique s.plist) {k : Nat} (hk : k < pre.length)
    {x : DhcpsPool} (hx : x ∈ post) : s.dhcpsLease.addr k < x.ip := by
  have hi := hu.ips
  rw [h.plist, List.map_append, List.pairwise_append] at hi
  exact hi.2.2 _ (h.mem_pre_iff.mpr ⟨k, hk, rfl⟩) _ (List.mem_map_of_mem hx)

/-- They end where the last octet does. -/
theorem length_le (h : s.Passes bssid pre post) (hu : Unique s.plist) (hd : s.dhcpsLease.IsDefault) :
    pre.length ≤ 256 - s.dhcpsLease.octet := by
  have hle := hd.le
  have hover := hd.overflow_lt (k := 256 - s.dhcpsLease.octet) (by omega)
  by_contra hlt
  have hi := hu.ips
  rw [h.plist, List.map_append, h.ips, List.pairwise_append, List.pairwise_map, List.pairwise_iff_getElem] at hi
  have h0 := hi.1 0 (256 - s.dhcpsLease.octet) (by simp; omega) (by simp; omega) (by omega)
  rw [List.getElem_range, List.getElem_range, DhcpsLease.addr_zero] at h0
  bv_omega

/-- A lease after them is outside the pool if it is above all of it, or below the next address. -/
theorem outside_of_lt (h : s.Passes bssid pre post) (hu : Unique s.plist) (hd : s.dhcpsLease.IsDefault)
    {x : DhcpsPool} (hx : x ∈ post) (hlt : pre.length < 100 → x.ip < s.dhcpsLease.addr pre.length) :
    ∀ k < 100, x.ip ≠ s.dhcpsLease.addr k := by
  have hle := hd.le
  intro k hk he
  rcases Nat.lt_or_ge k pre.length with hkj | hkj
  · have hafter := h.lt_post hu hkj hx
    rw [he] at hafter
    exact BitVec.lt_irrefl _ hafter
  · have hx' := hlt (by omega)
    rw [he, BitVec.lt_def, DhcpsLease.toNat_addr (by omega), DhcpsLease.toNat_addr (by omega)] at hx'
    omega

/-- A lease outside the pool is after them, or above the pool. -/
theorem mem_post (h : s.Passes bssid pre post) (hj : pre.length ≤ 100) {x : DhcpsPool} (hx : x ∈ s.plist)
    (hout : ∀ k < 100, x.ip ≠ s.dhcpsLease.addr k) : x ∈ post := by
  rw [h.plist] at hx
  rcases List.mem_append.mp hx with hx | hx
  · obtain ⟨k, hk, he⟩ := h.mem_pre_iff.mp (List.mem_map_of_mem hx)
    exact absurd he.symm (hout k (by omega))
  · exact hx

/-- The last address of the pool. -/
theorem toNat_endIp (hd : s.dhcpsLease.IsDefault) :
    s.dhcpsLease.endIp.toNat = s.dhcpsLease.startIp.toNat + 99 * 2 ^ 24 := by
  have hle := hd.le
  rw [hd.endIp, DhcpsLease.toNat_addr (by omega)]

/-- The address found is above the pool if no address of it is left, unless the last octet
overflows. -/
theorem endIp_lt_addr (hd : s.dhcpsLease.IsDefault) {j : Nat} (hj : 100 ≤ j)
    (ho : s.dhcpsLease.octet + j ≤ 255) :
    s.dhcpsLease.endIp < s.dhcpsLease.addr j := by
  rw [BitVec.lt_def, toNat_endIp hd, DhcpsLease.toNat_addr ho]
  omega

/-- The client's own lease is not passed. -/
theorem mem_post_of_mac (h : s.Passes bssid pre post) {x : DhcpsPool} (hx : x ∈ s.plist)
    (hmac : x.mac = bssid) : x ∈ post := by
  rw [h.plist] at hx
  exact (List.mem_append.mp hx).resolve_left fun hpre => h.macs x hpre hmac

/-- The list begins with all addresses exactly if the search passes them all. -/
theorem begins_iff (h : s.Passes bssid pre post) (hu : Unique s.plist) (hd : s.dhcpsLease.IsDefault)
    (hno : ∀ p ∈ s.plist, p.mac ≠ bssid) :
    (List.range (256 - s.dhcpsLease.octet)).map s.dhcpsLease.addr <+: s.plist.map DhcpsPool.ip ↔
      pre.length = 256 - s.dhcpsLease.octet := by
  have hle := h.length_le hu hd
  constructor
  · intro hpre
    by_contra hne
    -- the lease where the search stops is for the next address
    have hget := hpre.getElem (i := pre.length) (by simp; omega)
    simp only [List.getElem_map, List.getElem_range] at hget
    have hlt : pre.length < s.plist.length := by
      have := hpre.length_le
      simp only [List.length_map, List.length_range] at this
      omega
    cases post with
    | nil =>
      have hlen := congrArg List.length h.plist
      rw [List.append_nil] at hlen
      omega
    | cons p post =>
      have hp : s.plist[pre.length] = p := by simp [h.plist]
      rw [hp] at hget
      rcases h.stops p rfl with hmac | hip
      · exact hno p (by rw [h.plist]; simp) hmac
      · exact hip hget.symm
  · intro hj
    rw [h.plist, List.map_append, h.ips, hj]
    exact List.prefix_append _ _

/-- No lease is below the pool if the search passes the first address. -/
theorem startIp_le (h : s.Passes bssid pre post) (hu : Unique s.plist) (hd : s.dhcpsLease.IsDefault)
    (hj : 0 < pre.length) {x : DhcpsPool} (hx : x ∈ s.plist) : s.dhcpsLease.startIp.toNat ≤ x.ip.toNat := by
  have hle := h.length_le hu hd
  rw [h.plist] at hx
  rcases List.mem_append.mp hx with hx | hx
  · obtain ⟨k, hk, he⟩ := h.mem_pre_iff.mp (List.mem_map_of_mem hx)
    rw [← he, DhcpsLease.toNat_addr (by omega)]
    omega
  · have hlt := h.lt_post hu hj hx
    rw [DhcpsLease.addr_zero, BitVec.lt_def] at hlt
    omega

/-- An address of the pool has been found. -/
theorem free_of_searchable (h : s.Passes bssid pre post) (hu : Unique s.plist) (hd : s.dhcpsLease.IsDefault)
    (hs : s.Searchable bssid) (hj : pre.length < 100) : s.Free bssid (s.dhcpsLease.addr pre.length) := by
  have hle := hd.le
  have hend := toNat_endIp hd
  have hc := DhcpsLease.toNat_addr (d := s.dhcpsLease) (k := pre.length) (by omega)
  intro q hq he
  by_contra hmac
  -- another lease of this address comes after the one at which the search has stopped
  have hqpost : q ∈ post := by
    rw [h.plist] at hq
    rcases List.mem_append.mp hq with hq | hq
    · obtain ⟨i, hi, hip⟩ := h.mem_pre_iff.mp (List.mem_map_of_mem hq)
      have hlt := DhcpsLease.addr_lt_addr hi (d := s.dhcpsLease) (by omega)
      rw [hip, he] at hlt
      exact absurd hlt (BitVec.lt_irrefl _)
    · exact hq
  cases post with
  | nil => cases hqpost
  | cons p post =>
    have hqrest : q ∈ post := by
      rcases List.mem_cons.mp hqpost with rfl | hq'
      · exact absurd (h.stops q rfl) (not_or.mpr ⟨hmac, not_not.mpr he⟩)
      · exact hq'
    have hi := hu.ips
    rw [h.plist, List.map_append, List.pairwise_append, List.map_cons, List.pairwise_cons] at hi
    have hlt : p.ip < s.dhcpsLease.addr pre.length := he ▸ hi.2.1.1 q.ip (List.mem_map_of_mem hqrest)
    have hout := h.outside_of_lt hu hd (x := p) (by simp) fun _ => hlt
    rw [BitVec.lt_def] at hlt
    rcases hs p (by rw [h.plist]; simp) hout with ⟨k, -, hfree, hbefore⟩ | ⟨habove, -⟩
    · rcases Nat.lt_trichotomy k pre.length with hk | rfl | hk
      · exact h.not_free hk hfree
      · exact hmac (hfree q hq he)
      · have := hbefore pre.length hk
        rw [BitVec.lt_def] at this
        omega
    · rw [BitVec.lt_def] at habove
      omega

/-- None is left for the client. -/
theorem refused_of_searchable (h : s.Passes bssid pre post) (hu : Unique s.plist) (hd : s.dhcpsLease.IsDefault)
    (hs : s.Searchable bssid) (hj : 100 ≤ pre.length) :
    (∀ p ∈ s.plist, p.mac ≠ bssid) ∧
      (s.dhcpsLease.endIp < s.dhcpsLease.addr pre.length ∨ s.dhcpsLease.addr pre.length = 0) := by
  have hle := hd.le
  have hno : ∀ p ∈ s.plist, p.mac ≠ bssid := by
    intro p hp hmac
    have hout := h.outside_of_lt hu hd (h.mem_post_of_mac hp hmac) fun hlt => absurd hlt (by omega)
    rcases hs p hp hout with ⟨k, hk, hfree, -⟩ | ⟨-, hno, -⟩
    · exact h.not_free (by omega) hfree
    · exact hno p hp hmac
  refine ⟨hno, ?_⟩
  rcases Nat.lt_or_ge (s.dhcpsLease.octet + pre.length) 256 with ho | ho
  · exact .inl (endIp_lt_addr hd hj (by omega))
  · have hlen := h.length_le hu hd
    obtain ⟨x, hx, hip⟩ := List.mem_map.mp (h.mem_pre_iff.mpr ⟨100, by omega, rfl⟩)
    have hout : ∀ k < 100, x.ip ≠ s.dhcpsLease.addr k := by
      intro k hk he
      have hlt := DhcpsLease.addr_lt_addr hk (d := s.dhcpsLease) hle
      rw [← hip, he] at hlt
      exact BitVec.lt_irrefl _ hlt
    rcases hs x (by rw [h.plist]; exact List.mem_append_left _ hx) hout with ⟨k, hk, hfree, -⟩ | ⟨-, -, hwraps⟩
    · exact absurd hfree (h.not_free (by omega))
    · right
      by_contra hne
      have hall : pre.length = 256 - s.dhcpsLease.octet := by omega
      exact hwraps ⟨(h.begins_iff hu hd hno).mpr hall, hall ▸ hne⟩

/-- With all addresses of the pool leased to others, only 0.0.0.0 does no harm. -/
theorem wrapped (h : s.Passes bssid pre post) (hu : Unique s.plist) (hd : s.dhcpsLease.IsDefault)
    (hj : 100 ≤ pre.length)
    (hpool : s.dhcpsLease.addr pre.length ≠ 0 → s.dhcpsLease.InPool (s.dhcpsLease.addr pre.length)) :
    pre.length = 256 - s.dhcpsLease.octet ∧ s.dhcpsLease.addr pre.length = 0 := by
  have hle := hd.le
  have hlen := h.length_le hu hd
  have hzero : s.dhcpsLease.addr pre.length = 0 := by
    by_contra hne
    obtain ⟨hlow, hhigh, -⟩ := hpool hne
    rcases Nat.lt_or_ge (s.dhcpsLease.octet + pre.length) 256 with ho | ho
    · exact BitVec.not_lt.mpr hhigh (endIp_lt_addr hd hj (by omega))
    · exact BitVec.not_lt.mpr hlow (hd.overflow_lt (by omega))
  refine ⟨?_, hzero⟩
  by_contra hne
  have hc := DhcpsLease.toNat_addr (d := s.dhcpsLease) (k := pre.length) (by omega)
  rw [hzero] at hc
  change 0 = _ at hc
  omega

/-- If every address of the pool is passed, a lease outside the pool is above it. -/
theorem endIp_lt_of_outside (h : s.Passes bssid pre post) (hu : Unique s.plist) (hd : s.dhcpsLease.IsDefault)
    (hj : 100 ≤ pre.length) {x : DhcpsPool} (hx : x ∈ s.plist) (hout : ∀ k < 100, x.ip ≠ s.dhcpsLease.addr k) :
    s.dhcpsLease.endIp < x.ip := by
  have hlen := h.length_le hu hd
  rw [h.plist] at hx
  rcases List.mem_append.mp hx with hx | hx
  · obtain ⟨k, hk, hip⟩ := h.mem_pre_iff.mp (List.mem_map_of_mem hx)
    have hk' : 100 ≤ k := by
      by_contra hlt
      exact hout k (by omega) hip.symm
    rw [← hip]
    exact endIp_lt_addr hd hk' (by omega)
  · rw [hd.endIp]
    exact h.lt_post hu (by omega) hx

/-- If the search has passed 255.255.255.255, the client has no lease: there is no place for it. -/
theorem mac_ne_of_addr_zero (h : s.Passes bssid pre post) (hu : Unique s.plist) (hj : 100 ≤ pre.length)
    (hzero : s.dhcpsLease.addr pre.length = 0) : ∀ p ∈ s.plist, p.mac ≠ bssid := by
  intro p hp hmac
  have hlast := h.lt_post hu (k := pre.length - 1) (by omega) (h.mem_post_of_mac hp hmac)
  have hmax : s.dhcpsLease.addr (pre.length - 1) = 0xFFFFFFFF := by
    by_contra hne
    have hsucc := DhcpsLease.addr_succ_ne_zero hne
    rw [Nat.sub_add_cancel (by omega)] at hsucc
    exact hsucc hzero
  rw [hmax] at hlast
  bv_omega

theorem searchable_of_found (h : s.Passes bssid pre post) (hu : Unique s.plist) (hd : s.dhcpsLease.IsDefault)
    (hs : (∀ p ∈ s.plist, p.mac ≠ bssid) ∧ s.dhcpsLease.endIp < s.dhcpsLease.addr pre.length ∨
      s.Free bssid (s.dhcpsLease.addr pre.length) ∧
        (s.dhcpsLease.addr pre.length ≠ 0 → s.dhcpsLease.InPool (s.dhcpsLease.addr pre.length))) :
    s.Searchable bssid := by
  have hle := hd.le
  have hlen := h.length_le hu hd
  have hend := toNat_endIp hd
  intro x hx hout
  rcases Nat.lt_or_ge pre.length 100 with hj | hj
  · have hc := DhcpsLease.toNat_addr (d := s.dhcpsLease) (k := pre.length) (by omega)
    rcases hs with ⟨-, habove⟩ | ⟨hfree, -⟩
    · rw [BitVec.lt_def] at habove
      omega
    · exact .inl ⟨pre.length, hj, hfree, fun i hi => h.lt_post hu hi (h.mem_post (by omega) hx hout)⟩
  · -- every address of the pool is leased to another client
    refine .inr ⟨h.endIp_lt_of_outside hu hd hj hx hout, ?_⟩
    rcases hs with ⟨hno, hc⟩ | ⟨-, hpool⟩
    · refine ⟨hno, fun hw => ?_⟩
      have hall := (h.begins_iff hu hd hno).mp hw.1
      have hlow := hd.overflow_lt (k := pre.length) (by omega)
      rw [BitVec.lt_def] at hc hlow
      omega
    · obtain ⟨hall, hzero⟩ := h.wrapped hu hd hj hpool
      exact ⟨h.mac_ne_of_addr_zero hu hj hzero, fun hw => hw.2 (hall ▸ hzero)⟩

/-- What the search finds is right exactly if the list is `Searchable`. -/
theorem searchable_iff (h : s.Passes bssid pre post) (hu : Unique s.plist) (hd : s.dhcpsLease.IsDefault) :
    s.Searchable bssid ↔
      (∀ p ∈ s.plist, p.mac ≠ bssid) ∧ s.dhcpsLease.endIp < s.dhcpsLease.addr pre.length ∨
        s.Free bssid (s.dhcpsLease.addr pre.length) ∧
          (s.dhcpsLease.addr pre.length ≠ 0 → s.dhcpsLease.InPool (s.dhcpsLease.addr pre.length)) := by
  have hle := hd.le
  have hpos := hd.pos
  have hstart := DhcpsLease.octet_le_startIp (d := s.dhcpsLease)
  refine ⟨fun hs => ?_, h.searchable_of_found hu hd⟩
  rcases Nat.lt_or_ge pre.length 100 with hj | hj
  · exact .inr ⟨h.free_of_searchable hu hd hs hj, fun _ => hd.inPool hj⟩
  · obtain ⟨hno, habove | hzero⟩ := h.refused_of_searchable hu hd hs hj
    · exact .inl ⟨hno, habove⟩
    · refine .inr ⟨fun x hx he => ?_, fun hne => absurd hzero hne⟩
      have hx' := h.startIp_le hu hd (by omega) hx
      rw [he, hzero] at hx'
      change _ ≤ 0 at hx'
      omega

end Passes

end DhcpServer

/-- A call into the server. -/
inductive DhcpsCall where
  | clientUpdate (bssid : BitVec 48) (ip : Option Word)
  | clientLeave (bssid : BitVec 48) (ip : Word) (force : Bool)
  | coarseTmr

namespace DhcpServer

/-- The default pool for the soft-AP address `ip`, and no leases. The old `start_ip` and `end_ip` are
not used. -/
def start (startIp endIp ip leaseTime : Word) : DhcpServer where
  dhcpsLease := wifiSoftapInitDhcpsLease ⟨false, startIp, endIp⟩ ip
  plist := []
  dhcpsLeaseTime := leaseTime
  renew := false

def step (s : DhcpServer) : DhcpsCall → DhcpServer
  | .clientUpdate bssid ip => (s.wifiSoftapDhcpsClientUpdate bssid ip).2
  | .clientLeave bssid ip force => s.wifiSoftapDhcpsClientLeave bssid ip force
  | .coarseTmr => s.dhcpsCoarseTmr

/-- The address returned to a client that has asked for none is in the pool, if there is one. -/
def ReturnsPooled (s : DhcpServer) : DhcpsCall → Prop
  | .clientUpdate bssid ip => ip.getD 0 = 0 → (s.wifiSoftapDhcpsClientUpdate bssid ip).1 ≠ 0 →
      s.dhcpsLease.InPool (s.wifiSoftapDhcpsClientUpdate bssid ip).1
  | _ => True

instance (s : DhcpServer) : (e : DhcpsCall) → Decidable (s.ReturnsPooled e)
  | .clientUpdate _ _ => inferInstanceAs (Decidable (_ → _ → _))
  | .clientLeave _ _ _ => isTrue trivial
  | .coarseTmr => isTrue trivial

/-- No address is leased twice, and none from outside the pool by the server's choice. -/
def Distinct (s : DhcpServer) (e : DhcpsCall) : Prop := Unique (s.step e).plist ∧ s.ReturnsPooled e

instance (s : DhcpServer) (e : DhcpsCall) : Decidable (s.Distinct e) := inferInstanceAs (Decidable (_ ∧ _))

/-- A client that asks for no address finds the list `Searchable`. -/
def Asks (s : DhcpServer) : DhcpsCall → Prop
  | .clientUpdate bssid ip => ip.getD 0 = 0 → s.Searchable bssid
  | _ => True

variable {s : DhcpServer} {bssid : BitVec 48}

theorem clientUpdate_lease (s : DhcpServer) (bssid : BitVec 48) (ip : Option Word) :
    (s.clientUpdate bssid ip).2.dhcpsLease = s.dhcpsLease := by
  unfold clientUpdate
  generalize (if ip.isSome then DhcpsType.static else .dynamic) = type
  dsimp only
  split
  · rfl
  · split
    · split
      · split <;> rfl
      · rfl
    · rfl
    · split <;> rfl
    · split <;> rfl

/-- The pool stays as it is. -/
theorem step_lease (s : DhcpServer) (e : DhcpsCall) : (s.step e).dhcpsLease = s.dhcpsLease := by
  cases e with
  | clientUpdate bssid ip =>
    show (s.wifiSoftapDhcpsClientUpdate bssid ip).2.dhcpsLease = _
    unfold wifiSoftapDhcpsClientUpdate
    split
    · exact clientUpdate_lease s bssid none
    · split
      · rfl
      · split <;> exact clientUpdate_lease s bssid _
  | clientLeave => rfl
  | coarseTmr => rfl

/-- A request for any address. -/
theorem clientUpdate_none_iff (h : Unique s.plist) (hd : s.dhcpsLease.IsDefault) (bssid : BitVec 48) :
    Unique (s.clientUpdate bssid none).2.plist ∧
      ((s.clientUpdate bssid none).1 ≠ 0 → s.dhcpsLease.InPool (s.clientUpdate bssid none).1) ↔
    s.Searchable bssid := by
  obtain ⟨pre, post, hpass, ⟨hno, hend, hret, hlist⟩ | ⟨hgrant, hret, hunique⟩⟩ := clientUpdate_none h bssid
  · rw [hpass.searchable_iff h hd, hret, hlist]
    exact ⟨fun _ => .inl ⟨hno, hend⟩, fun _ => ⟨h, fun hne => absurd rfl hne⟩⟩
  · rw [hpass.searchable_iff h hd, hret, hunique]
    exact ⟨fun hok => .inr hok, fun hok => hok.resolve_left hgrant⟩

/-- The same for 0.0.0.0. -/
theorem distinct_any_iff (h : Unique s.plist) (hd : s.dhcpsLease.IsDefault) {ip : Option Word}
    (hip : ip.getD 0 = 0) (bssid : BitVec 48) : s.Distinct (.clientUpdate bssid ip) ↔ s.Searchable bssid := by
  have hsame : s.wifiSoftapDhcpsClientUpdate bssid ip = s.clientUpdate bssid none := by
    cases ip with
    | none => rfl
    | some ip =>
      obtain rfl : ip = 0 := hip
      rfl
  rw [← clientUpdate_none_iff h hd bssid, Distinct, ReturnsPooled, step, hsame]
  exact and_congr_right' ⟨fun hp => hp hip, fun hp _ => hp⟩

theorem distinct_iff_asks (h : Unique s.plist) (hd : s.dhcpsLease.IsDefault) (e : DhcpsCall) :
    s.Distinct e ↔ s.Asks e := by
  cases e with
  | clientUpdate bssid ip =>
    by_cases hip : ip.getD 0 = 0
    · exact (distinct_any_iff h hd hip bssid).trans ⟨fun hs _ => hs, fun hs => hs hip⟩
    · -- the client has chosen the address
      refine iff_of_true ⟨?_, fun h0 => absurd h0 hip⟩ fun h0 => absurd h0 hip
      show Unique (s.wifiSoftapDhcpsClientUpdate bssid ip).2.plist
      cases ip with
      | none => exact absurd rfl hip
      | some ip =>
        rw [wifiSoftapDhcpsClientUpdate]
        split
        · exact h
        · rw [if_neg (show ip ≠ 0 from hip)]
          exact clientUpdate_some h ip
  | clientLeave bssid ip force =>
    exact iff_of_true ⟨wifiSoftapDhcpsClientLeave_unique h ip force, trivial⟩ trivial
  | coarseTmr => exact iff_of_true ⟨dhcpsCoarseTmr_unique h, trivial⟩ trivial

/-- In a run from an empty list, every call leaves distinct leases and returns an address of the pool,
exactly if every client that asks for no address finds the list `Searchable`. -/
theorem distinct_iff_searchable (startIp endIp ip leaseTime : Word) (es : List DhcpsCall) :
    Along step Distinct (start startIp endIp ip leaseTime) es ↔
      Along step Asks (start startIp endIp ip leaseTime) es :=
  Along.congr_of_keeps (I := fun s => Unique s.plist ∧ s.dhcpsLease.IsDefault)
    (fun s e h ha => ⟨((distinct_iff_asks h.1 h.2 e).mpr ha).1, (step_lease s e).symm ▸ h.2⟩)
    (fun _ e h => distinct_iff_asks h.1 h.2 e)
    ⟨(⟨List.Pairwise.nil, List.nodup_nil⟩ : Unique []), @init_isDefault ⟨false, startIp, endIp⟩ rfl ip⟩ es

/-- On 192.168.4.1, a client keeps its old address 10.0.0.1; the next two both get 192.168.4.2. -/
theorem two_clients_one_address : ¬ Along step Distinct (start 0 0 0x0104A8C0 120)
    [.clientUpdate 0xA (some 0x0100000A), .clientUpdate 0xB none, .clientUpdate 0xC none] := by
  decide

end DhcpServer

end Nonos
