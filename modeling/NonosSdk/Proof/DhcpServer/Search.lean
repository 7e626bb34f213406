import NonosSdk.Proof.DhcpServer.Leases
import NonosSdk.Proof.DhcpServer.Pool

/-!
# The search of `wifi_softap_dhcps_client_update`

What its loop finds: the client's lease (`clientSearch_pmacNode`), the lease of the
requested address (`clientSearch_pipNode`), and, if no address is requested, the
first of `addr 0, addr 1, …` that does not stand where it should in the list
(`clientSearch_none`). With that, a request for an address keeps the list `Unique`
(`clientUpdate_some`), and one for any address puts the client's lease at the
address found (`clientUpdate_grants`), which is right if nobody else has it
(`clientUpdate_none`).
-/

namespace Nonos

variable {bssid : BitVec 48}

/-- `node` is a lease with `P`; the first place of the list is `i`. -/
def Finds (P : DhcpsPool → Prop) (i : Nat) (l : List DhcpsPool) (node : Option DhcpsNode) : Prop :=
  ∃ pre p post, l = pre ++ p :: post ∧ P p ∧ node = some (i + pre.length, p)

theorem Finds.head {P : DhcpsPool → Prop} {p : DhcpsPool} (hp : P p) (i : Nat) (l : List DhcpsPool) :
    Finds P i (p :: l) (some (i, p)) := ⟨[], p, l, rfl, hp, rfl⟩

theorem Finds.cons {P : DhcpsPool → Prop} {i : Nat} {l : List DhcpsPool} {node : Option DhcpsNode}
    (h : Finds P (i + 1) l node) (p : DhcpsPool) : Finds P i (p :: l) node := by
  obtain ⟨pre, q, post, rfl, hq, rfl⟩ := h
  refine ⟨p :: pre, q, post, rfl, hq, ?_⟩
  rw [List.length_cons, Nat.add_assoc, Nat.add_comm 1]

/-- Past the lease of another client. -/
theorem clientSearch_other {p : DhcpsPool} (hp : p.mac ≠ bssid) (ip : Option Word) (i : Nat)
    (l : List DhcpsPool) (s : ClientSearch) : ∃ s' : ClientSearch, s'.pmacNode = s.pmacNode ∧
      clientSearch bssid ip i (p :: l) s = clientSearch bssid ip (i + 1) l s' := by
  cases ip with
  | none =>
    rw [clientSearch]
    simp only [if_neg hp]
    split
    · exact ⟨s, rfl, rfl⟩
    · split <;> exact ⟨_, by rfl, rfl⟩
  | some addr =>
    rw [clientSearch]
    simp only [if_neg hp]
    split <;> exact ⟨_, by rfl, rfl⟩

/-- The client's lease, if it has one. -/
theorem clientSearch_pmacNode (ip : Option Word) (i : Nat) (l : List DhcpsPool) (s : ClientSearch) :
    ((∀ p ∈ l, p.mac ≠ bssid) ∧ (clientSearch bssid ip i l s).pmacNode = s.pmacNode) ∨
      Finds (·.mac = bssid) i l (clientSearch bssid ip i l s).pmacNode := by
  induction l generalizing i s with
  | nil => exact .inl ⟨by simp, by rw [clientSearch]⟩
  | cons p l ih =>
    by_cases hp : p.mac = bssid
    · right
      cases ip with
      | none =>
        rw [clientSearch, if_pos hp, if_pos hp]
        exact Finds.head hp i l
      | some addr =>
        -- the search goes on, and would find a later one
        obtain ⟨s', hs', he⟩ : ∃ s' : ClientSearch, s'.pmacNode = some (i, p) ∧
            clientSearch bssid (some addr) i (p :: l) s = clientSearch bssid (some addr) (i + 1) l s' := by
          rw [clientSearch]
          simp only [if_pos hp]
          split <;> exact ⟨_, by rfl, rfl⟩
        rw [he]
        obtain ⟨-, hsame⟩ | hfound := ih (i + 1) s'
        · rw [hsame, hs']
          exact Finds.head hp i l
        · exact hfound.cons p
    · obtain ⟨s', hs', he⟩ := clientSearch_other hp ip i l s
      rw [he]
      obtain ⟨hno, hsame⟩ | hfound := ih (i + 1) s'
      · exact .inl ⟨List.forall_mem_cons.mpr ⟨hp, hno⟩, hsame.trans hs'⟩
      · exact .inr (hfound.cons p)

/-- The lease of the requested address, if there is one. -/
theorem clientSearch_pipNode (addr : Word) (i : Nat) (l : List DhcpsPool) (s : ClientSearch) :
    ((∀ p ∈ l, p.ip ≠ addr) ∧ (clientSearch bssid (some addr) i l s).pipNode = s.pipNode) ∨
      Finds (·.ip = addr) i l (clientSearch bssid (some addr) i l s).pipNode := by
  induction l generalizing i s with
  | nil => exact .inl ⟨by simp, by rw [clientSearch]⟩
  | cons p l ih =>
    obtain ⟨s', hs', he⟩ : ∃ s' : ClientSearch, s'.pipNode = (if p.ip = addr then some (i, p) else s.pipNode) ∧
        clientSearch bssid (some addr) i (p :: l) s = clientSearch bssid (some addr) (i + 1) l s' := by
      rw [clientSearch]
      refine ⟨_, ?_, rfl⟩
      split <;> split <;> rfl
    rw [he]
    obtain ⟨hno, hsame⟩ | hfound := ih (i + 1) s'
    · by_cases hp : p.ip = addr
      · right
        rw [hsame, hs', if_pos hp]
        exact Finds.head hp i l
      · exact .inl ⟨List.forall_mem_cons.mpr ⟨hp, hno⟩, by rw [hsame, hs', if_neg hp]⟩
    · exact .inr (hfound.cons p)

/-- Once an address is found, only the client is looked for. -/
theorem clientSearch_flag (i : Nat) (l : List DhcpsPool) {s : ClientSearch} (hs : s.flag = true) :
    (clientSearch bssid none i l s).flag = true ∧ (clientSearch bssid none i l s).startIp = s.startIp ∧
      (clientSearch bssid none i l s).pipNode = s.pipNode := by
  induction l generalizing i s with
  | nil => exact ⟨by rw [clientSearch, hs], by rw [clientSearch], by rw [clientSearch]⟩
  | cons p l ih =>
    rw [clientSearch]
    by_cases hp : p.mac = bssid
    · rw [if_pos hp, if_pos hp]
      exact ⟨rfl, rfl, rfl⟩
    · rw [if_neg hp, if_neg hp, if_pos hs]
      exact ih (i + 1) hs

/-- Without a requested address: the leases of other clients for `addr k, addr (k + 1), …` with
which the list begins are `pre`, and the address found is the next one. -/
theorem clientSearch_none (d : DhcpsLease) (i : Nat) (l : List DhcpsPool) {k : Nat} {s : ClientSearch}
    (hs : s.startIp = d.addr k) (hf : s.flag = false) (hn : s.pipNode = none) :
    ∃ pre post, l = pre ++ post ∧ (∀ p ∈ pre, p.mac ≠ bssid) ∧
      pre.map DhcpsPool.ip = (List.range' k pre.length).map d.addr ∧
      (∀ p ∈ post.head?, p.mac = bssid ∨ p.ip ≠ d.addr (k + pre.length)) ∧
      (clientSearch bssid none i l s).startIp = d.addr (k + pre.length) ∧
      (clientSearch bssid none i l s).flag = !post.isEmpty ∧
      (clientSearch bssid none i l s).pipNode = none := by
  induction l generalizing i k s with
  | nil =>
    exact ⟨[], [], rfl, by simp, rfl, by simp, by rw [clientSearch]; exact hs, by rw [clientSearch]; exact hf,
      by rw [clientSearch]; exact hn⟩
  | cons p l ih =>
    by_cases hp : p.mac = bssid
    · refine ⟨[], p :: l, rfl, by simp, rfl, by simp [hp], ?_⟩
      rw [clientSearch, if_pos hp, if_pos hp]
      exact ⟨hs, rfl, hn⟩
    · by_cases hip : p.ip = s.startIp
      · obtain ⟨pre, post, rfl, hmac, hips, hhead, hstart, hflag, hpip⟩ :=
          ih (i + 1) (k := k + 1) (s := { s with startIp := htonl (htonl s.startIp + 1) })
            (by rw [← d.addr_succ, hs]) hf hn
        refine ⟨p :: pre, post, rfl, List.forall_mem_cons.mpr ⟨hp, hmac⟩, ?_, ?_, ?_⟩
        · rw [List.map_cons, hips, hip, hs, List.length_cons, List.range'_succ, List.map_cons]
        · rw [List.length_cons, Nat.add_comm pre.length, ← Nat.add_assoc]
          exact hhead
        · rw [clientSearch, if_neg hp, if_neg hp, if_neg (by simp [hf]), if_neg (by simpa using hip),
            List.length_cons, Nat.add_comm pre.length, ← Nat.add_assoc]
          exact ⟨hstart, hflag, hpip⟩
      · obtain ⟨hflag, hstart, hpip⟩ := @clientSearch_flag bssid (i + 1) l { s with flag := true } rfl
        refine ⟨[], p :: l, rfl, by simp, rfl, ?_, ?_⟩
        · intro q hq
          obtain rfl : p = q := by simpa using hq
          exact .inr (hs ▸ hip)
        · rw [clientSearch, if_neg hp, if_neg hp, if_neg (by simp [hf]), if_pos hip]
          exact ⟨hstart.trans hs, hflag, hpip.trans hn⟩

/-- Another client for the address at place `k`. -/
theorem Unique.set {l : List DhcpsPool} {k : Nat} {p q : DhcpsPool} (h : Unique l) (hk : l[k]? = some p)
    (hip : q.ip = p.ip) (hmac : ∀ x ∈ l, x ≠ p → x.mac ≠ q.mac) : Unique (l.set k q) := by
  obtain ⟨hlt, rfl⟩ := List.getElem?_eq_some_iff.mp hk
  have hsplit : l = l.take k ++ l[k] :: l.drop (k + 1) := by simp
  rw [List.set_eq_take_append_cons_drop, if_pos hlt]
  rw [hsplit] at h
  refine h.replace hip fun x hx => hmac x ?_ fun he => h.erase.2.1 x hx (by rw [he])
  rcases List.mem_append.mp hx with hx | hx
  · exact List.mem_of_mem_take hx
  · exact List.mem_of_mem_drop hx

/-- The client at place `i` takes over the address at place `k`. -/
theorem Unique.takeOver {l : List DhcpsPool} {i k : Nat} {p p' q : DhcpsPool} (h : Unique l)
    (hi : l[i]? = some p) (hk : l[k]? = some p') (hne : k ≠ i) (hip : q.ip = p'.ip) (hmac : q.mac = p.mac) :
    Unique ((l.set k q).eraseIdx i) := by
  obtain ⟨hlt, rfl⟩ := List.getElem?_eq_some_iff.mp hi
  have hsplit : l = l.take i ++ l[i] :: l.drop (i + 1) := by simp
  have herase : l.eraseIdx i = l.take i ++ l.drop (i + 1) := List.eraseIdx_eq_take_drop_succ _ _
  have h' := h
  rw [hsplit] at h'
  obtain ⟨hrest, -, hothers⟩ := h'.erase
  rw [← herase] at hrest hothers
  rcases Nat.lt_or_gt_of_ne hne with hlt' | hgt
  · rw [List.eraseIdx_set_gt hlt']
    exact hrest.set (by rw [List.getElem?_eraseIdx_of_lt hlt', hk]) hip fun x hx _ => hmac ▸ hothers x hx
  · rw [List.eraseIdx_set_lt hgt]
    refine hrest.set (p := p') ?_ hip fun x hx _ => hmac ▸ hothers x hx
    rw [List.getElem?_eraseIdx_of_ge (by omega), Nat.sub_add_cancel (by omega), hk]

namespace DhcpServer

variable {s : DhcpServer}

/-- A request for an address. -/
theorem clientUpdate_some (h : Unique s.plist) (addr : Word) :
    Unique (s.clientUpdate bssid (some addr)).2.plist := by
  have hmacs := @clientSearch_pmacNode bssid (some addr) 0 s.plist ⟨false, s.dhcpsLease.startIp, none, none⟩
  have hips := @clientSearch_pipNode bssid addr 0 s.plist ⟨false, s.dhcpsLease.startIp, none, none⟩
  unfold clientUpdate
  rw [if_neg (by simp)]
  dsimp only
  obtain ⟨hmac, hm⟩ | ⟨pre, p, post, hl, hp, hm⟩ := hmacs <;>
    obtain ⟨hip, hi⟩ | ⟨pre', p', post', hl', hp', hi⟩ := hips <;> rw [hm, hi] <;> dsimp only
  · split
    · exact h
    · exact h.insert hip hmac
  · split
    · exact h
    · refine h.set (p := p') ?_ rfl fun x hx _ => hmac x hx
      rw [hl']
      simp
  · rw [hl, Nat.zero_add, eraseIdx_middle]
    rw [hl] at h hip
    obtain ⟨hrest, -, hothers⟩ := h.erase
    refine hrest.insert (fun x hx => hip x ?_) hothers
    exact (List.Sublist.append_left (List.sublist_cons_self p post) pre).mem hx
  · split
    · rename_i hne
      split
      · exact h
      · have hi : s.plist[0 + pre.length]? = some p := by rw [hl]; simp
        have hk : s.plist[0 + pre'.length]? = some p' := by rw [hl']; simp
        exact h.takeOver hi hk hne rfl hp.symm
    · rename_i heq
      refine h.set (p := p') (by rw [hl']; simp) rfl ?_
      have hsame : pre'.length = pre.length := by omega
      obtain ⟨rfl, htail⟩ := List.append_inj (hl'.symm.trans hl) hsame
      obtain ⟨rfl, rfl⟩ := List.cons.inj htail
      intro x hx hxp
      rw [hl] at hx h
      apply h.erase.2.2 x
      simp only [List.mem_append, List.mem_cons] at hx ⊢
      tauto

/-- The address is not leased to another client. -/
def Free (s : DhcpServer) (bssid : BitVec 48) (ip : Word) : Prop := ∀ p ∈ s.plist, p.ip = ip → p.mac = bssid

/-- The search passes the leases `pre` and stops at `post`. -/
structure Passes (s : DhcpServer) (bssid : BitVec 48) (pre post : List DhcpsPool) : Prop where
  plist : s.plist = pre ++ post
  macs : ∀ p ∈ pre, p.mac ≠ bssid
  ips : pre.map DhcpsPool.ip = (List.range pre.length).map s.dhcpsLease.addr
  stops : ∀ p ∈ post.head?, p.mac = bssid ∨ p.ip ≠ s.dhcpsLease.addr pre.length

/-- A request for any address: it is refused if the client has no lease and the address found lies above the pool. Else
the client's lease is put to those of the others, for that address. -/
theorem clientUpdate_grants (h : Unique s.plist) (bssid : BitVec 48) : ∃ pre post, s.Passes bssid pre post ∧
    ((∀ p ∈ s.plist, p.mac ≠ bssid) ∧ s.dhcpsLease.endIp < s.dhcpsLease.addr pre.length ∧
        (s.clientUpdate bssid none).1 = 0 ∧ (s.clientUpdate bssid none).2.plist = s.plist ∨
      ¬ ((∀ p ∈ s.plist, p.mac ≠ bssid) ∧ s.dhcpsLease.endIp < s.dhcpsLease.addr pre.length) ∧
        (s.clientUpdate bssid none).1 = s.dhcpsLease.addr pre.length ∧
        ∃ node, node.mac = bssid ∧ node.ip = s.dhcpsLease.addr pre.length ∧
          (s.clientUpdate bssid none).2.plist = nodeInsertToList (s.plist.filter (·.mac ≠ bssid)) node) := by
  have hmacs := @clientSearch_pmacNode bssid none 0 s.plist ⟨false, s.dhcpsLease.startIp, none, none⟩
  obtain ⟨pre, post, hl, hmac, hips, hstop, hstart, hflag, hpip⟩ := @clientSearch_none bssid s.dhcpsLease 0
    s.plist 0 ⟨false, s.dhcpsLease.startIp, none, none⟩ s.dhcpsLease.addr_zero.symm rfl rfl
  rw [Nat.zero_add] at hstop hstart
  refine ⟨pre, post, ⟨hl, hmac, by rw [hips, List.range_eq_range'], hstop⟩, ?_⟩
  generalize hc : s.dhcpsLease.addr pre.length = c at hstart ⊢
  unfold clientUpdate
  dsimp only
  rw [hstart, hflag, hpip]
  simp only [Option.getD_none, gt_iff_lt]
  obtain ⟨hno, hm⟩ | ⟨pre', p, post', hl', hp, hm⟩ := hmacs <;> rw [hm] <;> dsimp only
  · -- a new client
    by_cases hend : s.dhcpsLease.endIp < c
    · refine .inl ⟨hno, hend, ?_⟩
      rw [if_pos hend, ite_self]
      exact ⟨rfl, rfl⟩
    · refine .inr ⟨fun hn => hend hn.2, ?_⟩
      rw [if_neg fun hn => hend hn.2.2, if_neg hend, List.filter_eq_self.mpr fun x hx => decide_eq_true (hno x hx)]
      exact ⟨rfl, _, rfl, rfl, rfl⟩
  · -- its lease moves
    have hmem : p ∈ s.plist := by rw [hl']; simp
    have hpost : post ≠ [] := by
      rintro rfl
      rw [hl, List.append_nil] at hmem
      exact hmac p hmem hp
    have hothers : s.plist.filter (·.mac ≠ bssid) = pre' ++ post' := by
      have hne := (hl' ▸ h).erase.2.2
      rw [hl', List.filter_append, List.filter_cons_of_neg (by simpa using hp), ← List.filter_append]
      exact List.filter_eq_self.mpr fun x hx => decide_eq_true (hp ▸ hne x hx)
    refine .inr ⟨fun hn => hn.1 p hmem hp, ?_⟩
    rw [if_neg (by simp [hpost]), hothers, hl', Nat.zero_add, eraseIdx_middle]
    exact ⟨rfl, s.grant .dynamic { p with ip := c }, hp, rfl, rfl⟩

/-- Whether anyone else has the address found is not asked. -/
theorem clientUpdate_none (h : Unique s.plist) (bssid : BitVec 48) : ∃ pre post, s.Passes bssid pre post ∧
    ((∀ p ∈ s.plist, p.mac ≠ bssid) ∧ s.dhcpsLease.endIp < s.dhcpsLease.addr pre.length ∧
        (s.clientUpdate bssid none).1 = 0 ∧ (s.clientUpdate bssid none).2.plist = s.plist ∨
      ¬ ((∀ p ∈ s.plist, p.mac ≠ bssid) ∧ s.dhcpsLease.endIp < s.dhcpsLease.addr pre.length) ∧
        (s.clientUpdate bssid none).1 = s.dhcpsLease.addr pre.length ∧
        (Unique (s.clientUpdate bssid none).2.plist ↔ s.Free bssid (s.dhcpsLease.addr pre.length))) := by
  obtain ⟨pre, post, hpass, hrefused | ⟨hgranted, hret, node, hmac, hip, hplist⟩⟩ := clientUpdate_grants h bssid
  · exact ⟨pre, post, hpass, .inl hrefused⟩
  · refine ⟨pre, post, hpass, .inr ⟨hgranted, hret, ?_⟩⟩
    rw [hplist, ← hip]
    constructor
    · intro hu x hx he
      by_contra hne
      exact absurd hu (not_unique_insert (List.mem_filter.mpr ⟨hx, decide_eq_true hne⟩) he)
    · intro hfree
      have hothers : ∀ x ∈ s.plist.filter (·.mac ≠ bssid), x ∈ s.plist ∧ x.mac ≠ bssid := fun x hx =>
        ⟨(List.mem_filter.mp hx).1, of_decide_eq_true (List.mem_filter.mp hx).2⟩
      refine Unique.insert (h.of_key (List.filter_sublist.map _)) (fun x hx he => ?_) fun x hx => hmac ▸ (hothers x hx).2
      exact (hothers x hx).2 (hfree x (hothers x hx).1 he)

end DhcpServer

end Nonos
