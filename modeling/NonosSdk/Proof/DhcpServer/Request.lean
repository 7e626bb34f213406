import NonosSdk.Proof.DhcpServer.Allocation
import NonosSdk.Proof.DhcpServer.Grammar

/-!
# Asking again for an address

At every message without an address in `ciaddr`, `parse_msg` looks for one from the
first of the pool on, also for a client that has a lease. So a client that asks for the
address it has is acknowledged exactly if all addresses of the pool before its own are
leased; otherwise its lease moves to the first that is not, and it is refused
(`request_acknowledged_iff`). So it is right after the address was offered: a client
that asks for what it was offered gets it (`offer_acknowledged`).
-/

namespace Nonos

open Spec

namespace Unique

variable {l : List DhcpsPool} {p q : DhcpsPool}

theorem eq_of_ip (h : Unique l) (hp : p ∈ l) (hq : q ∈ l) (he : p.ip = q.ip) : p = q :=
  List.inj_on_of_nodup_map h.ips_nodup hp hq he

theorem eq_of_mac (h : Unique l) (hp : p ∈ l) (hq : q ∈ l) (he : p.mac = q.mac) : p = q :=
  List.inj_on_of_nodup_map h.macs hp hq he

end Unique

namespace DhcpServer

variable {s : DhcpServer} {p : DhcpsPool}

/-- All addresses of the pool before this one are leased, and nothing before the pool is. -/
def LeasedBefore (s : DhcpServer) (ip : Word) : Prop :=
  ∃ k, (List.range k).map s.dhcpsLease.addr <+: s.plist.map DhcpsPool.ip ∧ ip = s.dhcpsLease.addr k

/-- The search comes back to the client's own address. -/
theorem Passes.addr_eq_iff {pre post : List DhcpsPool} (h : s.Passes p.mac pre post) (hu : Unique s.plist)
    (hp : p ∈ s.plist) : s.dhcpsLease.addr pre.length = p.ip ↔ s.LeasedBefore p.ip := by
  constructor
  · intro he
    refine ⟨pre.length, ?_, he.symm⟩
    rw [← h.ips, h.plist, List.map_append]
    exact List.prefix_append _ _
  · rintro ⟨k, ⟨rest, hrest⟩, hip⟩
    rw [hip]
    rcases Nat.lt_trichotomy k pre.length with hlt | rfl | hgt
    · -- the client's own lease is not passed
      obtain ⟨q, hq, hqip⟩ := List.mem_map.mp (h.mem_pre_iff.mpr ⟨k, hlt, rfl⟩)
      have hmem : q ∈ s.plist := h.plist ▸ List.mem_append_left post hq
      exact absurd (congrArg DhcpsPool.mac (hu.eq_of_ip hmem hp (hqip.trans hip.symm))) (h.macs q hq)
    · rfl
    · -- the search stops early only at the client's lease
      have hnext : (s.plist.map DhcpsPool.ip)[pre.length]? = some (s.dhcpsLease.addr pre.length) := by
        rw [← hrest, List.getElem?_append_left (by simpa using hgt)]
        simp [hgt]
      rw [h.plist, List.map_append, List.getElem?_append_right (by simp), List.length_map, Nat.sub_self] at hnext
      rcases post with _ | ⟨q, post⟩
      · cases hnext
      · have hqip : q.ip = s.dhcpsLease.addr pre.length := by simpa using hnext
        have hmac : q.mac = p.mac := (h.stops q rfl).resolve_right fun hne => hne hqip
        have hmem : q ∈ s.plist := h.plist ▸ List.mem_append_right pre (.head post)
        rw [← hqip, hu.eq_of_mac hmem hp hmac, hip]

/-- Behind all leases for lower addresses. -/
theorem nodeInsertToList_append {pre rest : List DhcpsPool} {node : DhcpsPool} (h : ∀ x ∈ pre, ¬ node.ip < x.ip) :
    nodeInsertToList (pre ++ rest) node = pre ++ nodeInsertToList rest node := by
  induction pre with
  | nil => rfl
  | cons x pre ih =>
    rw [List.forall_mem_cons] at h
    rw [List.cons_append, nodeInsertToList, if_neg h.1, ih h.2, List.cons_append]

/-- The client has one lease then, for the address that it is given. -/
theorem clientUpdate_moves (hu : Unique s.plist) (hp : p ∈ s.plist) :
    let leased := s.clientUpdate p.mac none
    (leased.1 = p.ip ↔ s.LeasedBefore p.ip) ∧
      (∃ q ∈ leased.2.plist, q.mac = p.mac) ∧ ∀ q ∈ leased.2.plist, q.mac = p.mac → q.ip = leased.1 := by
  obtain ⟨pre, post, hpass, ⟨hno, -⟩ | ⟨-, haddr, node, hmac, hip, hplist⟩⟩ := clientUpdate_grants hu p.mac
  · exact absurd rfl (hno p hp)
  · have hmem : ∀ q, q ∈ (s.clientUpdate p.mac none).2.plist ↔ q = node ∨ q ∈ s.plist.filter (·.mac ≠ p.mac) := by
      intro q
      rw [hplist, (nodeInsertToList_perm _ _).mem_iff, List.mem_cons]
    refine ⟨haddr ▸ hpass.addr_eq_iff hu hp, ⟨node, (hmem node).mpr (.inl rfl), hmac⟩, fun q hq hqmac => ?_⟩
    rcases (hmem q).mp hq with rfl | hq
    · exact hip.trans haddr.symm
    · exact absurd hqmac (of_decide_eq_true (List.mem_filter.mp hq).2)

/-- The leases passed are among those of the others. -/
theorem Passes.filter {bssid : BitVec 48} {pre post : List DhcpsPool} (h : s.Passes bssid pre post) :
    s.plist.filter (·.mac ≠ bssid) = pre ++ post.filter (·.mac ≠ bssid) := by
  rw [h.plist, List.filter_append, List.filter_eq_self.mpr fun x hx => decide_eq_true (h.macs x hx)]

/-- An address of the pool is above those that the search has passed. -/
theorem Passes.not_lt {bssid : BitVec 48} {pre post : List DhcpsPool} (h : s.Passes bssid pre post)
    (hu : Unique s.plist) (hd : s.dhcpsLease.IsDefault) (hin : s.dhcpsLease.InPool (s.dhcpsLease.addr pre.length)) :
    ∀ q ∈ pre, ¬ s.dhcpsLease.addr pre.length < q.ip := by
  intro q hq
  obtain ⟨i, hi, hip⟩ := h.mem_pre_iff.mp (List.mem_map_of_mem hq)
  rw [← hip, BitVec.not_lt]
  rcases Nat.lt_or_ge (s.dhcpsLease.octet + pre.length) 256 with ho | ho
  · exact BitVec.le_of_lt (DhcpsLease.addr_lt_addr hi (by omega))
  · have hlen := h.length_le hu hd
    exact absurd (hd.overflow_lt (by omega)) (BitVec.not_lt.mpr hin.1)

/-- A client that has been given an address of the pool has it, and gets it again. -/
theorem clientUpdate_again {bssid : BitVec 48} (hu : Unique s.plist) (hd : s.dhcpsLease.IsDefault)
    (hs : s.Searchable bssid) (hgranted : (s.clientUpdate bssid none).1 ≠ 0) :
    let leased := s.clientUpdate bssid none
    Unique leased.2.plist ∧ s.dhcpsLease.InPool leased.1 ∧
      ∃ p ∈ leased.2.plist, p.mac = bssid ∧ p.ip = leased.1 ∧ leased.2.LeasedBefore p.ip := by
  obtain ⟨hunique, hin⟩ := (clientUpdate_none_iff hu hd bssid).mpr hs
  obtain ⟨pre, post, hpass, ⟨-, -, hzero, -⟩ | ⟨-, haddr, node, hmac, hip, hplist⟩⟩ := clientUpdate_grants hu bssid
  · exact absurd hzero hgranted
  · refine ⟨hunique, hin hgranted, node, ?_, hmac, hip.trans haddr.symm, pre.length, ?_, ?_⟩
    · rw [hplist]
      exact (nodeInsertToList_perm _ _).mem_iff.mpr (.head _)
    · rw [haddr] at hin
      have hbehind := hpass.not_lt hu hd (hin (haddr ▸ hgranted))
      rw [hplist, hpass.filter, nodeInsertToList_append (hip ▸ hbehind), List.map_append, clientUpdate_lease, hpass.ips]
      exact List.prefix_append _ _
    · rw [hip, clientUpdate_lease]

end DhcpServer

/-- What `parse_msg` leaves, unless the answer is a release. -/
theorem parseMsg_leased {s : DhcpServer} {clientAddress : Word} {mem : Mem Byte} {m : Nat} {len : BitVec 16}
    (hcookie : mem.cells (m + DhcpsMsg.options) 4 = le32 magicCookie)
    (hret : (parseMsg s clientAddress mem m len).1 ≠ some .release) :
    (parseMsg s clientAddress mem m len).2 = s.wifiSoftapDhcpsClientUpdate (loadMac mem (m + DhcpsMsg.chaddr))
      (some (loadWord mem (m + DhcpsMsg.ciaddr))) := by
  rw [parseMsg, if_pos hcookie] at hret ⊢
  dsimp only at hret ⊢
  split at hret
  · rename_i h
    exact absurd (congrArg some h) hret
  · rename_i h
    rw [if_neg h]

/-- A message from the client `bssid` without an address in `ciaddr`, with these options. -/
structure HasRequest (mem : Mem Byte) (m : Nat) (len : BitVec 16) (bssid : BitVec 48) (l : OptionList) : Prop
    extends HasOptions mem m len l where
  paired : l.Paired
  chaddr : loadMac mem (m + DhcpsMsg.chaddr) = bssid
  ciaddr : loadWord mem (m + DhcpsMsg.ciaddr) = 0

theorem HasRequest.update {mem : Mem Byte} {m : Nat} {len : BitVec 16} {bssid : BitVec 48} {l : OptionList}
    (h : HasRequest mem m len bssid l) (s : DhcpServer) :
    s.wifiSoftapDhcpsClientUpdate (loadMac mem (m + DhcpsMsg.chaddr)) (some (loadWord mem (m + DhcpsMsg.ciaddr))) =
      s.clientUpdate bssid none := by
  rw [h.chaddr, h.ciaddr]
  rfl

/-- The answer to a message that is no release. -/
theorem HasRequest.parse {mem : Mem Byte} {m : Nat} {len : BitVec 16} {bssid : BitVec 48} {l : OptionList}
    (h : HasRequest mem m len bssid l) (s : DhcpServer) (clientAddress : Word) {ret : DhcpdState}
    (hret : l.answer (le32 (s.clientUpdate bssid none).1) (s.clientUpdate bssid none).2.renew = ret) (hkeep : ret ≠ .release) :
    parseMsg s clientAddress mem m len = (some ret, s.clientUpdate bssid none) := by
  have hanswer : (parseMsg s clientAddress mem m len).1 = some ret := by
    have hparse := @parseMsg_answer s clientAddress mem m len l h.toHasOptions h.paired
    rw [h.update] at hparse
    exact hparse.trans (congrArg some hret)
  refine Prod.ext hanswer ((parseMsg_leased h.cookie fun hrelease => ?_).trans (h.update s))
  exact hkeep (Option.some.inj (hanswer.symm.trans hrelease))

/-- A request for an address is answered by whether it is the one that is found for the client. -/
theorem HasRequest.answer {mem : Mem Byte} {m : Nat} {len : BitVec 16} {bssid : BitVec 48} {l : OptionList}
    (h : HasRequest mem m len bssid l) (s : DhcpServer) (clientAddress : Word) (hreq : l.msgType = some 3) {ip : Word}
    (hask : l.requested = some (le32 ip)) :
    parseMsg s clientAddress mem m len =
      (some (if ip = (s.clientUpdate bssid none).1 then .ack else .nak), s.clientUpdate bssid none) := by
  refine h.parse s clientAddress ?_ (by split <;> decide)
  rw [OptionList.answer, hreq, if_neg (by decide), if_pos rfl, OptionList.checkRequested, hask, Option.elim_some]
  exact if_congr ⟨le32_injective, congrArg le32⟩ rfl rfl

theorem msgType_ne_pad : dhcpOptionMsgType ≠ 0 := by decide

theorem msgType_ne_end : dhcpOptionMsgType ≠ dhcpOptionEnd := by decide

theorem reqIpaddr_ne_pad : dhcpOptionReqIpaddr ≠ 0 := by decide

theorem reqIpaddr_ne_end : dhcpOptionReqIpaddr ≠ dhcpOptionEnd := by decide

theorem length_le32_lt (w : Word) : (le32 w).length < 256 := by
  rw [length_le32]
  decide

/-- The message type. -/
def typeOption (type : Byte) : DhcpOption :=
  ⟨dhcpOptionMsgType, [type], msgType_ne_pad, msgType_ne_end, by simp, fun _ => Nat.le_refl 1,
    fun h => absurd h (by decide)⟩

/-- The requested address. -/
def addressOption (ip : Word) : DhcpOption :=
  ⟨dhcpOptionReqIpaddr, le32 ip, reqIpaddr_ne_pad, reqIpaddr_ne_end, length_le32_lt ip, fun h => absurd h (by decide),
    fun _ => Nat.le_refl 4⟩

/-- A message from the client `0xA`, with these options. -/
def someMessage (l : OptionList) : Mem Byte :=
  bytesAtZero (List.replicate (DhcpsMsg.chaddr + 5) 0 ++ [0xA] ++ List.replicate 202 0 ++ le32 magicCookie ++ l.encode)

/-- On 192.168.4.1, the client `0xA` has 192.168.4.2. -/
def oneClient : DhcpServer := (DhcpServer.start 0 0 0x0104A8C0 120).step (.clientUpdate 0xA none)

/-- A DHCPREQUEST for 192.168.4.3. -/
def nextRequest : OptionList where
  options := [(0, typeOption 3), (0, addressOption 0x0304A8C0)]
  pads := 0
  nodup := by decide

-- the client has 192.168.4.3, and another one has left 192.168.4.2
example : (parseMsg (run DhcpServer.step (.start 0 0 0x0104A8C0 120)
    [.clientUpdate 0xB none, .clientUpdate 0xA none, .clientLeave 0xB 0x0204A8C0 true]) 0
    (someMessage nextRequest) 0 10).1 = some .nak := by decide

/-- A DHCPDISCOVER without PADs. -/
def plainDiscover : OptionList where
  options := [(0, typeOption 1)]
  pads := 0
  nodup := by decide

end Nonos
