import NonosSdk.Impl.DhcpReply
import NonosSdk.Proof.DhcpServer.Request

/-!
# What the DHCP server replies

Every reply is a whole message: it has the `xid` and `chaddr` of the request, and
options that a reader of options areas takes apart (`IsDhcpsReply`). An address that it
offers or acknowledges is leased to the client (`reply_well_formed`), unless it is
0.0.0.0, which is what a client gets for which there is none.
-/

namespace Nonos

open Spec

/-! ## The lease -/

namespace DhcpServer

/-- An address that is returned is leased to the client. -/
theorem clientUpdate_leased (s : DhcpServer) (bssid : BitVec 48) (ip : Option Word)
    (h : (s.clientUpdate bssid ip).1 ≠ 0) :
    ∃ q ∈ (s.clientUpdate bssid ip).2.plist, q.mac = bssid ∧ q.ip = (s.clientUpdate bssid ip).1 := by
  have hmacs := @clientSearch_pmacNode bssid ip 0 s.plist ⟨false, s.dhcpsLease.startIp, none, none⟩
  have hips : (clientSearch bssid ip 0 s.plist ⟨false, s.dhcpsLease.startIp, none, none⟩).pipNode = none ∨
      Finds (fun _ => True) 0 s.plist
        (clientSearch bssid ip 0 s.plist ⟨false, s.dhcpsLease.startIp, none, none⟩).pipNode := by
    cases ip with
    | none =>
      obtain ⟨-, -, -, -, -, -, -, -, hpip⟩ := @clientSearch_none bssid s.dhcpsLease 0 s.plist 0
        ⟨false, s.dhcpsLease.startIp, none, none⟩ s.dhcpsLease.addr_zero.symm rfl rfl
      exact .inl hpip
    | some addr =>
      rcases @clientSearch_pipNode bssid addr 0 s.plist ⟨false, s.dhcpsLease.startIp, none, none⟩ with
        ⟨-, hi⟩ | ⟨pre, p, post, hl, -, hi⟩
      · exact .inl hi
      · exact .inr ⟨pre, p, post, hl, trivial, hi⟩
  unfold clientUpdate at h ⊢
  dsimp only at h ⊢
  generalize clientSearch bssid ip 0 s.plist ⟨false, s.dhcpsLease.startIp, none, none⟩ = found at hmacs hips h ⊢
  by_cases hend : ip = none ∧ found.flag = false ∧ found.startIp > s.dhcpsLease.endIp
  · rw [if_pos hend] at h
    exact absurd rfl h
  · rw [if_neg hend] at h ⊢
    obtain ⟨-, hm⟩ | ⟨pre, p, post, hl, hp, hm⟩ := hmacs <;>
      obtain hi | ⟨pre', p', post', hl', -, hi⟩ := hips <;> rw [hm, hi] at h ⊢ <;> dsimp only at h ⊢
    · -- a new lease
      split at h
      · exact absurd rfl h
      · rename_i hle
        rw [if_neg hle]
        exact ⟨_, (nodeInsertToList_perm _ _).mem_iff.mpr (.head _), rfl, rfl⟩
    · -- one that is offline
      split at h
      · exact absurd rfl h
      · rename_i hoff
        rw [if_neg hoff]
        exact ⟨_, List.mem_set (by rw [hl']; simp) _, rfl, rfl⟩
    · exact ⟨_, (nodeInsertToList_perm _ _).mem_iff.mpr (.head _), hp, rfl⟩
    · by_cases hne : 0 + pre'.length ≠ 0 + pre.length
      · rw [if_pos hne] at h ⊢
        split at h
        · exact absurd rfl h
        · rename_i hoff
          rw [if_neg hoff]
          refine ⟨_, List.mem_eraseIdx_iff_getElem?.mpr ⟨_, hne, List.getElem?_set_self ?_⟩, rfl, rfl⟩
          rw [hl']
          simp
      · rw [if_neg hne] at h ⊢
        obtain ⟨rfl, htail⟩ := List.append_inj (hl'.symm.trans hl) (by omega)
        obtain ⟨rfl, rfl⟩ := List.cons.inj htail
        exact ⟨_, List.mem_set (by rw [hl]; simp) _, hp, rfl⟩

/-- For `wifi_softap_dhcps_client_update` too. -/
theorem wifiSoftapDhcpsClientUpdate_leased (s : DhcpServer) (bssid : BitVec 48) (ip : Option Word)
    (h : (s.wifiSoftapDhcpsClientUpdate bssid ip).1 ≠ 0) :
    ∃ q ∈ (s.wifiSoftapDhcpsClientUpdate bssid ip).2.plist,
      q.mac = bssid ∧ q.ip = (s.wifiSoftapDhcpsClientUpdate bssid ip).1 := by
  cases ip with
  | none => exact clientUpdate_leased s bssid none h
  | some ip =>
    rw [wifiSoftapDhcpsClientUpdate] at h ⊢
    by_cases hbroadcast : ip = 0xFFFFFFFF
    · rw [if_pos hbroadcast] at h
      exact absurd rfl h
    · rw [if_neg hbroadcast] at h ⊢
      by_cases hzero : ip = 0
      · rw [if_pos hzero] at h ⊢
        exact clientUpdate_leased s bssid none h
      · rw [if_neg hzero] at h ⊢
        exact clientUpdate_leased s bssid (some ip) h

end DhcpServer

/-! ## The options -/

/-- An option other than the two that the server reads. -/
def replyOption (code : Byte) (data : List Byte) (hcode : code ≠ 0 ∧ code ≠ dhcpOptionEnd)
    (hread : code ≠ dhcpOptionMsgType ∧ code ≠ dhcpOptionReqIpaddr) (hdata : data.length < 256) : DhcpOption where
  code := code
  data := data
  not_pad := hcode.1
  not_end := hcode.2
  length_lt := hdata
  msgType_length := fun h => absurd h hread.1
  reqIpaddr_length := fun h => absurd h hread.2

/-- What is said of the network; the lease time is in seconds, in network order. -/
def networkOptions (net : DhcpsNet) (leaseTime : Word) : List DhcpOption :=
  [replyOption dhcpOptionSubnetMask [255, 255, 255, 0] (by decide) (by decide) (by decide),
    replyOption dhcpOptionLeaseTime (le32 (leaseTime * 60)).reverse (by decide) (by decide) (by simp),
    replyOption dhcpOptionServerId (le32 net.serverAddress) (by decide) (by decide) (by simp)] ++
  (if dhcpsRouterEnabled net.offer then [replyOption dhcpOptionRouter (le32 net.gw) (by decide) (by decide) (by simp)] else []) ++
  [replyOption dhcpOptionDnsServer (le32 net.serverAddress) (by decide) (by decide) (by simp),
    replyOption dhcpOptionBroadcastAddress ((le32 net.serverAddress).take 3 ++ [255]) (by decide) (by decide) (by simp),
    replyOption dhcpOptionInterfaceMtu [0x02, 0x40] (by decide) (by decide) (by decide),
    replyOption dhcpOptionPerformRouterDiscovery [0] (by decide) (by decide) (by decide),
    replyOption 43 [1, 4, 0, 0, 0, 2] (by decide) (by decide) (by decide)]

theorem networkOptions_codes (net : DhcpsNet) (leaseTime : Word) :
    ((networkOptions net leaseTime).map DhcpOption.code).Sublist [1, 51, 54, 3, 6, 28, 26, 31, 43] := by
  unfold networkOptions
  cases dhcpsRouterEnabled net.offer
  · exact .cons_cons _ (.cons_cons _ (.cons_cons _ (.cons _ (.refl _))))
  · exact .refl _

/-- The options of a reply: a refusal says nothing of the network. -/
def replyOptions (net : DhcpsNet) (leaseTime : Word) (type : Byte) : OptionList where
  options := (typeOption type :: if type = dhcpNak then [] else networkOptions net leaseTime).map (0, ·)
  pads := 0
  nodup := by
    rw [List.map_map]
    have hcodes : ((if type = dhcpNak then [] else networkOptions net leaseTime).map DhcpOption.code).Sublist
        [1, 51, 54, 3, 6, 28, 26, 31, 43] := by
      split
      · exact List.nil_sublist _
      · exact networkOptions_codes net leaseTime
    refine List.Nodup.sublist (hcodes.cons_cons dhcpOptionMsgType) ?_
    decide

/-- Options without PADs, one after the other. -/
def optionBytes (os : List DhcpOption) : List Byte :=
  os.flatMap fun o => o.code :: BitVec.ofNat 8 o.data.length :: o.data

theorem encodeOptions_eq (os : List DhcpOption) : encodeOptions (os.map (0, ·)) 0 = optionBytes os ++ [dhcpOptionEnd] := by
  induction os with
  | nil => rfl
  | cons o os ih =>
    rw [List.map_cons, encodeOptions, ih]
    simp [optionBytes]

/-- A byte of a word, as the code takes it. -/
theorem byte_of_word (w : Word) (k : Nat) : ((w >>> k) &&& 0xFF).setWidth 8 = w.extractLsb' k 8 := by
  refine BitVec.eq_of_toNat_eq ?_
  rw [BitVec.toNat_setWidth, BitVec.toNat_and, BitVec.toNat_ushiftRight, BitVec.extractLsb'_toNat]
  show (w.toNat >>> k &&& 2 ^ 8 - 1) % 2 ^ 8 = w.toNat >>> k % 2 ^ 8
  rw [Nat.and_two_pow_sub_one_eq_mod, Nat.mod_mod]

theorem addOfferOptions_eq (net : DhcpsNet) (leaseTime : Word) (optptr : OptCursor) :
    addOfferOptions net leaseTime optptr = Mem.emit optptr (optionBytes (networkOptions net leaseTime)) := by
  have htime := byte_of_word (leaseTime * 60) 0
  rw [BitVec.ushiftRight_zero] at htime
  unfold addOfferOptions networkOptions
  cases dhcpsRouterEnabled net.offer <;>
    simp only [Mem.emit_emit, byte_of_word, htime, Bool.false_eq_true, if_false, if_true] <;> rfl

theorem length_networkOptions (net : DhcpsNet) (leaseTime : Word) :
    (optionBytes (networkOptions net leaseTime)).length ≤ 51 := by
  unfold networkOptions
  cases dhcpsRouterEnabled net.offer <;> exact Nat.le_of_ble_eq_true rfl

theorem replyOptions_encode (net : DhcpsNet) (leaseTime : Word) (type : Byte) :
    (replyOptions net leaseTime type).encode = [dhcpOptionMsgType, 1, type] ++
      optionBytes (if type = dhcpNak then [] else networkOptions net leaseTime) ++ [dhcpOptionEnd] :=
  encodeOptions_eq _

/-- They leave room in the options area. -/
theorem length_replyOptions (net : DhcpsNet) (leaseTime : Word) (type : Byte) :
    (replyOptions net leaseTime type).encode.length ≤ 55 := by
  have hlen := length_networkOptions net leaseTime
  rw [replyOptions_encode, List.length_append, List.length_append, List.length_singleton]
  by_cases htype : type = dhcpNak
  · rw [if_pos htype]
    exact Nat.le_of_ble_eq_true rfl
  · rw [if_neg htype]
    simp only [List.length_cons, List.length_nil]
    omega

/-! ## The message -/

/-- The message that replies to a request, with these options. -/
structure IsDhcpsReply (request r : List Byte) (clientAddress : Word) (l : OptionList) : Prop where
  length : r.length = DhcpsMsg.size
  header : r.take 4 = [dhcpReply, dhcpHtypeEthernet, 6, 0]
  xid : (r.drop DhcpsMsg.xid).take 4 = (request.drop DhcpsMsg.xid).take 4
  flags : (r.drop DhcpsMsg.flags).take 2 = [0x80, 0]
  yiaddr : (r.drop DhcpsMsg.yiaddr).take 4 = le32 clientAddress
  chaddr : (r.drop DhcpsMsg.chaddr).take 16 = (request.drop DhcpsMsg.chaddr).take 16
  cookie : (r.drop DhcpsMsg.options).take 4 = le32 magicCookie
  options : ∃ n, r.drop (DhcpsMsg.options + 4) = l.encode ++ List.replicate n 0

theorem take_drop_cells (mem : Mem Byte) {m n k i : Nat} (h : k + i ≤ n) :
    ((mem.cells m n).drop k).take i = mem.cells (m + k) i := by
  have hsplit : n - k = i + (n - k - i) := by omega
  rw [Mem.drop_cells, hsplit, Mem.cells_add, List.take_left' (Mem.length_cells _ _ _)]

/-- The writes of `create_msg`. -/
theorem createMsg_eq (clientAddress : Word) (mem : Mem Byte) (m : Nat) : createMsg clientAddress mem m =
    (((((((((((mem.put m [dhcpReply, dhcpHtypeEthernet, 6, 0]).put (m + 8) [0, 0]).put (m + 10) [0x80, 0]).put (m + 16)
      (le32 clientAddress)).memset (m + 12) 0 4).memset (m + 20) 0 4).memset (m + 24) 0 4).memset (m + 44) 0 64).memset
        (m + 108) 0 128).memset (m + 236) 0 312).put (m + 236) (le32 magicCookie)) := rfl

/-- The fields it sets, and the two it leaves. -/
theorem createMsg_fields (clientAddress : Word) (mem : Mem Byte) (m : Nat) :
    let r := createMsg clientAddress mem m
    r.cells (m + 0) 4 = [dhcpReply, dhcpHtypeEthernet, 6, 0] ∧ r.cells (m + DhcpsMsg.xid) 4 = mem.cells (m + DhcpsMsg.xid) 4 ∧
      r.cells (m + DhcpsMsg.flags) 2 = [0x80, 0] ∧ r.cells (m + DhcpsMsg.yiaddr) 4 = le32 clientAddress ∧
      r.cells (m + DhcpsMsg.chaddr) 16 = mem.cells (m + DhcpsMsg.chaddr) 16 := by
  rw [createMsg_eq, DhcpsMsg.xid, DhcpsMsg.flags, DhcpsMsg.yiaddr, DhcpsMsg.chaddr]
  refine ⟨?_, ?_, ?_, ?_, ?_⟩ <;>
    simp (disch := ((try simp only [List.length_cons, List.length_nil, length_le32]); omega)) only
      [Mem.cells_put, Mem.cells_memset]
  all_goals exact Mem.put_holds _ _ _

/-- Options after the cookie are behind all other fields. -/
theorem take_drop_put (mem : Mem Byte) (m : Nat) (bs : List Byte) {k n : Nat} (h : k + n ≤ 240) :
    (((mem.put (m + DhcpsMsg.options + 4) bs).cells m DhcpsMsg.size).drop k).take n = mem.cells (m + k) n := by
  rw [take_drop_cells _ (Nat.le_trans h (by decide)), Mem.cells_put _ (.inl ?_)]
  rw [DhcpsMsg.options]
  omega

/-- The message after `create_msg`, with options after the cookie. -/
theorem createMsg_isReply (mem : Mem Byte) (m : Nat) (clientAddress : Word) {l : OptionList} (hl : l.encode.length ≤ 55) :
    IsDhcpsReply (mem.cells m DhcpsMsg.size)
      (((createMsg clientAddress mem m).put (m + DhcpsMsg.options + 4) l.encode).cells m DhcpsMsg.size) clientAddress l := by
  obtain ⟨hheader, hxid, hflags, hyiaddr, hchaddr⟩ := createMsg_fields clientAddress mem m
  refine { length := Mem.length_cells _ _ _, header := ?_, xid := ?_, flags := ?_, yiaddr := ?_, chaddr := ?_,
           cookie := ?_, options := ⟨308 - l.encode.length, ?_⟩ }
  · exact (take_drop_put _ _ _ (k := 0) (by decide)).trans hheader
  · rw [take_drop_put _ _ _ (by decide), take_drop_cells _ (by decide), hxid]
  · rw [take_drop_put _ _ _ (by decide), hflags]
  · rw [take_drop_put _ _ _ (by decide), hyiaddr]
  · rw [take_drop_put _ _ _ (by decide), take_drop_cells _ (by decide), hchaddr]
  · rw [take_drop_put _ _ _ (by decide)]
    exact Mem.put_holds _ _ _
  · have hsplit : DhcpsMsg.size - (DhcpsMsg.options + 4) = l.encode.length + (308 - l.encode.length) := by
      rw [DhcpsMsg.size, DhcpsMsg.options]
      omega
    -- behind the options are the zeros of `create_msg`
    rw [Mem.drop_cells, ← Nat.add_assoc, hsplit, Mem.cells_add, (Mem.put_holds _ _ _ : _ = _),
      Mem.cells_put _ (.inr (Nat.le_refl _)), createMsg_eq, DhcpsMsg.options, Mem.cells_put _ (.inr ?_),
      Mem.cells_memset_inside _ (by omega) (by omega)]
    rw [length_le32]
    omega

theorem sendOffer_eq (net : DhcpsNet) (leaseTime clientAddress : Word) (mem : Mem Byte) (m : Nat) :
    sendOffer net leaseTime clientAddress mem m =
      (createMsg clientAddress mem m).put (m + DhcpsMsg.options + 4) (replyOptions net leaseTime dhcpOffer).encode := by
  rw [sendOffer, addOfferOptions_eq, addMsgType, addEnd, Mem.emit_emit, Mem.emit_emit, replyOptions_encode,
    if_neg (by decide), List.append_assoc]
  rfl

theorem sendAck_eq (net : DhcpsNet) (leaseTime clientAddress : Word) (mem : Mem Byte) (m : Nat) :
    sendAck net leaseTime clientAddress mem m =
      (createMsg clientAddress mem m).put (m + DhcpsMsg.options + 4) (replyOptions net leaseTime dhcpAck).encode := by
  rw [sendAck, addOfferOptions_eq, addMsgType, addEnd, Mem.emit_emit, Mem.emit_emit, replyOptions_encode,
    if_neg (by decide), List.append_assoc]
  rfl

theorem sendNak_eq (net : DhcpsNet) (leaseTime clientAddress : Word) (mem : Mem Byte) (m : Nat) :
    sendNak clientAddress mem m =
      (createMsg clientAddress mem m).put (m + DhcpsMsg.options + 4) (replyOptions net leaseTime dhcpNak).encode := by
  rw [sendNak, addMsgType, addEnd, Mem.emit_emit, replyOptions_encode, if_pos rfl, Mem.emit]
  rfl

/-- The type of the reply to a message. -/
def replyType : DhcpdState → Option Byte
  | .offer => some dhcpOffer
  | .ack => some dhcpAck
  | .nak => some dhcpNak
  | _ => none

theorem reply_isReply {net : DhcpsNet} {leaseTime clientAddress : Word} {mem : Mem Byte} {m : Nat}
    {ret : Option DhcpdState} {r : List Byte} (h : dhcpsReply net leaseTime clientAddress mem m ret = some r) :
    ∃ type, ret.bind replyType = some type ∧
      IsDhcpsReply (mem.cells m DhcpsMsg.size) r clientAddress (replyOptions net leaseTime type) := by
  have hsent : ∀ type, IsDhcpsReply (mem.cells m DhcpsMsg.size)
      (((createMsg clientAddress mem m).put (m + DhcpsMsg.options + 4)
        (replyOptions net leaseTime type).encode).cells m DhcpsMsg.size)
      clientAddress (replyOptions net leaseTime type) :=
    fun type => createMsg_isReply mem m clientAddress (length_replyOptions net leaseTime type)
  unfold dhcpsReply at h
  split at h
  · rw [sendOffer_eq] at h
    exact ⟨dhcpOffer, rfl, Option.some.inj h ▸ hsent dhcpOffer⟩
  · rw [sendAck_eq] at h
    exact ⟨dhcpAck, rfl, Option.some.inj h ▸ hsent dhcpAck⟩
  · rw [sendNak_eq net leaseTime] at h
    exact ⟨dhcpNak, rfl, Option.some.inj h ▸ hsent dhcpNak⟩
  · cases h

/-- The client of a reply. -/
theorem IsDhcpsReply.mac {mem : Mem Byte} {m : Nat} {r : List Byte} {clientAddress : Word} {l : OptionList}
    (h : IsDhcpsReply (mem.cells m DhcpsMsg.size) r clientAddress l) :
    loadMac (bytesAtZero r) DhcpsMsg.chaddr = loadMac mem (m + DhcpsMsg.chaddr) := by
  have hcells := h.chaddr
  rw [take_drop_cells _ (by decide)] at hcells
  have hbyte : ∀ i < 16, bytesAtZero r (DhcpsMsg.chaddr + i) = mem (m + DhcpsMsg.chaddr + i) := by
    intro i hi
    have hget := congrArg (·[i]?) hcells
    simp only [List.getElem?_take, List.getElem?_drop, if_pos hi, Mem.cells, List.getElem?_map,
      List.getElem?_range hi, Option.map_some] at hget
    rw [bytesAtZero, List.getD_eq_getElem?_getD, hget, Option.getD_some]
  have hfirst : bytesAtZero r DhcpsMsg.chaddr = mem (m + DhcpsMsg.chaddr) := hbyte 0 (by decide)
  simp only [loadMac, hfirst, hbyte 1 (by decide), hbyte 2 (by decide), hbyte 3 (by decide), hbyte 4 (by decide),
    hbyte 5 (by decide)]

/-! ## A datagram -/

/-- The message of a datagram: the first two pbufs, and zeros. -/
def dhcpsRequest (p : List (List Byte)) : List Byte :=
  (p.take 2).flatten ++ List.replicate (DhcpsMsg.size - (p.take 2).flatten.length) 0

theorem dhcpsReceived_cells (mem : Mem Byte) (m : Nat) {data : List Byte} (h : data.length ≤ DhcpsMsg.size) :
    (dhcpsReceived mem m data).cells m DhcpsMsg.size = data ++ List.replicate (DhcpsMsg.size - data.length) 0 := by
  have hsplit : DhcpsMsg.size = data.length + (DhcpsMsg.size - data.length) := by omega
  conv_lhs => rw [hsplit]
  rw [Mem.cells_add, dhcpsReceived, (Mem.put_holds _ _ _ : _ = _), Mem.cells_put _ (.inr (Nat.le_refl _)),
    Mem.cells_memset_inside _ (by omega) (by omega)]

/-- The address that `parse_msg` leaves for an answer is leased to the client. -/
theorem parseMsg_address {s s' : DhcpServer} {clientAddress address : Word} {mem : Mem Byte} {m : Nat}
    {len : BitVec 16} {ret : DhcpdState} (h : parseMsg s clientAddress mem m len = (some ret, address, s'))
    (hret : ret ≠ .release) (hzero : address ≠ 0) :
    ∃ q ∈ s'.plist, q.mac = loadMac mem (m + DhcpsMsg.chaddr) ∧ q.ip = address := by
  have hcookie : mem.cells (m + DhcpsMsg.options) 4 = le32 magicCookie := by
    by_contra hno
    rw [parseMsg, if_neg hno] at h
    cases h
  have hupdate := @parseMsg_leased s clientAddress mem m len hcookie
    (by rw [h]; exact fun he => hret (Option.some.inj he))
  rw [h] at hupdate
  have hleased := s.wifiSoftapDhcpsClientUpdate_leased (loadMac mem (m + DhcpsMsg.chaddr))
    (some (loadWord mem (m + DhcpsMsg.ciaddr)))
  rw [← hupdate] at hleased
  exact hleased hzero

/-- Every reply is a whole message, and the address in it is leased to the client, or is 0.0.0.0. -/
theorem reply_well_formed {net : DhcpsNet} {s s' : DhcpServer} {clientAddress clientAddress' : Word} {mem : Mem Byte}
    {m : Nat} {p : List (List Byte)} {r : List Byte}
    (h : handleDhcp net s clientAddress mem m p = some (some r, clientAddress', s')) :
    (∃ type ∈ [dhcpOffer, dhcpAck, dhcpNak],
      IsDhcpsReply (dhcpsRequest p) r clientAddress' (replyOptions net s'.dhcpsLeaseTime type)) ∧
      (clientAddress' ≠ 0 →
        ∃ q ∈ s'.plist, q.mac = loadMac (bytesAtZero r) DhcpsMsg.chaddr ∧ q.ip = clientAddress') := by
  unfold handleDhcp at h
  dsimp only at h
  split at h
  · cases h
  · rename_i hfit
    have hrequest : (dhcpsReceived mem m (p.take 2).flatten).cells m DhcpsMsg.size = dhcpsRequest p :=
      dhcpsReceived_cells mem m (Nat.le_of_not_lt hfit)
    rcases hparse : parseMsg s clientAddress (dhcpsReceived mem m (p.take 2).flatten) m
      (BitVec.ofNat 16 p.flatten.length - 240) with ⟨ret, address, s₁⟩
    rw [hparse] at h
    obtain ⟨hreply, rfl, rfl⟩ : dhcpsReply net s₁.dhcpsLeaseTime address (dhcpsReceived mem m (p.take 2).flatten) m ret =
        some r ∧ address = clientAddress' ∧ s₁ = s' := by simpa using h
    obtain ⟨type, htype, hr⟩ := reply_isReply hreply
    obtain ⟨ret, rfl, htype⟩ := Option.bind_eq_some_iff.mp htype
    refine ⟨⟨type, ?_, hrequest ▸ hr⟩, fun hzero => ?_⟩
    · cases ret <;> cases htype <;> decide
    · rw [hr.mac]
      exact parseMsg_address hparse (by rintro rfl; cases htype) hzero

/-- The request for 192.168.4.2 is answered. -/
theorem someRequest_replied : ∃ r address s, handleDhcp ⟨0x0104A8C0, 0x0104A8C0, 0xFF⟩ oneClient 0 (fun _ => 0) 0
    [(someMessage someRequest).cells 0 252] = some (some r, address, s) ∧ (address ≠ 0 →
      ∃ q ∈ s.plist, q.mac = loadMac (bytesAtZero r) DhcpsMsg.chaddr ∧ q.ip = address) := by
  have hsome : ((handleDhcp ⟨0x0104A8C0, 0x0104A8C0, 0xFF⟩ oneClient 0 (fun _ => 0) 0
      [(someMessage someRequest).cells 0 252]).bind fun x => x.1).isSome := by decide +kernel
  obtain ⟨r, hr⟩ := Option.isSome_iff_exists.mp hsome
  obtain ⟨⟨_, address, s⟩, hx, rfl⟩ := Option.bind_eq_some_iff.mp hr
  exact ⟨r, address, s, hx, (reply_well_formed hx).2⟩

end Nonos
