import NonosSdk.Proof.DhcpServer.Options

/-!
# DHCP options between PADs

`parse_options` takes every byte but END for a code with a length after it. So two PADs
are an option without data, and a PAD before anything else swallows it. It takes the
options of a list, with the right answer, exactly if the PADs come in pairs
(`parse_options_iff`); then `parse_msg` answers what the list asks for, for the address
that it has just leased (`parseMsg_answer`).
-/

namespace Nonos

open Spec

/-- Where the walk has found an option other than PAD, or the END. -/
def OptionsWalk.taken (mem : Mem Byte) (w : OptionsWalk) : List Nat := w.visits.filter (mem · ≠ 0)

/-- What an option changes. -/
def Spec.DhcpOption.see (client : Word) (v : DhcpsParse) (o : DhcpOption) : DhcpsParse :=
  if o.code = dhcpOptionMsgType then { v with type := (o.data.headD 0).setWidth 16 }
  else if o.code = dhcpOptionReqIpaddr then
    { v with state := if o.data.take 4 = le32 client then .ack else .nak }
  else v

section Walk

variable {client : Word} {mem : Mem Byte} {limit p : Nat} {v : DhcpsParse}

theorem le_of_mem_visits (a : Nat) (h : a ∈ (walkFrom client mem limit p v).visits) : p ≤ a := by
  induction p using walk_induction mem limit generalizing v with
  | stop p hp => rw [walkFrom_stop hp] at h; exact absurd h List.not_mem_nil
  | step p hp ih =>
    by_cases hm : mem p = dhcpOptionEnd
    · rw [walkFrom_end hp hm] at h
      exact Nat.le_of_eq (List.mem_singleton.mp h).symm
    · rw [walkFrom_next hp hm] at h
      rcases List.mem_cons.mp h with rfl | h
      · exact Nat.le_refl _
      · exact Nat.le_trans (by omega) (ih h)

/-- An even number of PADs is walked over. -/
theorem walkFrom_pads {k : Nat} (h : mem.Holds p (List.replicate (2 * k) 0)) (hl : p + 2 * k ≤ limit) :
    let w := walkFrom client mem limit (p + 2 * k) v
    (walkFrom client mem limit p v).toDhcpsParse = w.toDhcpsParse ∧
      (walkFrom client mem limit p v).taken mem = w.taken mem := by
  induction k generalizing p with
  | zero => exact ⟨rfl, rfl⟩
  | succ k ih =>
    rw [show 2 * (k + 1) = 2 * k + 1 + 1 by omega, List.replicate_succ, List.replicate_succ, Mem.holds_cons,
      Mem.holds_cons] at h
    obtain ⟨h0, h1, h⟩ := h
    obtain ⟨hparse, htaken⟩ := ih h (by omega)
    have hnext := @walkFrom_next client mem limit p v (by omega)
      (show mem p ≠ dhcpOptionEnd by rw [h0]; decide)
    have hv : parseOption client mem p v = v := by
      rw [parseOption, if_neg (by rw [h0]; decide), if_neg (by rw [h0]; decide)]
    rw [h1, hv, show p + (0 : Byte).toNat + 2 = p + 1 + 1 from rfl] at hnext
    rw [show p + 2 * (k + 1) = p + 1 + 1 + 2 * k by omega, hnext]
    refine ⟨hparse, Eq.trans ?_ htaken⟩
    exact List.filter_cons_of_neg (by simpa using h0)

/-- The byte after an odd number of PADs is skipped. -/
theorem notMem_of_odd {n : Nat} (h : mem.Holds p (List.replicate n 0)) (hl : p + n < limit) (hn : ¬ Even n) :
    p + n ∉ (walkFrom client mem limit p v).taken mem := by
  obtain ⟨k, rfl⟩ := Nat.not_even_iff_odd.mp hn
  rw [List.replicate_add, Mem.holds_append, List.length_replicate] at h
  obtain ⟨hpads, hpad⟩ := h
  have h0 : mem (p + 2 * k) = 0 := (Mem.holds_cons.mp hpad).1
  rw [(walkFrom_pads hpads (by omega)).2, walkFrom_next (by omega) (by rw [h0]; decide)]
  intro hmem
  rcases List.mem_cons.mp (List.mem_of_mem_filter hmem) with heq | hmem
  · omega
  · have hle := le_of_mem_visits _ hmem
    omega

theorem parseOption_eq_see {o : DhcpOption} {n : Byte} (h : mem.Holds p (o.code :: n :: o.data)) :
    parseOption client mem p v = o.see client v := by
  rw [Mem.holds_cons, Mem.holds_cons] at h
  obtain ⟨hcode, -, hdata⟩ := h
  rw [parseOption, DhcpOption.see, hcode]
  by_cases htype : o.code = dhcpOptionMsgType
  · have hlen := o.msgType_length htype
    rw [if_pos htype, if_pos htype]
    match hd : o.data with
    | [] => rw [hd] at hlen; exact absurd hlen (by decide)
    | d :: _ => rw [hd] at hdata; rw [(Mem.holds_cons.mp hdata).1]; rfl
  · by_cases hreq : o.code = dhcpOptionReqIpaddr
    · rw [if_neg htype, if_neg htype, if_pos hreq, if_pos hreq, hdata.cells_eq_take (o.reqIpaddr_length hreq)]
      split_ifs <;> rfl
    · rw [if_neg htype, if_neg htype, if_neg hreq, if_neg hreq]

theorem walkFrom_option {o : DhcpOption} {bs : List Byte} (hp : p < limit)
    (h : mem.Holds p (o.code :: BitVec.ofNat 8 o.data.length :: (o.data ++ bs))) :
    let w := walkFrom client mem limit (p + 2 + o.data.length) (o.see client v)
    (walkFrom client mem limit p v).toDhcpsParse = w.toDhcpsParse ∧
      (walkFrom client mem limit p v).taken mem = p :: w.taken mem := by
  have hoption : mem.Holds p (o.code :: BitVec.ofNat 8 o.data.length :: o.data) := by
    rw [← List.cons_append, ← List.cons_append, Mem.holds_append] at h
    exact h.1
  have hcode := (Mem.holds_cons.mp hoption).1
  have hnext := @walkFrom_next client mem limit p v hp (hcode ▸ o.not_end)
  have hlen : (mem (p + 1)).toNat = o.data.length := by
    rw [(Mem.holds_cons.mp (Mem.holds_cons.mp hoption).2).1, BitVec.toNat_ofNat]
    exact Nat.mod_eq_of_lt o.length_lt
  rw [hlen, parseOption_eq_see hoption, Nat.add_right_comm] at hnext
  rw [hnext]
  exact ⟨rfl, List.filter_cons_of_pos (by simpa [hcode] using o.not_pad)⟩

/-! ## A list of options -/

theorem holds_item {n k : Nat} {o : DhcpOption} {os : Padded} (h : mem.Holds p (encodeOptions ((n, o) :: os) k)) :
    mem.Holds p (List.replicate n 0) ∧
      mem.Holds (p + n) (o.code :: BitVec.ofNat 8 o.data.length :: (o.data ++ encodeOptions os k)) ∧
      mem.Holds (p + n + 2 + o.data.length) (encodeOptions os k) := by
  rw [encodeOptions, Mem.holds_append, List.length_replicate] at h
  refine ⟨h.1, h.2, ?_⟩
  have hrest := (Mem.holds_cons.mp (Mem.holds_cons.mp h.2).2).2
  exact (Mem.holds_append.mp hrest).2

theorem length_encode_item (n k : Nat) (o : DhcpOption) (os : Padded) :
    (encodeOptions ((n, o) :: os) k).length = n + 2 + o.data.length + (encodeOptions os k).length := by
  simp only [encodeOptions, List.length_append, List.length_replicate, List.length_cons]
  omega

/-- With paired PADs, every option is taken. -/
theorem walkFrom_options {os : Padded} {k : Nat} (h : mem.Holds p (encodeOptions os k))
    (hl : p + (encodeOptions os k).length ≤ limit) (hos : ∀ o ∈ os, Even o.1) (hk : Even k) :
    (walkFrom client mem limit p v).toDhcpsParse = (os.map Prod.snd).foldl (DhcpOption.see client) v ∧
      (walkFrom client mem limit p v).taken mem = optionStarts p os k := by
  induction os generalizing p v with
  | nil =>
    obtain ⟨j, rfl⟩ := even_iff_exists_two_mul.mp hk
    rw [encodeOptions, Mem.holds_append, List.length_replicate, Mem.holds_cons] at h
    rw [encodeOptions, List.length_append, List.length_replicate, List.length_singleton] at hl
    obtain ⟨hparse, htaken⟩ := @walkFrom_pads client mem limit p v j h.1 (by omega)
    rw [hparse, htaken, walkFrom_end (by omega) h.2.1]
    exact ⟨rfl, List.filter_cons_of_pos (by rw [h.2.1]; decide)⟩
  | cons item os ih =>
    obtain ⟨n, o⟩ := item
    obtain ⟨j, rfl⟩ := even_iff_exists_two_mul.mp (hos _ (List.mem_cons_self))
    obtain ⟨hpads, hoption, hrest⟩ := holds_item h
    rw [length_encode_item] at hl
    obtain ⟨hparse, htaken⟩ := @walkFrom_pads client mem limit p v j hpads (by omega)
    obtain ⟨hparse', htaken'⟩ := @walkFrom_option client mem limit _ v _ _ (by omega) hoption
    obtain ⟨hfold, hstarts⟩ :=
      ih (v := o.see client v) hrest (by omega) fun o ho => hos o (List.mem_cons_of_mem _ ho)
    exact ⟨hparse.trans (hparse'.trans hfold), htaken.trans (htaken'.trans (congrArg _ hstarts))⟩

/-- And only with paired PADs. -/
theorem even_of_taken {os : Padded} {k : Nat} (h : mem.Holds p (encodeOptions os k))
    (hl : p + (encodeOptions os k).length ≤ limit)
    (htaken : (walkFrom client mem limit p v).taken mem = optionStarts p os k) :
    (∀ o ∈ os, Even o.1) ∧ Even k := by
  induction os generalizing p v with
  | nil =>
    rw [encodeOptions, Mem.holds_append] at h
    rw [encodeOptions, List.length_append, List.length_replicate, List.length_singleton] at hl
    refine ⟨fun o ho => absurd ho List.not_mem_nil, ?_⟩
    by_contra hk
    refine @notMem_of_odd client mem limit p v k h.1 (by omega) hk ?_
    rw [htaken]
    exact List.mem_cons_self
  | cons item os ih =>
    obtain ⟨n, o⟩ := item
    obtain ⟨hpads, hoption, hrest⟩ := holds_item h
    rw [length_encode_item] at hl
    have hn : Even n := by
      by_contra hn
      refine @notMem_of_odd client mem limit p v n hpads (by omega) hn ?_
      rw [htaken]
      exact List.mem_cons_self
    obtain ⟨j, rfl⟩ := even_iff_exists_two_mul.mp hn
    obtain ⟨-, hpads'⟩ := @walkFrom_pads client mem limit p v j hpads (by omega)
    obtain ⟨-, hoption'⟩ := @walkFrom_option client mem limit _ v _ _ (by omega) hoption
    rw [hpads', hoption', optionStarts, List.cons.injEq] at htaken
    obtain ⟨hos, hk⟩ := ih hrest (by omega) htaken.2
    exact ⟨List.forall_mem_cons.mpr ⟨hn, hos⟩, hk⟩

theorem walkable_append {os : Padded} {k : Nat} (hos : ∀ o ∈ os, Even o.1) (hk : Even k) (bs : List Byte) :
    Walkable (encodeOptions os k ++ bs) := by
  have hpads : ∀ {j : Nat} {bs : List Byte}, Walkable bs → Walkable (List.replicate (2 * j) 0 ++ bs) := by
    intro j bs hbs
    induction j with
    | zero => exact hbs
    | succ j ih => exact .option (by decide) nofun nofun ih
  induction os with
  | nil =>
    obtain ⟨j, rfl⟩ := even_iff_exists_two_mul.mp hk
    rw [encodeOptions, List.append_assoc]
    exact hpads (.last _)
  | cons item os ih =>
    obtain ⟨n, o⟩ := item
    obtain ⟨j, rfl⟩ := even_iff_exists_two_mul.mp (hos _ (List.mem_cons_self))
    have hlen : (BitVec.ofNat 8 o.data.length).toNat = o.data.length := by
      rw [BitVec.toNat_ofNat, Nat.mod_eq_of_lt o.length_lt]
    rw [encodeOptions, List.append_assoc, List.cons_append, List.cons_append, List.append_assoc]
    refine hpads (.option o.not_end (fun h => ?_) (fun h => ?_) ?_)
    · exact Nat.le_trans (o.msgType_length h) (by rw [List.length_append]; omega)
    · exact Nat.le_trans (o.reqIpaddr_length h) (by rw [List.length_append]; omega)
    · rw [hlen, List.drop_left]
      exact ih fun o ho => hos o (List.mem_cons_of_mem _ ho)

end Walk

/-! ## The answer -/

/-- What one option determines is as that option says, or as it was. -/
theorem foldl_see {β : Type} {client : Word} {f : DhcpsParse → β} {g : List Byte → β} {code : Byte}
    (hsee : ∀ v o, f (DhcpOption.see client v o) = if o.code = code then g o.data else f v)
    {os : Padded} (hn : (os.map (·.2.code)).Nodup) (v : DhcpsParse) :
    f ((os.map Prod.snd).foldl (DhcpOption.see client) v) =
      (((os.find? (·.2.code = code)).map (·.2.data)).map g).getD (f v) := by
  induction os generalizing v with
  | nil => rfl
  | cons item os ih =>
    rw [List.map_cons, List.nodup_cons] at hn
    rw [List.map_cons, List.foldl_cons, ih hn.2, hsee]
    by_cases hcode : item.2.code = code
    · -- no other option has this code
      have hnone : os.find? (·.2.code = code) = none := by
        rw [List.find?_eq_none]
        intro o ho
        have hne : o.2.code ≠ item.2.code := fun he => hn.1 (List.mem_map.mpr ⟨o, ho, he⟩)
        simpa [hcode] using hne
      rw [hnone, if_pos hcode, List.find?_cons_of_pos (by simpa using hcode)]
      rfl
    · rw [if_neg hcode, List.find?_cons_of_neg (by simpa using hcode)]

namespace Spec.OptionList

variable (l : OptionList) (client : Word)

/-- `type` and `s.state` for a list of options. -/
def seen : DhcpsParse := (l.options.map Prod.snd).foldl (DhcpOption.see client) ⟨0, .idle⟩

variable {l client}

theorem ne_nil_of_find {d : List Byte} (h : l.find dhcpOptionMsgType = some d) : d ≠ [] := by
  obtain ⟨o, ho, rfl⟩ := Option.map_eq_some_iff.mp h
  have hcode : o.2.code = dhcpOptionMsgType := by simpa using List.find?_some ho
  exact List.ne_nil_of_length_pos (o.2.msgType_length hcode)

theorem seen_type_eq_iff {c : Byte} (hc : c ≠ 0) :
    (l.seen client).type = c.setWidth 16 ↔ l.msgType = some c := by
  have htype : (l.seen client).type = ((l.find dhcpOptionMsgType).map fun d => (d.headD 0).setWidth 16).getD 0 :=
    foldl_see (fun v o => by unfold DhcpOption.see; split_ifs <;> rfl) l.nodup ⟨0, .idle⟩
  rw [htype, msgType]
  cases hfind : l.find dhcpOptionMsgType with
  | none => exact iff_of_false (fun h => hc (by change 0 = c.setWidth 16 at h; bv_omega)) (by simp)
  | some d =>
    obtain ⟨b, ds, rfl⟩ := List.exists_cons_of_ne_nil (ne_nil_of_find hfind)
    show b.setWidth 16 = c.setWidth 16 ↔ some b = some c
    rw [Option.some.injEq]
    exact ⟨fun h => by bv_omega, fun h => by rw [h]⟩

theorem seen_state : (l.seen client).state = l.checkRequested (le32 client) .idle := by
  have hstate : (l.seen client).state = ((l.find dhcpOptionReqIpaddr).map fun d =>
      if d.take 4 = le32 client then DhcpdState.ack else .nak).getD .idle := by
    refine foldl_see (fun v o => ?_) l.nodup ⟨0, .idle⟩
    unfold DhcpOption.see
    by_cases htype : o.code = dhcpOptionMsgType
    · rw [if_pos htype, if_neg (by rw [htype]; decide)]
    · rw [if_neg htype]; split_ifs <;> rfl
  rw [hstate, checkRequested, requested]
  cases l.find dhcpOptionReqIpaddr <;> rfl

/-- The second `switch` gives the right answer for what the options say. -/
theorem parseResult_seen (renew : Bool) : parseResult renew (l.seen client) = l.answer (le32 client) renew := by
  have hrequest : (if (l.seen client).state = .ack ∨ (l.seen client).state = .nak then (l.seen client).state
      else if renew then .ack else .nak) = l.checkRequested (le32 client) (if renew then .ack else .nak) := by
    rw [seen_state, checkRequested, checkRequested]
    cases l.requested with
    | none => rfl
    | some addr =>
      rw [Option.elim_some, Option.elim_some]
      by_cases haddr : addr = le32 client
      · rw [if_pos haddr, if_pos (.inl rfl)]
      · rw [if_neg haddr, if_pos (.inr rfl)]
  have htype : ∀ {c : Byte}, c ≠ 0 → ((l.seen client).type = c.setWidth 16) = (l.msgType = some c) :=
    fun hc => propext (seen_type_eq_iff hc)
  rw [parseResult, answer, hrequest, seen_state]
  simp only [show dhcpDiscover = (1 : Byte).setWidth 16 from rfl, show dhcpRequest = (3 : Byte).setWidth 16 from rfl,
    show dhcpDecline = (4 : Byte).setWidth 16 from rfl, show dhcpRelease = (7 : Byte).setWidth 16 from rfl,
    htype (show (1 : Byte) ≠ 0 by decide), htype (show (3 : Byte) ≠ 0 by decide),
    htype (show (4 : Byte) ≠ 0 by decide), htype (show (7 : Byte) ≠ 0 by decide)]

end Spec.OptionList

/-- `parse_options` takes the options of a list and its END, and nothing else, and returns
what they determine. -/
def Follows (client : Word) (renew : Bool) (mem : Mem Byte) (optptr : Nat) (len : BitVec 16) (l : OptionList) :
    Prop :=
  (optionsWalk client mem optptr len).taken mem = l.starts optptr ∧
    parseOptions client renew mem optptr len = l.answer (le32 client) renew

theorem follows_iff {client : Word} {renew : Bool} {mem : Mem Byte} {optptr : Nat} {len : BitVec 16} {l : OptionList}
    {rest : List Byte} (h : mem.cells optptr len.toInt.toNat = l.encode ++ rest) :
    Follows client renew mem optptr len l ↔ l.Paired := by
  have hlen : len.toInt.toNat = (l.encode ++ rest).length := by rw [← h, Mem.length_cells]
  have hholds : mem.Holds optptr l.encode := by
    rw [hlen] at h
    exact (Mem.holds_append.mp h).1
  have hl : optptr + l.encode.length ≤ optptr + len.toInt.toNat := by
    rw [hlen, List.length_append]
    omega
  rw [Follows, parseOptions, optionsWalk_eq]
  constructor
  · exact fun hf => even_of_taken hholds hl hf.1
  · intro hpaired
    obtain ⟨hparse, htaken⟩ := @walkFrom_options client mem _ _ ⟨0, .idle⟩ _ _ hholds hl hpaired.1 hpaired.2
    refine ⟨htaken, ?_⟩
    rw [hparse]
    exact OptionList.parseResult_seen renew

/-- For every content of the bytes given: none outside is read exactly if they are walkable,
and of a list of options what is taken and returned is right exactly if PADs come in
pairs, and then none outside is read. -/
theorem parse_options_iff (client : Word) (renew : Bool) (mem : Mem Byte) (optptr : Nat) (len : BitVec 16) :
    (ReadsWithin client mem optptr len ↔ Walkable (mem.cells optptr len.toInt.toNat)) ∧
      ∀ (l : OptionList) (rest : List Byte), mem.cells optptr len.toInt.toNat = l.encode ++ rest →
        (Follows client renew mem optptr len l ↔ l.Paired) ∧ (l.Paired → ReadsWithin client mem optptr len) := by
  refine ⟨reads_within_iff client mem optptr len, fun l rest h => ⟨follows_iff h, fun hpaired => ?_⟩⟩
  rw [reads_within_iff, h]
  exact walkable_append hpaired.1 hpaired.2 rest

/-- A memory that starts with these bytes. -/
def bytesAtZero (bs : List Byte) : Mem Byte := fun a => bs.getD a 0

/-- A DHCPDISCOVER after a PAD. -/
def paddedDiscover : OptionList where
  options := [(1, ⟨dhcpOptionMsgType, [1], by decide, by decide, by decide, by decide, by decide⟩)]
  pads := 0
  nodup := by decide

/-- A DHCPREQUEST for 192.168.4.2, and two PADs between its options. -/
def someRequest : OptionList where
  options := [(0, ⟨dhcpOptionMsgType, [3], by decide, by decide, by decide, by decide, by decide⟩),
    (2, ⟨dhcpOptionReqIpaddr, [192, 168, 4, 2], by decide, by decide, by decide, by decide, by decide⟩)]
  pads := 0
  nodup := by decide

/-- The code of a message type alone is read with two bytes after it, and a PAD hides a
DHCPDISCOVER. -/
theorem tail_and_pad_misread : ¬ ReadsWithin 0 (bytesAtZero [dhcpOptionMsgType]) 0 1 ∧
    (bytesAtZero paddedDiscover.encode).cells 0 5 = paddedDiscover.encode ∧
    parseOptions 0 false (bytesAtZero paddedDiscover.encode) 0 5 = .idle ∧
    paddedDiscover.answer (le32 0) false = .offer := by
  refine ⟨fun h => absurd (h 2 ?_).2 (by decide), by decide, by decide, by decide⟩
  decide

/-- The request is followed. -/
theorem someRequest_followed : Follows 0x0204A8C0 false (bytesAtZero someRequest.encode) 0 12 someRequest :=
  ((parse_options_iff 0x0204A8C0 false (bytesAtZero someRequest.encode) 0 12).2 someRequest [] (by decide)).1.mpr
    (by decide)

/-- The message is a DHCP message, with these options in its `len` bytes. -/
structure HasOptions (mem : Mem Byte) (m : Nat) (len : BitVec 16) (l : OptionList) : Prop where
  cookie : mem.cells (m + DhcpsMsg.options) 4 = le32 magicCookie
  options : ∃ rest, mem.cells (m + DhcpsMsg.options + 4) len.toInt.toNat = l.encode ++ rest

/-- What `parse_msg` returns is decided by the options, the address that is leased to the
client and whether its lease is renewed. -/
theorem parseMsg_answer {s : DhcpServer} {clientAddress : Word} {mem : Mem Byte} {m : Nat} {len : BitVec 16}
    {l : OptionList} (h : HasOptions mem m len l) (hl : l.Paired) :
    let leased := s.wifiSoftapDhcpsClientUpdate (loadMac mem (m + DhcpsMsg.chaddr))
      (some (loadWord mem (m + DhcpsMsg.ciaddr)))
    (parseMsg s clientAddress mem m len).1 = some (l.answer (le32 leased.1) leased.2.renew) := by
  intro leased
  obtain ⟨rest, hrest⟩ := h.options
  have hanswer : parseOptions leased.1 leased.2.renew mem (m + DhcpsMsg.options + 4) len =
      l.answer (le32 leased.1) leased.2.renew := ((follows_iff hrest).mpr hl).2
  rw [parseMsg, if_pos h.cookie]
  by_cases hrelease : parseOptions leased.1 leased.2.renew mem (m + DhcpsMsg.options + 4) len = .release
  · exact (congrArg Prod.fst (if_pos hrelease)).trans (congrArg some hanswer)
  · exact (congrArg Prod.fst (if_neg hrelease)).trans (congrArg some hanswer)

end Nonos
