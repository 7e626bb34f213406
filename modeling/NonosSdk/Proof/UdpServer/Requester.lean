import NonosSdk.Framework.Runs
import NonosSdk.Impl.UdpServer

/-!
# Who gets the response

`Lan` adds to the server what the network has seen: whose datagram came last,
whose request was last forwarded to the bus, and with whom the last traffic was,
in either direction. The espconn structure holds the peer of the last traffic
(`Lan.Inv`), and a response goes there. So every response reaches the last
requester exactly in the runs where, at every response, nobody else has been
talked to since (`responses_iff_undivided`).
-/

namespace Nonos

/-- The union gives the bytes back. -/
theorem IpBytes.ofIp_ip (b : IpBytes) : IpBytes.ofIp b.ip = b := by
  obtain ⟨b0, b1, b2, b3⟩ := b
  simp only [IpBytes.ofIp, IpBytes.ip, IpBytes.mk.injEq]
  refine ⟨?_, ?_, ?_, ?_⟩ <;> apply BitVec.eq_of_getLsbD_eq <;> intro i hi <;>
    simp only [BitVec.getLsbD_extractLsb', BitVec.getLsbD_append, hi, decide_true, Bool.true_and] <;>
    split_ifs <;> first | omega | exact congrArg _ (by omega)

/-- The address of a peer. -/
def Peer.addr (p : Peer) : XlinkAddr := ⟨p.remoteIp.ip, p.remotePort⟩

/-- The peer at an address. -/
def Peer.ofAddr (a : XlinkAddr) : Peer := ⟨.ofIp a.sAddr, a.sinPort⟩

theorem Peer.addr_inj {p q : Peer} : p.addr = q.addr ↔ p = q := by
  refine ⟨fun h => ?_, fun h => by rw [h]⟩
  have ho : ∀ r : Peer, Peer.ofAddr r.addr = r := fun r => by
    simp only [ofAddr, addr, IpBytes.ofIp_ip]
  rw [← ho p, h, ho q]

/-- The server, and what its LAN has seen. -/
structure Lan where
  u : UdpServer
  /-- Who sent the last datagram. -/
  requester : Option Peer
  /-- Whose pipe request was the last one forwarded to the bus. -/
  forwarded : Option Peer
  /-- With whom the last datagram or reply was exchanged. -/
  traffic : Option Peer

namespace Lan

/-- A server that has just been set up. -/
def start (u : UdpServer) : Lan := ⟨{ u.userUdpServerInit with processing := none }, none, none, none⟩

/-- The sender of a datagram that gets through to `user_udp_recv_cb`. -/
def accepted (x : Lan) : UdpEvent → Option Peer
  | .recv (some (_ :: _)) (some p) => if x.u.processing = none then some p else none
  | _ => none

def step (x : Lan) (e : UdpEvent) : Lan where
  u := x.u.step e
  requester := (x.accepted e).or x.requester
  forwarded :=
    match e with
    | .pipe _ => if x.u.processing ≠ none ∧ x.u.recvPipeCb then x.requester else x.forwarded
    | _ => x.forwarded
  traffic :=
    match e with
    | .send addr => some (.ofAddr addr)
    | _ => (x.accepted e).or x.traffic

/-- A response goes to the last requester, if there is one. -/
def Answers (x : Lan) : UdpEvent → Prop
  | .respond pbuf => ∀ q, x.forwarded = some q →
    (x.step (.respond pbuf)).u.pipes = x.u.pipes ++ [(pbuf, q.addr)]
  | _ => True

/-- At a response, the last traffic was with the last requester, if there is one. -/
def Undivided (x : Lan) : UdpEvent → Prop
  | .respond _ => x.forwarded = none ∨ x.traffic = x.forwarded
  | _ => True

/-- The espconn structure holds the peer of the last traffic, and there was some
before a request was processed or forwarded. -/
structure Inv (x : Lan) : Prop where
  remote : ∀ p, x.traffic = some p →
    x.u.remoteIp = p.remoteIp ∧ x.u.remotePort = p.remotePort.setWidth 32
  processing : x.u.processing ≠ none → x.requester ≠ none
  requester : x.requester ≠ none → x.traffic ≠ none
  forwarded : x.forwarded ≠ none → x.traffic ≠ none

theorem start_inv (u : UdpServer) : (start u).Inv :=
  ⟨nofun, fun h => absurd rfl h, fun h => absurd rfl h, fun h => absurd rfl h⟩

variable {x : Lan}

/-- A datagram that gets through. -/
theorem inv_recv (hp : x.u.processing = none) (b : Byte) (bs : List Byte) (p : Peer) :
    (x.step (.recv (some (b :: bs)) (some p))).Inv := by
  have ha : x.accepted (.recv (some (b :: bs)) (some p)) = some p := if_pos hp
  have hu : (x.step (.recv (some (b :: bs)) (some p))).u =
      x.u.userUdpRecvCb (some (b :: bs)) (some p) := if_pos hp
  have hr : (x.step (.recv (some (b :: bs)) (some p))).requester = some p := by
    simp only [step, ha, Option.some_or]
  have ht : (x.step (.recv (some (b :: bs)) (some p))).traffic = some p := by
    simp only [step, ha, Option.some_or]
  refine ⟨?_, fun _ => by rw [hr]; nofun, fun _ => by rw [ht]; nofun, fun _ => by rw [ht]; nofun⟩
  intro q hq
  obtain rfl : p = q := Option.some.inj (ht.symm.trans hq)
  rw [hu, UdpServer.userUdpRecvCb]
  simp only
  split_ifs <;> exact ⟨rfl, rfl⟩

/-- Any other is dropped. -/
theorem step_recv_of_not_accepted (pdata : Option (List Byte)) (info : Option Peer)
    (ha : x.accepted (.recv pdata info) = none) : x.step (.recv pdata info) = x := by
  have hu : x.u.step (.recv pdata info) = x.u := by
    by_cases hp : x.u.processing = none
    · rw [UdpServer.step, if_pos hp]
      match pdata, info with
      | none, _ | some [], _ | some (_ :: _), none => rfl
      | some (_ :: _), some p => simp [accepted, hp] at ha
    · rw [UdpServer.step, if_neg hp]
  simp only [step, hu, ha, Option.none_or]

theorem Inv.step (h : x.Inv) (e : UdpEvent) : (x.step e).Inv := by
  cases e with
  | recv pdata info =>
    by_cases ha : x.accepted (.recv pdata info) = none
    · rw [step_recv_of_not_accepted pdata info ha]; exact h
    · match pdata, info with
      | none, _ | some [], _ | some (_ :: _), none => exact absurd rfl ha
      | some (b :: bs), some p =>
        have hp : x.u.processing = none := by
          by_contra hp; exact ha (if_neg hp)
        exact inv_recv hp b bs p
  | pipe buffer =>
    have hu : (x.step (.pipe buffer)).u.remoteIp = x.u.remoteIp ∧
        (x.step (.pipe buffer)).u.remotePort = x.u.remotePort ∧
        (x.step (.pipe buffer)).u.processing = x.u.processing := by
      simp only [Lan.step, UdpServer.step, UdpServer.userUdpPipeCb]
      split_ifs <;> exact ⟨rfl, rfl, rfl⟩
    refine ⟨fun p hp => ?_, fun hc => ?_, h.requester, fun hc => ?_⟩
    · rw [hu.1, hu.2.1]; exact h.remote p hp
    · rw [hu.2.2] at hc; exact h.processing hc
    · -- what is forwarded is the request being processed
      by_cases hf : x.u.processing ≠ none ∧ x.u.recvPipeCb
      · exact h.requester (h.processing hf.1)
      · exact h.forwarded (by simpa only [Lan.step, if_neg hf] using hc)
  | processed => exact ⟨h.remote, fun hc => absurd rfl hc, h.requester, h.forwarded⟩
  | send addr =>
    refine ⟨?_, h.processing, fun _ => nofun, fun _ => nofun⟩
    intro p hp
    obtain rfl : Peer.ofAddr addr = p := Option.some.inj hp
    exact ⟨rfl, rfl⟩
  | respond pbuf => exact ⟨h.remote, h.processing, h.requester, h.forwarded⟩

/-- Where a response goes. -/
theorem Inv.answers_iff (h : x.Inv) (e : UdpEvent) : x.Answers e ↔ x.Undivided e := by
  cases e with
  | respond pbuf =>
    simp only [Answers, Undivided]
    cases hf : x.forwarded with
    | none => exact ⟨fun _ => .inl rfl, fun _ => nofun⟩
    | some q =>
      obtain ⟨p, hp⟩ := Option.ne_none_iff_exists'.mp (h.forwarded (by rw [hf]; nofun))
      obtain ⟨hi, hq⟩ := h.remote p hp
      have hr : x.u.remoteAddr = p.addr := by
        rw [UdpServer.remoteAddr, hi, hq, Peer.addr]
        simp
      have hs : (x.step (.respond pbuf)).u.pipes = x.u.pipes ++ [(pbuf, p.addr)] := by
        rw [← hr]; rfl
      rw [hs, hp]
      constructor
      · intro ha
        have he := List.append_cancel_left (ha q rfl)
        simp only [List.cons.injEq, Prod.mk.injEq, true_and, and_true] at he
        rw [Peer.addr_inj.mp he]; exact .inr rfl
      · rintro (hn | hn) r hr'
        · cases hn
        · rw [Option.some.inj (hn.trans hr')]
  | recv _ _ | pipe _ | processed | send _ => exact Iff.rfl

end Lan

/-- Every response of a run goes to the peer whose request was forwarded last,
exactly if at every response that peer was also the last to be talked to. -/
theorem responses_iff_undivided (u : UdpServer) (es : List UdpEvent) :
    Along Lan.step Lan.Answers (Lan.start u) es ↔ Along Lan.step Lan.Undivided (Lan.start u) es :=
  Along.congr (I := Lan.Inv) (fun _ e hi => hi.step e) (fun _ e hi => hi.answers_iff e)
    (Lan.start_inv u) es

/-- Two peers on one network. -/
def alice : Peer := ⟨⟨192, 168, 0, 10⟩, 40000⟩

def bob : Peer := ⟨⟨192, 168, 0, 11⟩, 40001⟩

/-- A server with both callbacks set. -/
def udpServer : UdpServer := ⟨⟨0, 0, 0, 0⟩, 0, true, true, none, [], []⟩

/-- A request is forwarded, another peer says hello, and the response goes to
the other peer. -/
theorem response_to_other_peer : ¬ ∀ (u : UdpServer) (es : List UdpEvent),
    Along Lan.step Lan.Answers (Lan.start u) es := by
  intro h
  have ha := h udpServer [.recv (some [1]) (some alice), .pipe [1], .processed,
    .recv (some [2]) (some bob), .processed, .respond [3]]
  have hr := ha.2.2.2.2.2.1 alice rfl
  revert hr
  decide

end Nonos
