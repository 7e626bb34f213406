import NonosSdk.Proof.TcpClient.Handlers

/-!
# A way back to the server

The client is on its way to the server while espconn holds a link for it, while
`dns_timer` keeps asking, or while both DNS flags are down, so that the next
tick starts over (`OnTrack`). Every function keeps that, with three
exceptions (`Strands`), all of them a link that is gone with the timer off and
a flag up: an `espconn_connect` that fails at once, after an answer or in a
retry, and a callback that `user_tcp_reconnect` ignores because smartconfig is
active. Runs without these steps keep a way back (`recoverable_of_not_strands`).
-/

namespace Nonos

namespace TcpClient

variable {c : TcpClient}

/-- A link, the DNS timer, or a next tick that starts over. -/
def OnTrack (c : TcpClient) : Prop :=
  c.link ≠ .none ∨ c.dnsTimer = true ∨ c.flagDnsDiscovery = false ∧ c.isDnsFound = false

/-- With smartconfig inactive, the client has a way to recover. -/
def Recoverable (c : TcpClient) : Prop := c.smartconfigStatus = false → c.OnTrack

/-- Nothing but the link could bring the client back. -/
def Hangs (c : TcpClient) : Prop :=
  c.dnsTimer = false ∧ (c.flagDnsDiscovery = true ∨ c.isDnsFound = true)

/-- The steps that leave the client without a way back. -/
def Strands (c : TcpClient) : TcpEvent → Prop
  | .dnsFound (some addr) ok => addr ≠ 0 ∧ c.link = .none ∧ ok = false
  | .disconnectCb ok | .reconnectCb ok =>
    c.Hangs ∧ (c.smartconfigStatus = true ∨ ¬ c.reconnCnt + 1 > 5 ∧ ok = false)
  | _ => False

instance : Decidable c.OnTrack := inferInstanceAs (Decidable (_ ∨ _))

instance : Decidable c.Hangs := inferInstanceAs (Decidable (_ ∧ _))

instance (c : TcpClient) : (e : TcpEvent) → Decidable (c.Strands e)
  | .dnsFound (some _) _ | .disconnectCb _ | .reconnectCb _ => inferInstanceAs (Decidable (_ ∧ _))
  | .dnsFound none _ | .tick _ | .loopEnd | .status _ _ | .dnsTimer | .connectCb | .keyShortPress
  | .smartconfigDone _ | .smartconfigTimeout | .sendPipe _ _ => inferInstanceAs (Decidable False)

theorem onTrack_iff : c.OnTrack ↔ (c.link = .none → ¬ c.Hangs) := by
  unfold OnTrack Hangs
  cases c.dnsTimer <;> cases c.flagDnsDiscovery <;> cases c.isDnsFound <;> simp

/-- `user_tcp_reconnect` leaves the client on track unless there was no link,
nothing else to bring one back, and it returns early or cannot connect. -/
theorem userTcpReconnect_onTrack (ok : Bool)
    (h : c.link = .none → ¬ (c.Hangs ∧ (c.smartconfigStatus = true ∨ ¬ c.reconnCnt + 1 > 5 ∧ ok = false))) :
    (c.userTcpReconnect ok).OnTrack := by
  rcases c.userTcpReconnect_cases ok with ⟨hs, he⟩ | ⟨-, -, he⟩ | ⟨-, hr, he⟩
  · rw [he]
    exact onTrack_iff.mpr fun hn hh => h hn ⟨hh, .inl hs⟩
  · rw [he]
    exact .inr (.inr ⟨rfl, rfl⟩)
  · rw [he]
    apply onTrack_iff.mpr
    intro hn hh
    rw [espconnConnect_link, espconnDisconnect_link] at hn
    exact h hn.1 ⟨hh, .inr ⟨hr, hn.2⟩⟩

/-- With a link, or with something else to bring one back, it always does. -/
theorem OnTrack.userTcpReconnect (h : c.OnTrack) (ok : Bool) : (c.userTcpReconnect ok).OnTrack :=
  userTcpReconnect_onTrack ok fun hn hc => onTrack_iff.mp h hn hc.1

theorem OnTrack.userTcpStatus (h : c.OnTrack) (s : XlinkAppStatus) (ok : Bool) :
    (c.userTcpStatus s ok).OnTrack := by
  cases s with
  | disconnctServer => exact OnTrack.userTcpReconnect (c := { c with isConnectServer := false }) h ok
  | proTestcomplete | connectServer | appConnect | appDisconnect | appTimeout | loginSuccess => exact h

/-- An answer without an address lowers a flag; one with an address needs the
link that it asks for. -/
theorem OnTrack.userTcpDnsFound (h : c.OnTrack) (ip : Option Word) (ok : Bool)
    (hs : ∀ addr, ip = some addr → ¬ (addr ≠ 0 ∧ c.link = .none ∧ ok = false)) :
    (c.userTcpDnsFound ip ok).OnTrack := by
  have hlow : OnTrack { c with reconnCnt := 0, isConnectServer := false, flagDnsDiscovery := false } :=
    h.imp_right (Or.imp_right fun hf => ⟨rfl, hf.2⟩)
  unfold TcpClient.userTcpDnsFound
  cases ip with
  | none => exact hlow
  | some addr =>
    by_cases ha : addr = 0
    · simp only [if_pos ha]; exact hlow
    · simp only [if_neg ha]
      refine .inl fun hn => ?_
      rw [espconnConnect_link] at hn
      exact hs addr rfl ⟨ha, hn.1, hn.2⟩

theorem OnTrack.of_same {d : TcpClient} (h : c.OnTrack) (hs : SameConnection c d) : d.OnTrack := by
  unfold OnTrack
  rw [hs.link, hs.dnsTimer, hs.flagDnsDiscovery, hs.isDnsFound]
  exact h

theorem OnTrack.funcProcessHead (h : c.OnTrack) (w : Wifi) : (c.funcProcessHead w).OnTrack := by
  rcases c.funcProcessHead_cases w with ⟨-, he⟩ | ⟨-, -, he⟩ | ⟨-, -, -, he⟩ | ⟨-, -, -, he⟩ <;> rw [he]
  · exact .inr (.inr ⟨rfl, rfl⟩)
  · exact h
  · exact .inr (.inl rfl)
  · exact h

/-- A step that does not strand the client keeps it on track. -/
theorem OnTrack.step (h : c.OnTrack) {e : TcpEvent} (hs : ¬ c.Strands e) : (c.step e).OnTrack := by
  unfold TcpClient.step
  by_cases he : c.Enabled e
  swap
  · rw [if_neg he]; exact h
  rw [if_pos he]
  cases e with
  | tick w => exact h.funcProcessHead w
  | loopEnd => exact h.of_same c.sameConnection_funcProcessTail
  | status s ok => exact h.userTcpStatus s ok
  | dnsTimer => exact h
  | dnsFound ip ok =>
    apply OnTrack.userTcpDnsFound (c := { c with queries := c.queries - 1 }) h ip ok
    rintro addr rfl
    exact hs
  | connectCb => exact .inl nofun
  | disconnectCb ok => exact userTcpReconnect_onTrack (c := { c with link := .none }) ok fun _ => hs
  | reconnectCb ok => exact userTcpReconnect_onTrack (c := { c with link := .none }) ok fun _ => hs
  | keyShortPress =>
    apply onTrack_iff.mpr
    intro hn
    have hl : c.espconnDisconnect.link = .none := hn
    have hh : ¬ c.Hangs := onTrack_iff.mp h (espconnDisconnect_link.mp hl)
    exact hh
  | smartconfigDone s => cases s <;> exact h
  | smartconfigTimeout => exact h
  | sendPipe pbuf len => exact h.of_same (c.sameConnection_userTcpSendPipe pbuf len)

end TcpClient

/-- In every run without a stranding step, the client always has a way to recover. -/
theorem recoverable_of_not_strands (m : Mem Byte) (buf : Nat) (es : List TcpEvent)
    (h : Along TcpClient.step (fun c e => ¬ c.Strands e) (userTcpClientInit m buf) es) :
    (run TcpClient.step (userTcpClientInit m buf) es).Recoverable := fun _ =>
  h.inv (I := TcpClient.OnTrack) (fun _ _ hi hs => hi.step hs) (.inr (.inr ⟨rfl, rfl⟩))

/-- A name server that answers after a second, and a server that is not there
yet: the retry succeeds. -/
theorem recoverable_slow_server :
    (run TcpClient.step (userTcpClientInit (fun _ => 0) 64)
      [onlineTick, .loopEnd, .dnsTimer, .dnsFound (some 0x08080808) true, .reconnectCb true]).Recoverable :=
  recoverable_of_not_strands _ _ _ (by decide)

/-- The address is lost between the query and its answer: `espconn_connect`
fails at once, and nothing starts over. -/
theorem connect_error_strands : ¬ ∀ (m : Mem Byte) (buf : Nat) (es : List TcpEvent),
    (run TcpClient.step (userTcpClientInit m buf) es).Recoverable := by
  intro h
  have hr := h (fun _ => 0) 64 [onlineTick, .loopEnd, .dnsTimer, .dnsFound (some 0x08080808) false] rfl
  revert hr
  decide

end Nonos
