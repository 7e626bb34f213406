import NonosSdk.Proof.TcpClient.Handlers

/-!
# When queued bytes leave the ring

`Session` adds to the client whether Xlink has reported a login since the link
was last established. `user_tcp_send_loop` goes by `isConnectServer` alone. In
runs where that flag is raised only on an established link and no link with the
flag up goes away without lowering it (`Session.Orderly`), the flag implies a
live session, so bytes are only read from the ring over one (`drains_live`).
The callbacks of espconn do not lower it, except on the sixth retry, nor does a
short key press: after a broken connection the bytes queued meanwhile are read
and lost (`broken_link_drains`).
-/

namespace Nonos

/-- The client, and whether a login was reported since its link was established. -/
structure Session where
  c : TcpClient
  login : Bool

namespace Session

def start (m : Mem Byte) (buf : Nat) : Session := ⟨userTcpClientInit m buf, false⟩

def step (x : Session) (e : TcpEvent) : Session where
  c := x.c.step e
  login :=
    match e with
    | .connectCb => if x.c.Enabled .connectCb then false else x.login
    | .status .loginSuccess _ => true
    | _ => x.login

/-- The next call is `user_tcp_send_loop`, and it removes bytes from the ring. -/
def Drains (x : Session) : Prop :=
  x.c.inLoop = true ∧ userRbUnreadSize x.c.userTcpSendLoop.ring.rb ≠ userRbUnreadSize x.c.ring.rb

/-- The link is established, and a login was reported since. -/
def Live (x : Session) : Prop := x.c.link = .connected ∧ x.login = true

/-- A login is reported on an established link only; a link with the flag up
does not end by a key press, nor by a callback that leaves the flag up. -/
def Orderly (x : Session) : TcpEvent → Prop
  | .status .loginSuccess _ => x.c.link = .connected
  | .keyShortPress => x.c.isConnectServer = false
  | .disconnectCb _ | .reconnectCb _ =>
    x.c.isConnectServer = false ∨ x.c.smartconfigStatus = false ∧ x.c.reconnCnt + 1 > 5
  | _ => True

instance (x : Session) : (e : TcpEvent) → Decidable (x.Orderly e)
  | .status .loginSuccess _ | .keyShortPress => inferInstanceAs (Decidable (_ = _))
  | .disconnectCb _ | .reconnectCb _ => inferInstanceAs (Decidable (_ ∨ _))
  | .status .proTestcomplete _ | .status .connectServer _ | .status .disconnctServer _
  | .status .appConnect _ | .status .appDisconnect _ | .status .appTimeout _
  | .tick _ | .loopEnd | .dnsTimer | .dnsFound _ _ | .connectCb
  | .smartconfigDone _ | .smartconfigTimeout | .sendPipe _ _ => inferInstanceAs (Decidable True)

instance (x : Session) : Decidable x.Drains := inferInstanceAs (Decidable (_ ∧ _))

instance (x : Session) : Decidable x.Live := inferInstanceAs (Decidable (_ ∧ _))

/-- The flag stands for a live session. -/
def Inv (x : Session) : Prop := x.c.isConnectServer = true → x.Live

variable {x : Session}

/-- A step that lowers the flag. -/
theorem inv_of_lowered (h : x.c.isConnectServer = false) : x.Inv := by
  intro hc; rw [h] at hc; cases hc

end Session

namespace TcpClient

variable {c : TcpClient}

/-- `user_tcp_reconnect` never raises the flag. -/
theorem userTcpReconnect_isConnectServer (ok : Bool) (h : c.isConnectServer = false) :
    (c.userTcpReconnect ok).isConnectServer = false := by
  rcases c.userTcpReconnect_cases ok with ⟨-, he⟩ | ⟨-, -, he⟩ | ⟨-, -, he⟩ <;> rw [he]
  · exact h
  · exact h

theorem userTcpReconnect_lowers (ok : Bool)
    (h : c.isConnectServer = false ∨ c.smartconfigStatus = false ∧ c.reconnCnt + 1 > 5) :
    (c.userTcpReconnect ok).isConnectServer = false := by
  rcases h with h | ⟨hs, hr⟩
  · exact userTcpReconnect_isConnectServer ok h
  · rcases c.userTcpReconnect_cases ok with ⟨hs', -⟩ | ⟨-, -, he⟩ | ⟨-, hr', -⟩
    · rw [hs] at hs'; cases hs'
    · rw [he]
    · exact absurd hr hr'

theorem userTcpDnsFound_isConnectServer (ip : Option Word) (ok : Bool) :
    (c.userTcpDnsFound ip ok).isConnectServer = false := by
  unfold userTcpDnsFound
  cases ip with
  | none => rfl
  | some addr => simp only; split <;> rfl

end TcpClient

namespace Session

variable {x : Session}

/-- A step that changes neither the flag nor the link nor the login. -/
theorem Inv.of_eq {y : Session} (h : x.Inv) (hs : y.c.isConnectServer = x.c.isConnectServer)
    (hl : y.c.link = x.c.link) (hg : y.login = x.login) : y.Inv := fun hc =>
  ⟨hl.trans (h (hs.symm.trans hc)).1, hg.trans (h (hs.symm.trans hc)).2⟩

theorem step_of_not_enabled {e : TcpEvent} (he : ¬ x.c.Enabled e) : x.step e = x := by
  have hc : x.c.step e = x.c := if_neg he
  cases e with
  | connectCb => simp only [step, hc, if_neg he]
  | status s ok => exact absurd trivial he
  | _ => simp only [step, hc]

/-- The periodic task leaves flag and link alone, or lowers the flag. -/
theorem Inv.tick (h : x.Inv) (w : Wifi) : (⟨x.c.funcProcessHead w, x.login⟩ : Session).Inv := by
  rcases x.c.funcProcessHead_cases w with ⟨-, he⟩ | ⟨-, -, he⟩ | ⟨-, -, -, he⟩ | ⟨-, -, -, he⟩ <;> rw [he]
  · exact inv_of_lowered rfl
  · exact h
  · exact h.of_eq rfl rfl rfl
  · exact h.of_eq rfl rfl rfl

theorem Inv.of_same {y : Session} (h : x.Inv) (hs : TcpClient.SameConnection x.c y.c)
    (hg : y.login = x.login) : y.Inv :=
  h.of_eq hs.isConnectServer hs.link hg

/-- An orderly step keeps it. -/
theorem Inv.step (h : x.Inv) {e : TcpEvent} (ho : x.Orderly e) : (x.step e).Inv := by
  by_cases he : x.c.Enabled e
  swap
  · rw [step_of_not_enabled he]; exact h
  have hc : (x.step e).c = x.c.handle e := if_pos he
  cases e with
  | tick w => exact (h.tick w).of_eq (by rw [hc]; rfl) (by rw [hc]; rfl) rfl
  | loopEnd => exact h.of_same (by rw [hc]; exact x.c.sameConnection_funcProcessTail) rfl
  | status s ok =>
    cases s with
    | loginSuccess => exact fun _ => ⟨by rw [hc]; exact ho, rfl⟩
    | disconnctServer =>
      apply inv_of_lowered
      rw [hc]; exact TcpClient.userTcpReconnect_isConnectServer ok rfl
    | proTestcomplete | connectServer | appConnect | appDisconnect | appTimeout =>
      exact h.of_eq (by rw [hc]; rfl) (by rw [hc]; rfl) rfl
  | dnsTimer => exact h.of_eq (by rw [hc]; rfl) (by rw [hc]; rfl) rfl
  | dnsFound ip ok =>
    apply inv_of_lowered
    rw [hc]; exact TcpClient.userTcpDnsFound_isConnectServer ip ok
  | connectCb =>
    -- the link was not established, so the flag is down
    have hf : x.c.isConnectServer = false := by
      by_contra hf
      have hl := (h (by simpa using hf)).1
      rw [he.2] at hl; cases hl
    exact inv_of_lowered (by rw [hc]; exact hf)
  | disconnectCb ok =>
    apply inv_of_lowered
    rw [hc]; exact TcpClient.userTcpReconnect_lowers (c := { x.c with link := .none }) ok ho
  | reconnectCb ok =>
    apply inv_of_lowered
    rw [hc]; exact TcpClient.userTcpReconnect_lowers (c := { x.c with link := .none }) ok ho
  | keyShortPress => exact inv_of_lowered (by rw [hc]; exact ho)
  | smartconfigDone s => cases s <;> exact h.of_eq (by rw [hc]; rfl) (by rw [hc]; rfl) rfl
  | smartconfigTimeout => exact h.of_eq (by rw [hc]; rfl) (by rw [hc]; rfl) rfl
  | sendPipe pbuf len => exact h.of_same (by rw [hc]; exact x.c.sameConnection_userTcpSendPipe pbuf len) rfl

/-- Without the flag, `user_tcp_send_loop` does nothing. -/
theorem Drains.flag (h : x.Drains) : x.c.isConnectServer = true := by
  by_contra hf
  apply h.2
  rw [TcpClient.userTcpSendLoop, if_neg hf]

end Session

/-- In every orderly run, bytes leave the ring over a live session only. -/
theorem drains_live (m : Mem Byte) (buf : Nat) (es : List TcpEvent)
    (h : Along Session.step Session.Orderly (Session.start m buf) es)
    (hd : (run Session.step (Session.start m buf) es).Drains) :
    (run Session.step (Session.start m buf) es).Live :=
  h.inv (I := Session.Inv) (fun _ _ hi ho => hi.step ho) (Session.inv_of_lowered rfl) hd.flag

/-- A connection, and a login on it. -/
def loginEvents : List TcpEvent :=
  [onlineTick, .loopEnd, .dnsTimer, .dnsFound (some 0x08080808) true, .connectCb, .status .loginSuccess true]

/-- A byte sent over the session just opened. -/
theorem drains_live_login :
    (run Session.step (Session.start (fun _ => 0) 64)
      (loginEvents ++ [.sendPipe (fun _ => 7) 1, onlineTick])).Live :=
  drains_live _ _ _ (by decide) (by decide)

/-- The connection breaks after the login: the flag stays up, and the next tick
reads the queued byte while espconn is still connecting. -/
theorem broken_link_drains : ¬ ∀ (m : Mem Byte) (buf : Nat) (es : List TcpEvent),
    (run Session.step (Session.start m buf) es).Drains →
    (run Session.step (Session.start m buf) es).Live := by
  intro h
  have hl := h (fun _ => 0) 64
    (loginEvents ++ [.sendPipe (fun _ => 7) 1, .reconnectCb true, onlineTick]) (by decide)
  revert hl
  decide

end Nonos
