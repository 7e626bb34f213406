import NonosSdk.Framework.Runs
import NonosSdk.Impl.TcpClient

/-!
# What the client's functions do

Each function by what it leaves behind: `user_tcp_reconnect` returns, starts
over or retries (`userTcpReconnect_cases`), a tick goes one of four ways
(`funcProcessHead_cases`), and the functions that move bytes leave the
connection alone (`SameConnection`). A `user_tcp_func_process` that the interrupt
does not divide is the run of its events (`run_userTcpFuncProcess`).
-/

namespace Nonos

namespace TcpClient

variable {c : TcpClient}

theorem espconnDisconnect_link : c.espconnDisconnect.link = .none ↔ c.link = .none := by
  unfold espconnDisconnect
  cases c.link <;> simp

theorem espconnConnect_link (ok : Bool) :
    (c.espconnConnect ok).link = .none ↔ c.link = .none ∧ ok = false := by
  unfold espconnConnect
  by_cases h : c.link = .none <;> cases ok <;> simp [h]

/-- What `user_tcp_reconnect` does: nothing during smartconfig, start over after
five retries, or retry. -/
theorem userTcpReconnect_cases (c : TcpClient) (ok : Bool) :
    c.smartconfigStatus = true ∧ c.userTcpReconnect ok = { c with reconnCnt := 0 } ∨
    c.smartconfigStatus = false ∧ c.reconnCnt + 1 > 5 ∧ c.userTcpReconnect ok =
      { c.espconnDisconnect with
        reconnCnt := 0, isDnsFound := false, isConnectServer := false, flagDnsDiscovery := false } ∨
    c.smartconfigStatus = false ∧ ¬ c.reconnCnt + 1 > 5 ∧
      c.userTcpReconnect ok = { c with reconnCnt := c.reconnCnt + 1 }.espconnDisconnect.espconnConnect ok := by
  unfold userTcpReconnect
  by_cases hs : c.smartconfigStatus = true
  · exact .inl ⟨hs, if_pos hs⟩
  · have hs' : c.smartconfigStatus = false := by simpa using hs
    rw [if_neg hs]
    by_cases hr : c.reconnCnt + 1 > 5
    · exact .inr (.inl ⟨hs', hr, if_pos hr⟩)
    · exact .inr (.inr ⟨hs', hr, if_neg hr⟩)

/-- What a tick does up to `XlinkSystemLoop`: forget the server in another mode,
nothing without an address, start looking for the server, or go on. -/
theorem funcProcessHead_cases (c : TcpClient) (w : Wifi) :
    w.mode ≠ .station ∧ c.funcProcessHead w =
      { c with reconnCnt := 0, isConnectServer := false, flagDnsDiscovery := false, isDnsFound := false } ∨
    w.mode = .station ∧ ¬ (w.status = .gotIp ∧ w.ip ≠ 0) ∧ c.funcProcessHead w = c ∨
    w.mode = .station ∧ (w.status = .gotIp ∧ w.ip ≠ 0) ∧
      (c.flagDnsDiscovery = false ∧ c.isDnsFound = false) ∧ c.funcProcessHead w =
        { { c with flagDnsDiscovery := true, reconnCnt := 0 }.userTcpStartDns with
          loopTimes := c.loopTimes ++ [w.time / 1000000], inLoop := true } ∨
    w.mode = .station ∧ (w.status = .gotIp ∧ w.ip ≠ 0) ∧
      ¬ (c.flagDnsDiscovery = false ∧ c.isDnsFound = false) ∧ c.funcProcessHead w =
        { c with loopTimes := c.loopTimes ++ [w.time / 1000000], inLoop := true } := by
  unfold funcProcessHead
  by_cases hm : w.mode = .station
  · rw [if_pos hm]
    by_cases hi : w.status = .gotIp ∧ w.ip ≠ 0
    · rw [if_pos hi]
      by_cases hf : c.flagDnsDiscovery = false ∧ c.isDnsFound = false
      · exact .inr (.inr (.inl ⟨hm, hi, hf, by simp only [if_pos hf]; rfl⟩))
      · exact .inr (.inr (.inr ⟨hm, hi, hf, by simp only [if_neg hf]⟩))
    · exact .inr (.inl ⟨hm, hi, if_neg hi⟩)
  · exact .inl ⟨hm, if_neg hm⟩

/-- Everything about the connection is as before. -/
structure SameConnection (c d : TcpClient) : Prop where
  link : d.link = c.link
  isConnectServer : d.isConnectServer = c.isConnectServer
  flagDnsDiscovery : d.flagDnsDiscovery = c.flagDnsDiscovery
  isDnsFound : d.isDnsFound = c.isDnsFound
  dnsTimer : d.dnsTimer = c.dnsTimer

theorem sameConnection_funcProcessTail (c : TcpClient) : SameConnection c c.funcProcessTail := by
  unfold funcProcessTail userTcpSendLoop
  simp only
  split_ifs <;> exact ⟨rfl, rfl, rfl, rfl, rfl⟩

theorem sameConnection_userTcpSendPipe (c : TcpClient) (pbuf : Nat → Byte) (len : BitVec 16) :
    SameConnection c (c.userTcpSendPipe pbuf len) := by
  unfold userTcpSendPipe
  split_ifs <;> exact ⟨rfl, rfl, rfl, rfl, rfl⟩

theorem userTcpStatus_inLoop (s : XlinkAppStatus) (ok : Bool) :
    (c.userTcpStatus s ok).inLoop = c.inLoop := by
  cases s with
  | disconnctServer =>
    show (userTcpReconnect { c with isConnectServer := false } ok).inLoop = c.inLoop
    rcases userTcpReconnect_cases { c with isConnectServer := false } ok with
      ⟨-, he⟩ | ⟨-, -, he⟩ | ⟨-, -, he⟩ <;> rw [he] <;> rfl
  | proTestcomplete | connectServer | appConnect | appDisconnect | appTimeout | loginSuccess => rfl

/-- The events of a whole `user_tcp_func_process`. -/
theorem run_userTcpFuncProcess (c : TcpClient) (hi : c.inLoop = false) (w : Wifi)
    (calls : List (XlinkAppStatus × Bool)) : c.userTcpFuncProcess w calls =
      if (c.funcProcessHead w).inLoop then
        run step c (.tick w :: calls.map (fun s => .status s.1 s.2) ++ [.loopEnd])
      else run step c [.tick w] := by
  have htick : c.step (.tick w) = c.funcProcessHead w := if_pos hi
  have hcalls : ∀ (calls : List (XlinkAppStatus × Bool)) (d : TcpClient),
      run step d (calls.map fun s => .status s.1 s.2) = calls.foldl (fun c s => c.userTcpStatus s.1 s.2) d ∧
        (calls.foldl (fun c s => c.userTcpStatus s.1 s.2) d).inLoop = d.inLoop := by
    intro calls
    induction calls with
    | nil => exact fun d => ⟨rfl, rfl⟩
    | cons s calls ih =>
      intro d
      obtain ⟨h1, h2⟩ := ih (d.userTcpStatus s.1 s.2)
      exact ⟨h1, h2.trans (userTcpStatus_inLoop s.1 s.2)⟩
  unfold userTcpFuncProcess
  simp only
  by_cases hl : (c.funcProcessHead w).inLoop = true
  · obtain ⟨h1, h2⟩ := hcalls calls (c.funcProcessHead w)
    rw [if_pos hl, if_pos hl, List.cons_append, run_cons, htick, run_append, h1]
    exact (if_pos (h2.trans hl)).symm
  · rw [if_neg hl, if_neg hl, run_cons, htick, run_nil]

end TcpClient

/-- A tick with an address of its own. -/
def onlineTick : TcpEvent := .tick ⟨.station, .gotIp, 0x0100A8C0, 0⟩

end Nonos
