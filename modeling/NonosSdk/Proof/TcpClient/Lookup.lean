import NonosSdk.Framework.Runs
import NonosSdk.Proof.TcpClient.Handlers

/-!
# Late DNS answers

`dns_timer` fires once a second, and every firing sends a query of its own,
so several may be under way when the first address arrives. `Lookup` gives the
queries numbers, in the order in which they are sent; each is answered once,
at any time. The first answer with an address stops the timer and connects
to it, once (`first_connects`). `user_tcp_dns_found` treats the answers to the
other queries alike: it asks none of the flags, lowers `isConnectServer`, resets
`reconn_cnt` and connects again. So a run is undisturbed exactly if each of
these answers brings no address and finds both of them down already
(`undisturbed_iff_quiet`).
-/

namespace Nonos

/-- `e` is the answer to a query. -/
def TcpEvent.isAnswer : TcpEvent → Bool
  | .dnsFound _ _ => true
  | _ => false

/-- What happens to the client, and the answers, each to a query of its own. -/
inductive LookupEvent where
  | other (e : TcpEvent)
  | answer (query : Nat) (ip : Option Word) (ok : Bool)

/-- The client, and the queries it has under way. -/
structure Lookup where
  client : TcpClient
  /-- How many queries have been sent: those with the numbers below. -/
  sent : Nat
  unanswered : List Nat
  /-- How many had been sent when the first address arrived. -/
  found : Option Nat

namespace Lookup

/-- After `user_tcp_start_dns`. Queries of an earlier search may be under way. -/
def start (c : TcpClient) : Lookup where
  client := c.userTcpStartDns
  sent := c.queries
  unanswered := List.range c.queries
  found := none

/-- An unanswered query can be answered at any time, except inside `XlinkSystemLoop`. -/
def Enabled (s : Lookup) : LookupEvent → Prop
  | .other e => e.isAnswer = false ∧ s.client.Enabled e
  | .answer query _ _ => query ∈ s.unanswered ∧ s.client.inLoop = false

instance (s : Lookup) : (e : LookupEvent) → Decidable (s.Enabled e)
  | .other _ => inferInstanceAs (Decidable (_ ∧ _))
  | .answer _ _ _ => inferInstanceAs (Decidable (_ ∧ _))

/-- The code that runs on an event, and what becomes of the queries. -/
def handle (s : Lookup) : LookupEvent → Lookup
  | .other .dnsTimer =>
    { s with client := s.client.handle .dnsTimer, sent := s.sent + 1, unanswered := s.unanswered ++ [s.sent] }
  | .other e => { s with client := s.client.handle e }
  | .answer query ip ok =>
    { s with client := s.client.handle (.dnsFound ip ok), unanswered := s.unanswered.erase query,
             found := if s.found = none ∧ ip.getD 0 ≠ 0 then some s.sent else s.found }

def step (s : Lookup) (e : LookupEvent) : Lookup := if s.Enabled e then s.handle e else s

/-- The query was sent before the first address arrived, and that is past. -/
def Late (s : Lookup) (query : Nat) : Prop := query < s.found.getD 0

instance (s : Lookup) (query : Nat) : Decidable (s.Late query) := inferInstanceAs (Decidable (_ < _))

/-- What an event should do: the first address stops the timer and is connected
to, once; a late answer connects to nothing and changes neither flag nor counter. -/
def Undisturbed (s : Lookup) : LookupEvent → Prop
  | .other _ => True
  | .answer query ip ok =>
    let s' := s.handle (.answer query ip ok)
    s.Enabled (.answer query ip ok) →
      (s.found = none → ip.getD 0 ≠ 0 → s'.client.dnsTimer = false ∧
        s'.client.connects = s.client.connects ++ [ip.getD 0]) ∧
      (s.Late query → s'.client.connects = s.client.connects ∧
        s'.client.isConnectServer = s.client.isConnectServer ∧ s'.client.reconnCnt = s.client.reconnCnt)

/-- A late answer brings no address and comes while the client is neither logged in nor
retrying. -/
def Quiet (s : Lookup) : LookupEvent → Prop
  | .other _ => True
  | .answer query ip ok => s.Enabled (.answer query ip ok) → s.Late query →
      ip.getD 0 = 0 ∧ s.client.isConnectServer = false ∧ s.client.reconnCnt = 0

instance (s : Lookup) : (e : LookupEvent) → Decidable (s.Undisturbed e)
  | .other _ => isTrue trivial
  | .answer _ _ _ => inferInstanceAs (Decidable (_ → _ ∧ _))

/-- `user_tcp_dns_found` with an address. -/
theorem userTcpDnsFound_address (c : TcpClient) {ip : Option Word} (h : ip.getD 0 ≠ 0) (ok : Bool) :
    (c.userTcpDnsFound ip ok).dnsTimer = false ∧
      (c.userTcpDnsFound ip ok).connects = c.connects ++ [ip.getD 0] := by
  cases ip with
  | none => exact absurd rfl h
  | some addr =>
    simp only [TcpClient.userTcpDnsFound, if_neg (show ¬ addr = 0 from h)]
    exact ⟨rfl, rfl⟩

/-- Without one. -/
theorem userTcpDnsFound_no_address (c : TcpClient) {ip : Option Word} (h : ip.getD 0 = 0) (ok : Bool) :
    (c.userTcpDnsFound ip ok).connects = c.connects := by
  cases ip with
  | none => rfl
  | some addr => simp only [TcpClient.userTcpDnsFound, if_pos (show addr = 0 from h)]

/-- The flag and the counter are reset either way. -/
theorem userTcpDnsFound_resets (c : TcpClient) (ip : Option Word) (ok : Bool) :
    (c.userTcpDnsFound ip ok).isConnectServer = false ∧ (c.userTcpDnsFound ip ok).reconnCnt = 0 := by
  unfold TcpClient.userTcpDnsFound
  cases ip with
  | none => exact ⟨rfl, rfl⟩
  | some addr =>
    dsimp only
    split <;> exact ⟨rfl, rfl⟩

/-- The first address, whatever has happened before it. -/
theorem first_connects (s : Lookup) (query : Nat) {ip : Option Word} (h : ip.getD 0 ≠ 0) (ok : Bool) :
    (s.handle (.answer query ip ok)).client.dnsTimer = false ∧
      (s.handle (.answer query ip ok)).client.connects = s.client.connects ++ [ip.getD 0] :=
  userTcpDnsFound_address { s.client with queries := s.client.queries - 1 } h ok

/-- A late answer leaves the session alone exactly if it is a quiet one. -/
theorem late_undisturbed_iff (s : Lookup) (query : Nat) (ip : Option Word) (ok : Bool) :
    ((s.handle (.answer query ip ok)).client.connects = s.client.connects ∧
      (s.handle (.answer query ip ok)).client.isConnectServer = s.client.isConnectServer ∧
      (s.handle (.answer query ip ok)).client.reconnCnt = s.client.reconnCnt) ↔
    ip.getD 0 = 0 ∧ s.client.isConnectServer = false ∧ s.client.reconnCnt = 0 := by
  obtain ⟨hf, hr⟩ := userTcpDnsFound_resets { s.client with queries := s.client.queries - 1 } ip ok
  have hflag : (s.handle (.answer query ip ok)).client.isConnectServer = false := hf
  have hcnt : (s.handle (.answer query ip ok)).client.reconnCnt = 0 := hr
  rw [hflag, hcnt]
  refine and_congr ⟨fun hc => ?_, fun h => ?_⟩ (and_congr eq_comm eq_comm)
  · by_contra h
    rw [(first_connects s query h ok).2] at hc
    simpa using congrArg List.length hc
  · exact userTcpDnsFound_no_address { s.client with queries := s.client.queries - 1 } h ok

theorem undisturbed_iff_quiet_step (s : Lookup) (e : LookupEvent) : s.Undisturbed e ↔ s.Quiet e := by
  cases e with
  | other e => exact Iff.rfl
  | answer query ip ok =>
    apply forall_congr'
    intro _
    rw [← late_undisturbed_iff]
    exact and_iff_right fun _ h => first_connects s query h ok

/-- In a run after `user_tcp_start_dns`, the first address is connected to and no later
answer to an earlier query disturbs the session, exactly if all of these are quiet. -/
theorem undisturbed_iff_quiet (c : TcpClient) (es : List LookupEvent) :
    Along step Undisturbed (start c) es ↔ Along step Quiet (start c) es :=
  Along.congr (I := fun _ => True) (fun _ _ _ => trivial) (fun s e _ => undisturbed_iff_quiet_step s e)
    trivial es

/-- Two queries under way, the first of them answered, and a login; the answer to the
second one takes the session down. -/
theorem late_answer_disturbs : ¬ Along step Undisturbed (start (userTcpClientInit (fun _ => 0) 0x1000))
    [.other .dnsTimer, .other .dnsTimer, .answer 0 (some 0x0A00000A) true, .other .connectCb,
      .other (.status .loginSuccess true), .answer 1 (some 0x0A00000A) true] := by
  decide

end Lookup

end Nonos
