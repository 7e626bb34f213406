import NonosSdk.Framework.Runs
import NonosSdk.Impl.TcpClient
import NonosSdk.Proof.RingBuffer.Contents

/-!
# Bytes on their way to the cloud

`user_tcp_send_loop` reads the ring into `tcp_send_buffer`, which is the
ring's own storage, and a `user_tcp_send_pipe` may come between its calls.
`Uplink` runs the two, the loop one call at a time, and keeps the bytes the
ring has accepted.

The payloads Xlink gets are the accepted bytes, in order, in every run in
which no copy reaches a cell that is still to be read (`Uplink.Clear`): a read
finds the unread bytes in one piece, and a `put` between the read and the send
stays out of the payload (`payloads_of_clear`). Nothing in the code ensures
that, and a run that only wraps once shows it (`wrapped_read_corrupts`).
-/

namespace Nonos

/-- Where `user_tcp_send_loop` is: before `user_rb_unread_size`, before
`user_rb_get`, or before `XlinkSendTcpPipe2`. -/
inductive SendPhase where
  | idle
  | sized (len : Word)
  | copied (len : Word)

inductive UplinkEvent where
  /-- `user_tcp_send_pipe`. -/
  | pipe (pbuf : Nat → Byte) (len : BitVec 16)
  /-- The next call of `user_tcp_send_loop`. -/
  | loop

/-- The client, the progress of its send loop, and what its ring has accepted. -/
structure Uplink where
  c : TcpClient
  phase : SendPhase
  accepted : List Byte

namespace Uplink

/-- `user_tcp_client_init`, and a connection. -/
def start (m : Mem Byte) (buf : Nat) : Uplink :=
  ⟨{ userTcpClientInit m buf with isConnectServer := true }, .idle, []⟩

/-- How many bytes `user_rb_put` accepts in a `user_tcp_send_pipe`. -/
def accepts (u : Uplink) (pbuf : Nat → Byte) (len : BitVec 16) : Nat :=
  if u.c.isConnectServer then (userRbPut u.c.ring pbuf (len.setWidth 32)).1.toNat else 0

def step (u : Uplink) : UplinkEvent → Uplink
  | .pipe pbuf len =>
    { u with c := u.c.userTcpSendPipe pbuf len,
             accepted := u.accepted ++ (List.range (u.accepts pbuf len)).map pbuf }
  | .loop =>
    match u.phase with
    | .idle =>
      if u.c.isConnectServer ∧ userRbUnreadSize u.c.ring.rb ≠ 0 then
        { u with phase := .sized (userRbUnreadSize u.c.ring.rb) }
      else u
    | .sized len => { u with c := u.c.sendLoopGet len, phase := .copied len }
    | .copied len => { u with c := u.c.xlinkSendTcpPipe2 len, phase := .idle }

/-- Not interrupted, the loop's calls are `user_tcp_send_loop`. -/
theorem run_loop (u : Uplink) (hi : u.phase = .idle) (hc : u.c.isConnectServer = true)
    (hu : userRbUnreadSize u.c.ring.rb ≠ 0) :
    run step u [.loop, .loop, .loop] = { u with c := u.c.userTcpSendLoop } := by
  have h1 : u.step .loop = { u with phase := .sized (userRbUnreadSize u.c.ring.rb) } := by
    simp only [step, hi]; rw [if_pos ⟨hc, hu⟩]
  have h2 : u.c.userTcpSendLoop = (u.c.sendLoopGet (userRbUnreadSize u.c.ring.rb)).xlinkSendTcpPipe2
      (userRbUnreadSize u.c.ring.rb) := by
    simp only [TcpClient.userTcpSendLoop, hc, if_true]; rw [if_neg hu]
  rw [run_cons, h1, h2, hi]
  rfl

/-- A `put` does not fill the ring. -/
def NoFill (u : Uplink) : UplinkEvent → Prop
  | .pipe _ len => len.toNat < u.c.ring.rb.size.toNat - (userRbUnreadSize u.c.ring.rb).toNat
  | .loop => True

/-- No copy reaches a cell that is still to be read: when `user_rb_get` runs,
the unread bytes do not go past the end of the storage, and what a `put`
writes before the send lies behind the payload. -/
def Clear (u : Uplink) : UplinkEvent → Prop
  | .pipe pbuf len =>
    match u.phase with
    | .copied n => u.accepts pbuf len = 0 ∨ n.toNat ≤ u.c.ring.rb.head.toNat ∧
        u.c.ring.rb.head.toNat + u.accepts pbuf len ≤ u.c.ring.rb.size.toNat
    | _ => True
  | .loop =>
    match u.phase with
    | .sized _ => u.c.ring.rb.tail.toNat + (userRbUnreadSize u.c.ring.rb).toNat ≤ u.c.ring.rb.size.toNat
    | _ => True

instance (u : Uplink) : ∀ e, Decidable (u.NoFill e)
  | .pipe _ _ => inferInstanceAs (Decidable (_ < _))
  | .loop => isTrue trivial

instance (u : Uplink) (e : UplinkEvent) : Decidable (u.Clear e) :=
  match u, e with
  | ⟨_, .copied _, _⟩, .pipe _ _ => inferInstanceAs (Decidable (_ = _ ∨ _ ≤ _ ∧ _ ≤ _))
  | ⟨_, .idle, _⟩, .pipe _ _ => isTrue trivial
  | ⟨_, .sized _, _⟩, .pipe _ _ => isTrue trivial
  | ⟨_, .sized _, _⟩, .loop => inferInstanceAs (Decidable (_ ≤ _))
  | ⟨_, .idle, _⟩, .loop => isTrue trivial
  | ⟨_, .copied _, _⟩, .loop => isTrue trivial

/-- The bytes copied to the start of the buffer and not sent yet. -/
def pending (u : Uplink) : List Byte :=
  match u.phase with
  | .copied n => u.c.ring.mem.cells u.c.sendBuffer n.toNat
  | _ => []

/-- Everything accepted was sent, is in the buffer's copied part, or is unread. -/
structure Inv (u : Uplink) : Prop where
  valid : u.c.ring.rb.Valid
  pbuf : u.c.ring.rb.pbuf = u.c.sendBuffer
  conn : u.c.isConnectServer = true
  sized : ∀ n, u.phase = .sized n → n.toNat ≤ u.c.ring.rb.used
  copied : ∀ n, u.phase = .copied n → n.toNat ≤ u.c.ring.rb.size.toNat
  law : u.c.pipe2.flatten ++ u.pending ++ u.c.ring.unread = u.accepted

theorem start_inv (m : Mem Byte) {buf : Nat} (hb : buf ≠ 0) : (start m buf).Inv := by
  have h1 : 1 ≤ tcpSendBufferSize.toNat := by decide
  have h2 : tcpSendBufferSize.toNat ≤ 2 ^ 31 := by decide
  refine ⟨userRbInit_valid _ hb h1 h2, ?_, rfl, fun n h => ?_, fun n h => ?_, ?_⟩
  · simp only [start, userTcpClientInit, userRbInit_eq _ hb h1]
  · cases h
  · cases h
  · simp only [start, userTcpClientInit, userRbInit_unread _ hb h1 h2]; rfl

theorem accepts_eq {u : Uplink} (h : u.Inv) (pbuf : Nat → Byte) (len : BitVec 16) :
    u.accepts pbuf len = u.c.ring.rb.accepts (len.setWidth 32) := by
  rw [accepts, if_pos h.conn, userRbPut_count h.valid]

/-- A `put` that leaves the payload alone. -/
theorem step_pipe {u : Uplink} (h : u.Inv) {pbuf : Nat → Byte} {len : BitVec 16}
    (hf : u.NoFill (.pipe pbuf len)) (hc : u.Clear (.pipe pbuf len)) : (u.step (.pipe pbuf len)).Inv := by
  have hv := h.valid
  have hl : (len.setWidth 32 : Word).toNat = len.toNat := by simp; omega
  have hr : u.c.ring.rb.accepts (len.setWidth 32) < u.c.ring.rb.size.toNat - u.c.ring.rb.used := by
    rw [NoFill, userRbUnreadSize_toNat hv] at hf
    unfold Ringbuf.accepts; omega
  have hring : (u.step (.pipe pbuf len)).c.ring = (userRbPut u.c.ring pbuf (len.setWidth 32)).2 := by
    simp [step, TcpClient.userTcpSendPipe, h.conn]
  have hpend : (u.step (.pipe pbuf len)).pending = u.pending := by
    unfold pending
    simp only [step, TcpClient.userTcpSendPipe, h.conn, if_true]
    cases hp : u.phase with
    | idle => rfl
    | sized n => rfl
    | copied n =>
      have hn := h.copied n hp
      simp only [Clear, hp, accepts_eq h] at hc
      simp only [userRbPut_eq hv, ← h.pbuf]
      apply Mem.cells_congr
      intro i hi
      rcases hc with h0 | ⟨h1, h2⟩
      · rw [h0, Mem.ringWrite_zero]
      · apply Mem.ringWrite_of_back_ge _ _
        unfold back; split_ifs <;> omega
  refine ⟨?_, ?_, ?_, fun n hn => ?_, fun n hn => ?_, ?_⟩
  · rw [hring]; exact userRbPut_valid hv _ _
  · rw [hring, userRbPut_eq hv]
    simp only [step, TcpClient.userTcpSendPipe, h.conn, if_true]
    exact h.pbuf
  · simp only [step, TcpClient.userTcpSendPipe, h.conn, if_true]
  · rw [hring, userRbPut_used hv _ _ hr]
    exact Nat.le_trans (h.sized n hn) (Nat.le_add_right ..)
  · rw [hring, userRbPut_eq hv]; exact h.copied n hn
  · have hp2 : (u.step (.pipe pbuf len)).c.pipe2 = u.c.pipe2 := by
      simp only [step, TcpClient.userTcpSendPipe, h.conn, if_true]
    rw [hpend, hring, userRbPut_unread hv _ _ hr, hp2, ← List.append_assoc, h.law]
    simp only [step, accepts_eq h]

/-- A call of the send loop that finds the unread bytes in one piece. -/
theorem step_loop {u : Uplink} (h : u.Inv) (hc : u.Clear .loop) : (u.step .loop).Inv := by
  have hv := h.valid
  cases hp : u.phase with
  | idle =>
    simp only [step, hp]
    split
    · refine ⟨hv, h.pbuf, h.conn, fun n hn => ?_, fun n hn => ?_, ?_⟩
      · obtain rfl : userRbUnreadSize u.c.ring.rb = n := by simpa using hn
        exact Nat.le_of_eq (userRbUnreadSize_toNat hv)
      · cases hn
      · have := h.law; simp only [pending, hp] at this; exact this
    · exact h
  | sized len =>
    simp only [Clear, hp, userRbUnreadSize_toNat hv] at hc
    have hd : u.c.ring.rb.delivers len = len.toNat := Nat.min_eq_left (h.sized len hp)
    obtain ⟨h1, h2⟩ := userRbGet_unread_self hv len hc
    have hlt := hv.used_lt; have hle := h.sized len hp
    rw [hd, h.pbuf] at h1 h2
    simp only [step, hp, TcpClient.sendLoopGet]
    refine ⟨userRbGet_valid hv _ _, ?_, h.conn, fun n hn => ?_, fun n hn => ?_, ?_⟩
    · rw [userRbGet_eq hv]; exact h.pbuf
    · cases hn
    · obtain rfl : len = n := by simpa using hn
      rw [userRbGet_eq hv]
      show len.toNat ≤ u.c.ring.rb.size.toNat
      omega
    · have := h.law
      simp only [pending, hp, List.append_nil] at this
      simp only [pending, h1, h2, List.append_assoc, List.take_append_drop]
      exact this
  | copied len =>
    simp only [step, hp, TcpClient.xlinkSendTcpPipe2]
    refine ⟨hv, h.pbuf, h.conn, fun n hn => ?_, fun n hn => ?_, ?_⟩
    · cases hn
    · cases hn
    · have := h.law
      simp only [pending, hp] at this
      simpa [pending] using this

end Uplink

/-- In every run without a filling `put` in which no copy reaches a cell that
is still to be read, the payloads Xlink has got are the first of the bytes
accepted. -/
theorem payloads_of_clear (m : Mem Byte) (buf : Nat) (hb : buf ≠ 0) (es : List UplinkEvent)
    (hf : Along Uplink.step Uplink.NoFill (Uplink.start m buf) es)
    (hc : Along Uplink.step Uplink.Clear (Uplink.start m buf) es) :
    (run Uplink.step (Uplink.start m buf) es).c.pipe2.flatten <+:
      (run Uplink.step (Uplink.start m buf) es).accepted := by
  have h := Along.inv (I := Uplink.Inv) (fun u e hu he => ?_) (Uplink.start_inv m hb) (hf.and hc)
  · exact ⟨_, by rw [← List.append_assoc]; exact h.law⟩
  · cases e with
    | pipe pbuf len => exact Uplink.step_pipe hu he.1 he.2
    | loop => exact Uplink.step_loop hu he.2

/-- A frame of three bytes that is sent before the next one comes. -/
theorem payloads_two_frames :
    (run Uplink.step (Uplink.start (fun _ => 0) 16)
      [.pipe (fun _ => 5) 3, .loop, .loop, .loop, .pipe (fun _ => 6) 2, .loop, .loop]).c.pipe2.flatten <+:
    (run Uplink.step (Uplink.start (fun _ => 0) 16)
      [.pipe (fun _ => 5) 3, .loop, .loop, .loop, .pipe (fun _ => 6) 2, .loop, .loop]).accepted :=
  payloads_of_clear (fun _ => 0) 16 (by decide) _ (by decide) (by decide)

/-- 1023 bytes pass through the buffer, so that the next two bytes, 1 and 2,
lie in its last and its first cell. -/
def wrappedRun : List UplinkEvent :=
  [.pipe (fun _ => 0) 1023, .loop, .loop, .loop,
    .pipe (fun i => if i = 0 then 1 else 2) 2, .loop, .loop, .loop]

/-- The read copies the last cell over the first before it reads the first:
Xlink gets 1 and 1. -/
theorem wrapped_read_corrupts :
    Along Uplink.step Uplink.NoFill (Uplink.start (fun _ => 0) 16) wrappedRun ∧
      ¬ (run Uplink.step (Uplink.start (fun _ => 0) 16) wrappedRun).c.pipe2.flatten <+:
        (run Uplink.step (Uplink.start (fun _ => 0) 16) wrappedRun).accepted := by
  refine ⟨by decide +kernel, fun h => ?_⟩
  have h1 : (run Uplink.step (Uplink.start (fun _ => 0) 16) wrappedRun).c.pipe2.flatten[1024]? = some 1 := by
    decide +kernel
  have h2 : (run Uplink.step (Uplink.start (fun _ => 0) 16) wrappedRun).accepted[1024]? = some 2 := by
    decide +kernel
  obtain ⟨hlt, he⟩ := List.getElem?_eq_some_iff.mp h1
  rw [List.prefix_iff_getElem?.mp h 1024 hlt, he] at h2
  exact absurd h2 (by decide)

end Nonos
