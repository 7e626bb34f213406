import Mathlib.Algebra.Order.BigOperators.Group.List
import Mathlib.Algebra.Order.Group.Nat
import NonosSdk.Framework.Runs
import NonosSdk.Proof.Espconn.Finish

/-!
# Delivery over a run

`SendRun` runs the connection through calls of `espconn_sent` and acknowledgements,
in any order and with any behaviour of lwIP, and notes which packets have been
queued and how many bytes are acknowledged. While `Good` holds, the bytes given
to `tcp_write` are a prefix of the packets and `sent_callback` has been called for
those whose end is acknowledged (`Good.ok`). `espconn_sent` always keeps it
(`Good.sent`), an acknowledgement does so exactly if its bytes fit into `tot_len`
of the first buffer (`step_ok_iff`), as they do if the queued packets have less
than 2¹⁶ bytes (`Good.fits`).
-/

namespace Nonos

/-- A call into espconn, and what lwIP and the heap do in the course of it. -/
inductive SendEvent where
  /-- `espconn_sent`; `alloc` is what `os_zalloc` returns. -/
  | sent (psent : Nat) (length : BitVec 16) (alloc : Option Nat) (call : LwipCall)
  /-- `espconn_client_sent` -/
  | clientSent (len : BitVec 16) (call : LwipCall)

/-- A connection, the packets that `espconn_sent` has queued, and how many bytes are
acknowledged. -/
structure SendRun where
  msg : EspconnMsg
  queued : List (Nat × Nat)
  acked : Nat

namespace EspconnMsg

variable {m : EspconnMsg} {pre post : List EspconnBuf} {cap acked : Nat}

/-- No queued packet is acknowledged in full. -/
theorem completed_of_credited {c : Nat} {l : List EspconnBuf} (h : Credited c l) :
    completed (l.map EspconnBuf.packet) c = [] := by
  cases l with
  | nil => rfl
  | cons b l => exact if_neg (Nat.not_le.mpr h.2.1)

/-- What is written of the queue is where it begins. -/
theorem Sending.written_prefix (h : Sending cap acked m pre post) :
    m.pbuf.flatMap EspconnBuf.written <+: (m.pbuf.map EspconnBuf.packet).flatMap span := by
  have hpre : pre.flatMap EspconnBuf.written = (pre.map EspconnBuf.packet).flatMap span := by
    rw [List.flatMap_map]
    apply List.flatMap_congr
    intro x hx
    rw [EspconnBuf.written, EspconnBuf.done, h.full x hx]
    rfl
  rw [h.pbuf, List.flatMap_append, List.map_append, List.flatMap_append, hpre]
  apply (List.prefix_append_right_inj _).mpr
  cases post with
  | nil => exact List.nil_prefix
  | cons b post =>
    have hpost : post.flatMap EspconnBuf.written = [] :=
      List.flatMap_eq_nil_iff.mpr fun x hx => written_of_fresh (h.fresh x hx)
    have hsplit : b.len.toNat = b.done + (b.len.toNat - b.done) := by rw [EspconnBuf.done]; omega
    rw [List.flatMap_cons, hpost, List.append_nil, List.map_cons, List.flatMap_cons, EspconnBuf.packet,
      hsplit, span_add, List.append_assoc]
    exact List.prefix_append _ _

/-- A packet is put at the end of the queue. -/
theorem Sending.create (h : Sending cap acked m pre post) {b : EspconnBuf} (hb : b.Valid)
    (hu : b.unsent = b.len) (hfresh : ∀ x ∈ m.pbuf, b.addr ≠ x.addr) :
    Sending cap acked { m with pbuf := m.pbuf ++ [b],
                               ptail := if m.ptail = none then some b.addr else m.ptail } pre (post ++ [b]) := by
  refine ⟨h.toSplit.create hb hu hfresh, ?_, h.counted, h.room, h.copy⟩
  rw [List.flatMap_append, List.flatMap_singleton, written_of_fresh hu, List.append_nil]
  exact h.bytes

theorem Reporting.create (h : Reporting acked m) {b : EspconnBuf} (hb : b.Valid) (ht : b.totLen = 0)
    (ptail : Option Nat) : Reporting acked { m with pbuf := m.pbuf ++ [b], ptail } := by
  refine ⟨h.le, ?_⟩
  have hc := h.credited
  show Credited (acked - size m.reported) (m.pbuf ++ [b])
  cases hp : m.pbuf with
  | nil =>
    rw [hp] at hc
    have hlen := hb.len
    rw [show acked - size m.reported = 0 from hc]
    exact ⟨by rw [ht]; rfl, hlen, by simp⟩
  | cons x l =>
    rw [hp] at hc
    refine ⟨hc.1, hc.2.1, fun y hy => ?_⟩
    rcases List.mem_append.mp hy with hy | hy
    · exact hc.2.2 y hy
    · rw [List.mem_singleton.mp hy, ht]

/-- `espconn_sent`: nothing happens, or the packet is queued and `espconn_tcp_write` runs. -/
theorem espconnSent_cases (hc : m.copyDisabled = false) (psent : Nat) (length : BitVec 16)
    (alloc : Option Nat) (call : LwipCall) :
    (m.espconnSent psent length alloc call).2 = m ∨
      ∃ addr, alloc = some addr ∧ psent ≠ 0 ∧ length ≠ 0 ∧ (m.espconnSent psent length alloc call).2 =
        ({ m with pbuf := m.pbuf ++ [freshBuf addr psent length],
                  ptail := if m.ptail = none then some addr else m.ptail }.espconnTcpWrite call).2 := by
  by_cases hr : m.Refuses psent length alloc call
  · obtain ⟨err, -, he⟩ := espconnSent_refused hr
    exact .inl (by rw [he])
  · obtain ⟨addr, hp, hl, halloc, he⟩ := espconnSent_linked hr
    refine .inr ⟨addr, halloc, hp, hl, ?_⟩
    rw [he, linked, hc, if_neg Bool.false_ne_true]

theorem espconnSent_sending (h : Sending cap acked m pre post) (hr : Reporting acked m) (psent : Nat)
    (length : BitVec 16) {alloc : Option Nat} (hfresh : ∀ b ∈ m.pbuf, alloc ≠ some b.addr) (call : LwipCall) :
    (m.espconnSent psent length alloc call).2 = m ∨
      ∃ pre' post', Sending cap acked (m.espconnSent psent length alloc call).2 pre' post' ∧
        Reporting acked (m.espconnSent psent length alloc call).2 ∧
        (m.espconnSent psent length alloc call).2.reported = m.reported ∧
        (m.espconnSent psent length alloc call).2.pbuf.map EspconnBuf.packet =
          m.pbuf.map EspconnBuf.packet ++ [(psent, length.toNat)] := by
  obtain hsame | ⟨addr, rfl, hp, hl, he⟩ := espconnSent_cases h.copy psent length alloc call
  · exact .inl hsame
  right
  have hvalid := freshBuf_valid hp hl addr
  have hs := h.create hvalid rfl fun x hx he' => hfresh x hx (congrArg some he')
  have hr' := hr.create hvalid rfl (if m.ptail = none then some addr else m.ptail)
  rw [he]
  obtain ⟨m₀, hm₀⟩ : ∃ m₀ : EspconnMsg, m₀ = { m with
      pbuf := m.pbuf ++ [freshBuf addr psent length],
      ptail := if m.ptail = none then some addr else m.ptail } := ⟨_, rfl⟩
  change Sending cap acked { m with
      pbuf := m.pbuf ++ [freshBuf addr psent length],
      ptail := if m.ptail = none then some addr else m.ptail } _ _ at hs
  rw [← hm₀] at hs hr' ⊢
  obtain ⟨pre', post', hs', hkey, -, -⟩ := espconnTcpWrite_sending hs call
  have hrep : (m₀.espconnTcpWrite call).2.reported = m₀.reported := by
    rw [reported, hkey.sentCallback, reported]
  refine ⟨pre', post', hs', ⟨by rw [hrep]; exact hr'.le, ?_⟩, ?_, ?_⟩
  · rw [hrep]
    exact credited_of_key hkey.key hr'.credited
  · rw [hrep, hm₀]
    rfl
  · rw [packets_of_key hkey.key, hm₀]
    simp [EspconnBuf.packet, freshBuf]

end EspconnMsg

namespace SendRun

/-- An established connection in copy mode, with a send buffer of `cap` bytes. -/
def start (cap : BitVec 16) (pbufNum : Byte) : SendRun where
  msg :=
    { pbuf := [], ptail := none, pbufNum, sentLength := 0, writeFlag := true, copyDisabled := false,
      pcb := ⟨cap, 0, []⟩, sentCallback := [] }
  queued := []
  acked := 0

/-- `os_zalloc` returns no memory in use; lwIP reports the bytes of an acknowledgement
that are not acknowledged yet, if there are any. -/
def Enabled (r : SendRun) : SendEvent → Prop
  | .sent _ _ alloc _ => ∀ b ∈ r.msg.pbuf, alloc ≠ some b.addr
  | .clientSent len _ => 0 < len.toNat ∧ len.toNat ≤ r.msg.pcb.unacked

instance (r : SendRun) : (e : SendEvent) → Decidable (r.Enabled e)
  | .sent _ _ _ _ => inferInstanceAs (Decidable (∀ _ ∈ _, _))
  | .clientSent _ _ => inferInstanceAs (Decidable (_ ∧ _))

/-- The call, and the notes. A packet is queued if the list has grown. -/
def handle (r : SendRun) : SendEvent → SendRun
  | .sent psent length alloc call =>
    let msg := (r.msg.espconnSent psent length alloc call).2
    { r with
      msg
      queued := if r.msg.pbuf.length < msg.pbuf.length then r.queued ++ [(psent, length.toNat)] else r.queued }
  | .clientSent len call =>
    { r with msg := { r.msg with pcb := r.msg.pcb.tcpAcked len }.espconnClientSent len call,
             acked := r.acked + len.toNat }

def step (r : SendRun) (e : SendEvent) : SendRun := if r.Enabled e then r.handle e else r

/-- `tcp_write` has got the first bytes of the queued packets, and `sent_callback` has been
called once for each packet whose last byte is acknowledged, in order. -/
def Ok (r : SendRun) : Prop :=
  r.msg.pcb.written.flatMap span <+: r.queued.flatMap span ∧ r.msg.reported = completed r.queued r.acked

instance (r : SendRun) : Decidable r.Ok := inferInstanceAs (Decidable (_ ∧ _))

/-- An acknowledgement fits into the 16 bits of `tot_len`. -/
def Fits (r : SendRun) : SendEvent → Prop
  | .sent _ _ _ _ => True
  | .clientSent len call =>
    r.Enabled (.clientSent len call) → ∀ b ∈ r.msg.pbuf.head?, b.totLen.toNat + len.toNat < 2 ^ 16

/-- What the connection holds and what the notes say agree. -/
structure Good (cap : Nat) (r : SendRun) : Prop where
  sending : ∃ pre post, EspconnMsg.Sending cap r.acked r.msg pre post
  reporting : EspconnMsg.Reporting r.acked r.msg
  queued : r.queued = r.msg.reported ++ r.msg.pbuf.map EspconnBuf.packet

theorem start_good (cap : BitVec 16) (pbufNum : Byte) : (start cap pbufNum).Good cap.toNat where
  sending := ⟨[], [], ⟨rfl, List.nodup_nil, rfl, by simp [start], by simp, by simp⟩, rfl, rfl, rfl, rfl⟩
  reporting := ⟨Nat.le_refl _, rfl⟩
  queued := rfl

variable {r : SendRun} {cap : Nat}

theorem Good.ok (h : r.Good cap) : r.Ok := by
  obtain ⟨pre, post, hs⟩ := h.sending
  constructor
  · rw [hs.bytes, h.queued, List.flatMap_append]
    exact (List.prefix_append_right_inj _).mpr hs.written_prefix
  · rw [h.queued, completed_append h.reporting.le, EspconnMsg.completed_of_credited h.reporting.credited,
      List.append_nil]

/-- `espconn_sent` keeps everything. -/
theorem Good.sent (h : r.Good cap) {psent : Nat} {length : BitVec 16} {alloc : Option Nat} {call : LwipCall}
    (he : r.Enabled (.sent psent length alloc call)) : (r.handle (.sent psent length alloc call)).Good cap := by
  obtain ⟨pre, post, hs⟩ := h.sending
  obtain hsame | ⟨pre', post', hs', hr', hrep, hpackets⟩ :=
    EspconnMsg.espconnSent_sending hs h.reporting psent length he call
  · rw [handle, hsame, if_neg (Nat.lt_irrefl _)]
    exact h
  · have hlen : (r.msg.espconnSent psent length alloc call).2.pbuf.length = r.msg.pbuf.length + 1 := by
      simpa using congrArg List.length hpackets
    rw [handle, if_pos (by omega)]
    refine ⟨⟨pre', post', hs'⟩, hr', ?_⟩
    show r.queued ++ _ = _ ++ _
    rw [hrep, hpackets, h.queued, List.append_assoc]

/-- So does an acknowledgement that fits. -/
theorem Good.clientSent (h : r.Good cap) (hcap : cap < 2 ^ 16) {len : BitVec 16} {call : LwipCall}
    (he : r.Enabled (.clientSent len call)) (hfit : r.Fits (.clientSent len call)) :
    (r.handle (.clientSent len call)).Good cap := by
  obtain ⟨pre, post, hs⟩ := h.sending
  obtain ⟨pre', post', hs', hr', hq⟩ :=
    EspconnMsg.clientSent_reporting hs h.reporting hcap he.2 he.1 (hfit he) call
  exact ⟨⟨pre', post', hs'⟩, hr', h.queued.trans hq.symm⟩

/-- One that does not leaves a packet unreported. -/
theorem Good.not_ok (h : r.Good cap) (hcap : cap < 2 ^ 16) {len : BitVec 16} {call : LwipCall}
    (he : r.Enabled (.clientSent len call)) (hfit : ¬ r.Fits (.clientSent len call)) :
    ¬ (r.handle (.clientSent len call)).Ok := by
  obtain ⟨pre, post, hs⟩ := h.sending
  obtain ⟨b, pbuf, hp⟩ := hs.pbuf_ne_nil h.reporting (Nat.lt_of_lt_of_le he.1 he.2)
  have hbig : 2 ^ 16 ≤ b.totLen.toNat + len.toNat := by
    by_contra hlt
    apply hfit
    intro _ x hx
    rw [hp] at hx
    obtain rfl : b = x := by simpa using hx
    omega
  obtain ⟨hrep, hle⟩ := EspconnMsg.clientSent_short hs h.reporting hcap he.2 he.1 hp hbig call
  intro hok
  have hsz := h.reporting.le
  have hdone : completed r.queued (r.acked + len.toNat) =
      r.msg.reported ++ b.packet :: completed (pbuf.map EspconnBuf.packet)
        (r.acked + len.toNat - size r.msg.reported - b.len.toNat) := by
    rw [h.queued, hp, completed_append (by omega), List.map_cons, completed, if_pos]
    · rfl
    · show b.len.toNat ≤ _
      omega
  have heq : r.msg.reported = completed r.queued (r.acked + len.toNat) := hrep.symm.trans hok.2
  rw [hdone] at heq
  simpa using congrArg List.length heq

theorem Good.step (h : r.Good cap) (hcap : cap < 2 ^ 16) {e : SendEvent} (hfit : r.Fits e) :
    (r.step e).Good cap := by
  rw [SendRun.step]
  split
  · rename_i he
    cases e with
    | sent => exact h.sent he
    | clientSent => exact h.clientSent hcap he hfit
  · exact h

theorem step_ok_iff (h : r.Good cap) (hcap : cap < 2 ^ 16) (e : SendEvent) : (r.step e).Ok ↔ r.Fits e := by
  refine ⟨fun hok => ?_, fun hfit => (h.step hcap hfit).ok⟩
  cases e with
  | sent => trivial
  | clientSent len call =>
    by_contra hfit
    have he : r.Enabled (.clientSent len call) := by
      by_contra hn
      exact hfit fun he => absurd he hn
    rw [SendRun.step, if_pos he] at hok
    exact h.not_ok hcap he hfit hok

/-- An acknowledgement fits as long as the queued packets have less than 2¹⁶ bytes, so always
if there is only one. -/
theorem Good.fits (h : r.Good cap) (hsize : size (r.msg.pbuf.map EspconnBuf.packet) < 2 ^ 16) (e : SendEvent) :
    r.Fits e := by
  cases e with
  | sent => trivial
  | clientSent len call =>
    intro he b hb
    obtain ⟨pre, post, hs⟩ := h.sending
    have hcount := hs.counted_eq
    have hsz := h.reporting.le
    have hcred := h.reporting.credited
    have hdone : (r.msg.pbuf.map EspconnBuf.done).sum ≤ size (r.msg.pbuf.map EspconnBuf.packet) := by
      rw [size, List.map_map]
      exact List.sum_le_sum fun x _ => Nat.sub_le _ _
    cases hp : r.msg.pbuf with
    | nil => rw [hp] at hb; simp at hb
    | cons x pbuf =>
      rw [hp] at hcred hb
      obtain rfl : x = b := by simpa using hb
      have hc := hcred.1
      have hle := he.2
      omega

/-- After every call the bytes written and the packets reported are right, exactly if every
acknowledgement fits. -/
theorem delivers_iff_fits (cap : BitVec 16) (pbufNum : Byte) (es : List SendEvent) :
    Along step (fun r e => (r.step e).Ok) (start cap pbufNum) es ↔ Along step Fits (start cap pbufNum) es :=
  Along.congr_of_keeps (I := Good cap.toNat) (fun _ _ h hfit => h.step cap.isLt hfit)
    (fun _ e h => step_ok_iff h cap.isLt e) (start_good cap pbufNum) es

/-- Of a packet of 65535 bytes the last 1295 go out with the first 1625 of the next one; when both
are acknowledged at once, `tot_len` wraps, and the packet is not reported. -/
theorem spanning_ack_unreported :
    let call : LwipCall := ⟨1460, by decide, false, 0, [⟨0, 0⟩, ⟨0, 0⟩]⟩
    ¬ Along step (fun r e => (r.step e).Ok) (start 2920 2)
      ([.sent 0x1000 65535 (some 1) call, .sent 0x20000 3000 (some 2) call] ++
        List.replicate 22 (.clientSent 2920 call) ++ [.clientSent 2920 call]) := by
  intro call h
  have hreported := h.last.2
  revert hreported
  decide +kernel

end SendRun

end Nonos
