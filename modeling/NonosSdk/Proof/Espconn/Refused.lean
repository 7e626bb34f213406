import NonosSdk.Proof.Espconn.Conn
import NonosSdk.Proof.Espconn.Serves

/-!
# Calls of `espconn_sent` that fail

A call that is refused at once changes nothing. One that has queued its packet leaves it
there, whatever `espconn_tcp_write` returns: so in every state a failing call is without
effect exactly if it is refused, or lwIP serves it so that it does not fail
(`failed_send_clean_iff`).
-/

namespace Nonos

namespace EspconnMsg

variable {m : EspconnMsg} {pre post : List EspconnBuf} {psent : Nat} {length : BitVec 16} {alloc : Option Nat}
  {call : LwipCall}

theorem length_espconnTcpWrite (h : m.Split pre post) (call : LwipCall) :
    (m.espconnTcpWrite call).2.pbuf.length = m.pbuf.length := by
  obtain ⟨_, _, -, hlen, -⟩ := espconnTcpWrite_keeps (I := fun m' _ _ => m'.pbuf.length = m.pbuf.length)
    (fun _ _ hi => hi)
    (fun {m' pre b post k} hs _ hi => by
      rw [hs.wrote_pbuf, ← hi, hs.pbuf, List.length_append, List.length_append]
      rfl) h rfl call
  exact hlen

/-- If `espconn_sent` returns an error, the queue, `ptail` and `write_flag` are as before. -/
def FailsClean (m : EspconnMsg) (psent : Nat) (length : BitVec 16) (alloc : Option Nat) (call : LwipCall) : Prop :=
  (m.espconnSent psent length alloc call).1 ≠ 0 →
    (m.espconnSent psent length alloc call).2.pbuf = m.pbuf ∧
    (m.espconnSent psent length alloc call).2.ptail = m.ptail ∧
    (m.espconnSent psent length alloc call).2.writeFlag = m.writeFlag

/-- lwIP serves the call for what is left to send and for the packet. -/
def Completes (m : EspconnMsg) (length : BitVec 16) (call : LwipCall) : Prop :=
  ¬ (call.nagleDisabled = true ∧ m.pcb.sndQueuelen call ≥ tcpSndQueuelen) ∧
    Serves call.mss.toNat call.tries m.pcb.sndBuf.toNat
      ((m.toSend.map fun b => b.unsent.toNat) ++ [length.toNat])

theorem failsClean_iff (h : m.Split pre post) (hfresh : ∀ b ∈ m.pbuf, alloc ≠ some b.addr) :
    m.FailsClean psent length alloc call ↔ m.Refuses psent length alloc call ∨ m.Completes length call := by
  rw [FailsClean]
  by_cases hr : m.Refuses psent length alloc call
  · obtain ⟨err, -, hsame⟩ := espconnSent_refused hr
    rw [hsame]
    exact iff_of_true (fun _ => ⟨rfl, rfl, rfl⟩) (.inl hr)
  · obtain ⟨addr, hp, hl, rfl, hlinked⟩ := espconnSent_linked hr
    have hcreate := h.create (freshBuf_valid hp hl addr) rfl fun b hb hab => hfresh b hb (congrArg some hab)
    have hs : Split (m.linked addr psent length) pre (post ++ [freshBuf addr psent length]) :=
      ⟨hcreate.pbuf, hcreate.nodup, hcreate.ptail, hcreate.valid, hcreate.full, hcreate.fresh⟩
    have hzero := espconnTcpWrite_eq_zero_iff hs call
    rw [List.map_append, ← h.toSend_eq] at hzero
    rw [hlinked, or_iff_right hr]
    refine Iff.trans ⟨fun hclean => ?_, fun h0 hne => absurd h0 hne⟩ hzero
    -- the packet is still there
    by_contra hne
    have hlen := congrArg List.length (hclean hne).1
    rw [length_espconnTcpWrite hs] at hlen
    simp [linked] at hlen

end EspconnMsg

namespace Conn

/-- After every run, for any call and any behaviour of lwIP in it. -/
theorem failed_send_clean_iff (cap : BitVec 16) (copyDisabled : Bool) (pbufNum : Byte) (es : List ConnEvent)
    (psent : Nat) (length : BitVec 16) (alloc : Option Nat) (call : LwipCall)
    (hfresh : ∀ b ∈ (run step (start cap copyDisabled pbufNum) es).msg.pbuf, alloc ≠ some b.addr) :
    let m := (run step (start cap copyDisabled pbufNum) es).msg
    m.FailsClean psent length alloc call ↔ m.Refuses psent length alloc call ∨ m.Completes length call := by
  obtain ⟨pre, post, hs⟩ := run_split cap copyDisabled pbufNum es
  exact EspconnMsg.failsClean_iff hs hfresh

/-- lwIP with segments of 1460 bytes and these answers. -/
def answers (tries : List TcpAttempt) : LwipCall := ⟨1460, by decide, false, 0, tries⟩

/-- 100 bytes are sent at once. -/
theorem hundred_clean : (start 2920 false 2).msg.FailsClean 0x1000 100 (some 1) (answers [⟨0, 0⟩]) :=
  (failed_send_clean_iff 2920 false 2 [] 0x1000 100 (some 1) (answers [⟨0, 0⟩]) (by decide)).mpr
    (.inr ⟨by decide, .write (by decide) (by decide) .ok (.next .done)⟩)

/-- `tcp_write` fails with `ERR_MEM`, and so does `espconn_sent`, but the packet stays in the
queue; when the call is repeated, its bytes are sent twice. -/
theorem failed_send_repeated : ((start 2920 false 2).msg.espconnSent 0x1000 100 (some 1) (answers [])).1 = errMem ∧
    ¬ (start 2920 false 2).msg.FailsClean 0x1000 100 (some 1) (answers []) ∧
    (run step (start 2920 false 2) [.sent 0x1000 100 (some 1) (answers []),
      .sent 0x1000 100 (some 2) (answers [⟨0, 0⟩, ⟨0, 0⟩])]).msg.pcb.written = [(0x1000, 100), (0x1000, 100)] := by
  refine ⟨by decide, fun h => ?_, by decide⟩
  exact absurd (congrArg List.length (h (by decide)).1) (by decide)

end Conn

end Nonos
