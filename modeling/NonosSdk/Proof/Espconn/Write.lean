import NonosSdk.Proof.Espconn.Loop

/-!
# Writing out the send queue

`Sending` adds to `Split` where the bytes are: `tcp_write` has got the packets already
reported, and then of each buffer the part before `punsent`. `espconn_tcp_write`
keeps both and changes nothing else (`espconnTcpWrite_sending`), and unless it
has written something or the send buffer is full, it leaves `ptail` at a buffer
that is not written yet, so never at one that may be freed (`Settled`).
-/

namespace Nonos

/-- The addresses of a range of bytes. -/
def span (p : Nat × Nat) : List Nat := (List.range p.2).map (p.1 + ·)

@[simp] theorem length_span (p : Nat × Nat) : (span p).length = p.2 := by
  simp [span]

theorem span_zero (a : Nat) : span (a, 0) = [] := rfl

theorem span_add (a m n : Nat) : span (a, m + n) = span (a, m) ++ span (a + m, n) := by
  simp only [span, List.range_add, List.map_append, List.map_map]
  exact congrArg _ (List.map_congr_left fun i _ => (Nat.add_assoc a m i).symm)

namespace EspconnBuf

/-- The bytes that have been written. -/
def written (b : EspconnBuf) : List Nat := span (b.payload, b.done)

end EspconnBuf

namespace EspconnMsg

variable {m m' : EspconnMsg} {pre post : List EspconnBuf} {b : EspconnBuf}

/-- The packets that `sent_callback` has been called for. -/
def reported (m : EspconnMsg) : List (Nat × Nat) := m.sentCallback.map fun p => (p.1, p.2.toNat)

/-- `tcp_write` has got the reported packets and the written parts of the buffers, of
which `acked` bytes are acknowledged; lwIP keeps the space of its send buffer. -/
structure Sending (cap acked : Nat) (m : EspconnMsg) (pre post : List EspconnBuf) : Prop extends
    Split m pre post where
  bytes : m.pcb.written.flatMap span = m.reported.flatMap span ++ m.pbuf.flatMap EspconnBuf.written
  counted : (m.pcb.written.flatMap span).length = acked + m.pcb.unacked
  room : m.pcb.sndBuf.toNat + m.pcb.unacked = cap
  copy : m.copyDisabled = false

/-- Only the cursors and lwIP's side have changed. -/
structure SameQueue (m m' : EspconnMsg) : Prop where
  key : m'.pbuf.map EspconnBuf.key = m.pbuf.map EspconnBuf.key
  sentCallback : m'.sentCallback = m.sentCallback
  pbufNum : m'.pbufNum = m.pbufNum
  writeFlag : m'.writeFlag = m.writeFlag

namespace SameQueue

theorem refl (m : EspconnMsg) : SameQueue m m := ⟨rfl, rfl, rfl, rfl⟩

theorem trans {m'' : EspconnMsg} (h : SameQueue m m') (h' : SameQueue m' m'') : SameQueue m m'' :=
  ⟨h'.key.trans h.key, h'.sentCallback.trans h.sentCallback, h'.pbufNum.trans h.pbufNum,
    h'.writeFlag.trans h.writeFlag⟩

end SameQueue

variable {cap acked : Nat}

/-- A buffer that nothing has been written of. -/
theorem written_of_fresh {x : EspconnBuf} (h : x.unsent = x.len) : x.written = [] := by
  rw [EspconnBuf.written, EspconnBuf.done, h, Nat.sub_self, span_zero]

/-- `ptail` moves on from a buffer that has been written. -/
theorem Sending.next (h : Sending cap acked m pre (b :: post)) (hb : b.unsent = 0) :
    Sending cap acked { m with ptail := m.tailNext } (pre ++ [b]) post :=
  ⟨h.toSplit.next hb, h.bytes, h.counted, h.room, h.copy⟩

/-- `tcp_write` takes the next `k` bytes. -/
theorem Sending.wrote (h : Sending cap acked m pre (b :: post)) {k : BitVec 16} (hk : Accepted m b k) :
    Sending cap acked (m.wrote b k) pre (b.advance b.punsent b.unsent k :: post) ∧ SameQueue m (m.wrote b k) := by
  have hbm : b ∈ m.pbuf := by rw [h.pbuf]; simp
  have hd := (EspconnBuf.advance_valid (h.valid b hbm) hk.le_unsent).2
  have hsnd : (m.pcb.sndBuf - k).toNat = m.pcb.sndBuf.toNat - k.toNat := BitVec.toNat_sub_of_le hk.le_sndBuf
  have hle := hk.le_sndBuf
  have hroom := h.room
  have hwritten : (m.wrote b k).pcb.written.flatMap span =
      m.pcb.written.flatMap span ++ span (b.punsent, k.toNat) := by
    rw [wrote_pcb, TcpPcb.tcpWrite, List.flatMap_append]
    simp
  refine ⟨⟨h.toSplit.wrote hk.le_unsent, ?_, ?_, ?_, by rw [wrote_copyDisabled]; exact h.copy⟩,
    h.wrote_key k, wrote_sentCallback m b k, wrote_pbufNum m b k, wrote_writeFlag m b k h.copy⟩
  · -- the bytes continue those of the buffer, and nothing of the next ones is written
    have hpost : post.flatMap EspconnBuf.written = [] :=
      List.flatMap_eq_nil_iff.mpr fun x hx => written_of_fresh (h.fresh x hx)
    have hb' : (b.advance b.punsent b.unsent k).written = b.written ++ span (b.punsent, k.toNat) := by
      rw [EspconnBuf.written, hd, (h.valid b hbm).punsent]
      exact span_add _ _ _
    rw [hwritten, h.bytes, reported, reported, wrote_sentCallback, h.wrote_pbuf, h.pbuf, List.flatMap_append,
      List.flatMap_append, List.flatMap_cons, List.flatMap_cons, hpost, hb']
    simp
  · rw [hwritten, List.length_append, h.counted, length_span, wrote_pcb, TcpPcb.tcpWrite, Nat.add_assoc]
  · rw [wrote_pcb]
    show (m.pcb.sndBuf - k).toNat + (m.pcb.unacked + k.toNat) = cap
    omega

/-- `espconn_tcp_write`: the loop runs to its end. -/
theorem espconnTcpWrite_sending (h : Sending cap acked m pre post) (call : LwipCall) :
    ∃ pre' post', Sending cap acked (m.espconnTcpWrite call).2 pre' post' ∧
      SameQueue m (m.espconnTcpWrite call).2 ∧ m.pcb.unacked ≤ (m.espconnTcpWrite call).2.pcb.unacked ∧
      (m.pcb.unacked = 0 → Settled 0 (m.espconnTcpWrite call).2 post') := by
  obtain ⟨pre', post', -, ⟨hs, hsame⟩, hle, hset⟩ := espconnTcpWrite_keeps
    (I := fun m' pre post => Sending cap acked m' pre post ∧ SameQueue m m')
    (fun _ hb hi => ⟨hi.1.next hb, hi.2.trans ⟨rfl, rfl, rfl, rfl⟩⟩)
    (fun _ hacc hi => ⟨(hi.1.wrote hacc).1, hi.2.trans (hi.1.wrote hacc).2⟩)
    h.toSplit ⟨h, .refl m⟩ call
  exact ⟨pre', post', hs, hsame, hle, hset⟩

end EspconnMsg

end Nonos
