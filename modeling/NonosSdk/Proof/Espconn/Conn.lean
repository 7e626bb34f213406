import NonosSdk.Framework.Runs
import NonosSdk.Proof.Espconn.Finish

/-!
# A connection with any option and any caller

`Conn` runs the connection through calls of `espconn_sent`, which may come from
`sent_callback` too, acknowledgements and changes of its options. `espconn_client_sent` is
taken apart into what comes before the loop of `espconn_tcp_finish` and its iterations
(`run_clientSent`). In every state `ptail` is where nothing has been written yet
(`run_split`): the buffers that the loop frees are before it, because the bytes counted
in `tot_len` have been written and are acknowledged (`Kept`).
-/

namespace Nonos

/-- A connection; within the loop of `espconn_tcp_finish` with the bytes that it has left over. -/
structure Conn where
  msg : EspconnMsg
  finishing : Option (BitVec 16)

inductive ConnEvent where
  /-- `espconn_sent`; `alloc` is what `os_zalloc` returns. -/
  | sent (psent : Nat) (length : BitVec 16) (alloc : Option Nat) (call : LwipCall)
  /-- `espconn_client_sent` up to the loop of `espconn_tcp_finish`. -/
  | acked (len : BitVec 16) (call : LwipCall)
  /-- An iteration of the loop, up to the call of `sent_callback`. -/
  | finish
  /-- Other options of the connection. -/
  | options (copyDisabled : Bool) (pbufNum : Byte)

namespace EspconnMsg

/-- An iteration of the loop of `espconn_tcp_finish`; `none` at its end. `sent_length` has its
value after `sent_callback`. -/
def finishIteration (m : EspconnMsg) (len : BitVec 16) : Conn :=
  match m.pbuf with
  | [] => ⟨m, none⟩
  | premove :: pbuf =>
    let totLen := premove.totLen + len
    if totLen ≥ premove.len then
      let len := totLen - premove.len
      let m := { m with pbuf, sentLength := len, sentCallback := m.sentCallback ++ [(premove.payload, premove.len)] }
      ⟨m, some len⟩
    else ⟨{ m with pbuf := { premove with totLen } :: pbuf }, none⟩

theorem finishIteration_nil {m : EspconnMsg} (h : m.pbuf = []) (len : BitVec 16) :
    m.finishIteration len = ⟨m, none⟩ := by
  rw [finishIteration, h]

theorem finishIteration_cons {m : EspconnMsg} {p : EspconnBuf} {pbuf : List EspconnBuf} (h : m.pbuf = p :: pbuf)
    (len : BitVec 16) : m.finishIteration len =
      if p.totLen + len ≥ p.len then
        ⟨{ m with pbuf, sentLength := p.totLen + len - p.len,
                  sentCallback := m.sentCallback ++ [(p.payload, p.len)] }, some (p.totLen + len - p.len)⟩
      else ⟨{ m with pbuf := { p with totLen := p.totLen + len } :: pbuf }, none⟩ := by
  rw [finishIteration, h]

/-- `espconn_client_sent` and `espconn_tcp_finish` up to the loop, for an acknowledgement. -/
def clientSentWrite (m : EspconnMsg) (len : BitVec 16) (call : LwipCall) : EspconnMsg :=
  ({ m with pcb := m.pcb.tcpAcked len, pbuf := creditHead (fun b => b.totLen + len) m.pbuf,
            sentLength := len }.espconnTcpWrite call).2

theorem finishLoop_pbuf (len : BitVec 16) (pbuf : List EspconnBuf) (m : EspconnMsg) (l : List EspconnBuf) :
    finishLoop len pbuf { m with pbuf := l } = finishLoop len pbuf m := by
  induction pbuf generalizing len m with
  | nil => rfl
  | cons p pbuf ih =>
    rw [finishLoop, finishLoop]
    dsimp only
    split
    · exact ih _ { m with sentLength := p.totLen + len - p.len,
                          sentCallback := m.sentCallback ++ [(p.payload, p.len)] }
    · rfl

end EspconnMsg

namespace Conn

def start (cap : BitVec 16) (copyDisabled : Bool) (pbufNum : Byte) : Conn where
  msg :=
    { pbuf := [], ptail := none, pbufNum, sentLength := 0, writeFlag := true, copyDisabled,
      pcb := ⟨cap, 0, []⟩, sentCallback := [] }
  finishing := none

/-- `os_zalloc` returns no memory in use; lwIP reports the bytes of an acknowledgement
that are not acknowledged yet, if there are any, and not from within `sent_callback`. -/
def Enabled (c : Conn) : ConnEvent → Prop
  | .sent _ _ alloc _ => ∀ b ∈ c.msg.pbuf, alloc ≠ some b.addr
  | .acked len _ => c.finishing = none ∧ 0 < len.toNat ∧ len.toNat ≤ c.msg.pcb.unacked
  | .finish => c.finishing ≠ none
  | .options _ _ => True

instance (c : Conn) : (e : ConnEvent) → Decidable (c.Enabled e)
  | .sent _ _ _ _ => inferInstanceAs (Decidable (∀ _ ∈ _, _))
  | .acked _ _ => inferInstanceAs (Decidable (_ ∧ _))
  | .finish => inferInstanceAs (Decidable (¬ _))
  | .options _ _ => isTrue trivial

def handle (c : Conn) : ConnEvent → Conn
  | .sent psent length alloc call => { c with msg := (c.msg.espconnSent psent length alloc call).2 }
  | .acked len call => ⟨c.msg.clientSentWrite len call, some 0⟩
  | .finish => c.finishing.elim c c.msg.finishIteration
  | .options copyDisabled pbufNum => { c with msg := { c.msg with copyDisabled, pbufNum } }

def step (c : Conn) (e : ConnEvent) : Conn := if c.Enabled e then c.handle e else c

/-- The iterations are those of the loop. -/
theorem run_finish (m : EspconnMsg) (len : BitVec 16) :
    run step ⟨m, some len⟩ (List.replicate (m.pbuf.length + 1) .finish) =
      ⟨EspconnMsg.finishLoop len m.pbuf m, none⟩ := by
  have hdone : ∀ (m : EspconnMsg) (n : Nat), run step ⟨m, none⟩ (List.replicate n .finish) = ⟨m, none⟩ := by
    intro m n
    induction n with
    | zero => rfl
    | succ n ih => exact ih
  obtain ⟨pbuf, hp⟩ : ∃ pbuf, m.pbuf = pbuf := ⟨_, rfl⟩
  rw [hp]
  induction pbuf generalizing m len with
  | nil =>
    show m.finishIteration len = _
    rw [EspconnMsg.finishIteration_nil hp, EspconnMsg.finishLoop, ← hp]
  | cons p pbuf ih =>
    rw [List.length_cons, List.replicate_succ, run_cons]
    show run step (m.finishIteration len) _ = _
    rw [EspconnMsg.finishIteration_cons hp, EspconnMsg.finishLoop]
    dsimp only
    split
    · refine (ih _ _ rfl).trans (congrArg (Conn.mk · none) ?_)
      exact EspconnMsg.finishLoop_pbuf _ pbuf { m with sentLength := p.totLen + len - p.len,
                                                       sentCallback := m.sentCallback ++ [(p.payload, p.len)] } pbuf
    · exact hdone _ _

/-- So an acknowledgement and the iterations after it are a call of `espconn_client_sent`. -/
theorem run_clientSent {m : EspconnMsg} {len : BitVec 16} (h0 : 0 < len.toNat) (hle : len.toNat ≤ m.pcb.unacked)
    (call : LwipCall) :
    run step ⟨m, none⟩ (.acked len call :: List.replicate ((m.clientSentWrite len call).pbuf.length + 1) .finish) =
      ⟨{ m with pcb := m.pcb.tcpAcked len }.espconnClientSent len call, none⟩ := by
  rw [run_cons, step, if_pos (show Enabled ⟨m, none⟩ (.acked len call) from ⟨rfl, h0, hle⟩)]
  exact run_finish _ _

end Conn

/-! ## `ptail` -/

namespace EspconnMsg

variable {m : EspconnMsg} {pre post : List EspconnBuf} {b : EspconnBuf} {cap carry : Nat}

/-- How many bytes are counted in `tot_len`. -/
def counted (pbuf : List EspconnBuf) : Nat := (pbuf.map fun b => b.totLen.toNat).sum

/-- How many have been written. -/
def done (pbuf : List EspconnBuf) : Nat := (pbuf.map EspconnBuf.done).sum

/-- Bytes that are counted, or about to be (`carry`), have been written and are acknowledged. -/
structure Kept (cap carry : Nat) (m : EspconnMsg) (pre post : List EspconnBuf) : Prop extends
    Split m pre post where
  room : m.pcb.sndBuf.toNat + m.pcb.unacked = cap
  credit : carry + counted m.pbuf + m.pcb.unacked ≤ done m.pbuf

/-- `ptail` is not at a buffer that is written, if all that is written is acknowledged. -/
def AtUnsent (m : EspconnMsg) (post : List EspconnBuf) : Prop :=
  m.pcb.unacked = 0 → ∀ b ∈ post.head?, b.unsent ≠ 0

theorem counted_of_key {l l' : List EspconnBuf} (h : l'.map EspconnBuf.key = l.map EspconnBuf.key) :
    counted l' = counted l := by
  have hf : (fun b : EspconnBuf => b.totLen.toNat) =
      (fun k : Nat × Nat × BitVec 16 × BitVec 16 => k.2.2.2.toNat) ∘ EspconnBuf.key := rfl
  rw [counted, counted, hf, ← List.map_map, ← List.map_map, h]

theorem Kept.next (h : Kept cap carry m pre (b :: post)) (hb : b.unsent = 0) :
    Kept cap carry { m with ptail := m.tailNext } (pre ++ [b]) post :=
  ⟨h.toSplit.next hb, h.room, h.credit⟩

theorem Kept.wrote (h : Kept cap carry m pre (b :: post)) {k : BitVec 16} (hk : Accepted m b k) :
    Kept cap carry (m.wrote b k) pre (b.advance b.punsent b.unsent k :: post) := by
  have hd := (EspconnBuf.advance_valid (h.valid b (by rw [h.pbuf]; simp)) hk.le_unsent).2
  have hle := hk.le_sndBuf
  have hroom := h.room
  have hcredit := h.credit
  refine ⟨h.toSplit.wrote hk.le_unsent, ?_, ?_⟩
  · rw [wrote_pcb]
    show (m.pcb.sndBuf - k).toNat + (m.pcb.unacked + k.toNat) = cap
    rw [BitVec.toNat_sub_of_le hle]
    omega
  · have hdone : done (m.wrote b k).pbuf = done m.pbuf + k.toNat := by
      rw [done, done, h.wrote_pbuf, h.pbuf]
      simp only [List.map_append, List.map_cons, List.sum_append, List.sum_cons, hd]
      omega
    rw [counted_of_key (h.wrote_key k), hdone, wrote_pcb]
    show carry + counted m.pbuf + (m.pcb.unacked + k.toNat) ≤ _
    omega

/-- `espconn_tcp_write` keeps this, and leaves `ptail` at bytes to write if it has written none. -/
theorem Kept.write (h : Kept cap carry m pre post) (call : LwipCall) :
    ∃ pre' post', Kept cap carry (m.espconnTcpWrite call).2 pre' post' ∧
      (0 < cap → AtUnsent (m.espconnTcpWrite call).2 post') := by
  obtain ⟨pre', post', -, hk, hle, hset⟩ := espconnTcpWrite_keeps (I := Kept cap carry)
    (fun _ hb hi => hi.next hb) (fun _ hacc hi => hi.wrote hacc) h.toSplit h call
  refine ⟨pre', post', hk, fun hcap hu => ?_⟩
  have hroom := hk.room
  rcases hset (by omega) with hlt | hfull | hne
  · omega
  · rw [hfull, hu] at hroom
    change 0 + 0 = cap at hroom
    omega
  · exact hne

theorem Kept.linked (h : Kept cap carry m pre post) {psent addr : Nat} (hp : psent ≠ 0) {length : BitVec 16}
    (hl : length ≠ 0) (hfresh : ∀ b ∈ m.pbuf, addr ≠ b.addr) :
    Kept cap carry (m.linked addr psent length) pre (post ++ [freshBuf addr psent length]) := by
  have hs := h.toSplit.create (freshBuf_valid hp hl addr) rfl hfresh
  refine ⟨⟨hs.pbuf, hs.nodup, hs.ptail, hs.valid, hs.full, hs.fresh⟩, h.room, ?_⟩
  have hcredit := h.credit
  have hcounted : counted (m.pbuf ++ [freshBuf addr psent length]) = counted m.pbuf := by
    simp [counted, freshBuf]
  have hdone : done (m.pbuf ++ [freshBuf addr psent length]) = done m.pbuf := by
    simp [done, EspconnBuf.done, freshBuf]
  show carry + counted (m.pbuf ++ _) + m.pcb.unacked ≤ done (m.pbuf ++ _)
  omega

/-- The first buffer gets what is to be counted. -/
theorem Kept.creditHead (h : Kept cap carry m pre post) {t : EspconnBuf → BitVec 16} {n : Nat} (pcb : TcpPcb)
    (ht : ∀ b ∈ m.pbuf.head?, (t b).toNat ≤ b.totLen.toNat + n) (hn : n + pcb.unacked ≤ carry + m.pcb.unacked)
    (hroom : pcb.sndBuf.toNat + pcb.unacked = cap) (len : BitVec 16) :
    ∃ pre' post',
      Kept cap 0 { m with pcb, pbuf := EspconnMsg.creditHead t m.pbuf, sentLength := len } pre' post' := by
  obtain ⟨pre', post', hs⟩ := h.toSplit.credit t
  refine ⟨pre', post', ⟨hs.pbuf, hs.nodup, hs.ptail, hs.valid, hs.full, hs.fresh⟩, hroom, ?_⟩
  have hcredit := h.credit
  have hdone : done (EspconnMsg.creditHead t m.pbuf) = done m.pbuf := by cases m.pbuf <;> rfl
  have hcounted : counted (EspconnMsg.creditHead t m.pbuf) ≤ counted m.pbuf + n := by
    cases hp : m.pbuf with
    | nil => exact Nat.zero_le _
    | cons b pbuf =>
      have hb := ht b (by rw [hp]; rfl)
      simp only [counted, EspconnMsg.creditHead, List.modifyHead_cons, List.map_cons, List.sum_cons]
      omega
  show 0 + counted (EspconnMsg.creditHead t m.pbuf) + pcb.unacked ≤ done (EspconnMsg.creditHead t m.pbuf)
  omega

/-- A buffer that the loop of `espconn_tcp_finish` frees is before `ptail`. -/
theorem Kept.covered {p : EspconnBuf} {pbuf : List EspconnBuf} (h : Kept cap carry m pre post)
    (hp : m.pbuf = p :: pbuf) (hpost : AtUnsent m post) (hge : p.len.toNat ≤ p.totLen.toNat + carry) :
    ∃ pre', pre = p :: pre' ∧ pbuf = pre' ++ post ∧ p.done = p.len.toNat := by
  have hpbuf : p :: pbuf = pre ++ post := hp.symm.trans h.pbuf
  cases pre with
  | cons q pre =>
    obtain ⟨rfl, hrest⟩ := List.cons.inj hpbuf
    refine ⟨pre, rfl, hrest, ?_⟩
    rw [EspconnBuf.done, h.full p (by simp)]
    rfl
  | nil =>
    obtain rfl : post = p :: pbuf := hpbuf.symm
    have hcredit := h.credit
    have hu := (h.valid p (by rw [hp]; simp)).unsent
    simp only [hp, counted, done, List.map_cons, List.sum_cons, h.toSplit.done_tail, EspconnBuf.done] at hcredit
    have hzero : p.unsent.toNat = 0 := by omega
    exact absurd (BitVec.eq_of_toNat_eq (y := 0) hzero) (hpost (by omega) p rfl)

end EspconnMsg

namespace Conn

variable {c : Conn} {cap : Nat}

/-- What `espconn_tcp_finish` has left over. -/
def carry (c : Conn) : Nat := c.finishing.elim 0 BitVec.toNat

/-- The connection between two events. -/
def Inv (cap : Nat) (c : Conn) : Prop :=
  ∃ pre post, EspconnMsg.Kept cap c.carry c.msg pre post ∧
    (c.finishing ≠ none → 0 < cap ∧ EspconnMsg.AtUnsent c.msg post)

theorem start_inv (cap : BitVec 16) (copyDisabled : Bool) (pbufNum : Byte) :
    (start cap copyDisabled pbufNum).Inv cap.toNat :=
  ⟨[], [], ⟨⟨rfl, List.nodup_nil, rfl, by simp [start], by simp, by simp⟩, rfl, Nat.le_refl 0⟩,
    fun h => absurd rfl h⟩

theorem Inv.sent (h : c.Inv cap) {psent : Nat} {length : BitVec 16} {alloc : Option Nat} {call : LwipCall}
    (he : c.Enabled (.sent psent length alloc call)) : (c.handle (.sent psent length alloc call)).Inv cap := by
  obtain ⟨pre, post, hk, hfin⟩ := h
  rw [handle]
  by_cases hr : c.msg.Refuses psent length alloc call
  · obtain ⟨err, -, hsame⟩ := EspconnMsg.espconnSent_refused hr
    rw [hsame]
    exact ⟨pre, post, hk, hfin⟩
  · obtain ⟨addr, hp, hl, rfl, hlinked⟩ := EspconnMsg.espconnSent_linked hr
    have hlk := hk.linked hp hl fun b hb hab => he b hb (congrArg some hab)
    obtain ⟨pre', post', hw, hat⟩ := hlk.write call
    rw [hlinked]
    exact ⟨pre', post', hw, fun hne => ⟨(hfin hne).1, hat (hfin hne).1⟩⟩

theorem Inv.acked (h : c.Inv cap) (hcap : cap < 2 ^ 16) {len : BitVec 16} {call : LwipCall}
    (he : c.Enabled (.acked len call)) : (c.handle (.acked len call)).Inv cap := by
  obtain ⟨pre, post, hk, -⟩ := h
  obtain ⟨hnone, h0, hle⟩ := he
  have hroom := hk.room
  rw [carry, hnone] at hk
  have hsnd : (c.msg.pcb.sndBuf + len).toNat = c.msg.pcb.sndBuf.toNat + len.toNat :=
    BitVec.toNat_add_of_lt (by omega)
  obtain ⟨pre₁, post₁, hc⟩ := hk.creditHead (t := fun b => b.totLen + len) (n := len.toNat)
    (c.msg.pcb.tcpAcked len) (fun b _ => by rw [BitVec.toNat_add]; exact Nat.mod_le _ _)
    (show len.toNat + (c.msg.pcb.unacked - len.toNat) ≤ 0 + c.msg.pcb.unacked by omega)
    (show (c.msg.pcb.sndBuf + len).toNat + (c.msg.pcb.unacked - len.toNat) = cap by omega) len
  obtain ⟨pre', post', hw, hat⟩ := hc.write call
  exact ⟨pre', post', hw, fun _ => ⟨by omega, hat (by omega)⟩⟩

theorem Inv.finish (h : c.Inv cap) (he : c.Enabled .finish) : (c.handle .finish).Inv cap := by
  obtain ⟨pre, post, hk, hfin⟩ := h
  obtain ⟨len, hlen⟩ := Option.ne_none_iff_exists'.mp he
  obtain ⟨hcap, hat⟩ := hfin he
  rw [carry, hlen] at hk
  rw [handle, hlen]
  show (c.msg.finishIteration len).Inv cap
  change EspconnMsg.Kept cap len.toNat c.msg pre post at hk
  cases hp : c.msg.pbuf with
  | nil =>
    rw [EspconnMsg.finishIteration_nil hp]
    have hcredit := hk.credit
    refine ⟨pre, post, ⟨hk.toSplit, hk.room, ?_⟩, fun hne => absurd rfl hne⟩
    show 0 + EspconnMsg.counted c.msg.pbuf + c.msg.pcb.unacked ≤ EspconnMsg.done c.msg.pbuf
    omega
  | cons p pbuf =>
    rw [EspconnMsg.finishIteration_cons hp]
    have htot : (p.totLen + len).toNat ≤ p.totLen.toNat + len.toNat := by
      rw [BitVec.toNat_add]
      exact Nat.mod_le _ _
    split
    · rename_i hge
      have hsub : (p.totLen + len - p.len).toNat = (p.totLen + len).toNat - p.len.toNat := BitVec.toNat_sub_of_le hge
      rw [ge_iff_le, BitVec.le_def] at hge
      obtain ⟨pre, rfl, hpbuf, hdone⟩ := hk.covered hp hat (by omega)
      have hsplit : EspconnMsg.Split { c.msg with pbuf := p :: pbuf } (p :: pre) post := by
        rw [← hp]
        exact hk.toSplit
      have hremove := hsplit.remove (p.totLen + len - p.len) (c.msg.sentCallback ++ [(p.payload, p.len)])
      have hcredit := hk.credit
      simp only [hp, EspconnMsg.counted, EspconnMsg.done, List.map_cons, List.sum_cons, hdone] at hcredit
      refine ⟨pre, post, ⟨hremove, hk.room, ?_⟩, fun _ => ⟨hcap, hat⟩⟩
      show (p.totLen + len - p.len).toNat + EspconnMsg.counted pbuf + c.msg.pcb.unacked ≤ EspconnMsg.done pbuf
      rw [hsub, EspconnMsg.counted, EspconnMsg.done]
      omega
    · obtain ⟨pre', post', hc⟩ := hk.creditHead (t := fun b => b.totLen + len) (n := len.toNat) c.msg.pcb
        (fun b _ => by rw [BitVec.toNat_add]; exact Nat.mod_le _ _) (Nat.le_refl _) hk.room c.msg.sentLength
      rw [EspconnMsg.creditHead, hp] at hc
      exact ⟨pre', post', hc, fun hne => absurd rfl hne⟩

theorem Inv.step (h : c.Inv cap) (hcap : cap < 2 ^ 16) (e : ConnEvent) : (c.step e).Inv cap := by
  rw [Conn.step]
  split
  · rename_i he
    cases e with
    | sent => exact h.sent he
    | acked => exact h.acked hcap he
    | finish => exact h.finish he
    | options copyDisabled pbufNum =>
      obtain ⟨pre, post, hk, hfin⟩ := h
      have hs := hk.toSplit
      exact ⟨pre, post, ⟨⟨hs.pbuf, hs.nodup, hs.ptail, hs.valid, hs.full, hs.fresh⟩, hk.room, hk.credit⟩, hfin⟩
  · exact h

/-- In every state `ptail` is `NULL` or at a buffer of the queue, before which everything has
been written and after which nothing. -/
theorem run_split (cap : BitVec 16) (copyDisabled : Bool) (pbufNum : Byte) (es : List ConnEvent) :
    ∃ pre post, (run step (start cap copyDisabled pbufNum) es).msg.Split pre post := by
  obtain ⟨pre, post, hk, -⟩ :=
    run_inv (fun _ e h => h.step cap.isLt e) (start_inv cap copyDisabled pbufNum) es
  exact ⟨pre, post, hk.toSplit⟩

end Conn

end Nonos
