import Mathlib.Algebra.BigOperators.Group.List.Basic
import NonosSdk.Proof.Espconn.Write

/-!
# Reporting acknowledged packets

`tot_len` of the first buffer counts the bytes acknowledged since its packet
began, and is 0 in the others (`Credited`). `espconn_tcp_finish` removes the packets
that this covers and hands what is left over on (`finishLoop_sending`); none of
them is the buffer at `ptail`, because what is acknowledged has been written, and
`espconn_tcp_write` has just taken `ptail` off a buffer that is written in full.
All this as long as the 16 bits of `tot_len` suffice; if they do not, the packet
is not reported although it is acknowledged (`clientSent_short`).
-/

namespace Nonos

/-- How many bytes the packets have. -/
def size (ps : List (Nat × Nat)) : Nat := (ps.map Prod.snd).sum

theorem length_flatMap_span (ps : List (Nat × Nat)) : (ps.flatMap span).length = size ps := by
  rw [List.length_flatMap, size]
  exact congrArg List.sum (List.map_congr_left fun p _ => length_span p)

@[simp] theorem size_append (ps qs : List (Nat × Nat)) : size (ps ++ qs) = size ps + size qs := by
  simp [size]

/-- The packets that end within the first `a` bytes. -/
def completed : List (Nat × Nat) → Nat → List (Nat × Nat)
  | [], _ => []
  | p :: ps, a => if p.2 ≤ a then p :: completed ps (a - p.2) else []

theorem completed_append {ps : List (Nat × Nat)} {a : Nat} (h : size ps ≤ a) (qs : List (Nat × Nat)) :
    completed (ps ++ qs) a = ps ++ completed qs (a - size ps) := by
  induction ps generalizing a with
  | nil => rfl
  | cons p ps ih =>
    have hp : size (p :: ps) = p.2 + size ps := by simp [size]
    rw [hp] at h
    rw [List.cons_append, completed, if_pos (by omega), ih (by omega), hp, List.cons_append, Nat.sub_sub]

namespace EspconnMsg

variable {m m' : EspconnMsg} {pre post : List EspconnBuf} {b : EspconnBuf} {cap acked : Nat}

/-- Of the first packet `c` bytes are acknowledged, not all of them, and of the others none. -/
def Credited (c : Nat) : List EspconnBuf → Prop
  | [] => c = 0
  | b :: pbuf => b.totLen.toNat = c ∧ c < b.len.toNat ∧ ∀ x ∈ pbuf, x.totLen = 0

/-- What `sent_callback` has been called for, and what is acknowledged beyond it. -/
structure Reporting (acked : Nat) (m : EspconnMsg) : Prop where
  le : size m.reported ≤ acked
  credited : Credited (acked - size m.reported) m.pbuf

/-- The packets of a list of buffers are in their keys. -/
theorem packets_of_key {l l' : List EspconnBuf} (h : l'.map EspconnBuf.key = l.map EspconnBuf.key) :
    l'.map EspconnBuf.packet = l.map EspconnBuf.packet := by
  have hf : EspconnBuf.packet = (fun k : Nat × Nat × BitVec 16 × BitVec 16 => (k.2.1, k.2.2.1.toNat)) ∘
      EspconnBuf.key := rfl
  rw [hf, ← List.map_map, ← List.map_map, h]

/-- What is written and what is acknowledged, by buffers. -/
theorem Sending.counted_eq (h : Sending cap acked m pre post) :
    size m.reported + (m.pbuf.map EspconnBuf.done).sum = acked + m.pcb.unacked := by
  rw [← h.counted, h.bytes, List.length_append, length_flatMap_span, List.length_flatMap]
  congr 2
  exact List.map_congr_left fun x _ => (length_span (x.payload, x.done)).symm

/-- Nothing is written of the buffers after `ptail`. -/
theorem Split.done_tail (h : m.Split pre (b :: post)) : (post.map EspconnBuf.done).sum = 0 := by
  apply List.sum_eq_zero
  intro d hd
  obtain ⟨x, hx, rfl⟩ := List.mem_map.mp hd
  rw [EspconnBuf.done, h.fresh x hx, Nat.sub_self]

/-- A change of `tot_len` of the first buffer. -/
def creditHead (t : EspconnBuf → BitVec 16) (l : List EspconnBuf) : List EspconnBuf :=
  l.modifyHead fun b => { b with totLen := t b }

theorem Split.credit (h : m.Split pre post) (t : EspconnBuf → BitVec 16) :
    ∃ pre' post', Split { m with pbuf := creditHead t m.pbuf } pre' post' := by
  have hvalid : ∀ {x : EspconnBuf}, x.Valid → ({ x with totLen := t x } : EspconnBuf).Valid :=
    fun hx => ⟨hx.payload, hx.len, hx.unsent, hx.punsent⟩
  have hnodup := h.nodup
  have hall := h.valid
  rw [h.pbuf] at hnodup hall
  cases pre with
  | cons p pre =>
    refine ⟨{ p with totLen := t p } :: pre, post, ⟨?_, ?_, h.ptail, ?_, ?_, h.fresh⟩⟩
    · rw [h.pbuf]; rfl
    · rw [h.pbuf]; exact hnodup
    · rw [h.pbuf]
      intro x hx
      rcases List.mem_cons.mp hx with rfl | hx
      · exact hvalid (hall p (by simp))
      · exact hall x (List.mem_cons_of_mem _ hx)
    · intro x hx
      rcases List.mem_cons.mp hx with rfl | hx
      · exact h.full p (by simp)
      · exact h.full x (List.mem_cons_of_mem _ hx)
  | nil =>
    cases post with
    | nil =>
      refine ⟨[], [], ⟨?_, ?_, h.ptail, ?_, by simp, by simp⟩⟩ <;> rw [h.pbuf]
      · rfl
      · exact List.nodup_nil
      · exact fun x hx => absurd hx List.not_mem_nil
    | cons p post =>
      refine ⟨[], { p with totLen := t p } :: post, ⟨?_, ?_, h.ptail, ?_, by simp, h.fresh⟩⟩
      · rw [h.pbuf]; rfl
      · rw [h.pbuf]; exact hnodup
      · rw [h.pbuf]
        intro x hx
        rcases List.mem_cons.mp hx with rfl | hx
        · exact hvalid (hall p (by simp))
        · exact hall x (List.mem_cons_of_mem _ hx)

theorem Sending.credit (h : Sending cap acked m pre post) (t : EspconnBuf → BitVec 16) :
    ∃ pre' post', Sending cap acked { m with pbuf := creditHead t m.pbuf } pre' post' := by
  obtain ⟨pre', post', hs⟩ := h.toSplit.credit t
  have hwritten : (creditHead t m.pbuf).flatMap EspconnBuf.written = m.pbuf.flatMap EspconnBuf.written := by
    cases m.pbuf <;> rfl
  exact ⟨pre', post', hs, h.bytes.trans (congrArg (m.reported.flatMap span ++ ·) hwritten.symm), h.counted,
    h.room, h.copy⟩

/-- The first buffer, all of it written, is removed. -/
theorem Split.remove {p : EspconnBuf} {pbuf : List EspconnBuf}
    (h : Split { m with pbuf := p :: pbuf } (p :: pre) post) (len : BitVec 16) (cb : List (Nat × BitVec 16)) :
    Split { m with pbuf := pbuf, sentLength := len, sentCallback := cb } pre post := by
  have hsplit : pbuf = pre ++ post := List.cons_inj_right p |>.mp h.pbuf
  refine ⟨hsplit, ?_, h.ptail, fun x hx => h.valid x (List.mem_cons_of_mem _ hx),
    fun x hx => h.full x (List.mem_cons_of_mem _ hx), h.fresh⟩
  have hn := h.nodup
  rw [List.map_cons] at hn
  exact (List.nodup_cons.mp hn).2

/-- And its packet is reported. -/
theorem Sending.remove {p : EspconnBuf} {pbuf : List EspconnBuf}
    (h : Sending cap acked { m with pbuf := p :: pbuf } (p :: pre) post) (len : BitVec 16) :
    Sending cap acked { m with pbuf := pbuf, sentLength := len,
                               sentCallback := m.sentCallback ++ [(p.payload, p.len)] } pre post := by
  have hp : p.written = span p.packet := by
    rw [EspconnBuf.written, EspconnBuf.done, h.full p (by simp)]
    rfl
  refine ⟨h.toSplit.remove _ _, ?_, h.counted, h.room, h.copy⟩
  have hb := h.bytes
  simp only [reported, List.flatMap_cons] at hb
  simp only [reported, List.map_append, List.flatMap_append, hb, hp, EspconnBuf.packet]
  simp

/-- Of the first packet `c` bytes are acknowledged, `len` of them still to be added to
`tot_len`, which has room for them. -/
def Owed (c : Nat) (len : BitVec 16) : List EspconnBuf → Prop
  | [] => c = 0
  | b :: pbuf => b.totLen.toNat + len.toNat < 2 ^ 16 ∧ c = b.totLen.toNat + len.toNat ∧ ∀ x ∈ pbuf, x.totLen = 0

/-- A packet that is acknowledged in full lies before `ptail`: it has been written, and `ptail` is not
at a buffer that is written. -/
theorem Sending.covered {p : EspconnBuf} {pbuf : List EspconnBuf}
    (h : Sending cap acked { m with pbuf := p :: pbuf } pre post)
    (hset : m.pcb.unacked = 0 → ∀ b ∈ post.head?, b.unsent ≠ 0)
    (hge : size m.reported + p.len.toNat ≤ acked) : ∃ pre', pre = p :: pre' ∧ pbuf = pre' ++ post := by
  have hpbuf : p :: pbuf = pre ++ post := h.pbuf
  cases pre with
  | cons q pre =>
    obtain ⟨rfl, hrest⟩ := List.cons.inj hpbuf
    exact ⟨pre, rfl, hrest⟩
  | nil =>
    obtain rfl : post = p :: pbuf := hpbuf.symm
    have hcount := h.counted_eq
    have hu := (h.valid p (by simp)).unsent
    simp only [List.map_cons, List.sum_cons, h.toSplit.done_tail, EspconnBuf.done] at hcount
    change size m.reported + _ = acked + m.pcb.unacked at hcount
    have hzero : p.unsent.toNat = 0 := by omega
    exact absurd (BitVec.eq_of_toNat_eq (y := 0) hzero) (hset (by omega) p rfl)

/-- The bytes beyond a packet that is removed are owed to the next one. -/
theorem Sending.owed_next {p : EspconnBuf} {pbuf : List EspconnBuf}
    (h : Sending cap acked { m with pbuf := p :: pbuf } (p :: pre) post)
    (hge : size m.reported + p.len.toNat ≤ acked) {rest : BitVec 16}
    (hrest : rest.toNat = acked - size m.reported - p.len.toNat) (hzero : ∀ x ∈ pbuf, x.totLen = 0) :
    Owed (acked - (size m.reported + p.len.toNat)) rest pbuf := by
  cases pbuf with
  | nil =>
    have hcount := h.counted_eq
    have hdone : p.done = p.len.toNat := by
      rw [EspconnBuf.done, h.full p (by simp)]
      rfl
    simp only [List.map_cons, List.map_nil, List.sum_cons, List.sum_nil, hdone] at hcount
    change size m.reported + _ = acked + m.pcb.unacked at hcount
    show _ - _ = 0
    omega
  | cons x pbuf =>
    have hlt := rest.isLt
    have hx : x.totLen.toNat = 0 := by
      rw [hzero x (by simp)]
      rfl
    exact ⟨by omega, by omega, fun y hy => hzero y (List.mem_cons_of_mem _ hy)⟩

/-- The loop of `espconn_tcp_finish`, with `len` bytes to add to `tot_len` of the first
buffer: whatever it removes lies before `ptail`. -/
theorem finishLoop_sending {pbuf : List EspconnBuf} (h : Sending cap acked { m with pbuf } pre post)
    (hset : m.pcb.unacked = 0 → ∀ b ∈ post.head?, b.unsent ≠ 0) (len : BitVec 16)
    (hle : size m.reported ≤ acked) (howed : Owed (acked - size m.reported) len pbuf) :
    ∃ pre' post', Sending cap acked (finishLoop len pbuf m) pre' post' ∧
      Reporting acked (finishLoop len pbuf m) ∧
      (finishLoop len pbuf m).reported ++ (finishLoop len pbuf m).pbuf.map EspconnBuf.packet =
        m.reported ++ pbuf.map EspconnBuf.packet := by
  induction pbuf generalizing m pre len with
  | nil => exact ⟨pre, post, h, ⟨hle, howed⟩, rfl⟩
  | cons p pbuf ih =>
    obtain ⟨h16, hack, hzero⟩ := howed
    have htot : (p.totLen + len).toNat = p.totLen.toNat + len.toNat := BitVec.toNat_add_of_lt h16
    rw [finishLoop]
    dsimp only
    split
    · rename_i hge
      rw [ge_iff_le, BitVec.le_def, htot] at hge
      obtain ⟨pre, rfl, hpbuf⟩ := h.covered hset (by omega)
      have hsub : (p.totLen + len - p.len).toNat = acked - size m.reported - p.len.toNat := by
        rw [BitVec.toNat_sub_of_le (by rw [BitVec.le_def, htot]; exact hge), htot, hack]
      have howed := h.owed_next (by omega) hsub hzero
      have hrem := h.remove (p.totLen + len - p.len)
      generalize hm₁ : ({ m with sentLength := p.totLen + len - p.len,
                                 sentCallback := m.sentCallback ++ [(p.payload, p.len)] } : EspconnMsg) = m₁
      have hrep : m₁.reported = m.reported ++ [p.packet] := by
        rw [← hm₁]
        simp [reported, EspconnBuf.packet]
      have hsize : size m₁.reported = size m.reported + p.len.toNat := by
        rw [hrep, size_append]
        rfl
      rw [← hsize] at howed
      obtain ⟨pre', post', hs, hr, hq⟩ := ih (m := m₁) (by rw [← hm₁]; exact hrem) (by rw [← hm₁]; exact hset) _
        (by omega) howed
      refine ⟨pre', post', hs, hr, ?_⟩
      rw [hq, hrep]
      simp
    · rename_i hlt
      rw [ge_iff_le, BitVec.le_def, htot] at hlt
      obtain ⟨pre', post', hs⟩ := h.credit fun b => b.totLen + len
      refine ⟨pre', post', hs, ⟨hle, ?_, ?_, hzero⟩, rfl⟩
      · show (p.totLen + len).toNat = acked - size m.reported
        omega
      · show acked - size m.reported < p.len.toNat
        omega

/-- Nothing that matters here has changed. -/
theorem Sending.of_eq (h : Sending cap acked m pre post) (hp : m'.pbuf = m.pbuf) (ht : m'.ptail = m.ptail)
    (hl : m'.pcb = m.pcb) (hr : m'.sentCallback = m.sentCallback) (hc : m'.copyDisabled = m.copyDisabled) :
    Sending cap acked m' pre post :=
  ⟨⟨hp ▸ h.pbuf, hp ▸ h.nodup, ht ▸ h.ptail, hp ▸ h.valid, h.full, h.fresh⟩,
    by rw [hl, reported, hr, hp]; exact h.bytes, hl ▸ h.counted, hl ▸ h.room, hc ▸ h.copy⟩

/-- The acknowledged bytes are in the keys too. -/
theorem totLen_of_key {l l' : List EspconnBuf} (h : l'.map EspconnBuf.key = l.map EspconnBuf.key)
    (hz : ∀ x ∈ l, x.totLen = 0) : ∀ x ∈ l', x.totLen = 0 := by
  intro x hx
  have hx' : x.key ∈ l.map EspconnBuf.key := h ▸ List.mem_map_of_mem hx
  obtain ⟨y, hy, hk⟩ := List.mem_map.mp hx'
  have htot : y.totLen = x.totLen := congrArg (·.2.2.2) hk
  rw [← htot, hz y hy]

theorem owed_of_key {l l' : List EspconnBuf} (h : l'.map EspconnBuf.key = l.map EspconnBuf.key) {c : Nat}
    {len : BitVec 16} (ho : Owed c len l) : Owed c len l' := by
  match l, l', h with
  | [], [], _ => exact ho
  | b :: l, b' :: l', h =>
    obtain ⟨hb, hl⟩ := List.cons.inj h
    have htot : b'.totLen = b.totLen := congrArg (·.2.2.2) hb
    rw [Owed, htot]
    exact ⟨ho.1, ho.2.1, totLen_of_key hl ho.2.2⟩

theorem credited_of_key {l l' : List EspconnBuf} (h : l'.map EspconnBuf.key = l.map EspconnBuf.key) {c : Nat}
    (hc : Credited c l) : Credited c l' := by
  match l, l', h with
  | [], [], _ => exact hc
  | b :: l, b' :: l', h =>
    obtain ⟨hb, hl⟩ := List.cons.inj h
    have htot : b'.totLen = b.totLen := congrArg (·.2.2.2) hb
    have hlen : b'.len = b.len := congrArg (·.2.2.1) hb
    rw [Credited, htot, hlen]
    exact ⟨hc.1, hc.2.1, totLen_of_key hl hc.2.2⟩

/-- `len` bytes more are acknowledged. -/
theorem Sending.tcpAcked (h : Sending cap acked m pre post) (hcap : cap < 2 ^ 16) {len : BitVec 16}
    (hle : len.toNat ≤ m.pcb.unacked) :
    Sending cap (acked + len.toNat) { m with pcb := m.pcb.tcpAcked len } pre post := by
  have hc := h.counted
  have hr := h.room
  refine ⟨⟨h.pbuf, h.nodup, h.ptail, h.valid, h.full, h.fresh⟩, h.bytes, ?_, ?_, h.copy⟩
  · show (m.pcb.written.flatMap span).length = _ + (m.pcb.unacked - len.toNat)
    omega
  · show (m.pcb.sndBuf + len).toNat + (m.pcb.unacked - len.toNat) = cap
    rw [BitVec.toNat_add_of_lt (by omega)]
    omega

/-- An acknowledgement finds a buffer. -/
theorem Sending.pbuf_ne_nil (h : Sending cap acked m pre post) (hr : Reporting acked m)
    (h0 : 0 < m.pcb.unacked) : ∃ b pbuf, m.pbuf = b :: pbuf := by
  have hcount := h.counted_eq
  have hcred := hr.credited
  cases hp : m.pbuf with
  | nil =>
    rw [hp] at hcount hcred
    simp only [Credited] at hcred
    simp only [List.map_nil, List.sum_nil] at hcount
    have := hr.le
    omega
  | cons b pbuf => exact ⟨b, pbuf, rfl⟩

/-- `espconn_client_sent` up to the loop of `espconn_tcp_finish`. -/
theorem clientSent_write (h : Sending cap acked m pre post) (hcap : cap < 2 ^ 16) {len : BitVec 16}
    (hle : len.toNat ≤ m.pcb.unacked) (h0 : 0 < len.toNat) (call : LwipCall) :
    ∃ m₁ pre' post', { m with pcb := m.pcb.tcpAcked len }.espconnClientSent len call =
        finishLoop 0 m₁.pbuf m₁ ∧ Sending cap (acked + len.toNat) m₁ pre' post' ∧
      (m₁.pcb.unacked = 0 → ∀ b ∈ post'.head?, b.unsent ≠ 0) ∧
      m₁.pbuf.map EspconnBuf.key = (creditHead (fun b => b.totLen + len) m.pbuf).map EspconnBuf.key ∧
      m₁.sentCallback = m.sentCallback := by
  obtain ⟨pre₀, post₀, hs₀⟩ := (h.tcpAcked hcap hle).credit fun b => b.totLen + len
  generalize hm₀ : ({ m with pcb := m.pcb.tcpAcked len, sentLength := len,
                             pbuf := creditHead (fun b => b.totLen + len) m.pbuf } : EspconnMsg) = m₀
  have hs : Sending cap (acked + len.toNat) m₀ pre₀ post₀ := by
    rw [← hm₀]
    exact hs₀.of_eq rfl rfl rfl rfl rfl
  obtain ⟨pre', post', hw, hsame, hmono, hset⟩ := espconnTcpWrite_sending hs call
  refine ⟨(m₀.espconnTcpWrite call).2, pre', post', by rw [← hm₀]; rfl, hw, fun hu => ?_, ?_, ?_⟩
  · have hroom := h.room
    have hroom' := hw.room
    rcases hset (by omega) with hlt | hfull | hne
    · omega
    · rw [hfull, hu] at hroom'
      change 0 + 0 = cap at hroom'
      omega
    · exact hne
  · rw [hsame.key, ← hm₀]
  · rw [hsame.sentCallback, ← hm₀]

/-- `espconn_client_sent`, if `tot_len` of the first buffer has room for the bytes. -/
theorem clientSent_reporting (h : Sending cap acked m pre post) (hr : Reporting acked m)
    (hcap : cap < 2 ^ 16) {len : BitVec 16} (hle : len.toNat ≤ m.pcb.unacked) (h0 : 0 < len.toNat)
    (hfit : ∀ b ∈ m.pbuf.head?, b.totLen.toNat + len.toNat < 2 ^ 16) (call : LwipCall) :
    let m' := { m with pcb := m.pcb.tcpAcked len }.espconnClientSent len call
    ∃ pre' post', Sending cap (acked + len.toNat) m' pre' post' ∧ Reporting (acked + len.toNat) m' ∧
      m'.reported ++ m'.pbuf.map EspconnBuf.packet = m.reported ++ m.pbuf.map EspconnBuf.packet := by
  intro m'
  obtain ⟨m₁, pre₁, post₁, he, hs, hset, hkey, hcb⟩ := clientSent_write h hcap hle h0 call
  obtain ⟨b, pbuf, hp⟩ := h.pbuf_ne_nil hr (by omega)
  have hrep : m₁.reported = m.reported := by rw [reported, hcb, reported]
  have hcred := hr.credited
  have hsz := hr.le
  rw [hp] at hcred hfit hkey
  have hb16 := hfit b rfl
  have htot : (b.totLen + len).toNat = b.totLen.toNat + len.toNat := BitVec.toNat_add_of_lt hb16
  have howed : Owed (acked + len.toNat - size m₁.reported) 0 m₁.pbuf := by
    refine owed_of_key hkey ⟨by simpa [htot] using hb16, ?_, hcred.2.2⟩
    have := hcred.1
    rw [hrep, htot]
    show _ = _ + 0
    omega
  obtain ⟨pre', post', hs', hr', hq⟩ := finishLoop_sending hs hset 0 (by rw [hrep]; omega) howed
  rw [← he] at hs' hr' hq
  refine ⟨pre', post', hs', hr', ?_⟩
  rw [hq, hrep, hp, packets_of_key hkey]
  rfl

/-- If it has not, the packet is acknowledged but not reported. -/
theorem clientSent_short (h : Sending cap acked m pre post) (hr : Reporting acked m)
    (hcap : cap < 2 ^ 16) {len : BitVec 16} (hle : len.toNat ≤ m.pcb.unacked) (h0 : 0 < len.toNat)
    {b : EspconnBuf} {pbuf : List EspconnBuf} (hp : m.pbuf = b :: pbuf)
    (hbig : 2 ^ 16 ≤ b.totLen.toNat + len.toNat) (call : LwipCall) :
    ({ m with pcb := m.pcb.tcpAcked len }.espconnClientSent len call).reported = m.reported ∧
      size m.reported + b.len.toNat ≤ acked + len.toNat := by
  obtain ⟨m₁, pre₁, post₁, he, hs, hset, hkey, hcb⟩ := clientSent_write h hcap hle h0 call
  have hcred := hr.credited
  rw [hp] at hcred hkey
  have hlen := b.len.isLt
  have hsz := hr.le
  have hc1 := hcred.1
  have hc2 := hcred.2.1
  refine ⟨?_, by omega⟩
  rw [he]
  cases hp₁ : m₁.pbuf with
  | nil => rw [hp₁] at hkey; cases hkey
  | cons b₁ pbuf₁ =>
    rw [hp₁] at hkey
    obtain ⟨hb, -⟩ := List.cons.inj hkey
    have htot : b₁.totLen = b.totLen + len := congrArg (·.2.2.2) hb
    have hblen : b₁.len = b.len := congrArg (·.2.2.1) hb
    have hwrap : (b.totLen + len).toNat = b.totLen.toNat + len.toNat - 2 ^ 16 := by
      have := len.isLt
      rw [BitVec.toNat_add]
      omega
    have hzero : b.totLen + len + 0 = b.totLen + len := by simp
    have hlt : ¬ b₁.totLen + 0 ≥ b₁.len := by
      rw [ge_iff_le, BitVec.le_def, htot, hblen, hzero, hwrap]
      have := len.isLt
      omega
    rw [finishLoop]
    dsimp only
    rw [if_neg hlt, reported, hcb, reported]

end EspconnMsg

end Nonos
