import Mathlib.Data.List.TakeWhile
import NonosSdk.Impl.Espconn

/-!
# The loop of `espconn_tcp_write`

The list of buffers is cut in two by `ptail` (`Split`): the buffers before it
have been written, the one it points to in part, and those after it not at all.
Each iteration moves `ptail` on, or has some bytes of its buffer written (`wrote`),
or ends in an error; `writeLoop_rule` is the induction over them.
-/

namespace Nonos

namespace EspconnBuf

/-- The packet. -/
def packet (b : EspconnBuf) : Nat × Nat := (b.payload, b.len.toNat)

/-- How many of its bytes have been written. -/
def done (b : EspconnBuf) : Nat := b.len.toNat - b.unsent.toNat

/-- The fields that writing leaves alone. -/
def key (b : EspconnBuf) : Nat × Nat × BitVec 16 × BitVec 16 := (b.addr, b.payload, b.len, b.totLen)

/-- `punsent` and `unsent` say which part of the packet is left. -/
structure Valid (b : EspconnBuf) : Prop where
  payload : 0 < b.payload
  len : 0 < b.len.toNat
  unsent : b.unsent.toNat ≤ b.len.toNat
  punsent : b.punsent = b.payload + b.done

/-- After `k` more bytes. -/
def advance (b : EspconnBuf) (psent : Nat) (length k : BitVec 16) : EspconnBuf :=
  { b with punsent := psent + k.toNat, unsent := length - k }

theorem advance_valid {b : EspconnBuf} (h : b.Valid) {k : BitVec 16} (hk : k.toNat ≤ b.unsent.toNat) :
    (b.advance b.punsent b.unsent k).Valid ∧ (b.advance b.punsent b.unsent k).done = b.done + k.toNat := by
  have hsub : (b.unsent - k).toNat = b.unsent.toNat - k.toNat := BitVec.toNat_sub_of_le hk
  have hu := h.unsent
  have hd : (b.advance b.punsent b.unsent k).done = b.done + k.toNat := by
    unfold done advance
    dsimp only
    rw [hsub]
    omega
  refine ⟨⟨h.payload, h.len, ?_, ?_⟩, hd⟩
  · show (b.unsent - k).toNat ≤ b.len.toNat
    omega
  · rw [hd, ← Nat.add_assoc]
    exact congrArg (· + k.toNat) h.punsent

end EspconnBuf

namespace EspconnMsg

variable {m m' : EspconnMsg} {pre post : List EspconnBuf} {b : EspconnBuf}

/-- `ptail` cuts the list in two. -/
structure Split (m : EspconnMsg) (pre post : List EspconnBuf) : Prop where
  pbuf : m.pbuf = pre ++ post
  nodup : (m.pbuf.map EspconnBuf.addr).Nodup
  ptail : m.ptail = post.head?.map EspconnBuf.addr
  valid : ∀ b ∈ m.pbuf, b.Valid
  full : ∀ b ∈ pre, b.unsent = 0
  fresh : ∀ b ∈ post.tail, b.unsent = b.len

/-- The buffers from `ptail` on. -/
def toSend (m : EspconnMsg) : List EspconnBuf := m.pbuf.dropWhile fun b => m.ptail ≠ some b.addr

/-- `k` bytes of `*ptail` are written. -/
def wrote (m : EspconnMsg) (b : EspconnBuf) (k : BitVec 16) : EspconnMsg :=
  let m := { m with pcb := m.pcb.tcpWrite b.punsent k }.updateTail fun b' =>
    { b' with punsent := b.punsent + k.toNat, unsent := b.unsent - k }
  if m.copyDisabled ∧ b.unsent - k = 0 then { m with writeFlag := true } else m

section Wrote

variable (m : EspconnMsg) (b : EspconnBuf) (k : BitVec 16)

@[simp] theorem wrote_pcb : (m.wrote b k).pcb = m.pcb.tcpWrite b.punsent k := by
  rw [wrote]; split <;> rfl

@[simp] theorem wrote_ptail : (m.wrote b k).ptail = m.ptail := by
  rw [wrote]; split <;> rfl

@[simp] theorem wrote_sentCallback : (m.wrote b k).sentCallback = m.sentCallback := by
  rw [wrote]; split <;> rfl

@[simp] theorem wrote_pbufNum : (m.wrote b k).pbufNum = m.pbufNum := by
  rw [wrote]; split <;> rfl

@[simp] theorem wrote_copyDisabled : (m.wrote b k).copyDisabled = m.copyDisabled := by
  rw [wrote]; split <;> rfl

theorem wrote_writeFlag (hc : m.copyDisabled = false) : (m.wrote b k).writeFlag = m.writeFlag := by
  rw [wrote, if_neg fun h => by simp [updateTail, hc] at h]
  rfl

end Wrote

namespace Split

/-- The addresses before the cut. -/
theorem ne_addr (h : m.Split pre (b :: post)) : ∀ x ∈ pre, b.addr ≠ x.addr := by
  intro x hx he
  have hn := h.nodup
  rw [h.pbuf, List.map_append] at hn
  exact List.disjoint_of_nodup_append hn (List.mem_map_of_mem hx) (by simp [he])

/-- The addresses after it. -/
theorem ne_addr_after (h : m.Split pre (b :: post)) : ∀ x ∈ post, b.addr ≠ x.addr := by
  intro x hx he
  have hn := h.nodup
  rw [h.pbuf, List.map_append, List.map_cons] at hn
  have hc := (List.nodup_append.mp hn).2.1
  exact (List.nodup_cons.mp hc).1 (by rw [he]; exact List.mem_map_of_mem hx)

theorem tail?_none (h : m.Split pre []) : m.tail? = none := by
  have hp := h.ptail
  simp [tail?, hp]

theorem tail?_cons (h : m.Split pre (b :: post)) : m.tail? = some b := by
  have hp : m.ptail = some b.addr := h.ptail
  have hne := h.ne_addr
  rw [tail?, h.pbuf, List.find?_append, List.find?_eq_none.mpr, Option.none_or]
  · simp [hp]
  · intro x hx
    simpa [hp] using hne x hx

theorem toSend_eq (h : m.Split pre post) : m.toSend = post := by
  cases post with
  | nil =>
    have hp : m.ptail = none := h.ptail
    exact List.dropWhile_eq_nil_iff.mpr fun x _ => by simp [hp]
  | cons b post =>
    have hp : m.ptail = some b.addr := h.ptail
    have hne := h.ne_addr
    rw [toSend, h.pbuf, List.dropWhile_append_of_pos]
    · simp [hp]
    · intro x hx
      simpa [hp] using hne x hx

theorem tailNext_cons (h : m.Split pre (b :: post)) : m.tailNext = post.head?.map EspconnBuf.addr := by
  rw [tailNext, show m.pbuf.dropWhile _ = b :: post from h.toSend_eq]
  rfl

theorem updateTail_cons (h : m.Split pre (b :: post)) (f : EspconnBuf → EspconnBuf) :
    (m.updateTail f).pbuf = pre ++ f b :: post := by
  have hp : m.ptail = some b.addr := h.ptail
  have hsame : ∀ l : List EspconnBuf, (∀ x ∈ l, b.addr ≠ x.addr) →
      l.map (fun x => if m.ptail = some x.addr then f x else x) = l := by
    intro l hl
    refine (List.map_congr_left fun x hx => if_neg ?_).trans (List.map_id l)
    rw [hp]
    simpa using hl x hx
  rw [updateTail, h.pbuf, List.map_append, List.map_cons, hsame _ h.ne_addr, hsame _ h.ne_addr_after,
    if_pos hp]

theorem wrote_pbuf (h : m.Split pre (b :: post)) (k : BitVec 16) :
    (m.wrote b k).pbuf = pre ++ b.advance b.punsent b.unsent k :: post := by
  have hsplit : Split { m with pcb := m.pcb.tcpWrite b.punsent k } pre (b :: post) :=
    ⟨h.pbuf, h.nodup, h.ptail, h.valid, h.full, h.fresh⟩
  have hpbuf := hsplit.updateTail_cons fun b' => { b' with punsent := b.punsent + k.toNat, unsent := b.unsent - k }
  rw [EspconnMsg.wrote]
  split <;> exact hpbuf

theorem wrote_key (h : m.Split pre (b :: post)) (k : BitVec 16) :
    (m.wrote b k).pbuf.map EspconnBuf.key = m.pbuf.map EspconnBuf.key := by
  rw [h.wrote_pbuf, h.pbuf, List.map_append, List.map_append, List.map_cons, List.map_cons]
  rfl

/-- `ptail` moves on from a buffer that has been written. -/
theorem next (h : m.Split pre (b :: post)) (hb : b.unsent = 0) :
    Split { m with ptail := m.tailNext } (pre ++ [b]) post := by
  refine ⟨?_, h.nodup, h.tailNext_cons, h.valid, ?_, fun x hx => h.fresh x (List.mem_of_mem_tail hx)⟩
  · rw [h.pbuf, List.append_assoc]
    rfl
  · intro x hx
    rcases List.mem_append.mp hx with hx | hx
    · exact h.full x hx
    · rw [List.mem_singleton.mp hx, hb]

/-- `tcp_write` takes the next `k` bytes. -/
theorem wrote (h : m.Split pre (b :: post)) {k : BitVec 16} (hk : k.toNat ≤ b.unsent.toNat) :
    Split (m.wrote b k) pre (b.advance b.punsent b.unsent k :: post) := by
  have hbm : b ∈ m.pbuf := by rw [h.pbuf]; simp
  have hpbuf := h.wrote_pbuf k
  refine ⟨hpbuf, ?_, ?_, ?_, h.full, h.fresh⟩
  · have haddr : (m.wrote b k).pbuf.map EspconnBuf.addr = m.pbuf.map EspconnBuf.addr := by
      rw [hpbuf, h.pbuf, List.map_append, List.map_append, List.map_cons, List.map_cons]
      rfl
    exact haddr ▸ h.nodup
  · rw [wrote_ptail]
    exact h.ptail
  · intro x hx
    rw [hpbuf] at hx
    rcases List.mem_append.mp hx with hx | hx
    · exact h.valid x (by rw [h.pbuf]; exact List.mem_append_left _ hx)
    · rcases List.mem_cons.mp hx with rfl | hx
      · exact (EspconnBuf.advance_valid (h.valid b hbm) hk).1
      · exact h.valid x (by rw [h.pbuf]; exact List.mem_append_right _ (List.mem_cons_of_mem _ hx))

/-- A buffer that nothing has been written of is put at the end. -/
theorem create (h : m.Split pre post) {b : EspconnBuf} (hb : b.Valid) (hu : b.unsent = b.len)
    (hfresh : ∀ x ∈ m.pbuf, b.addr ≠ x.addr) :
    Split { m with pbuf := m.pbuf ++ [b], ptail := if m.ptail = none then some b.addr else m.ptail } pre
      (post ++ [b]) := by
  have hp := h.ptail
  refine ⟨?_, ?_, ?_, ?_, h.full, ?_⟩
  · rw [h.pbuf, List.append_assoc]
  · rw [List.map_append]
    apply List.Nodup.append h.nodup (List.nodup_singleton _)
    intro a ha hab
    obtain ⟨x, hx, rfl⟩ := List.mem_map.mp ha
    exact hfresh x hx (List.mem_singleton.mp hab).symm
  · cases post with
    | nil => simp [show m.ptail = none from hp]
    | cons x post => simp [show m.ptail = some x.addr from hp]
  · intro x hx
    rcases List.mem_append.mp hx with hx | hx
    · exact h.valid x hx
    · rw [List.mem_singleton.mp hx]
      exact hb
  · cases post with
    | nil => simp
    | cons y post =>
      intro x hx
      rcases List.mem_append.mp hx with hx | hx
      · exact h.fresh x hx
      · rw [List.mem_singleton.mp hx, hu]

end Split

/-- The length to try after an `ERR_MEM`. -/
def shrunk (len : BitVec 16) : BitVec 16 := if len < 3 then len - 1 else len / 2

theorem toNat_shrunk {len : BitVec 16} (h0 : 0 < len.toNat) :
    (shrunk len).toNat = if len.toNat < 3 then len.toNat - 1 else len.toNat / 2 := by
  rw [shrunk]
  by_cases h3 : len < 3
  · rw [if_pos h3, if_pos (show len.toNat < 3 from h3), BitVec.toNat_sub_of_le (by rw [BitVec.le_def]; exact h0)]
    rfl
  · rw [if_neg h3, if_neg (show ¬ len.toNat < 3 from h3), BitVec.toNat_udiv]
    rfl

theorem shrunk_le {len : BitVec 16} (h0 : 0 < len.toNat) : (shrunk len).toNat ≤ len.toNat := by
  rw [toNat_shrunk h0]
  split
  · exact Nat.sub_le _ _
  · exact Nat.div_le_self _ _

theorem tcpTries_cons (a : TcpAttempt) (tries : List TcpAttempt) (len : BitVec 16) : tcpTries (a :: tries) len =
    if a.tcpWrite = 0 then (.ok (len, a.tcpOutput), tries)
    else if a.tcpWrite = errMem then
      if shrunk len > 0 then tcpTries tries (shrunk len) else (.error errMem, tries)
    else (.error a.tcpWrite, tries) := rfl

/-- Either an error of `tcp_write` ends the attempts, or in the end no more is written than
asked for first, and not nothing. -/
theorem tcpTries_cases (tries : List TcpAttempt) {len : BitVec 16} (h0 : 0 < len.toNat) :
    (∃ err ts, err ≠ 0 ∧ tcpTries tries len = (.error err, ts)) ∨
      ∃ (k : BitVec 16) (err : Int) (ts : _), 0 < k.toNat ∧ k.toNat ≤ len.toNat ∧
        tcpTries tries len = (.ok (k, err), ts) := by
  induction tries generalizing len with
  | nil => exact .inl ⟨errMem, [], by decide, rfl⟩
  | cons a tries ih =>
    rw [tcpTries_cons]
    by_cases hok : a.tcpWrite = 0
    · rw [if_pos hok]
      exact .inr ⟨len, a.tcpOutput, tries, h0, Nat.le_refl _, rfl⟩
    rw [if_neg hok]
    by_cases hmem : a.tcpWrite = errMem
    · rw [if_pos hmem]
      by_cases hpos : shrunk len > 0
      · rw [if_pos hpos]
        obtain herr | ⟨k, err, ts, hk0, hk, hres⟩ := ih hpos
        · exact .inl herr
        · exact .inr ⟨k, err, ts, hk0, Nat.le_trans hk (shrunk_le h0), hres⟩
      · rw [if_neg hpos]
        exact .inl ⟨errMem, tries, by decide, rfl⟩
    · rw [if_neg hmem]
      exact .inl ⟨a.tcpWrite, tries, hok, rfl⟩

/-- The length that `espconn_tcp_sent` asks `tcp_write` for first. -/
def asked (m : EspconnMsg) (mss : BitVec 16) (b : EspconnBuf) : BitVec 16 :=
  let len := if m.pcb.sndBuf < b.unsent then m.pcb.sndBuf else b.unsent
  if len.toNat > 2 * mss.toNat then BitVec.ofNat 16 (2 * mss.toNat) else len

theorem toNat_asked (m : EspconnMsg) (mss : BitVec 16) (b : EspconnBuf) :
    (m.asked mss b).toNat = min (min b.unsent.toNat m.pcb.sndBuf.toNat) (2 * mss.toNat) := by
  have hlen : (if m.pcb.sndBuf < b.unsent then m.pcb.sndBuf else b.unsent).toNat =
      min b.unsent.toNat m.pcb.sndBuf.toNat := by
    split <;> rename_i hlt <;> rw [BitVec.lt_def] at hlt <;> omega
  rw [asked, ← hlen]
  generalize (if m.pcb.sndBuf < b.unsent then m.pcb.sndBuf else b.unsent) = len
  have := len.isLt
  split
  · rw [BitVec.toNat_ofNat, Nat.mod_eq_of_lt (by omega)]
    omega
  · omega

/-- `espconn_tcp_sent` for `*ptail` that is not written in full. -/
theorem espconnTcpSent_eq (h : m.Split pre (b :: post)) (hb : b.unsent ≠ 0) (mss : BitVec 16)
    (tries : List TcpAttempt) : m.espconnTcpSent mss tries b.punsent b.unsent =
      match tcpTries tries (m.asked mss b) with
      | (.error err, ts) => (err, ts, m)
      | (.ok (k, err), ts) => (err, ts, m.wrote b k) := by
  have hv := h.valid b (by rw [h.pbuf]; simp)
  have hp : b.punsent ≠ 0 := by
    have := hv.payload
    rw [hv.punsent]
    omega
  rw [espconnTcpSent, if_neg (not_or.mpr ⟨hp, hb⟩)]
  rfl

/-- The bytes that `tcp_write` has accepted: some, all of them unsent and with space for them. -/
structure Accepted (m : EspconnMsg) (b : EspconnBuf) (k : BitVec 16) : Prop where
  pos : 0 < k.toNat
  le_unsent : k.toNat ≤ b.unsent.toNat
  le_sndBuf : k.toNat ≤ m.pcb.sndBuf.toNat

/-- The iterations that the loop can still make. -/
def left (post : List EspconnBuf) : Nat := (post.map fun b => b.unsent.toNat + 1).sum

/-- The induction over the iterations of `espconn_tcp_write`. -/
theorem writeLoop_rule {mss : BitVec 16} (hm : 0 < mss.toNat)
    {motive : EspconnMsg → List EspconnBuf → List EspconnBuf → List TcpAttempt → Int × EspconnMsg → Prop}
    (full : ∀ {m pre post tries}, m.Split pre post → m.pcb.sndBuf = 0 → motive m pre post tries (0, m))
    (sent : ∀ {m pre tries}, m.Split pre [] → motive m pre [] tries (0, m))
    (next : ∀ {m pre b post tries r}, m.Split pre (b :: post) → m.pcb.sndBuf ≠ 0 → b.unsent = 0 →
      motive { m with ptail := m.tailNext } (pre ++ [b]) post tries r → motive m pre (b :: post) tries r)
    (refused : ∀ {m pre b post tries err ts}, m.Split pre (b :: post) → m.pcb.sndBuf ≠ 0 → b.unsent ≠ 0 →
      tcpTries tries (m.asked mss b) = (.error err, ts) → err ≠ 0 → motive m pre (b :: post) tries (err, m))
    (failed : ∀ {m pre b post tries k err ts}, m.Split pre (b :: post) → m.pcb.sndBuf ≠ 0 → b.unsent ≠ 0 →
      tcpTries tries (m.asked mss b) = (.ok (k, err), ts) → Accepted m b k → err ≠ 0 →
      motive m pre (b :: post) tries (err, m.wrote b k))
    (wrote : ∀ {m pre b post tries k ts r}, m.Split pre (b :: post) → m.pcb.sndBuf ≠ 0 → b.unsent ≠ 0 →
      tcpTries tries (m.asked mss b) = (.ok (k, 0), ts) → Accepted m b k →
      motive (m.wrote b k) pre (b.advance b.punsent b.unsent k :: post) ts r → motive m pre (b :: post) tries r)
    {n : Nat} (h : m.Split pre post) (hn : left post < n) (tries : List TcpAttempt) :
    motive m pre post tries (writeLoop mss n 0 tries m) := by
  induction n generalizing m pre post tries with
  | zero => omega
  | succ n ih =>
    rw [writeLoop]
    by_cases hs : m.pcb.sndBuf = 0
    · rw [if_pos hs]
      exact full h hs
    rw [if_neg hs]
    cases post with
    | nil =>
      rw [h.tail?_none]
      exact sent h
    | cons b post =>
      rw [h.tail?_cons]
      dsimp only
      have hleft : left (b :: post) = b.unsent.toNat + 1 + left post := rfl
      by_cases hb : b.unsent = 0
      · rw [if_pos hb]
        exact next h hs hb (ih (h.next hb) (by omega) tries)
      rw [if_neg hb, espconnTcpSent_eq h hb]
      have hu : 0 < b.unsent.toNat := BitVec.toNat_pos_of_ne_zero hb
      have hsn : 0 < m.pcb.sndBuf.toNat := BitVec.toNat_pos_of_ne_zero hs
      have hasked := toNat_asked m mss b
      obtain ⟨err, ts, hne, hres⟩ | ⟨k, err, ts, hk0, hk, hres⟩ :=
        tcpTries_cases tries (show 0 < (m.asked mss b).toNat by omega)
      · rw [hres]
        dsimp only
        rw [if_pos hne]
        exact refused h hs hb hres hne
      · have hacc : Accepted m b k := ⟨hk0, by omega, by omega⟩
        rw [hres]
        dsimp only
        by_cases hne : err = 0
        · subst hne
          rw [if_neg (by simp)]
          have hadv : left (b.advance b.punsent b.unsent k :: post) + k.toNat = left (b :: post) := by
            have hsub : (b.unsent - k).toNat = b.unsent.toNat - k.toNat := BitVec.toNat_sub_of_le hacc.le_unsent
            have hcons : left (b.advance b.punsent b.unsent k :: post) = (b.unsent - k).toNat + 1 + left post := rfl
            have := hacc.le_unsent
            rw [hcons, hsub, hleft]
            omega
          exact wrote h hs hb hres hacc (ih (h.wrote hacc.le_unsent) (by omega) ts)
        · rw [if_pos hne]
          exact failed h hs hb hres hacc hne

/-- The loop of `espconn_tcp_write` makes all its iterations. -/
theorem Split.left_lt (h : m.Split pre post) : left post < m.writeBound := by
  have hbound : m.writeBound = left (pre ++ post) + 1 := by rw [← h.pbuf]; rfl
  rw [hbound, left, left, List.map_append, List.sum_append]
  omega

/-- If nothing has been written although there is space, `ptail` is at bytes to write. -/
def Settled (unacked : Nat) (m : EspconnMsg) (post : List EspconnBuf) : Prop :=
  unacked < m.pcb.unacked ∨ m.pcb.sndBuf = 0 ∨ ∀ b ∈ post.head?, b.unsent ≠ 0

theorem unacked_lt_wrote (m : EspconnMsg) {k : BitVec 16} (hk : Accepted m b k) :
    m.pcb.unacked < (m.wrote b k).pcb.unacked := by
  have := hk.pos
  rw [wrote_pcb]
  show m.pcb.unacked < m.pcb.unacked + k.toNat
  omega

section Keeps

variable {I : EspconnMsg → List EspconnBuf → List EspconnBuf → Prop}
  (hnext : ∀ {m pre b post}, m.Split pre (b :: post) → b.unsent = 0 → I m pre (b :: post) →
    I { m with ptail := m.tailNext } (pre ++ [b]) post)
  (hwrote : ∀ {m pre b post k}, m.Split pre (b :: post) → Accepted m b k → I m pre (b :: post) →
    I (m.wrote b k) pre (b.advance b.punsent b.unsent k :: post))
include hnext hwrote

/-- What moving on and writing keep, the loop keeps. -/
theorem writeLoop_keeps {mss : BitVec 16} (hm : 0 < mss.toNat) {n : Nat} (h : m.Split pre post)
    (hi : I m pre post) (hn : left post < n) (tries : List TcpAttempt) :
    ∃ pre' post', (writeLoop mss n 0 tries m).2.Split pre' post' ∧ I (writeLoop mss n 0 tries m).2 pre' post' ∧
      m.pcb.unacked ≤ (writeLoop mss n 0 tries m).2.pcb.unacked ∧
      Settled m.pcb.unacked (writeLoop mss n 0 tries m).2 post' := by
  refine writeLoop_rule hm (motive := fun m pre post _ r => I m pre post →
    ∃ pre' post', r.2.Split pre' post' ∧ I r.2 pre' post' ∧ m.pcb.unacked ≤ r.2.pcb.unacked ∧
      Settled m.pcb.unacked r.2 post') ?full ?sent ?next ?refused ?failed ?wrote h hn tries hi
  case full => exact fun h hs hi => ⟨_, _, h, hi, Nat.le_refl _, .inr (.inl hs)⟩
  case sent => exact fun h hi => ⟨_, _, h, hi, Nat.le_refl _, .inr (.inr (by simp))⟩
  case next => exact fun h _ hb ih hi => ih (hnext h hb hi)
  case refused => exact fun h _ hb _ _ hi => ⟨_, _, h, hi, Nat.le_refl _, .inr (.inr (by simpa using hb))⟩
  case failed =>
    intro m pre b post tries k err ts h _ _ _ hacc _ hi
    have hmore := m.unacked_lt_wrote hacc
    exact ⟨_, _, h.wrote hacc.le_unsent, hwrote h hacc hi, Nat.le_of_lt hmore, .inl hmore⟩
  case wrote =>
    intro m pre b post tries k ts r h _ _ _ hacc ih hi
    have hmore := m.unacked_lt_wrote hacc
    obtain ⟨pre', post', hs, hi', hle, -⟩ := ih (hwrote h hacc hi)
    exact ⟨pre', post', hs, hi', Nat.le_trans (Nat.le_of_lt hmore) hle, .inl (Nat.lt_of_lt_of_le hmore hle)⟩

/-- And so does `espconn_tcp_write`. -/
theorem espconnTcpWrite_keeps (h : m.Split pre post) (hi : I m pre post) (call : LwipCall) :
    ∃ pre' post', (m.espconnTcpWrite call).2.Split pre' post' ∧ I (m.espconnTcpWrite call).2 pre' post' ∧
      m.pcb.unacked ≤ (m.espconnTcpWrite call).2.pcb.unacked ∧
      (m.pcb.unacked = 0 → Settled 0 (m.espconnTcpWrite call).2 post') := by
  unfold espconnTcpWrite
  split
  · rename_i hq
    refine ⟨pre, post, h, hi, Nat.le_refl _, fun h0 => ?_⟩
    -- with nothing unacknowledged, the queue of lwIP is empty
    rw [TcpPcb.sndQueuelen, if_pos h0] at hq
    exact absurd hq.2 (by decide)
  · obtain ⟨pre', post', hs, hi', hle, hset⟩ :=
      writeLoop_keeps hnext hwrote call.mss_pos h hi h.left_lt call.tries
    exact ⟨pre', post', hs, hi', hle, fun h0 => h0 ▸ hset⟩

end Keeps

/-! ## Queueing a packet -/

/-- The buffer of a packet that nothing has happened to. -/
def freshBuf (addr psent : Nat) (length : BitVec 16) : EspconnBuf :=
  { addr, payload := psent, punsent := psent, unsent := length, len := length, totLen := 0 }

theorem freshBuf_valid {psent : Nat} (hp : psent ≠ 0) {length : BitVec 16} (hl : length ≠ 0) (addr : Nat) :
    (freshBuf addr psent length).Valid where
  payload := Nat.pos_of_ne_zero hp
  len := BitVec.toNat_pos_of_ne_zero hl
  unsent := Nat.le_refl _
  punsent := by simp [freshBuf, EspconnBuf.done]

/-- `espconn_sent` returns before it has queued the packet: there is none, the last one is not
copied yet, the queue is full, or there is no memory. -/
def Refuses (m : EspconnMsg) (psent : Nat) (length : BitVec 16) (alloc : Option Nat) (call : LwipCall) : Prop :=
  psent = 0 ∨ length = 0 ∨ m.writeFlag = false ∨
    (if m.copyDisabled then m.pcb.sndQueuelen call ≥ tcpSndQueuelen else m.espconnTcpGetBufCount ≥ m.pbufNum) ∨
    alloc = none

/-- The packet is queued. -/
def linked (m : EspconnMsg) (addr psent : Nat) (length : BitVec 16) : EspconnMsg :=
  { m with pbuf := m.pbuf ++ [freshBuf addr psent length],
           ptail := if m.ptail = none then some addr else m.ptail,
           writeFlag := if m.copyDisabled then false else m.writeFlag }

variable {psent : Nat} {length : BitVec 16} {alloc : Option Nat} {call : LwipCall}

theorem espconnSent_refused (h : m.Refuses psent length alloc call) :
    ∃ err, err ≠ 0 ∧ m.espconnSent psent length alloc call = (err, m) := by
  unfold espconnSent
  by_cases harg : psent = 0 ∨ length = 0
  · exact ⟨espconnArg, by decide, if_pos harg⟩
  rw [if_neg harg]
  by_cases hw : m.writeFlag = true
  · rw [if_pos hw]
    by_cases hfull : if m.copyDisabled then m.pcb.sndQueuelen call ≥ tcpSndQueuelen
        else m.espconnTcpGetBufCount ≥ m.pbufNum
    · exact ⟨espconnMaxnum, by decide, if_pos hfull⟩
    · rw [if_neg hfull]
      obtain h0 | h0 | h0 | h0 | rfl := h
      · exact absurd (.inl h0) harg
      · exact absurd (.inr h0) harg
      · exact absurd hw (by simp [h0])
      · exact absurd h0 hfull
      · exact ⟨errMem, by decide, rfl⟩
  · exact ⟨espconnArg, by decide, if_neg hw⟩

theorem espconnSent_linked (h : ¬ m.Refuses psent length alloc call) :
    ∃ addr, psent ≠ 0 ∧ length ≠ 0 ∧ alloc = some addr ∧
      m.espconnSent psent length alloc call = (m.linked addr psent length).espconnTcpWrite call := by
  simp only [Refuses, not_or] at h
  obtain ⟨hp, hl, hw, hfull, halloc⟩ := h
  obtain ⟨addr, rfl⟩ := Option.ne_none_iff_exists'.mp halloc
  refine ⟨addr, hp, hl, rfl, ?_⟩
  rw [espconnSent, if_neg (not_or.mpr ⟨hp, hl⟩), if_pos (by simpa using hw), if_neg hfull]
  by_cases ht : m.ptail = none <;> cases hc : m.copyDisabled <;>
    simp [espconnPbufCreate, linked, freshBuf, ht, hc]

end EspconnMsg

end Nonos
