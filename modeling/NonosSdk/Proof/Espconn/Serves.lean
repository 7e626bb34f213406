import NonosSdk.Proof.Espconn.Loop

/-!
# When `espconn_tcp_write` succeeds

It does if lwIP serves the call (`Serves`): each write that it asks for, of as much of a
buffer as two segments and the send buffer hold, is accepted, perhaps after some
`ERR_MEM` at greater lengths, and sent by `tcp_output`, until everything is written or
the send buffer is full (`espconnTcpWrite_eq_zero_iff`).
-/

namespace Nonos

/-- Of `len` bytes `k` are accepted and sent, with some attempts left. -/
inductive Accepts : List TcpAttempt → (len k : Nat) → List TcpAttempt → Prop where
  | ok {tries : List TcpAttempt} {len : Nat} : Accepts (⟨0, 0⟩ :: tries) len len tries
  | mem {tries ts : List TcpAttempt} {len len' k : Nat} {out : Int}
      (hlen : len' = if len < 3 then len - 1 else len / 2) (hpos : 0 < len') (h : Accepts tries len' k ts) :
      Accepts (⟨errMem, out⟩ :: tries) len k ts

/-- Of buffers with so many bytes to send, all is written, or as much as `sndBuf` holds. -/
inductive Serves (mss : Nat) : List TcpAttempt → (sndBuf : Nat) → (unsent : List Nat) → Prop where
  | full {tries : List TcpAttempt} {us : List Nat} : Serves mss tries 0 us
  | done {tries : List TcpAttempt} {n : Nat} : Serves mss tries n []
  | next {tries : List TcpAttempt} {n : Nat} {us : List Nat} (h : Serves mss tries n us) :
      Serves mss tries n (0 :: us)
  | write {tries ts : List TcpAttempt} {n u k : Nat} {us : List Nat} (hn : 0 < n) (hu : 0 < u)
      (hk : Accepts tries (min (min u n) (2 * mss)) k ts) (h : Serves mss ts (n - k) ((u - k) :: us)) :
      Serves mss tries n (u :: us)

theorem serves_zero_iff {mss n : Nat} (hn : 0 < n) {tries : List TcpAttempt} {us : List Nat} :
    Serves mss tries n (0 :: us) ↔ Serves mss tries n us := by
  constructor
  · intro h
    cases h with
    | full => exact absurd hn (Nat.lt_irrefl 0)
    | next h => exact h
    | write _ hu => exact absurd hu (Nat.lt_irrefl 0)
  · exact .next

theorem serves_cons_iff {mss n u : Nat} (hn : 0 < n) (hu : 0 < u) {tries : List TcpAttempt} {us : List Nat} :
    Serves mss tries n (u :: us) ↔
      ∃ k ts, Accepts tries (min (min u n) (2 * mss)) k ts ∧ Serves mss ts (n - k) ((u - k) :: us) := by
  constructor
  · intro h
    cases h with
    | full => exact absurd hn (Nat.lt_irrefl 0)
    | next => exact absurd hu (Nat.lt_irrefl 0)
    | write _ _ hk h => exact ⟨_, _, hk, h⟩
  · exact fun ⟨_, _, hk, h⟩ => .write hn hu hk h

namespace EspconnMsg

variable {m : EspconnMsg} {pre post : List EspconnBuf} {b : EspconnBuf}

theorem accepts_of_tcpTries {tries ts : List TcpAttempt} {len k : BitVec 16} (h0 : 0 < len.toNat)
    (h : tcpTries tries len = (.ok (k, 0), ts)) : Accepts tries len.toNat k.toNat ts := by
  induction tries generalizing len with
  | nil => simp [tcpTries] at h
  | cons a tries ih =>
    obtain ⟨w, out⟩ := a
    rw [tcpTries_cons] at h
    dsimp only at h
    split_ifs at h with hok hmem hpos
    · obtain ⟨⟨rfl, rfl⟩, rfl⟩ : (len = k ∧ out = 0) ∧ tries = ts := by simpa using h
      exact hok ▸ .ok
    · exact hmem ▸ .mem (toNat_shrunk h0) hpos (ih hpos h)
    · simp at h
    · simp at h

theorem tcpTries_of_accepts {tries ts : List TcpAttempt} {len : BitVec 16} {k : Nat} (h0 : 0 < len.toNat)
    (h : Accepts tries len.toNat k ts) :
    ∃ k' : BitVec 16, k'.toNat = k ∧ tcpTries tries len = (.ok (k', 0), ts) := by
  generalize hn : len.toNat = n at h
  induction h generalizing len with
  | ok => exact ⟨len, hn, by rw [tcpTries_cons, if_pos rfl]⟩
  | mem hlen hpos _ ih =>
    have hshrunk := toNat_shrunk h0
    rw [hn, ← hlen] at hshrunk
    have hgt : shrunk len > 0 := by
      show 0 < (shrunk len).toNat
      omega
    obtain ⟨k', hk', htries⟩ := ih (by omega) hshrunk
    exact ⟨k', hk', by rw [tcpTries_cons, if_neg (show ¬ errMem = 0 by decide), if_pos rfl, if_pos hgt, htries]⟩

theorem asked_pos {mss : BitVec 16} (hm : 0 < mss.toNat) (hs : m.pcb.sndBuf ≠ 0) (hb : b.unsent ≠ 0) :
    0 < (m.asked mss b).toNat := by
  have := BitVec.toNat_pos_of_ne_zero hs
  have := BitVec.toNat_pos_of_ne_zero hb
  rw [toNat_asked]
  omega

/-- The next write, of what `espconn_tcp_sent` asks for. -/
theorem serves_unsent_iff {mss : BitVec 16} (hs : m.pcb.sndBuf ≠ 0) (hb : b.unsent ≠ 0) (post : List EspconnBuf)
    (tries : List TcpAttempt) :
    Serves mss.toNat tries m.pcb.sndBuf.toNat ((b :: post).map fun b => b.unsent.toNat) ↔
      ∃ k ts, Accepts tries (m.asked mss b).toNat k ts ∧ Serves mss.toNat ts (m.pcb.sndBuf.toNat - k)
        ((b.unsent.toNat - k) :: post.map fun b => b.unsent.toNat) := by
  rw [toNat_asked]
  exact serves_cons_iff (BitVec.toNat_pos_of_ne_zero hs) (BitVec.toNat_pos_of_ne_zero hb)

/-- An attempt that does not succeed is not accepted. -/
theorem not_serves {mss : BitVec 16} (hm : 0 < mss.toNat) (hs : m.pcb.sndBuf ≠ 0) (hb : b.unsent ≠ 0)
    {tries : List TcpAttempt} (hne : ∀ k ts, tcpTries tries (m.asked mss b) ≠ (.ok (k, 0), ts))
    (post : List EspconnBuf) :
    ¬ Serves mss.toNat tries m.pcb.sndBuf.toNat ((b :: post).map fun b => b.unsent.toNat) := by
  intro hserves
  obtain ⟨k, ts, hk, -⟩ := (serves_unsent_iff hs hb post tries).mp hserves
  obtain ⟨k', -, htries⟩ := tcpTries_of_accepts (asked_pos hm hs hb) hk
  exact hne k' ts htries

/-- `Serves` for the queue from `ptail` on. -/
theorem writeLoop_eq_zero_iff {mss : BitVec 16} (hm : 0 < mss.toNat) {n : Nat} (h : m.Split pre post)
    (hn : left post < n) (tries : List TcpAttempt) : (writeLoop mss n 0 tries m).1 = 0 ↔
      Serves mss.toNat tries m.pcb.sndBuf.toNat (post.map fun b => b.unsent.toNat) := by
  refine writeLoop_rule hm (motive := fun m _ post tries r => r.1 = 0 ↔
    Serves mss.toNat tries m.pcb.sndBuf.toNat (post.map fun b => b.unsent.toNat))
    ?full ?sent ?next ?refused ?failed ?wrote h hn tries
  case full =>
    intro m pre post tries _ hs
    rw [hs]
    exact iff_of_true rfl .full
  case sent => exact fun _ => iff_of_true rfl .done
  case next =>
    intro m pre b post tries r _ hs hb ih
    rw [List.map_cons, hb]
    exact ih.trans (serves_zero_iff (BitVec.toNat_pos_of_ne_zero hs)).symm
  case refused =>
    intro m pre b post tries err ts _ hs hb hres hne
    exact iff_of_false hne (not_serves hm hs hb (fun k ts' he => by simp [hres] at he) post)
  case failed =>
    intro m pre b post tries k err ts _ hs hb hres _ hne
    exact iff_of_false hne (not_serves hm hs hb (fun k' ts' he => by simp [hres, hne] at he) post)
  case wrote =>
    intro m pre b post tries k ts r _ hs hb hres hacc ih
    have hsnd : (m.wrote b k).pcb.sndBuf.toNat = m.pcb.sndBuf.toNat - k.toNat := by
      rw [wrote_pcb]
      exact BitVec.toNat_sub_of_le hacc.le_sndBuf
    have hunsent : (b.unsent - k).toNat = b.unsent.toNat - k.toNat := BitVec.toNat_sub_of_le hacc.le_unsent
    rw [hsnd, List.map_cons, show (b.advance b.punsent b.unsent k).unsent.toNat = _ from hunsent] at ih
    rw [ih, serves_unsent_iff hs hb]
    constructor
    · exact fun hserves => ⟨_, _, accepts_of_tcpTries (asked_pos hm hs hb) hres, hserves⟩
    · intro ⟨k', ts', hk, hserves⟩
      obtain ⟨k'', rfl, htries⟩ := tcpTries_of_accepts (asked_pos hm hs hb) hk
      obtain ⟨rfl, rfl⟩ : k = k'' ∧ ts = ts' := by simpa [hres] using htries
      exact hserves

/-- Neither is there too much in lwIP's queue for a connection without Nagle's algorithm, nor
does a write fail. -/
theorem espconnTcpWrite_eq_zero_iff (h : m.Split pre post) (call : LwipCall) : (m.espconnTcpWrite call).1 = 0 ↔
    ¬ (call.nagleDisabled = true ∧ m.pcb.sndQueuelen call ≥ tcpSndQueuelen) ∧
      Serves call.mss.toNat call.tries m.pcb.sndBuf.toNat (post.map fun b => b.unsent.toNat) := by
  rw [espconnTcpWrite]
  by_cases hq : call.nagleDisabled = true ∧ m.pcb.sndQueuelen call ≥ tcpSndQueuelen
  · rw [if_pos hq]
    exact iff_of_false (show ¬ errMem = 0 by decide) fun hs => hs.1 hq
  · rw [if_neg hq, writeLoop_eq_zero_iff call.mss_pos h h.left_lt]
    exact (and_iff_right hq).symm

end EspconnMsg

end Nonos
