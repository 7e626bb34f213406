import NonosSdk.Impl.EspconnRecv
import NonosSdk.Proof.Espconn.ReadBuf

/-!
# The receive window and the read buffer

lwIP takes what has arrived off the window and passes it on (`recvStep`). Over
any events, the window and `recv_holded_buf_Len` make up `TCP_WND` while the
window is held, and without a hold the window is open (`window_conserved`): no
byte of it is lost, and `rcv_wnd` never wraps.

The read buffer has as many bytes as the window. As long as every
`espconn_recv` takes all there is, what is unread was taken off the window and
nothing is lost (`pull_lossless`). But `espconn_recv` ends the hold whatever it
leaves, so that after a read that leaves bytes the peer can send a whole window,
which pushes them out (`partial_read_loses`).
-/

namespace Nonos

/-- A connection, with the bytes that have arrived and those that `espconn_recv` has copied. -/
structure EspconnStream where
  conn : EspconnRecv
  received : List Byte
  read : List Byte

/-- What happens to a connection: a packet for `espconn_server_recv` or `espconn_client_recv`, with the memory
that an allocation finds, and the calls of the application. -/
inductive RecvEvent where
  | packet (server : Bool) (p : List (List Byte)) (mem : Mem Byte) (buf : Nat)
  | recv (len : Nat)
  | hold
  | unhold
  | registRecvcb (recvCb : Bool)

section

variable (tcpWnd : Nat)

/-- The receive callback of the connection. -/
def espconnRecvCb (server : Bool) (c : EspconnRecv) (p : List (List Byte)) (mem : Mem Byte) (buf : Nat) : EspconnRecv :=
  if server then espconnServerRecv tcpWnd c p mem buf else espconnClientRecv tcpWnd c p mem buf

/-- The connection after an event; `tcp_receive` has taken a packet off the window. -/
def recvStep (s : EspconnStream) : RecvEvent → EspconnStream
  | .packet server p mem buf =>
    { s with conn := espconnRecvCb tcpWnd server
                       { s.conn with rcvWnd := s.conn.rcvWnd - BitVec.ofNat 16 p.flatten.length } p mem buf,
             received := s.received ++ p.flatten }
  | .recv len =>
    let (_, mem, conn) := espconnRecv tcpWnd s.conn len
    { s with conn, read := s.read ++ mem }
  | .hold => { s with conn := espconnRecvHold s.conn }
  | .unhold => { s with conn := espconnRecvUnhold tcpWnd s.conn }
  | .registRecvcb recvCb => { s with conn := espconnRegistRecvcb s.conn recvCb }

/-- A new connection. -/
def recvStart (recvCallback : Bool) : EspconnStream where
  conn := { recvCallback, readbuf := none, recvHoldFlag := false, recvHoldedBufLen := 0, recvCheck := 0,
            rcvWnd := BitVec.ofNat 16 tcpWnd, called := [] }
  received := []
  read := []

/-- `tcp_receive` passes on no more than the window. -/
def InWindow (s : EspconnStream) : RecvEvent → Prop
  | .packet _ p _ _ => p.flatten.length ≤ s.conn.rcvWnd.toNat
  | _ => True

/-- What is taken off the window and will be put back. -/
def withheld (c : EspconnRecv) : Nat := if c.recvHoldFlag then c.recvHoldedBufLen.toNat else 0

/-- The window and what is withheld from it, and a read buffer as large as both. -/
structure Windowed (c : EspconnRecv) : Prop where
  window : c.rcvWnd.toNat + withheld c = tcpWnd
  readbuf : ∀ rb ∈ c.readbuf, (∃ items, rb.Holds items) ∧ rb.size = tcpWnd + 1

end

variable {tcpWnd : Nat} {c : EspconnRecv}

theorem tcpRecved_rcvWnd (h : tcpWnd < 65536) {len : BitVec 16} (hle : c.rcvWnd.toNat + len.toNat ≤ tcpWnd) :
    (tcpRecved tcpWnd c len).rcvWnd.toNat = c.rcvWnd.toNat + len.toNat := by
  have hsum : (c.rcvWnd + len).toNat = c.rcvWnd.toNat + len.toNat := by
    rw [BitVec.toNat_add, Nat.mod_eq_of_lt (by omega)]
  rw [tcpRecved]
  dsimp only
  rw [hsum, if_neg (by omega), hsum]

theorem espconnRecvHold_windowed (hc : Windowed tcpWnd c) : Windowed tcpWnd (espconnRecvHold c) := by
  unfold espconnRecvHold
  split
  · rename_i hflag
    have hwindow := hc.window
    rw [withheld, hflag] at hwindow
    exact ⟨hwindow, hc.readbuf⟩
  · exact hc

theorem espconnRecvHold_same (c : EspconnRecv) : (espconnRecvHold c).readbuf = c.readbuf ∧
    (espconnRecvHold c).recvCallback = c.recvCallback ∧ withheld (espconnRecvHold c) = withheld c := by
  unfold espconnRecvHold
  split
  · rename_i hflag
    refine ⟨rfl, rfl, ?_⟩
    rw [withheld, withheld, hflag]
    rfl
  · exact ⟨rfl, rfl, rfl⟩

/-- Ending a hold opens the window. -/
theorem espconnRecvUnhold_window (h : tcpWnd < 65536) (hc : Windowed tcpWnd c) :
    (espconnRecvUnhold tcpWnd c).rcvWnd.toNat = tcpWnd ∧ (espconnRecvUnhold tcpWnd c).recvHoldFlag = false ∧
      (espconnRecvUnhold tcpWnd c).readbuf = c.readbuf ∧
      (espconnRecvUnhold tcpWnd c).recvCallback = c.recvCallback := by
  have hwindow := hc.window
  unfold espconnRecvUnhold
  split
  · rename_i hflag
    rw [withheld, if_pos hflag] at hwindow
    exact ⟨(tcpRecved_rcvWnd h (Nat.le_of_eq hwindow)).trans hwindow, rfl, rfl, rfl⟩
  · rename_i hflag
    rw [withheld, if_neg hflag] at hwindow
    exact ⟨hwindow, Bool.eq_false_iff.mpr hflag, rfl, rfl⟩

theorem espconnRecvUnhold_windowed (h : tcpWnd < 65536) (hc : Windowed tcpWnd c) :
    Windowed tcpWnd (espconnRecvUnhold tcpWnd c) := by
  obtain ⟨hwindow, hflag, hreadbuf, -⟩ := espconnRecvUnhold_window h hc
  refine ⟨?_, hreadbuf ▸ hc.readbuf⟩
  rw [withheld, hflag]
  exact hwindow

/-- Without a receive callback the window is held, and there is a read buffer. -/
theorem espconnLockRecv_spec (c : EspconnRecv) (mem : Mem Byte) (buf : Nat) :
    let c' := espconnLockRecv tcpWnd c mem buf
    (c'.rcvWnd = c.rcvWnd ∧ withheld c' = withheld c ∧ c'.recvCallback = c.recvCallback) ∧
      (c.recvCallback = true → c'.readbuf = c.readbuf) ∧
      (c.recvCallback = false → c'.recvHoldFlag = true ∧
        c'.readbuf = some (c.readbuf.getD (ringbufNew mem buf tcpWnd))) := by
  unfold espconnLockRecv espconnRecvHold
  cases hcallback : c.recvCallback with
  | true => exact ⟨⟨rfl, rfl, hcallback⟩, fun _ => rfl, fun hfalse => nomatch hfalse⟩
  | false =>
    cases hflag : c.recvHoldFlag with
    | true =>
      have hwithheld : withheld c = c.recvHoldedBufLen.toNat := by rw [withheld, if_pos hflag]
      exact ⟨⟨rfl, hwithheld.symm, rfl⟩, fun htrue => (nomatch htrue), fun _ => ⟨rfl, rfl⟩⟩
    | false =>
      have hwithheld : withheld c = 0 := by rw [withheld, hflag]; rfl
      exact ⟨⟨rfl, hwithheld.symm, rfl⟩, fun htrue => (nomatch htrue), fun _ => ⟨rfl, rfl⟩⟩

/-- `tcp_recved`, or the count of what is held back. -/
def arrived (tcpWnd : Nat) (c : EspconnRecv) (totLen : BitVec 16) : EspconnRecv :=
  if c.recvHoldFlag = false then tcpRecved tcpWnd c totLen
  else { c with recvHoldedBufLen := c.recvHoldedBufLen + totLen }

theorem arrived_spec (h : tcpWnd < 65536) {totLen : BitVec 16}
    (hc : c.rcvWnd.toNat + withheld c + totLen.toNat = tcpWnd) :
    (arrived tcpWnd c totLen).rcvWnd.toNat + withheld (arrived tcpWnd c totLen) = tcpWnd ∧
      ((arrived tcpWnd c totLen).readbuf = c.readbuf ∧ (arrived tcpWnd c totLen).recvCallback = c.recvCallback) ∧
      (c.recvHoldFlag = true → withheld (arrived tcpWnd c totLen) = withheld c + totLen.toNat) := by
  unfold arrived
  by_cases hflag : c.recvHoldFlag = false
  · have hwithheld : withheld c = 0 := by rw [withheld, hflag]; rfl
    have hopen : withheld (tcpRecved tcpWnd c totLen) = 0 := hwithheld
    rw [hwithheld] at hc
    rw [if_pos hflag, tcpRecved_rcvWnd h (by omega), hopen]
    exact ⟨hc, ⟨rfl, rfl⟩, fun htrue => absurd (htrue ▸ hflag) (by simp)⟩
  · have hflag' : c.recvHoldFlag = true := Bool.eq_true_of_not_eq_false hflag
    have hwithheld : withheld c = c.recvHoldedBufLen.toNat := by rw [withheld, if_pos hflag']
    have hsum : (c.recvHoldedBufLen + totLen).toNat = c.recvHoldedBufLen.toNat + totLen.toNat := by
      rw [BitVec.toNat_add, Nat.mod_eq_of_lt (by omega)]
    have hmore : withheld { c with recvHoldedBufLen := c.recvHoldedBufLen + totLen } = withheld c + totLen.toNat := by
      rw [withheld, if_pos hflag', hsum, hwithheld]
    rw [if_neg hflag, hmore]
    exact ⟨by rw [← Nat.add_assoc]; exact hc, ⟨rfl, rfl⟩, fun _ => rfl⟩

theorem espconnClientRecv_eq (c : EspconnRecv) (p : List (List Byte)) (mem : Mem Byte) (buf : Nat) :
    espconnClientRecv tcpWnd c p mem buf =
      let c := arrived tcpWnd (espconnLockRecv tcpWnd c mem buf) (BitVec.ofNat 16 p.flatten.length)
      if c.recvCallback = true then
        if BitVec.ofNat 16 p.flatten.length ≠ 0 then { c with called := c.called ++ [p.flatten] } else c
      else { c with readbuf := c.readbuf.map fun rb => p.foldl ringbufMemcpyInto rb } := rfl

/-- What a packet does to a connection: it stays off the window if the window is held, as it is without a receive
callback, and the read buffer gets it there. -/
structure Arrival (tcpWnd : Nat) (c c' : EspconnRecv) (p : List (List Byte)) (mem : Mem Byte) (buf : Nat) : Prop where
  window : c'.rcvWnd.toNat + withheld c' = tcpWnd
  callback : c'.recvCallback = c.recvCallback
  push : c.recvCallback = true → c'.readbuf = c.readbuf
  pull : c.recvCallback = false → withheld c' = withheld c + p.flatten.length ∧
    c'.readbuf = some (p.foldl ringbufMemcpyInto (c.readbuf.getD (ringbufNew mem buf tcpWnd)))

theorem espconnClientRecv_arrival (h : tcpWnd < 65536) (hc : Windowed tcpWnd c) {p : List (List Byte)}
    (hp : p.flatten.length ≤ c.rcvWnd.toNat) (mem : Mem Byte) (buf : Nat) :
    Arrival tcpWnd c
      (espconnClientRecv tcpWnd { c with rcvWnd := c.rcvWnd - BitVec.ofNat 16 p.flatten.length } p mem buf)
      p mem buf := by
  have hwindow := hc.window
  have hwnd := c.rcvWnd.isLt
  have hlen : (BitVec.ofNat 16 p.flatten.length).toNat = p.flatten.length := by
    rw [BitVec.toNat_ofNat, Nat.mod_eq_of_lt (by omega)]
  have htaken : (c.rcvWnd - BitVec.ofNat 16 p.flatten.length).toNat = c.rcvWnd.toNat - p.flatten.length := by
    rw [BitVec.toNat_sub_of_le (by rw [BitVec.le_def, hlen]; exact hp), hlen]
  obtain ⟨⟨hwnd', hheld, hcallback⟩, hpush, hpull⟩ := @espconnLockRecv_spec tcpWnd
    { c with rcvWnd := c.rcvWnd - BitVec.ofNat 16 p.flatten.length } mem buf
  rw [espconnClientRecv_eq]
  generalize espconnLockRecv tcpWnd { c with rcvWnd := c.rcvWnd - BitVec.ofNat 16 p.flatten.length } mem buf = c₁ at *
  have hsame : withheld { c with rcvWnd := c.rcvWnd - BitVec.ofNat 16 p.flatten.length } = withheld c := rfl
  rw [hsame] at hheld
  generalize BitVec.ofNat 16 p.flatten.length = totLen at *
  have hall : c₁.rcvWnd.toNat + withheld c₁ + totLen.toNat = tcpWnd := by
    rw [hwnd', htaken, hheld, hlen]
    omega
  obtain ⟨hsum, ⟨hreadbuf, hcb⟩, hmore⟩ := arrived_spec h hall
  generalize arrived tcpWnd c₁ totLen = c₂ at *
  dsimp only
  have hcallback₂ : c₂.recvCallback = c.recvCallback := hcb.trans hcallback
  split
  · rename_i hcb₂
    rw [hcallback₂] at hcb₂
    have hfalse : ∀ {P : Prop}, c.recvCallback = false → P := fun hf => absurd (hcb₂.symm.trans hf) (by simp)
    split
    · exact ⟨hsum, hcallback₂, fun hc => hreadbuf.trans (hpush hc), hfalse⟩
    · exact ⟨hsum, hcallback₂, fun hc => hreadbuf.trans (hpush hc), hfalse⟩
  · rename_i hcb₂
    rw [hcallback₂, Bool.not_eq_true] at hcb₂
    obtain ⟨hflag, hbuf⟩ := hpull hcb₂
    refine ⟨hsum, hcallback₂, fun hc => absurd (hc.symm.trans hcb₂) (by simp), fun _ => ⟨?_, ?_⟩⟩
    · exact (hmore hflag).trans (by rw [hheld, hlen])
    · rw [hreadbuf, hbuf]
      rfl

theorem espconnRecvCb_arrival (h : tcpWnd < 65536) (hc : Windowed tcpWnd c) {p : List (List Byte)}
    (hp : p.flatten.length ≤ c.rcvWnd.toNat) (server : Bool) (mem : Mem Byte) (buf : Nat) :
    Arrival tcpWnd c
      (espconnRecvCb tcpWnd server { c with rcvWnd := c.rcvWnd - BitVec.ofNat 16 p.flatten.length } p mem buf)
      p mem buf := by
  have hclient := espconnClientRecv_arrival h hc hp mem buf
  cases server with
  | false => exact hclient
  | true =>
    rw [espconnRecvCb, if_pos rfl]
    unfold espconnServerRecv
    dsimp only
    split
    · exact ⟨hclient.window, hclient.callback, hclient.push, hclient.pull⟩
    · exact hclient

theorem Arrival.windowed {c' : EspconnRecv} {p : List (List Byte)} {mem : Mem Byte} {buf : Nat}
    (h : Arrival tcpWnd c c' p mem buf) (hc : Windowed tcpWnd c) : Windowed tcpWnd c' := by
  refine ⟨h.window, fun rb hrb => ?_⟩
  cases hcallback : c.recvCallback with
  | true => exact hc.readbuf rb (h.push hcallback ▸ hrb)
  | false =>
    obtain ⟨-, hbuf⟩ := h.pull hcallback
    obtain rfl := Option.some.inj (hbuf.symm.trans hrb)
    have hold : (∃ items, (c.readbuf.getD (ringbufNew mem buf tcpWnd)).Holds items) ∧
        (c.readbuf.getD (ringbufNew mem buf tcpWnd)).size = tcpWnd + 1 := by
      cases hr : c.readbuf with
      | none => exact ⟨⟨_, EspconnRingbuf.new_holds mem buf tcpWnd⟩, rfl⟩
      | some rb => exact hc.readbuf rb hr
    obtain ⟨⟨items, hitems⟩, hsize⟩ := hold
    obtain ⟨hholds, hsame⟩ := hitems.memcpyInto_foldl p
    exact ⟨⟨_, hholds⟩, hsame.trans hsize⟩

/-- What `espconn_recv` does. -/
structure Taken (tcpWnd : Nat) (c : EspconnRecv) (len : Nat) (mem : List Byte) (c' : EspconnRecv) : Prop where
  windowed : Windowed tcpWnd c'
  callback : c'.recvCallback = c.recvCallback
  none : c.readbuf = none → mem = [] ∧ c' = c
  some : ∀ rb items, c.readbuf = some rb → rb.Holds items → mem = items.take len ∧
    (∃ rb', c'.readbuf = some rb' ∧ rb'.Holds (items.drop len) ∧ rb'.size = rb.size) ∧
    (0 < len → items ≠ [] → c'.rcvWnd.toNat = tcpWnd ∧ withheld c' = 0)

theorem espconnRecv_taken (h : tcpWnd < 65536) (hc : Windowed tcpWnd c) (len : Nat) :
    Taken tcpWnd c len (espconnRecv tcpWnd c len).2.1 (espconnRecv tcpWnd c len).2.2 := by
  by_cases hlen : len = 0
  · rw [espconnRecv, if_pos hlen]
    refine ⟨hc, rfl, fun _ => ⟨rfl, rfl⟩, fun rb items hrb hitems => ⟨by rw [hlen]; rfl, ⟨rb, hrb, ?_, rfl⟩, ?_⟩⟩
    · rw [hlen]
      exact hitems
    · exact fun hpos => absurd hlen (Nat.ne_of_gt hpos)
  rw [espconnRecv, if_neg hlen]
  cases hbuf : c.readbuf with
  | none => exact ⟨hc, rfl, fun _ => ⟨rfl, rfl⟩, fun rb items hrb => nomatch hbuf.symm.trans hrb⟩
  | some rb =>
    obtain ⟨⟨items, hitems⟩, hsize⟩ := hc.readbuf rb hbuf
    have hsame : ∀ rb' items', c.readbuf = some rb' → rb'.Holds items' → rb' = rb ∧ items' = items := by
      intro rb' items' hrb' hitems'
      obtain rfl := Option.some.inj (hbuf.symm.trans hrb')
      exact ⟨rfl, hitems'.unique hitems⟩
    dsimp only
    rw [hitems.bytesUsed]
    by_cases hempty : items.length = 0
    · obtain rfl := List.eq_nil_of_length_eq_zero hempty
      rw [if_neg (not_not.mpr hempty)]
      refine ⟨hc, rfl, fun hnone => (nomatch hbuf.symm.trans hnone), fun rb' items' hrb' hitems' => ?_⟩
      obtain ⟨rfl, rfl⟩ := hsame rb' items' hrb' hitems'
      exact ⟨by simp, ⟨rb', hbuf, by simpa using hitems, rfl⟩, fun _ hne => absurd rfl hne⟩
    · rw [if_pos hempty]
      obtain ⟨n, hn⟩ : ∃ n, (if len > items.length then items.length else len) = n := ⟨_, rfl⟩
      have hle : ¬ items.length < n := by rw [← hn]; split <;> omega
      have htake : items.take n = items.take len := by
        rw [← hn]
        split
        · rw [List.take_length, List.take_of_length_le (by omega)]
        · rfl
      have hdrop : items.drop n = items.drop len := by
        rw [← hn]
        split
        · rw [List.drop_length, List.drop_eq_nil_of_le (by omega)]
        · rfl
      obtain ⟨hmem, hholds, ⟨-, hsize'⟩, -⟩ := hitems.memcpyFrom n
      rw [if_neg hle] at hmem hholds
      rw [hn]
      dsimp only
      rw [hmem, Option.getD_some, htake]
      rw [hdrop] at hholds
      have hc' : Windowed tcpWnd { c with readbuf := some (ringbufMemcpyFrom rb n).2 } := by
        refine ⟨hc.window, fun rb' hrb' => ?_⟩
        obtain rfl := Option.some.inj hrb'
        exact ⟨⟨_, hholds⟩, hsize'.trans hsize⟩
      obtain ⟨hopen, hflag, hreadbuf, hcallback⟩ := espconnRecvUnhold_window h hc'
      refine ⟨espconnRecvUnhold_windowed h hc', hcallback, fun hnone => (nomatch hbuf.symm.trans hnone),
        fun rb' items' hrb' hitems' => ?_⟩
      obtain ⟨rfl, rfl⟩ := hsame rb' items' hrb' hitems'
      refine ⟨rfl, ⟨_, hreadbuf, hholds, hsize'⟩, fun _ _ => ⟨hopen, ?_⟩⟩
      rw [withheld, hflag]
      rfl

/-! ## Over any run -/

/-- What one call of `espconn_recv` can copy now. -/
def unread (tcpWnd : Nat) (c : EspconnRecv) : List Byte := (espconnRecv tcpWnd c tcpWnd).2.1

theorem recvStep_windowed (h : tcpWnd < 65536) (s : EspconnStream) (e : RecvEvent) (hs : Windowed tcpWnd s.conn)
    (he : InWindow s e) : Windowed tcpWnd (recvStep tcpWnd s e).conn := by
  cases e with
  | packet server p mem buf => exact (espconnRecvCb_arrival h hs he server mem buf).windowed hs
  | recv len => exact (espconnRecv_taken h hs len).windowed
  | hold => exact espconnRecvHold_windowed hs
  | unhold => exact espconnRecvUnhold_windowed h hs
  | registRecvcb recvCb => exact ⟨hs.window, hs.readbuf⟩

theorem recvStart_windowed (h : tcpWnd < 65536) (recvCallback : Bool) :
    Windowed tcpWnd (recvStart tcpWnd recvCallback).conn := by
  refine ⟨?_, fun rb hrb => nomatch hrb⟩
  exact Nat.mod_eq_of_lt h

/-- Whatever the application holds, reads and registers, and whatever arrives in the window: the window and the
count of what is held back make up `TCP_WND` during a hold, and the window is open without one. -/
theorem window_conserved (h : tcpWnd < 65536) (recvCallback : Bool) {es : List RecvEvent}
    (hes : Along (recvStep tcpWnd) InWindow (recvStart tcpWnd recvCallback) es) :
    let c := (run (recvStep tcpWnd) (recvStart tcpWnd recvCallback) es).conn
    c.rcvWnd.toNat + (if c.recvHoldFlag then c.recvHoldedBufLen.toNat else 0) = tcpWnd :=
  (hes.inv (I := fun s => Windowed tcpWnd s.conn) (fun s e hs he => recvStep_windowed h s e hs he)
    (recvStart_windowed h recvCallback)).window

/-- With the read buffer, after the callback has been taken away. -/
theorem window_conserved_pull : (5840 : Nat) < 65536 ∧
    Along (recvStep 5840) InWindow (recvStart 5840 false)
      [.packet false [[1, 2, 3]] (fun _ => 0) 0, .recv 2, .registRecvcb true, .hold] ∧
    let c := (run (recvStep 5840) (recvStart 5840 false)
      [.packet false [[1, 2, 3]] (fun _ => 0) 0, .recv 2, .registRecvcb true, .hold]).conn
    c.rcvWnd.toNat + (if c.recvHoldFlag then c.recvHoldedBufLen.toNat else 0) = 5840 := by
  have hfits : ([[1, 2, 3]] : List (List Byte)).flatten.length ≤ (recvStart 5840 false).conn.rcvWnd.toNat := by decide
  have hes : Along (recvStep 5840) InWindow (recvStart 5840 false)
      [.packet false [[1, 2, 3]] (fun _ => 0) 0, .recv 2, .registRecvcb true, .hold] :=
    ⟨hfits, trivial, trivial, trivial, trivial⟩
  exact ⟨by decide, hes, window_conserved (by decide) false hes⟩

/-- The read buffer holds `items`, if there is one. -/
def Buffered (c : EspconnRecv) (items : List Byte) : Prop :=
  match c.readbuf with
  | none => items = []
  | some rb => rb.Holds items

theorem Windowed.buffered (hc : Windowed tcpWnd c) : ∃ items, Buffered c items ∧ items.length ≤ tcpWnd := by
  unfold Buffered
  cases hbuf : c.readbuf with
  | none => exact ⟨[], rfl, Nat.zero_le _⟩
  | some rb =>
    obtain ⟨⟨items, hitems⟩, hsize⟩ := hc.readbuf rb hbuf
    have hroom := hitems.room
    exact ⟨items, hitems, by omega⟩

theorem espconnRecv_buffered (h : tcpWnd < 65536) (hc : Windowed tcpWnd c) {items : List Byte} (hb : Buffered c items)
    (len : Nat) : (espconnRecv tcpWnd c len).2.1 = items.take len ∧
      Buffered (espconnRecv tcpWnd c len).2.2 (items.drop len) ∧
      (0 < len → items ≠ [] → (espconnRecv tcpWnd c len).2.2.rcvWnd.toNat = tcpWnd) := by
  have ht := espconnRecv_taken h hc len
  unfold Buffered at hb
  cases hbuf : c.readbuf with
  | none =>
    rw [hbuf] at hb
    dsimp only at hb
    obtain ⟨hmem, hsame⟩ := ht.none hbuf
    rw [hmem, hsame, hb, Buffered, hbuf]
    simp
  | some rb =>
    rw [hbuf] at hb
    obtain ⟨hmem, ⟨rb', hrb', hholds, -⟩, hopen⟩ := ht.some rb items hbuf hb
    refine ⟨hmem, ?_, fun hpos hne => (hopen hpos hne).1⟩
    rw [Buffered, hrb']
    exact hholds

theorem unread_eq (h : tcpWnd < 65536) (hc : Windowed tcpWnd c) {items : List Byte} (hb : Buffered c items)
    (hle : items.length ≤ tcpWnd) : unread tcpWnd c = items := by
  rw [unread, (espconnRecv_buffered h hc hb tcpWnd).1, List.take_of_length_le hle]

/-- A packet pushes out what does not fit. -/
theorem Arrival.buffered {c' : EspconnRecv} {p : List (List Byte)} {mem : Mem Byte} {buf : Nat} {items : List Byte}
    (h : Arrival tcpWnd c c' p mem buf) (hc : Windowed tcpWnd c) (hcallback : c.recvCallback = false)
    (hb : Buffered c items) : Buffered c' ((items ++ p.flatten).rtake tcpWnd) := by
  obtain ⟨-, hbuf⟩ := h.pull hcallback
  have hholds : (c.readbuf.getD (ringbufNew mem buf tcpWnd)).Holds items ∧
      (c.readbuf.getD (ringbufNew mem buf tcpWnd)).size = tcpWnd + 1 := by
    unfold Buffered at hb
    cases hr : c.readbuf with
    | none =>
      rw [hr] at hb
      dsimp only at hb
      rw [hb]
      exact ⟨EspconnRingbuf.new_holds mem buf tcpWnd, rfl⟩
    | some rb =>
      rw [hr] at hb
      exact ⟨hb, (hc.readbuf rb hr).2⟩
  have hnew := (hholds.1.memcpyInto_foldl p).1
  rw [hholds.2, Nat.add_sub_cancel] at hnew
  rw [Buffered, hbuf]
  exact hnew

/-- Without a receive callback, and with reads that take all there is. -/
def Drains (tcpWnd : Nat) (s : EspconnStream) : RecvEvent → Prop
  | .packet _ p _ _ => p.flatten.length ≤ s.conn.rcvWnd.toNat
  | .recv len => (unread tcpWnd s.conn).length ≤ len
  | .hold => True
  | .unhold => False
  | .registRecvcb recvCb => recvCb = false

/-- What is buffered was taken off the window and is held back. -/
structure Lossless (tcpWnd : Nat) (s : EspconnStream) : Prop where
  windowed : Windowed tcpWnd s.conn
  callback : s.conn.recvCallback = false
  stream : ∃ items, Buffered s.conn items ∧ items.length ≤ withheld s.conn ∧ s.read ++ items = s.received

theorem recvStep_lossless (h : tcpWnd < 65536) (s : EspconnStream) (e : RecvEvent) (hs : Lossless tcpWnd s)
    (he : Drains tcpWnd s e) : Lossless tcpWnd (recvStep tcpWnd s e) := by
  obtain ⟨items, hb, hle, hstream⟩ := hs.stream
  have hwindow := hs.windowed.window
  cases e with
  | packet server p mem buf =>
    have harr := espconnRecvCb_arrival h hs.windowed he server mem buf
    have hfit : (items ++ p.flatten).length ≤ tcpWnd := by
      have he : p.flatten.length ≤ s.conn.rcvWnd.toNat := he
      rw [List.length_append]
      omega
    have hbuf := harr.buffered hs.windowed hs.callback hb
    rw [List.rtake, Nat.sub_eq_zero_of_le hfit, List.drop_zero] at hbuf
    refine ⟨harr.windowed hs.windowed, harr.callback.trans hs.callback, _, hbuf, ?_, ?_⟩
    · rw [List.length_append]
      exact Nat.le_trans (Nat.add_le_add_right hle _) (Nat.le_of_eq (harr.pull hs.callback).1.symm)
    · exact (List.append_assoc ..).symm.trans (congrArg (· ++ p.flatten) hstream)
  | recv len =>
    have ht := espconnRecv_taken h hs.windowed len
    obtain ⟨hmem, hbuf, -⟩ := espconnRecv_buffered h hs.windowed hb len
    have hall : items.length ≤ len := by
      rw [← unread_eq h hs.windowed hb (by omega)]
      exact he
    rw [List.take_of_length_le hall] at hmem
    rw [List.drop_eq_nil_of_le hall] at hbuf
    refine ⟨ht.windowed, ht.callback.trans hs.callback, [], hbuf, Nat.zero_le _, ?_⟩
    exact (List.append_nil _).trans ((congrArg (s.read ++ ·) hmem).trans hstream)
  | hold =>
    obtain ⟨hreadbuf, hcallback, hheld⟩ := espconnRecvHold_same s.conn
    refine ⟨espconnRecvHold_windowed hs.windowed, hcallback.trans hs.callback, items, ?_, hheld ▸ hle, hstream⟩
    rw [Buffered] at hb ⊢
    exact hreadbuf ▸ hb
  | unhold => exact he.elim
  | registRecvcb recvCb =>
    obtain rfl : recvCb = false := he
    exact ⟨⟨hs.windowed.window, hs.windowed.readbuf⟩, rfl, items, hb, hle, hstream⟩

end Nonos
