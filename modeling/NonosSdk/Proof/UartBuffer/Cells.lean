import NonosSdk.Framework.Cyclic
import NonosSdk.Impl.UartBuffer

/-!
# What a `UartBuffer` holds

`Cells b o items` says where the bytes are: from offset `o`, that of
`pOutPos`, up to `pInPos`. `Holds` adds what `Space` is. Every operation of the
driver is one of four moves on the cells: a linear copy in (`Cells.append`),
one byte in (`Cells.rxPutByte`), a linear run of bytes out (`Cells.advance`)
and one byte out, which `txTake` repeats.
-/

namespace Nonos

namespace UartBuffer

variable {b : UartBuffer} {o : Nat} {items : List Byte}

/-- `UartBuffSize`, as a number. -/
abbrev size (b : UartBuffer) : Nat := b.uartBuffSize.toNat

theorem endPos_eq (b : UartBuffer) : b.endPos = b.pUartBuff + b.size := rfl

/-- The buffer holds `items` from offset `o` on. -/
structure Cells (b : UartBuffer) (o : Nat) (items : List Byte) : Prop where
  size_lt : b.size < 2 ^ 16
  lt : o < b.size
  pOutPos : b.pOutPos = b.pUartBuff + o
  pInPos : b.pInPos = b.pUartBuff + wrap b.size (o + items.length)
  length_le : items.length ≤ b.size
  read : b.mem.ringRead b.pUartBuff b.size o items.length = items

/-- And `Space` counts the other cells. -/
structure Holds (b : UartBuffer) (o : Nat) (items : List Byte) : Prop extends Cells b o items where
  space : items.length + b.space.toNat = b.size

/-- `% UartBuffSize`, of an offset less than twice round. -/
theorem modPos_eq {i : Nat} (h : i < 2 * b.size) :
    b.modPos (b.pUartBuff + i) = b.pUartBuff + wrap b.size i := by
  have hm : i % b.size = wrap b.size i := by
    unfold wrap
    split
    · exact Nat.mod_eq_of_lt ‹_›
    · rw [Nat.mod_eq_sub_mod (by omega), Nat.mod_eq_of_lt (by omega)]
  rw [modPos, Nat.add_sub_cancel_left, hm]

/-- The compare-and-reset of the loops moves a position on by one cell. -/
theorem reset_eq {i : Nat} (h : i < b.size) :
    (if b.pUartBuff + i + 1 = b.endPos then b.pUartBuff else b.pUartBuff + i + 1) =
      b.pUartBuff + wrap b.size (i + 1) := by
  rw [endPos_eq]
  unfold wrap
  split_ifs <;> omega

namespace Cells

theorem in_lt (h : b.Cells o items) : wrap b.size (o + items.length) < b.size :=
  wrap_lt (by have := h.lt; have := h.length_le; omega)

/-- Bytes written from `pInPos` on. -/
theorem append (h : b.Cells o items) {b' : UartBuffer} {n : Nat} (src : Nat → Byte)
    (hn : items.length + n ≤ b.size) (hs : b'.uartBuffSize = b.uartBuffSize)
    (hp : b'.pUartBuff = b.pUartBuff) (ho : b'.pOutPos = b.pOutPos)
    (hi : b'.pInPos = b.pUartBuff + wrap b.size (wrap b.size (o + items.length) + n))
    (hm : b'.mem = b.mem.ringWrite b.pUartBuff b.size (wrap b.size (o + items.length)) src n) :
    b'.Cells o (items ++ (List.range n).map src) := by
  have hsz : b'.size = b.size := congrArg BitVec.toNat hs
  have hl : (items ++ (List.range n).map src).length = items.length + n := by simp
  constructor
  · exact hsz ▸ h.size_lt
  · exact hsz ▸ h.lt
  · rw [ho, hp, h.pOutPos]
  · rw [hi, hp, hsz, hl, wrap_wrap_add h.lt hn]
  · rw [hl, hsz]; exact hn
  · rw [hm, hp, hsz, hl, Mem.ringRead_ringWrite_add _ _ h.lt hn, h.read]

/-- Bytes taken from `pOutPos` on. -/
theorem advance (h : b.Cells o items) {b' : UartBuffer} {n : Nat} (hn : n ≤ items.length)
    (hs : b'.uartBuffSize = b.uartBuffSize) (hp : b'.pUartBuff = b.pUartBuff)
    (ho : b'.pOutPos = b.pUartBuff + wrap b.size (o + n)) (hi : b'.pInPos = b.pInPos)
    (hm : b'.mem = b.mem) : b'.Cells (wrap b.size (o + n)) (items.drop n) := by
  have hsz : b'.size = b.size := congrArg BitVec.toNat hs
  have hlt := h.lt
  have hle := h.length_le
  constructor
  · exact hsz ▸ h.size_lt
  · rw [hsz]; exact wrap_lt (by omega)
  · rw [ho, hp]
  · rw [hi, hp, hsz, h.pInPos, List.length_drop, wrap_wrap_add h.lt (by omega), Nat.add_sub_cancel' hn]
  · rw [List.length_drop, hsz]; omega
  · rw [hm, hp, hsz, List.length_drop, ← Mem.ringRead_drop _ _ h.lt hn h.length_le, h.read]

/-- The first bytes, where they do not reach the end of the storage. -/
theorem cells_take (h : b.Cells o items) {n : Nat} (hn : n ≤ items.length) (hl : o + n ≤ b.size) :
    b.mem.cells b.pOutPos n = items.take n := by
  rw [h.pOutPos, Mem.cells_eq_ringRead _ hl, ← Mem.ringRead_take _ hn, h.read]

/-- The cell at `pOutPos`. -/
theorem head (h : b.Cells o items) (hi : 0 < items.length) : [b.mem b.pOutPos] = items.take 1 := by
  rw [← h.cells_take hi (by have := h.lt; omega)]
  simp [Mem.cells]

/-- `Space` says nothing about the cells. -/
theorem with_space (h : b.Cells o items) (s : BitVec 16) : ({ b with space := s } : UartBuffer).Cells o items :=
  ⟨h.size_lt, h.lt, h.pOutPos, h.pInPos, h.length_le, h.read⟩

theorem copyIn (h : b.Cells o items) (src : Nat → Byte) {len : BitVec 16}
    (hn : items.length + len.toNat ≤ b.size) (hl : b.pInPos + len.toNat ≤ b.endPos) :
    (b.copyIn src len).Cells o (items ++ (List.range len.toNat).map src) := by
  have hw := h.in_lt
  have hp := h.pInPos
  rw [endPos_eq, hp] at hl
  refine h.append src hn rfl rfl rfl ?_ ?_
  · rw [UartBuffer.copyIn, hp, Nat.add_assoc]
    exact modPos_eq (by omega)
  · rw [UartBuffer.copyIn, hp]
    exact Mem.store_eq_ringWrite _ _ (by omega)

theorem rxPutByte (h : b.Cells o items) (x : Byte) (hn : items.length < b.size) :
    (b.rxPutByte x).Cells o (items ++ [x]) := by
  have hw := h.in_lt
  have hp := h.pInPos
  refine h.append (fun _ => x) (n := 1) hn rfl rfl rfl ?_ ?_
  · rw [UartBuffer.rxPutByte, hp]
    exact reset_eq hw
  · show Function.update b.mem b.pInPos x = _
    rw [hp, Mem.update_eq_store]
    exact Mem.store_eq_ringWrite b.mem _ (n := 1) hw

/-- The loop of `Uart_rx_buff_enq`. -/
theorem foldl_rxPutByte (h : b.Cells o items) (xs : List Byte) (hn : items.length + xs.length ≤ b.size) :
    (xs.foldl UartBuffer.rxPutByte b).Cells o (items ++ xs) ∧
      (xs.foldl UartBuffer.rxPutByte b).space = b.space ∧
      (xs.foldl UartBuffer.rxPutByte b).uartBuffSize = b.uartBuffSize := by
  induction xs generalizing b items with
  | nil => simpa using h
  | cons x xs ih =>
    rw [List.length_cons] at hn
    have hx := h.rxPutByte x (by omega)
    have hlen : (items ++ [x]).length + xs.length ≤ b.size := by
      rw [List.length_append, List.length_singleton]; omega
    simpa [UartBuffer.rxPutByte] using ih hx hlen

/-- The loop of `tx_fifo_insert`. -/
theorem txTake (h : b.Cells o items) {n : Nat} (hn : n ≤ items.length) :
    (UartBuffer.txTake n b).1 = items.take n ∧
      (UartBuffer.txTake n b).2.Cells (wrap b.size (o + n)) (items.drop n) ∧
      (UartBuffer.txTake n b).2.space = b.space ∧
      (UartBuffer.txTake n b).2.uartBuffSize = b.uartBuffSize := by
  induction n generalizing b o items with
  | zero => simpa [UartBuffer.txTake, wrap_of_lt h.lt] using h
  | succ n ih =>
    have hstep : ({ b with pOutPos := if b.pOutPos + 1 = b.endPos then b.pUartBuff else b.pOutPos + 1 } :
        UartBuffer).Cells (wrap b.size (o + 1)) (items.drop 1) := by
      refine h.advance (by omega) rfl rfl ?_ rfl rfl
      rw [h.pOutPos]
      exact reset_eq h.lt
    obtain ⟨ht, hc, hsp⟩ := ih hstep (by rw [List.length_drop]; omega)
    have hsz := h.length_le
    refine ⟨?_, ?_, hsp⟩
    · simp only [UartBuffer.txTake]
      rw [ht, Nat.add_comm n 1, List.take_add, ← h.head (by omega)]
      rfl
    · rw [List.drop_drop, Nat.add_comm 1 n, wrap_wrap_add h.lt (by omega), Nat.add_comm 1 n] at hc
      exact hc

end Cells

/-! ## The operations -/

/-- `Uart_Buf_Init`. -/
theorem uartBufInit_holds {size heap : Word} (m : Mem Byte) (addr : Nat) (h0 : 0 < size.toNat)
    (h16 : size.toNat < 2 ^ 16) (hlt : size < heap) :
    ∃ b, uartBufInit size heap m addr = some b ∧ b.size = size.toNat ∧ b.Holds 0 [] := by
  unfold uartBufInit
  rw [if_neg (BitVec.not_le.mpr hlt)]
  refine ⟨_, rfl, rfl, ?_, ?_⟩
  · exact ⟨h16, h0, rfl, by simp [wrap_of_lt h0], Nat.zero_le _, rfl⟩
  · simpa using h16

@[simp] theorem size_uartBufCpy (b : UartBuffer) (pdata : Nat → Byte) (n : BitVec 16) :
    (b.uartBufCpy pdata n).size = b.size := by
  unfold uartBufCpy
  dsimp only
  split_ifs <;> rfl

@[simp] theorem size_uartRxBuffEnq (b : UartBuffer) (fifo : List Byte) :
    (b.uartRxBuffEnq fifo).2.size = b.size := by
  have hf : ∀ (xs : List Byte) (b : UartBuffer), (xs.foldl rxPutByte b).size = b.size := by
    intro xs
    induction xs with
    | nil => intro b; rfl
    | cons x xs ih => intro b; exact ih _
  unfold uartRxBuffEnq
  dsimp only
  split
  · rfl
  · exact hf _ b

@[simp] theorem size_txFifoInsert (b : UartBuffer) (n : Byte) : (b.txFifoInsert n).2.size = b.size := by
  have ht : ∀ (n : Nat) (b : UartBuffer), (txTake n b).2.size = b.size := by
    intro n
    induction n with
    | zero => intro b; rfl
    | succ n ih => intro b; exact ih _
  exact ht _ b

@[simp] theorem size_rxBuffDeq (b : UartBuffer) (n : BitVec 16) : (b.rxBuffDeq n).2.size = b.size := by
  unfold rxBuffDeq
  dsimp only
  split_ifs <;> rfl

namespace Holds

/-- The length up to the end of the storage, which fits in a `uint16`. -/
theorem toNat_tail (h : b.Holds o items) {p : Nat} (h1 : b.pUartBuff ≤ p) :
    (BitVec.ofNat 16 (b.endPos - p)).toNat = b.endPos - p := by
  have := h.size_lt
  have := endPos_eq b
  rw [BitVec.toNat_ofNat, Nat.mod_eq_of_lt (by omega)]

/-- `UartBuffSize - Space`. -/
theorem toNat_used (h : b.Holds o items) :
    ((b.uartBuffSize - b.space.setWidth 32).setWidth 16).toNat = items.length := by
  have hlt := h.size_lt
  have hs := h.space
  have hsz : b.uartBuffSize.toNat = b.size := rfl
  have hw : (b.space.setWidth 32).toNat = b.space.toNat :=
    BitVec.toNat_setWidth_of_le (by omega)
  rw [BitVec.toNat_setWidth, BitVec.toNat_sub_of_le (by rw [BitVec.le_def, hw]; omega), hw,
    hsz, Nat.mod_eq_of_lt (by omega)]
  omega

theorem copyIn (h : b.Holds o items) (src : Nat → Byte) {len : BitVec 16} (hn : len.toNat ≤ b.space.toNat)
    (hl : b.pInPos + len.toNat ≤ b.endPos) :
    (b.copyIn src len).Holds o (items ++ (List.range len.toNat).map src) := by
  have hs := h.space
  refine ⟨h.toCells.copyIn src (by omega) hl, ?_⟩
  have hsub : (b.space - len).toNat = b.space.toNat - len.toNat := BitVec.toNat_sub_of_le hn
  show _ + (b.space - len).toNat = b.size
  rw [hsub, List.length_append, List.length_map, List.length_range]
  omega

/-- `Uart_Buf_Cpy` appends the block. -/
theorem uartBufCpy (h : b.Holds o items) (pdata : Nat → Byte) {dataLen : BitVec 16}
    (hn : dataLen.toNat ≤ b.space.toNat) :
    (b.uartBufCpy pdata dataLen).Holds o (items ++ (List.range dataLen.toNat).map pdata) := by
  have hin := h.pInPos
  have hlt := h.in_lt
  have hend := endPos_eq b
  have htail := h.toNat_tail (p := b.pInPos) (by omega)
  unfold UartBuffer.uartBufCpy
  split
  · subst dataLen; simpa using h
  · dsimp only
    split
    · rename_i hle
      rw [ge_iff_le, BitVec.le_def, htail] at hle
      exact h.copyIn pdata hn (by omega)
    · rename_i hle
      rw [ge_iff_le, BitVec.le_def, htail] at hle
      generalize BitVec.ofNat 16 (b.endPos - b.pInPos) = tail at htail ⊢
      have h1 := h.copyIn pdata (show tail.toNat ≤ b.space.toNat by omega) (by omega)
      have hrest : (dataLen - tail).toNat = dataLen.toNat - tail.toNat :=
        BitVec.toNat_sub_of_le (by rw [BitVec.le_def]; omega)
      have hsp : (b.copyIn pdata tail).space.toNat = b.space.toNat - tail.toNat :=
        BitVec.toNat_sub_of_le (by rw [BitVec.le_def]; omega)
      -- the first copy ends where the storage does, so the second starts at its beginning
      have hstart : (b.copyIn pdata tail).pInPos = b.pUartBuff := by
        show b.modPos (b.pInPos + tail.toNat) = _
        rw [show b.pInPos + tail.toNat = b.pUartBuff + b.size by omega, modPos_eq (by omega),
          wrap_of_ge (Nat.le_refl _), Nat.sub_self, Nat.add_zero]
      have hspace := h.space
      have h2 := h1.copyIn (fun i => pdata (tail.toNat + i))
        (show (dataLen - tail).toNat ≤ (b.copyIn pdata tail).space.toNat by omega)
        (by rw [hstart, hrest]; change _ ≤ b.endPos; omega)
      rw [List.append_assoc, hrest] at h2
      have hsplit : (List.range dataLen.toNat).map pdata = (List.range tail.toNat).map pdata ++
          (List.range (dataLen.toNat - tail.toNat)).map fun i => pdata (tail.toNat + i) := by
        rw [← Nat.add_sub_cancel' (show tail.toNat ≤ dataLen.toNat by omega), List.range_add,
          List.map_append, List.map_map, Nat.add_sub_cancel_left]
        rfl
      rw [hsplit]
      exact h2

/-- The fill level of the receive FIFO, in a `uint16`. -/
theorem toNat_fifoLen {fifo : List Byte} (hf : fifo.length ≤ uartFifoLen) :
    ((BitVec.ofNat 8 fifo.length).setWidth 16).toNat = fifo.length := by
  unfold uartFifoLen at hf
  rw [BitVec.toNat_setWidth_of_le (by omega), BitVec.toNat_ofNat, Nat.mod_eq_of_lt (by omega)]

/-- `Uart_rx_buff_enq` appends what is in the FIFO, if that leaves a cell. -/
theorem uartRxBuffEnq (h : b.Holds o items) {fifo : List Byte} (hf : fifo.length ≤ uartFifoLen) :
    let read := if fifo.length < b.space.toNat then fifo else []
    (b.uartRxBuffEnq fifo).1 = read ∧ (b.uartRxBuffEnq fifo).2.Holds o (items ++ read) := by
  have hs := h.space
  have hlen : (BitVec.ofNat 8 fifo.length).toNat = fifo.length := by
    unfold uartFifoLen at hf
    rw [BitVec.toNat_ofNat, Nat.mod_eq_of_lt (by omega)]
  have hlen16 := toNat_fifoLen hf
  unfold UartBuffer.uartRxBuffEnq
  simp only [ge_iff_le, BitVec.le_def, hlen16, hlen, List.take_length]
  by_cases hfit : fifo.length < b.space.toNat
  · rw [if_neg (by omega), if_pos hfit]
    obtain ⟨hc, hsp, hsz⟩ := h.foldl_rxPutByte fifo (by omega)
    have hsub : (b.space - (BitVec.ofNat 8 fifo.length).setWidth 16).toNat =
        b.space.toNat - fifo.length := by
      rw [BitVec.toNat_sub_of_le (by rw [BitVec.le_def]; omega), hlen16]
    refine ⟨rfl, hc.with_space _, ?_⟩
    show _ + BitVec.toNat (_ - _) = (fifo.foldl UartBuffer.rxPutByte b).uartBuffSize.toNat
    rw [hsz, hsp, hsub, List.length_append]
    show _ = b.size
    omega
  · rw [if_pos (by omega), if_neg hfit]
    exact ⟨rfl, by simpa using h⟩

/-- Bytes taken from `pOutPos` on, and `Space` as much larger. -/
theorem takeOut (h : b.Holds o items) {k : BitVec 16} (hk : k.toNat ≤ items.length) {p : Nat}
    (hp : p = b.pUartBuff + wrap b.size (o + k.toNat)) :
    ({ b with pOutPos := p, space := b.space + k } : UartBuffer).Holds (wrap b.size (o + k.toNat))
      (items.drop k.toNat) := by
  have hs := h.space
  have hlt := h.size_lt
  refine ⟨h.advance hk rfl rfl hp rfl rfl, ?_⟩
  have hadd : (b.space + k).toNat = b.space.toNat + k.toNat :=
    BitVec.toNat_add_of_lt (by omega)
  show _ + (b.space + k).toNat = b.size
  rw [hadd, List.length_drop]
  omega

/-- `tx_fifo_insert` takes the first bytes. -/
theorem txFifoInsert (h : b.Holds o items) {dataLen : Byte} (hn : dataLen.toNat ≤ items.length) :
    (b.txFifoInsert dataLen).1 = items.take dataLen.toNat ∧
      (b.txFifoInsert dataLen).2.Holds (wrap b.size (o + dataLen.toNat)) (items.drop dataLen.toNat) := by
  have hs := h.space
  have hlt := h.size_lt
  obtain ⟨ht, hc, hsp, hsz⟩ := h.txTake hn
  have hsz' : (UartBuffer.txTake dataLen.toNat b).2.size = b.size := congrArg BitVec.toNat hsz
  have hout : (UartBuffer.txTake dataLen.toNat b).2.modPos (UartBuffer.txTake dataLen.toNat b).2.pOutPos =
      (UartBuffer.txTake dataLen.toNat b).2.pOutPos := by
    rw [hc.pOutPos, modPos_eq (by have := hc.lt; omega), wrap_of_lt hc.lt]
  have hlen : (dataLen.setWidth 16).toNat = dataLen.toNat := BitVec.toNat_setWidth_of_le (by omega)
  have hadd : (b.space + dataLen.setWidth 16).toNat = b.space.toNat + dataLen.toNat := by
    rw [BitVec.toNat_add_of_lt (by omega), hlen]
  refine ⟨ht, ⟨hc.size_lt, hc.lt, hout.trans hc.pOutPos, hc.pInPos, hc.length_le, hc.read⟩, ?_⟩
  show _ + ((UartBuffer.txTake dataLen.toNat b).2.space + _).toNat = (UartBuffer.txTake dataLen.toNat b).2.size
  rw [hsz', hsp, hadd, List.length_drop]
  omega

/-- `rx_buff_deq` of a buffer that is not full takes the first bytes. -/
theorem rxBuffDeq (h : b.Holds o items) (hfree : 0 < b.space.toNat) (dataLen : BitVec 16) :
    (b.rxBuffDeq dataLen).1 = items.take dataLen.toNat ∧
      ∃ o', (b.rxBuffDeq dataLen).2.Holds o' (items.drop dataLen.toNat) := by
  have hs := h.space
  have hlt := h.lt
  have hin := h.pInPos
  have hout := h.pOutPos
  have hend := endPos_eq b
  have htail := h.toNat_tail (p := b.pOutPos) (by omega)
  have hused := h.toNat_used
  unfold UartBuffer.rxBuffDeq
  dsimp only
  generalize (b.uartBuffSize - b.space.setWidth 32).setWidth 16 = bufLen at hused ⊢
  generalize BitVec.ofNat 16 (b.endPos - b.pOutPos) = tail at htail ⊢
  have hmin : (if dataLen > bufLen then bufLen else dataLen).toNat = min dataLen.toNat items.length := by
    split <;> rename_i hgt <;> rw [gt_iff_lt, BitVec.lt_def] at hgt <;> omega
  rw [List.take_eq_take_min, List.drop_eq_drop_min, ← hmin]
  generalize (if dataLen > bufLen then bufLen else dataLen) = k at hmin ⊢
  have hk : k.toNat ≤ items.length := by omega
  split
  · -- not wrapped: there is a free cell, so the bytes end before the storage does
    rename_i hle
    have hlin : o + items.length < b.size := by
      rw [hin, hout] at hle
      revert hle
      unfold wrap
      split <;> omega
    exact ⟨h.cells_take hk (by omega), _, h.takeOut hk (by rw [hout, wrap_of_lt (by omega), Nat.add_assoc])⟩
  · split
    · -- two pieces: up to the end of the storage, and from its start
      rename_i hgt
      rw [gt_iff_lt, BitVec.lt_def] at hgt
      have hsplit : k.toNat = tail.toNat + (k - tail).toNat := by
        rw [BitVec.toNat_sub_of_le (by rw [BitVec.le_def]; omega)]; omega
      have hmod : b.modPos (b.pOutPos + tail.toNat) = b.pUartBuff + wrap b.size (o + tail.toNat) := by
        rw [hout, Nat.add_assoc]
        exact modPos_eq (by omega)
      have h1 := h.takeOut (k := tail) (by omega) hmod
      have hzero : wrap b.size (o + tail.toNat) = 0 := by
        rw [wrap_of_ge (by omega)]; omega
      have hk' : (k - tail).toNat ≤ (items.drop tail.toNat).length := by
        rw [List.length_drop]; omega
      rw [hsplit, List.take_add, ← List.drop_drop]
      refine ⟨congrArg₂ (· ++ ·) (h.cells_take (by omega) (by omega)) (h1.cells_take hk' ?_),
        _, h1.takeOut hk' ?_⟩
      · rw [hzero]; change _ ≤ b.size; omega
      · show b.modPos (b.modPos (b.pOutPos + tail.toNat) + (k - tail).toNat) = _
        rw [hmod, Nat.add_assoc]
        exact modPos_eq (by rw [hzero]; omega)
    · rename_i hgt
      rw [gt_iff_lt, BitVec.lt_def] at hgt
      refine ⟨h.cells_take hk (by omega), _, h.takeOut hk ?_⟩
      rw [hout, Nat.add_assoc]
      exact modPos_eq (by omega)

end Holds

end UartBuffer

end Nonos
