import NonosSdk.Proof.UartBuffer.Fifos

/-!
# All or nothing

What one `tx_buff_enq` does to what is buffered. A call that finds a buffer appends the
whole block inside the storage or leaves everything as it was. A call that has to create
the buffer does not ask whether the block fits: one of more than `UART_TX_BUFFER_SIZE`
bytes overruns the new storage and takes `Space` below zero, so that it holds no sequence
at all (`txBuffEnq_all_or_nothing_iff`).
-/

namespace Nonos

namespace UartBuffer

variable {b : UartBuffer} {o : Nat} {items : List Byte}

/-- The copies are what `Uart_Buf_Cpy` does to the memory. -/
theorem uartBufCpy_copies (b : UartBuffer) (pdata : Nat → Byte) (n : BitVec 16) :
    (b.uartBufCpy pdata n).mem = (b.cpyCopies n).foldl
      (fun m c => m.store c.dst (fun i => pdata (c.off + i)) c.count) b.mem := by
  unfold uartBufCpy cpyCopies
  dsimp only
  split_ifs <;> simp [copyIn]

/-- `Space` goes down by the whole length, in one step or in two. -/
theorem uartBufCpy_space (b : UartBuffer) (pdata : Nat → Byte) (n : BitVec 16) :
    (b.uartBufCpy pdata n).space = b.space - n := by
  unfold uartBufCpy
  dsimp only
  split_ifs with h0
  · subst h0; simp
  · rfl
  · show b.space - _ - (n - _) = b.space - n
    generalize BitVec.ofNat 16 (b.endPos - b.pInPos) = tail
    bv_omega

@[simp] theorem pUartBuff_uartBufCpy (b : UartBuffer) (pdata : Nat → Byte) (n : BitVec 16) :
    (b.uartBufCpy pdata n).pUartBuff = b.pUartBuff := by
  unfold uartBufCpy
  dsimp only
  split_ifs <;> rfl

@[simp] theorem endPos_uartBufCpy (b : UartBuffer) (pdata : Nat → Byte) (n : BitVec 16) :
    (b.uartBufCpy pdata n).endPos = b.endPos := by
  rw [endPos_eq, endPos_eq, pUartBuff_uartBufCpy, size_uartBufCpy]

theorem Holds.cpyCopies_inside (h : b.Holds o items) {n : BitVec 16} (hn : n.toNat ≤ b.space.toNat)
    {c : Copy} (hc : c ∈ b.cpyCopies n) : b.pUartBuff ≤ c.dst ∧ c.dst + c.count ≤ b.endPos := by
  have hin := h.pInPos
  have hlt := h.in_lt
  have hend := endPos_eq b
  have hspace := h.space
  have htail := h.toNat_tail (p := b.pInPos) (by omega)
  unfold cpyCopies at hc
  dsimp only at hc
  split_ifs at hc with h0 hle
  · simp at hc
  · obtain rfl := List.mem_singleton.mp hc
    rw [ge_iff_le, BitVec.le_def, htail] at hle
    show b.pUartBuff ≤ b.pInPos ∧ b.pInPos + n.toNat ≤ b.endPos
    omega
  · rw [ge_iff_le, BitVec.le_def, htail] at hle
    generalize BitVec.ofNat 16 (b.endPos - b.pInPos) = tail at htail hc
    have hrest : (n - tail).toNat = n.toNat - tail.toNat := BitVec.toNat_sub_of_le (by rw [BitVec.le_def]; omega)
    rcases List.mem_cons.mp hc with rfl | hc
    · show b.pUartBuff ≤ b.pInPos ∧ b.pInPos + tail.toNat ≤ b.endPos
      omega
    · obtain rfl := List.mem_singleton.mp hc
      have hstart : b.modPos (b.pInPos + tail.toNat) = b.pUartBuff := by
        rw [show b.pInPos + tail.toNat = b.pUartBuff + b.size by omega, modPos_eq (by omega),
          wrap_of_ge (Nat.le_refl _), Nat.sub_self, Nat.add_zero]
      show b.pUartBuff ≤ b.modPos _ ∧ b.modPos _ + (n - tail).toNat ≤ b.endPos
      omega

/-- A block longer than `Space` leaves a buffer that holds nothing it could hold. -/
theorem uartBufCpy_not_holds (hs : b.space.toNat = b.size) (pdata : Nat → Byte) {n : BitVec 16}
    (hn : b.size < n.toNat) : ¬ (b.uartBufCpy pdata n).Holds o items := by
  intro h
  have hspace := h.space
  rw [size_uartBufCpy, uartBufCpy_space] at hspace
  bv_omega

end UartBuffer

/-- What is buffered; nothing without a buffer. -/
def TxHolds : Option UartBuffer → List Byte → Prop
  | none, items => items = []
  | some b, items => ∃ o, b.Holds o items

/-- Either all of the block has been appended, by copies inside the storage and with
`Space` as large as what is free, or what is buffered has not changed. -/
def AllOrNothing (items block : List Byte) (copies : List UartBuffer.Copy) (after : Option UartBuffer) : Prop :=
  (∃ b o, after = some b ∧ b.Holds o (items ++ block) ∧
    ∀ c ∈ copies, b.pUartBuff ≤ c.dst ∧ c.dst + c.count ≤ b.endPos) ∨ TxHolds after items

variable {d : UartDriver} {items : List Byte}

/-- A call that finds a buffer. -/
theorem txBuffEnq_some {b : UartBuffer} (hb : d.pTxBuffer = some b) (hd : TxHolds d.pTxBuffer items)
    (pdata : Nat → Byte) (dataLen : BitVec 16) (init : Option UartBuffer) :
    AllOrNothing items (block pdata dataLen) (d.txBuffEnqCopies dataLen init)
      (d.txBuffEnq pdata dataLen init).pTxBuffer := by
  rw [hb] at hd
  obtain ⟨o, h⟩ := hd
  unfold UartDriver.txBuffEnq UartDriver.txBuffEnqCopies
  rw [hb]
  dsimp only
  split_ifs with hfit
  · rw [BitVec.le_def] at hfit
    refine .inl ⟨_, o, rfl, h.uartBufCpy pdata hfit, fun c hc => ?_⟩
    rw [UartBuffer.endPos_uartBufCpy, UartBuffer.pUartBuff_uartBufCpy]
    exact h.cpyCopies_inside hfit hc
  · exact .inr ⟨o, h⟩

/-- A call that finds none and gets none. -/
theorem txBuffEnq_none (hb : d.pTxBuffer = none) (hd : TxHolds d.pTxBuffer items) (pdata : Nat → Byte)
    (dataLen : BitVec 16) :
    AllOrNothing items (block pdata dataLen) (d.txBuffEnqCopies dataLen none)
      (d.txBuffEnq pdata dataLen none).pTxBuffer := by
  refine .inr ?_
  unfold UartDriver.txBuffEnq
  rw [hb] at hd ⊢
  exact hd

/-- A call that creates the buffer: the block has to fit into the whole of it. -/
theorem txBuffEnq_created_iff {b : UartBuffer} (hb : d.pTxBuffer = none) (hd : TxHolds d.pTxBuffer items)
    (h : b.Holds 0 []) (pdata : Nat → Byte) (dataLen : BitVec 16) :
    AllOrNothing items (block pdata dataLen) (d.txBuffEnqCopies dataLen (some b))
      (d.txBuffEnq pdata dataLen (some b)).pTxBuffer ↔ dataLen.toNat ≤ b.size := by
  rw [hb] at hd
  obtain rfl : items = [] := hd
  have hspace : b.space.toNat = b.size := by
    have hs := h.space
    rwa [List.length_nil, Nat.zero_add] at hs
  have hafter : (d.txBuffEnq pdata dataLen (some b)).pTxBuffer = some (b.uartBufCpy pdata dataLen) := by
    unfold UartDriver.txBuffEnq
    rw [hb]; rfl
  have hcopies : d.txBuffEnqCopies dataLen (some b) = b.cpyCopies dataLen := by
    unfold UartDriver.txBuffEnqCopies
    rw [hb]; rfl
  rw [hafter, hcopies]
  constructor
  · intro hall
    by_contra hlong
    have hnot : ∀ {o : Nat} {items : List Byte}, ¬ (b.uartBufCpy pdata dataLen).Holds o items :=
      UartBuffer.uartBufCpy_not_holds hspace pdata (Nat.lt_of_not_le hlong)
    rcases hall with ⟨b', o, he, hh, -⟩ | ⟨o, hh⟩
    · rw [← Option.some.inj he] at hh
      exact hnot hh
    · exact hnot hh
  · intro hfit
    refine .inl ⟨_, 0, rfl, h.uartBufCpy pdata (by omega), fun c hc => ?_⟩
    rw [UartBuffer.endPos_uartBufCpy, UartBuffer.pUartBuff_uartBufCpy]
    exact h.cpyCopies_inside (by omega) hc

/-- `tx_buff_enq` is all or nothing unless it creates the buffer for a block of more than
`UART_TX_BUFFER_SIZE` bytes. -/
theorem txBuffEnq_all_or_nothing_iff (hd : TxHolds d.pTxBuffer items) (pdata : Nat → Byte)
    (dataLen : BitVec 16) (heapSize : Word) (mem : Mem Byte) (addr : Nat) :
    let init := uartBufInit uartBufferSize heapSize mem addr
    AllOrNothing items (block pdata dataLen) (d.txBuffEnqCopies dataLen init)
        (d.txBuffEnq pdata dataLen init).pTxBuffer ↔
      d.pTxBuffer ≠ none ∨ heapSize ≤ uartBufferSize ∨ dataLen.toNat ≤ uartBufferSize.toNat := by
  intro init
  cases hb : d.pTxBuffer with
  | some b => exact iff_of_true (txBuffEnq_some hb hd pdata dataLen init) (.inl (by simp))
  | none =>
    by_cases hheap : heapSize ≤ uartBufferSize
    · have hinit : init = none := if_pos hheap
      rw [hinit]
      exact iff_of_true (txBuffEnq_none hb hd pdata dataLen) (.inr (.inl hheap))
    · obtain ⟨b, hinit, hsize, h⟩ := UartBuffer.uartBufInit_holds mem addr
        (show 0 < uartBufferSize.toNat by decide) (by decide) (BitVec.not_le.mp hheap)
      have hiff := txBuffEnq_created_iff hb hd h pdata dataLen
      rw [hsize] at hiff
      show AllOrNothing items _ (d.txBuffEnqCopies dataLen (uartBufInit _ _ _ _))
        (d.txBuffEnq pdata dataLen (uartBufInit _ _ _ _)).pTxBuffer ↔ _
      rw [hinit, hiff]
      simp [hheap]

/-- After a failed `uart_init`, with 1024 bytes free: 257 bytes. -/
theorem txBuffEnq_created_overrun : ¬ AllOrNothing [] (block (fun _ => 7) 257)
    (UartDriver.txBuffEnqCopies ⟨none, none, false, true, []⟩ 257 (uartBufInit uartBufferSize 1024 (fun _ => 0) 0x1000))
    (UartDriver.txBuffEnq ⟨none, none, false, true, []⟩ (fun _ => 7) 257
      (uartBufInit uartBufferSize 1024 (fun _ => 0) 0x1000)).pTxBuffer := by
  intro hall
  have hspace : (UartDriver.txBuffEnq ⟨none, none, false, true, []⟩ (fun _ => 7) 257
      (uartBufInit uartBufferSize 1024 (fun _ => 0) 0x1000)).pTxBuffer.map (·.space.toNat) = some 65535 := by
    decide
  have hsize : (UartDriver.txBuffEnq ⟨none, none, false, true, []⟩ (fun _ => 7) 257
      (uartBufInit uartBufferSize 1024 (fun _ => 0) 0x1000)).pTxBuffer.map (·.size) = some 256 := by
    decide
  generalize UartDriver.pTxBuffer _ = after at hall hspace hsize
  cases after with
  | none => simp at hspace
  | some b =>
    simp only [Option.map_some, Option.some.injEq] at hspace hsize
    rcases hall with ⟨b', o, he, h, -⟩ | ⟨o, h⟩
    · obtain rfl := Option.some.inj he
      have := h.space
      omega
    · have := h.space
      omega

/-- The same block of 256 bytes fits. -/
theorem txBuffEnq_created_fits : AllOrNothing [] (block (fun _ => 7) 256)
    (UartDriver.txBuffEnqCopies ⟨none, none, false, true, []⟩ 256 (uartBufInit uartBufferSize 1024 (fun _ => 0) 0x1000))
    (UartDriver.txBuffEnq ⟨none, none, false, true, []⟩ (fun _ => 7) 256
      (uartBufInit uartBufferSize 1024 (fun _ => 0) 0x1000)).pTxBuffer :=
  (txBuffEnq_all_or_nothing_iff (d := ⟨none, none, false, true, []⟩) rfl (fun _ => 7) 256 1024 (fun _ => 0)
    0x1000).mpr (.inr (.inr (by decide)))

end Nonos
