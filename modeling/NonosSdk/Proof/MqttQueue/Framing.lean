import NonosSdk.Framework.Stuffing
import NonosSdk.Proof.MqttQueue.Ring

/-!
# What `QUEUE_Puts` and `QUEUE_Gets` do to the frames in the ring

The ring holds a stream: frames, noise without `0x7F` before each, noise at
the end. `QUEUE_Puts` puts a frame, or as much of it as fits, which is noise
then (`queuePuts_fits`, `queuePuts_full`). `QUEUE_Gets` takes up to the next
`0x7F`: the noise before a frame ends where its `0x7E` resets the parser, so
what is returned is the message (`queueGets_cons`), whatever the parser's
`isBegin` was; without a frame the noise is all there is (`queueGets_nil`).
-/

namespace Nonos

open Stuffing (stream)

/-- The framing of `proto.c`. -/
def mqttFraming : Stuffing Byte where
  start := 0x7E
  stop := 0x7F
  esc := 0x7D
  flip b := b ^^^ 0x20
  start_ne_stop := by decide
  esc_ne_stop := by decide
  flip_ne_stop := by decide

/-- What `QUEUE_Puts` puts for a message. -/
def mqttFrame (m : List Byte) : List Byte := mqttFraming.frame m

theorem protoEscape_eq (c : Byte) : protoEscape c = mqttFraming.stuff c := rfl

/-! ## `PROTO_AddRb` -/

theorem protoAddLoop_eq (rb : MqttRingbuf) (i : BitVec 16) (packet : List Byte) :
    protoAddLoop rb i packet =
      let r := ringbufPuts rb (packet.flatMap protoEscape)
      (if r.1 then some (i + BitVec.ofNat 16 (packet.flatMap protoEscape).length) else none, r.2) := by
  induction packet generalizing rb i with
  | nil => simp [protoAddLoop, ringbufPuts]
  | cons c packet ih =>
    rw [List.flatMap_cons, protoAddLoop, ringbufPuts_append]
    rcases hput : ringbufPuts rb (protoEscape c) with ⟨ok, rb'⟩
    cases ok with
    | false => simp
    | true =>
      dsimp only
      rw [ih, if_pos rfl, List.length_append, BitVec.ofNat_add, BitVec.add_assoc]

/-- `PROTO_AddRb` puts the frame, up to the first `RINGBUF_Put` that fails. -/
theorem protoAddRb_eq (rb : MqttRingbuf) (packet : List Byte) :
    protoAddRb rb packet =
      let r := ringbufPuts rb (mqttFrame packet)
      (if r.1 then (BitVec.ofNat 16 (mqttFrame packet).length).toInt else -1, r.2) := by
  have hframe : mqttFrame packet = 0x7E :: (packet.flatMap protoEscape ++ [0x7F]) := rfl
  have hlen : BitVec.ofNat 16 (mqttFrame packet).length =
      2 + BitVec.ofNat 16 (packet.flatMap protoEscape).length := by
    rw [hframe, List.length_cons, List.length_append, List.length_singleton, Nat.add_assoc, Nat.add_comm,
      BitVec.ofNat_add]
    rfl
  rw [hlen, hframe, protoAddRb, ringbufPuts]
  cases ringbufPut rb 0x7E with
  | none => simp
  | some rb' =>
    dsimp only
    rw [protoAddLoop_eq, ringbufPuts_append]
    rcases ringbufPuts rb' (packet.flatMap protoEscape) with ⟨ok, rb''⟩
    cases ok with
    | false => simp
    | true =>
      dsimp only
      rw [if_pos rfl, if_pos rfl, ringbufPuts]
      dsimp only
      cases ringbufPut rb'' 0x7F with
      | none => rfl
      | some rb''' => rfl

/-- A frame shorter than 65535 characters is not counted as -1. -/
theorem toInt_frame_ne {n : Nat} (h : n < 65535) : (BitVec.ofNat 16 n).toInt ≠ -1 := by
  intro hn
  have hne : BitVec.ofNat 16 n = 65535 := BitVec.toInt_inj.mp (hn.trans (by decide))
  have := congrArg BitVec.toNat hne
  rw [BitVec.toNat_ofNat] at this
  simp at this
  omega

section Stream

variable {q : MqttRingbuf} {segs : List (List Byte × List Byte)} {noise : List Byte}

/-- The queue holds a stream. -/
structure Queued (q : MqttRingbuf) (segs : List (List Byte × List Byte)) (noise : List Byte) : Prop where
  holds : q.Holds (mqttFraming.stream segs noise)
  quiet : mqttFraming.Quiet segs noise

/-- How many characters the ring holds. -/
theorem Queued.fillCnt (h : Queued q segs noise) : q.fillCnt = (mqttFraming.stream segs noise).length :=
  h.holds.fillCnt

/-- A message that fits is queued as a frame. -/
theorem queuePuts_fits (h : Queued q segs noise) {m : List Byte} (hfit : q.fillCnt + (mqttFrame m).length ≤ q.size) :
    (queuePuts q m).1 = (BitVec.ofNat 16 (mqttFrame m).length).toInt ∧
      Queued (queuePuts q m).2 (segs ++ [(noise, m)]) [] ∧ (queuePuts q m).2.size = q.size := by
  obtain ⟨hok, hh, hs⟩ := h.holds.puts (mqttFrame m)
  rw [h.fillCnt] at hfit
  have hok := hok.mpr hfit
  rw [List.take_of_length_le (by omega), mqttFrame, Stuffing.stream_concat] at hh
  unfold queuePuts
  rw [protoAddRb_eq]
  dsimp only
  rw [if_pos hok]
  exact ⟨rfl, ⟨hh, h.quiet.concat m⟩, hs⟩

/-- One that does not fit fills the ring with noise. -/
theorem queuePuts_full (h : Queued q segs noise) {m : List Byte} (hfull : q.size < q.fillCnt + (mqttFrame m).length) :
    (queuePuts q m).1 = -1 ∧
      Queued (queuePuts q m).2 segs (noise ++ (mqttFrame m).take (q.size - q.fillCnt)) ∧
      (queuePuts q m).2.size = q.size ∧ (queuePuts q m).2.fillCnt = q.size := by
  have hle := h.holds.length_le
  obtain ⟨hok, hh, hs⟩ := h.holds.puts (mqttFrame m)
  rw [h.fillCnt] at hfull ⊢
  have hlen := hh.fillCnt
  rw [List.length_append, List.length_take, Nat.min_eq_left (by omega)] at hlen
  rw [Stuffing.stream_noise] at hh
  have hno : (ringbufPuts q (mqttFrame m)).1 = false := by
    rw [Bool.eq_false_iff, ne_eq, hok]
    omega
  unfold queuePuts
  rw [protoAddRb_eq]
  dsimp only
  rw [hno, if_neg (by simp)]
  exact ⟨rfl, ⟨hh, h.quiet.cut m (by rw [mqttFrame] at hfull; omega)⟩, hs, by omega⟩

end Stream

/-! ## `PROTO_ParseRb` -/

/-- The parser after some bytes. -/
def protoFeed (p : ProtoParser) (xs : List Byte) : ProtoParser :=
  xs.foldl (fun p b => (protoParseByte p b).2) p

@[simp] theorem protoFeed_nil (p : ProtoParser) : protoFeed p [] = p := rfl

@[simp] theorem protoFeed_cons (p : ProtoParser) (b : Byte) (xs : List Byte) :
    protoFeed p (b :: xs) = protoFeed (protoParseByte p b).2 xs := rfl

theorem protoFeed_append (p : ProtoParser) (xs ys : List Byte) :
    protoFeed p (xs ++ ys) = protoFeed (protoFeed p xs) ys := List.foldl_append

/-- Only `0x7F` ends a message. -/
theorem protoParseByte_fst (p : ProtoParser) (b : Byte) : (protoParseByte p b).1 = decide (b = 0x7F) := by
  unfold protoParseByte
  split_ifs <;> first | (subst b; rfl) | (symm; simpa using ‹¬ b = 0x7F›)

@[simp] theorem bufSize_protoParseByte (p : ProtoParser) (b : Byte) :
    (protoParseByte p b).2.bufSize = p.bufSize := by
  unfold protoParseByte
  split_ifs <;> rfl

@[simp] theorem bufSize_protoFeed (p : ProtoParser) (xs : List Byte) : (protoFeed p xs).bufSize = p.bufSize := by
  induction xs generalizing p with
  | nil => rfl
  | cons b xs ih => rw [protoFeed_cons, ih, bufSize_protoParseByte]

/-- Inside a frame, with nothing escaped. -/
structure InFrame (p : ProtoParser) (d : List Byte) : Prop where
  isBegin : p.isBegin ≠ 0
  isEsc : p.isEsc = false
  data : p.data = d.take p.bufSize

theorem take_concat (d : List Byte) (c : Byte) (n : Nat) :
    (if (d.take n).length < n then d.take n ++ [c] else d.take n) = (d ++ [c]).take n := by
  rw [List.length_take, List.take_append]
  rcases Nat.lt_or_ge d.length n with h | h
  · rw [if_pos (by omega), List.take_of_length_le (show d.length ≤ n by omega),
      List.take_of_length_le (by rw [List.length_singleton]; omega)]
  · rw [if_neg (by omega), Nat.sub_eq_zero_of_le h, List.take_zero, List.append_nil]

/-- The characters for one byte of a message. -/
theorem InFrame.stuff {p : ProtoParser} {d : List Byte} (h : InFrame p d) (c : Byte) :
    InFrame (protoFeed p (mqttFraming.stuff c)) (d ++ [c]) := by
  unfold Stuffing.stuff
  split
  · rename_i hs
    -- the escape sets `isEsc`, and the next byte is flipped back
    have hback : c ^^^ 0x20 ^^^ 0x20 = c := by rw [BitVec.xor_assoc, BitVec.xor_self, BitVec.xor_zero]
    have hplain : c ^^^ 0x20 ≠ 0x7D ∧ c ^^^ 0x20 ≠ 0x7E ∧ c ^^^ 0x20 ≠ 0x7F := by
      rcases hs with rfl | rfl | rfl <;> decide
    obtain ⟨h1, h2, h3⟩ := hplain
    show InFrame (protoFeed p [0x7D, c ^^^ 0x20]) (d ++ [c])
    simp only [protoFeed_cons, protoFeed_nil, protoParseByte, if_neg h1, if_neg h2, if_neg h3, if_neg h.isBegin,
      if_true, hback]
    exact ⟨h.isBegin, rfl, by rw [h.data]; exact take_concat d c p.bufSize⟩
  · rename_i hs
    have h1 : c ≠ 0x7D := fun he => hs (Or.inl he)
    have h2 : c ≠ 0x7E := fun he => hs (Or.inr (Or.inl he))
    have h3 : c ≠ 0x7F := fun he => hs (Or.inr (Or.inr he))
    simp only [protoFeed_cons, protoFeed_nil, protoParseByte, if_neg h1, if_neg h2, if_neg h3, if_neg h.isBegin,
      h.isEsc, Bool.false_eq_true, if_false]
    exact ⟨h.isBegin, rfl, by rw [h.data]; exact take_concat d c p.bufSize⟩

/-- The characters of a message. -/
theorem InFrame.flatMap {p : ProtoParser} {d : List Byte} (h : InFrame p d) (m : List Byte) :
    InFrame (protoFeed p (m.flatMap mqttFraming.stuff)) (d ++ m) := by
  induction m generalizing p d with
  | nil => simpa using h
  | cons c m ih =>
    rw [List.flatMap_cons, protoFeed_append, List.append_cons]
    exact ih (h.stuff c)

/-- Whatever came before, the frame's `0x7E` starts the message over. -/
theorem protoFeed_frame (p : ProtoParser) (noise m : List Byte) :
    (protoFeed p (noise ++ 0x7E :: m.flatMap mqttFraming.stuff)).data = m.take p.bufSize := by
  rw [protoFeed_append, protoFeed_cons]
  have hstart : InFrame (protoParseByte (protoFeed p noise) 0x7E).2 [] :=
    ⟨by simp [protoParseByte], by simp [protoParseByte], by simp [protoParseByte]⟩
  have := (hstart.flatMap m).data
  rwa [bufSize_protoFeed, bufSize_protoParseByte, bufSize_protoFeed, List.nil_append] at this

/-- The loop of `PROTO_ParseRb` up to the first `0x7F`. -/
theorem protoParseLoop_stop {q : MqttRingbuf} {xs rest : List Byte} (h : q.Holds (xs ++ 0x7F :: rest))
    (hx : (0x7F : Byte) ∉ xs) {n : Nat} (hn : xs.length < n) (p : ProtoParser) :
    (protoParseLoop n q p).1 = some (protoFeed p xs).data ∧ (protoParseLoop n q p).2.Holds rest ∧
      (protoParseLoop n q p).2.size = q.size := by
  induction xs generalizing q n p with
  | nil =>
    obtain ⟨n, rfl⟩ := Nat.exists_eq_add_of_lt hn
    obtain ⟨q', hget, h', hs⟩ := h.get_cons
    have hdone : (protoParseByte p 0x7F).1 = true := by rw [protoParseByte_fst]; rfl
    have hdata : (protoParseByte p 0x7F).2.data = p.data := by simp [protoParseByte]
    rw [show [].length + n + 1 = n + 1 by simp, protoParseLoop, hget]
    simp only [hdone, if_true, hdata]
    exact ⟨rfl, h', hs⟩
  | cons c xs ih =>
    obtain ⟨n, rfl⟩ := Nat.exists_eq_add_of_lt hn
    obtain ⟨q', hget, h', hs⟩ := h.get_cons
    have hc : (protoParseByte p c).1 = false := by
      rw [protoParseByte_fst, decide_eq_false_iff_not]
      exact fun he => hx (he ▸ List.mem_cons_self)
    obtain ⟨hdata, hh, hs'⟩ := ih h' (fun hm => hx (List.mem_cons_of_mem _ hm))
      (show xs.length < (c :: xs).length + n by simp; omega) (protoParseByte p c).2
    rw [protoParseLoop, hget]
    simp only [hc, Bool.false_eq_true, if_false]
    exact ⟨hdata, hh, hs'.trans hs⟩

/-- And through a ring without one. -/
theorem protoParseLoop_quiet {q : MqttRingbuf} {xs : List Byte} (h : q.Holds xs) (hx : (0x7F : Byte) ∉ xs) {n : Nat}
    (hn : xs.length < n) (p : ProtoParser) :
    (protoParseLoop n q p).1 = none ∧ (protoParseLoop n q p).2.Holds [] ∧
      (protoParseLoop n q p).2.size = q.size := by
  induction xs generalizing q n p with
  | nil =>
    obtain ⟨n, rfl⟩ := Nat.exists_eq_add_of_lt hn
    rw [show [].length + n + 1 = n + 1 by simp, protoParseLoop, h.get_nil]
    exact ⟨rfl, h, rfl⟩
  | cons c xs ih =>
    obtain ⟨n, rfl⟩ := Nat.exists_eq_add_of_lt hn
    obtain ⟨q', hget, h', hs⟩ := h.get_cons
    have hc : (protoParseByte p c).1 = false := by
      rw [protoParseByte_fst, decide_eq_false_iff_not]
      exact fun he => hx (he ▸ List.mem_cons_self)
    obtain ⟨hdata, hh, hs'⟩ := ih h' (fun hm => hx (List.mem_cons_of_mem _ hm))
      (show xs.length < (c :: xs).length + n by simp; omega) (protoParseByte p c).2
    rw [protoParseLoop, hget]
    simp only [hc, Bool.false_eq_true, if_false]
    exact ⟨hdata, hh, hs'.trans hs⟩

section Stream

variable {q : MqttRingbuf} {segs : List (List Byte × List Byte)} {noise : List Byte}

/-- `QUEUE_Gets` takes the first message, as much of it as its buffer holds. -/
theorem queueGets_cons {j m : List Byte} (h : Queued q ((j, m) :: segs) noise) (isBegin : Byte) (maxLen : Nat) :
    (queueGets q isBegin maxLen).1 = some (m.take maxLen) ∧
      Queued (queueGets q isBegin maxLen).2 segs noise ∧ (queueGets q isBegin maxLen).2.size = q.size := by
  have hj : (0x7F : Byte) ∉ j := h.quiet.1 (j, m) List.mem_cons_self
  have hbody : (0x7F : Byte) ∉ m.flatMap mqttFraming.stuff := fun hmem => by
    obtain ⟨b, -, hb⟩ := List.mem_flatMap.mp hmem
    exact mqttFraming.stop_not_mem_stuff b hb
  have hsplit : mqttFraming.stream ((j, m) :: segs) noise =
      (j ++ 0x7E :: m.flatMap mqttFraming.stuff) ++ 0x7F :: mqttFraming.stream segs noise := by
    rw [Stuffing.stream_cons, Stuffing.frame]
    simp [mqttFraming]
  have hholds := hsplit ▸ h.holds
  have hfill := hholds.fillCnt
  rw [List.length_append] at hfill
  have hquiet : (0x7F : Byte) ∉ j ++ 0x7E :: m.flatMap mqttFraming.stuff := by
    rw [List.mem_append, List.mem_cons, not_or, not_or]
    exact ⟨hj, by decide, hbody⟩
  obtain ⟨hdata, hh, hs⟩ := protoParseLoop_stop hholds hquiet (n := q.fillCnt + 1) (by omega)
    (protoInit isBegin maxLen)
  rw [protoFeed_frame] at hdata
  exact ⟨hdata, ⟨hh, h.quiet.tail⟩, hs⟩

/-- Without a message it fails, and empties the ring. -/
theorem queueGets_nil (h : Queued q [] noise) (isBegin : Byte) (maxLen : Nat) :
    (queueGets q isBegin maxLen).1 = none ∧ Queued (queueGets q isBegin maxLen).2 [] [] ∧
      (queueGets q isBegin maxLen).2.size = q.size := by
  have hholds : q.Holds noise := by simpa [Stuffing.stream] using h.holds
  obtain ⟨hnone, hh, hs⟩ := protoParseLoop_quiet hholds h.quiet.2 (n := q.fillCnt + 1)
    (by rw [hholds.fillCnt]; omega) (protoInit isBegin maxLen)
  exact ⟨hnone, ⟨hh, by simp, by simp⟩, hs⟩

end Stream

end Nonos
