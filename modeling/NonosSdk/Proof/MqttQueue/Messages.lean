import NonosSdk.Framework.Runs
import NonosSdk.Proof.MqttQueue.Framing
import NonosSdk.Spec.Fifo

/-!
# The MQTT message queue as a queue of messages

Any calls of `QUEUE_Puts` and `QUEUE_Gets` on a ring of fewer than 65535 bytes.
A call of `QUEUE_Puts` that finds no room leaves part of a frame in the ring,
but no message is damaged by it: `queue_messages` says that the messages
fetched are the ones accepted, once each and in order, as much of each as the
caller's buffer holds, and that a fetch fails only when every accepted message
has been fetched. The relation to the abstract queue is `Represents`;
`puts_represents` and `gets_represents` keep it.
-/

namespace Nonos

/-- A call. -/
inductive MqttQueueEvent where
  | puts (buffer : List Byte)
  | gets (isBegin : Byte) (maxLen : Nat)

/-- The queue, with the messages `QUEUE_Puts` has accepted and what the successful calls
of `QUEUE_Gets` have returned, each with its `maxLen`. -/
structure MqttQueueRun where
  queue : MqttRingbuf
  accepted : List (List Byte)
  fetched : List (Nat × List Byte)

namespace MqttQueueRun

/-- One call. -/
def step (s : MqttQueueRun) : MqttQueueEvent → MqttQueueRun
  | .puts buffer =>
    let (ret, queue) := queuePuts s.queue buffer
    { s with queue, accepted := if ret = -1 then s.accepted else s.accepted ++ [buffer] }
  | .gets isBegin maxLen =>
    match queueGets s.queue isBegin maxLen with
    | (none, queue) => { s with queue }
    | (some bytes, queue) => { s with queue, fetched := s.fetched ++ [(maxLen, bytes)] }

/-- A queue nothing has been put in. -/
def start (queue : MqttRingbuf) : MqttQueueRun := ⟨queue, [], []⟩

/-- The run of an abstract queue of messages with the same history. -/
structure Represents (s : MqttQueueRun) (f : Spec.Fifo (List Byte)) (segs : List (List Byte × List Byte))
    (noise : List Byte) : Prop where
  queued : Queued s.queue segs noise
  items : f.items = segs.map Prod.snd
  accepted : f.accepted = s.accepted
  fetched : List.Forall₂ (fun e m => e.2 = m.take e.1) s.fetched f.delivered

variable {s : MqttQueueRun} {f : Spec.Fifo (List Byte)} {segs : List (List Byte × List Byte)} {noise : List Byte}

/-- `QUEUE_Puts` returns -1 exactly when the frame does not fit. -/
theorem puts_ret {q : MqttRingbuf} (h : Queued q segs noise) (hs : q.size < 65535) (m : List Byte) :
    (queuePuts q m).1 = -1 ↔ q.size < q.fillCnt + (mqttFrame m).length := by
  rcases Nat.lt_or_ge q.size (q.fillCnt + (mqttFrame m).length) with hlt | hge
  · exact iff_of_true (queuePuts_full h hlt).1 hlt
  · refine iff_of_false ?_ (by omega)
    rw [(queuePuts_fits h hge).1]
    exact toInt_frame_ne (by omega)

theorem puts_represents (h : s.Represents f segs noise) (hs : s.queue.size < 65535) (m : List Byte) :
    (s.step (.puts m)).queue.size = s.queue.size ∧
      ∃ f' segs' noise', (s.step (.puts m)).Represents f' segs' noise' := by
  have hret := puts_ret h.queued hs m
  rcases Nat.lt_or_ge s.queue.size (s.queue.fillCnt + (mqttFrame m).length) with hlt | hge
  · obtain ⟨-, hq, hsize, -⟩ := queuePuts_full h.queued hlt
    refine ⟨hsize, f, segs, _, hq, h.items, ?_, h.fetched⟩
    show f.accepted = if (queuePuts s.queue m).1 = -1 then s.accepted else s.accepted ++ [m]
    rw [if_pos (hret.mpr hlt)]
    exact h.accepted
  · obtain ⟨-, hq, hsize⟩ := queuePuts_fits h.queued hge
    refine ⟨hsize, f.enqueue [m], _, _, hq, ?_, ?_, h.fetched⟩
    · simp [Spec.Fifo.enqueue, h.items]
    · show f.accepted ++ [m] = if (queuePuts s.queue m).1 = -1 then s.accepted else s.accepted ++ [m]
      rw [if_neg (fun he => by have := hret.mp he; omega), h.accepted]

theorem gets_represents (h : s.Represents f segs noise) (isBegin : Byte) (maxLen : Nat) :
    (s.step (.gets isBegin maxLen)).queue.size = s.queue.size ∧
      ∃ f' segs' noise', (s.step (.gets isBegin maxLen)).Represents f' segs' noise' := by
  cases segs with
  | nil =>
    obtain ⟨hnone, hq, hsize⟩ := queueGets_nil h.queued isBegin maxLen
    rcases hget : queueGets s.queue isBegin maxLen with ⟨ret, queue⟩
    rw [hget] at hnone hq hsize
    dsimp only at hnone
    subst hnone
    have hstep : s.step (.gets isBegin maxLen) = { s with queue } := by rw [step, hget]
    rw [hstep]
    exact ⟨hsize, f, [], [], hq, h.items, h.accepted, h.fetched⟩
  | cons seg segs =>
    obtain ⟨j, m⟩ := seg
    obtain ⟨hsome, hq, hsize⟩ := queueGets_cons h.queued isBegin maxLen
    rcases hget : queueGets s.queue isBegin maxLen with ⟨ret, queue⟩
    rw [hget] at hsome hq hsize
    dsimp only at hsome
    subst hsome
    have hstep : s.step (.gets isBegin maxLen) =
        { s with queue, fetched := s.fetched ++ [(maxLen, m.take maxLen)] } := by rw [step, hget]
    have hitems := h.items
    rw [List.map_cons] at hitems
    rw [hstep]
    refine ⟨hsize, f.dequeue 1, segs, noise, hq, ?_, h.accepted, ?_⟩
    · simp [Spec.Fifo.dequeue, hitems]
    · simp only [Spec.Fifo.dequeue, hitems, List.take_succ_cons, List.take_zero]
      exact List.rel_append h.fetched (List.Forall₂.cons rfl List.Forall₂.nil)

/-- Every run represents one of an abstract queue. -/
theorem run_represents (h : s.Represents f segs noise) (hs : s.queue.size < 65535) (es : List MqttQueueEvent) :
    (run step s es).queue.size = s.queue.size ∧ ∃ f' segs' noise', (run step s es).Represents f' segs' noise' := by
  induction es generalizing s f segs noise with
  | nil => exact ⟨rfl, f, segs, noise, h⟩
  | cons e es ih =>
    have hstep : (s.step e).queue.size = s.queue.size ∧ ∃ f' segs' noise', (s.step e).Represents f' segs' noise' := by
      cases e with
      | puts m => exact puts_represents h hs m
      | gets isBegin maxLen => exact gets_represents h isBegin maxLen
    obtain ⟨hsize, f', segs', noise', h'⟩ := hstep
    obtain ⟨hsize', hr⟩ := ih h' (by omega)
    exact ⟨hsize'.trans hsize, hr⟩

/-- `QUEUE_Gets` fails exactly when the queue has no message. -/
theorem gets_ret {q : MqttRingbuf} (h : Queued q segs noise) (isBegin : Byte) (maxLen : Nat) :
    (queueGets q isBegin maxLen).1 = none ↔ segs = [] := by
  cases segs with
  | nil => exact iff_of_true (queueGets_nil h isBegin maxLen).1 rfl
  | cons seg segs =>
    refine iff_of_false ?_ (List.cons_ne_nil _ _)
    rw [(queueGets_cons (j := seg.1) (m := seg.2) h isBegin maxLen).1]
    exact Option.some_ne_none _

/-- In every run of `QUEUE_Puts` and `QUEUE_Gets`, the messages fetched are the first of those accepted, in
order, each cut to its caller's buffer; a fetch fails exactly when all of them have been fetched, and a message
is refused exactly when its frame does not fit in the free cells. -/
theorem queue_messages (mem : Mem Byte) (buf : Nat) {size : Nat} (h2 : 2 ≤ size) (hs : size < 65535)
    (es : List MqttQueueEvent) :
    ∃ queue, queueInit mem buf size = some queue ∧
      let s := run step (start queue) es
      List.Forall₂ (fun e m => e.2 = m.take e.1) s.fetched (s.accepted.take s.fetched.length) ∧
      (∀ isBegin maxLen, (queueGets s.queue isBegin maxLen).1 = none ↔ s.fetched.length = s.accepted.length) ∧
      ∀ m, (queuePuts s.queue m).1 = -1 ↔ size < s.queue.fillCnt + (mqttFrame m).length := by
  obtain ⟨queue, hinit, hholds, hsize⟩ := MqttRingbuf.init_holds mem buf h2
  have hstart : (start queue).Represents Spec.Fifo.empty [] [] :=
    ⟨⟨hholds, by simp, by simp⟩, rfl, rfl, List.Forall₂.nil⟩
  obtain ⟨hrun, f, segs, noise, hr⟩ := run_represents hstart (show queue.size < 65535 by omega) es
  have hsz : (run step (start queue) es).queue.size = size := hrun.trans hsize
  refine ⟨queue, hinit, ?_⟩
  generalize run step (start queue) es = s at hr hsz
  have hlen := hr.fetched.length_eq
  have hlaw : s.accepted = f.delivered ++ segs.map Prod.snd := by
    rw [← hr.accepted, ← hr.items, f.law]
  refine ⟨?_, fun isBegin maxLen => ?_, fun m => ?_⟩
  · rw [hlaw, hlen, List.take_left]
    exact hr.fetched
  · rw [gets_ret hr.queued, hlaw, List.length_append, List.length_map, hlen]
    constructor
    · rintro rfl
      simp
    · intro he
      exact List.eq_nil_of_length_eq_zero (by omega)
  · rw [← hsz]
    exact puts_ret hr.queued (by omega) m

/-- With the ring of the MQTT client. -/
theorem queue_messages_client : 2 ≤ queueBufferSize ∧ queueBufferSize < 65535 ∧
    ∃ queue, queueInit (fun _ => 0) 0 queueBufferSize = some queue ∧
      let s := run step (start queue) [.puts [0x10, 0x7E], .gets 7 mqttBufSize]
      List.Forall₂ (fun e m => e.2 = m.take e.1) s.fetched (s.accepted.take s.fetched.length) ∧
      (∀ isBegin maxLen, (queueGets s.queue isBegin maxLen).1 = none ↔ s.fetched.length = s.accepted.length) ∧
      ∀ m, (queuePuts s.queue m).1 = -1 ↔ queueBufferSize < s.queue.fillCnt + (mqttFrame m).length :=
  ⟨by decide, by decide, queue_messages (fun _ => 0) 0 (by decide) (by decide) [.puts [0x10, 0x7E], .gets 7 mqttBufSize]⟩

end MqttQueueRun

end Nonos
