import NonosSdk.Framework.Runs
import NonosSdk.Proof.MqttQueue.Messages

/-!
# Which messages the publish loop throws away

`MQTT_Publish` tries `QUEUE_Puts` again after every message it throws away. The
calls that fail leave noise in the ring up to its last cell, so the room for
the next try is what the message just thrown away took up, with the noise
before it (`cost`). The loop therefore keeps what follows the first queued
message that cost as much as the new frame (`makeRoom`), and if there is none it
empties the ring and fails, also where an empty ring would have had room
(`publish_loop`).
-/

namespace Nonos

/-- The cells of a queued message, with the noise before it. -/
def cost (seg : List Byte × List Byte) : Nat := seg.1.length + (mqttFrame seg.2).length

/-- The messages after the first that costs `n` cells or more. -/
def makeRoom (n : Nat) : List (List Byte × List Byte) → Option (List (List Byte × List Byte))
  | [] => none
  | seg :: segs => if n ≤ cost seg then some segs else makeRoom n segs

/-- What the loop leaves in the ring, `free` cells of it being free at the start. -/
def publishResult (free : Nat) (segs : List (List Byte × List Byte)) (m : List Byte) : Bool × List (List Byte) :=
  if (mqttFrame m).length ≤ free then (true, segs.map Prod.snd ++ [m])
  else
    match makeRoom (mqttFrame m).length segs with
    | some kept => (true, kept.map Prod.snd ++ [m])
    | none => (false, [])

section

variable {q : MqttRingbuf} {segs : List (List Byte × List Byte)} {noise : List Byte}

/-- A queued message has two cells of its own at least. -/
theorem length_segs_le (h : Queued q segs noise) : segs.length ≤ q.fillCnt := by
  rw [h.fillCnt, Stuffing.stream, List.length_append]
  have hlen : segs.length ≤ (segs.flatMap fun seg => seg.1 ++ mqttFraming.frame seg.2).length := by
    clear h
    induction segs with
    | nil => simp
    | cons seg segs ih =>
      have hpos := List.length_pos_iff.mpr (mqttFraming.frame_ne_nil seg.2)
      rw [List.flatMap_cons, List.length_append, List.length_append, List.length_cons]
      omega
  omega

/-- Taking the first message frees what it cost. -/
theorem fillCnt_queueGets {j m : List Byte} (h : Queued q ((j, m) :: segs) noise) (isBegin : Byte) (maxLen : Nat) :
    (queueGets q isBegin maxLen).2.fillCnt + cost (j, m) = q.fillCnt := by
  rw [h.fillCnt, (queueGets_cons h isBegin maxLen).2.1.fillCnt, Stuffing.stream_cons, List.length_append,
    List.length_append, cost, mqttFrame]
  dsimp only
  omega

/-- One iteration. -/
theorem mqttQueueLoop_succ (isBegin : Nat → Byte) (m : List Byte) (n : Nat) (q : MqttRingbuf) :
    mqttQueueLoop isBegin m (n + 1) q =
      if (queuePuts q m).1 = -1 then
        let r := queueGets (queuePuts q m).2 (isBegin n) mqttBufSize
        if r.1 = none then some (false, r.2) else mqttQueueLoop isBegin m n r.2
      else some (true, (queuePuts q m).2) := by
  rw [mqttQueueLoop]
  split
  · rename_i heq
    rw [heq, if_pos rfl]
    dsimp only
    split
    · rename_i hget
      rw [hget, if_pos rfl]
    · rename_i hget
      rw [hget, if_neg (Option.some_ne_none _)]
  · rename_i hne heq
    rw [heq, if_neg hne]

/-- The loop where the message fits. -/
theorem mqttQueueLoop_fits (h : Queued q segs noise) (hs : q.size < 65535) (isBegin : Nat → Byte) {m : List Byte}
    (hfit : q.fillCnt + (mqttFrame m).length ≤ q.size) (n : Nat) :
    ∃ q', mqttQueueLoop isBegin m (n + 1) q = some (true, q') ∧ q'.size = q.size ∧
      Queued q' (segs ++ [(noise, m)]) [] := by
  obtain ⟨-, hq, hsize⟩ := queuePuts_fits h hfit
  have hne : (queuePuts q m).1 ≠ -1 := fun he => by
    have := (MqttQueueRun.puts_ret h hs m).mp he
    omega
  exact ⟨_, by rw [mqttQueueLoop_succ, if_neg hne], hsize, hq⟩

/-- The loop where it does not: by induction on the queued messages. -/
theorem mqttQueueLoop_full (h : Queued q segs noise) (hs : q.size < 65535) (isBegin : Nat → Byte) {m : List Byte}
    (hfull : q.size < q.fillCnt + (mqttFrame m).length) {n : Nat} (hn : segs.length < n) :
    ∃ q', q'.size = q.size ∧ match makeRoom (mqttFrame m).length segs with
      | some kept => ∃ noise', mqttQueueLoop isBegin m n q = some (true, q') ∧ Queued q' (kept ++ [(noise', m)]) []
      | none => mqttQueueLoop isBegin m n q = some (false, q') ∧ Queued q' [] [] := by
  induction segs generalizing q noise n with
  | nil =>
    obtain ⟨n, rfl⟩ := Nat.exists_eq_add_of_lt hn
    rw [List.length_nil]
    obtain ⟨hret, hq, hsize, -⟩ := queuePuts_full h hfull
    obtain ⟨hnone, hq', hsize'⟩ := queueGets_nil hq (isBegin n) mqttBufSize
    refine ⟨_, hsize'.trans hsize, ?_, hq'⟩
    rw [Nat.zero_add, mqttQueueLoop_succ, if_pos hret]
    exact if_pos hnone
  | cons seg segs ih =>
    obtain ⟨j, m'⟩ := seg
    obtain ⟨n, rfl⟩ := Nat.exists_eq_add_of_lt hn
    rw [show ((j, m') :: segs).length + n + 1 = (segs.length + n + 1) + 1 by simp; omega]
    obtain ⟨hret, hq, hsize, hfill⟩ := queuePuts_full h hfull
    obtain ⟨hsome, hq', hsize'⟩ := queueGets_cons hq (isBegin (segs.length + n + 1)) mqttBufSize
    have hcost := fillCnt_queueGets hq (isBegin (segs.length + n + 1)) mqttBufSize
    have hstep : mqttQueueLoop isBegin m (segs.length + n + 1 + 1) q =
        mqttQueueLoop isBegin m (segs.length + n + 1)
          (queueGets (queuePuts q m).2 (isBegin (segs.length + n + 1)) mqttBufSize).2 := by
      rw [mqttQueueLoop_succ, if_pos hret]
      exact if_neg (hsome ▸ Option.some_ne_none _)
    rw [hstep, makeRoom]
    generalize (queueGets (queuePuts q m).2 (isBegin (segs.length + n + 1)) mqttBufSize).2 = q₂ at hq' hsize' hcost
    rcases Nat.lt_or_ge (cost (j, m')) (mqttFrame m).length with hlt | hge
    · rw [if_neg (by omega)]
      obtain ⟨q', hs', hres⟩ := ih hq' (by omega) (by omega) (show segs.length < segs.length + n + 1 by omega)
      exact ⟨q', by omega, hres⟩
    · rw [if_pos hge]
      obtain ⟨q', hloop, hs', hq''⟩ := mqttQueueLoop_fits hq' (by omega) isBegin (m := m) (by omega) (segs.length + n)
      exact ⟨q', by omega, _, hloop, hq''⟩

end

/-- A call that uses the queue: an acknowledgement or `MQTT_Task` fetching a message, or one of the functions
that publish. -/
inductive MqttQueueCall where
  | puts (buffer : List Byte)
  | gets (isBegin : Byte) (maxLen : Nat)
  | publish (isBegin : Nat → Byte) (message : List Byte)

/-- The queue after a call. Every iteration of the publish loop but the last takes a
message from the ring, so there are not more of them than bytes in it. -/
def mqttQueueStep (q : MqttRingbuf) : MqttQueueCall → MqttRingbuf
  | .puts buffer => (queuePuts q buffer).2
  | .gets isBegin maxLen => (queueGets q isBegin maxLen).2
  | .publish isBegin message => ((mqttQueueLoop isBegin message (q.fillCnt + 1) q).map Prod.snd).getD q

/-- What the loop makes of a queue that holds a stream. -/
theorem publish_queued {q : MqttRingbuf} {segs : List (List Byte × List Byte)} {noise : List Byte}
    (h : Queued q segs noise) (hs : q.size < 65535) (isBegin : Nat → Byte) (m : List Byte) :
    ∃ q' segs', mqttQueueLoop isBegin m (q.fillCnt + 1) q = some ((publishResult (q.size - q.fillCnt) segs m).1, q') ∧
      q'.size = q.size ∧ Queued q' segs' [] ∧
      segs'.map Prod.snd = (publishResult (q.size - q.fillCnt) segs m).2 := by
  have hfill := h.fillCnt
  have hle := h.holds.length_le
  have hsegs := length_segs_le h
  unfold publishResult
  rcases Nat.lt_or_ge q.size (q.fillCnt + (mqttFrame m).length) with hlt | hge
  · rw [if_neg (by omega)]
    obtain ⟨q', hsize, hres⟩ := mqttQueueLoop_full h hs isBegin hlt (show segs.length < q.fillCnt + 1 by omega)
    cases hroom : makeRoom (mqttFrame m).length segs with
    | some kept =>
      rw [hroom] at hres
      obtain ⟨noise', hloop, hq⟩ := hres
      exact ⟨q', _, hloop, hsize, hq, by simp⟩
    | none =>
      rw [hroom] at hres
      exact ⟨q', [], hres.1, hsize, hres.2, rfl⟩
  · rw [if_pos (by omega)]
    obtain ⟨q', hloop, hsize, hq⟩ := mqttQueueLoop_fits h hs isBegin hge q.fillCnt
    exact ⟨q', _, hloop, hsize, hq, by simp⟩

theorem mqttQueueStep_queued {q : MqttRingbuf} {segs : List (List Byte × List Byte)} {noise : List Byte}
    (h : Queued q segs noise) (hs : q.size < 65535) (e : MqttQueueCall) :
    (mqttQueueStep q e).size = q.size ∧ ∃ segs' noise', Queued (mqttQueueStep q e) segs' noise' := by
  cases e with
  | puts m =>
    rcases Nat.lt_or_ge q.size (q.fillCnt + (mqttFrame m).length) with hlt | hge
    · obtain ⟨-, hq, hsize, -⟩ := queuePuts_full h hlt
      exact ⟨hsize, _, _, hq⟩
    · obtain ⟨-, hq, hsize⟩ := queuePuts_fits h hge
      exact ⟨hsize, _, _, hq⟩
  | gets isBegin maxLen =>
    cases segs with
    | nil =>
      obtain ⟨-, hq, hsize⟩ := queueGets_nil h isBegin maxLen
      exact ⟨hsize, _, _, hq⟩
    | cons seg segs =>
      obtain ⟨-, hq, hsize⟩ := queueGets_cons (j := seg.1) (m := seg.2) h isBegin maxLen
      exact ⟨hsize, _, _, hq⟩
  | publish isBegin m =>
    obtain ⟨q', segs', hloop, hsize, hq, -⟩ := publish_queued h hs isBegin m
    have hstep : mqttQueueStep q (.publish isBegin m) = q' := by rw [mqttQueueStep, hloop]; rfl
    rw [hstep]
    exact ⟨hsize, segs', [], hq⟩

/-- After any calls, the loop ends, and which messages it leaves and whether it succeeds is `publishResult` of
the free cells, the messages queued and what each of them costs. -/
theorem publish_loop (mem : Mem Byte) (buf : Nat) {size : Nat} (h2 : 2 ≤ size) (hs : size < 65535)
    (es : List MqttQueueCall) (isBegin : Nat → Byte) (m : List Byte) :
    ∃ queue, queueInit mem buf size = some queue ∧
      let q := run mqttQueueStep queue es
      ∃ segs noise, Queued q segs noise ∧
        ∃ q' segs', mqttQueueLoop isBegin m (q.fillCnt + 1) q = some ((publishResult (size - q.fillCnt) segs m).1, q') ∧
          Queued q' segs' [] ∧ segs'.map Prod.snd = (publishResult (size - q.fillCnt) segs m).2 := by
  obtain ⟨queue, hinit, hholds, hsize⟩ := MqttRingbuf.init_holds mem buf h2
  have hkeep : ∀ q e, (q.size = size ∧ ∃ segs noise, Queued q segs noise) →
      (mqttQueueStep q e).size = size ∧ ∃ segs noise, Queued (mqttQueueStep q e) segs noise := by
    rintro q e ⟨hq, segs, noise, h⟩
    have hstep := mqttQueueStep_queued h (by omega) e
    exact ⟨hstep.1.trans hq, hstep.2⟩
  have hinv := run_inv (I := fun q => q.size = size ∧ ∃ segs noise, Queued q segs noise) hkeep (s := queue)
    ⟨hsize, [], [], hholds, by simp, by simp⟩ es
  refine ⟨queue, hinit, ?_⟩
  obtain ⟨hsz, segs, noise, hq⟩ := hinv
  obtain ⟨q', segs', hloop, -, hq', hmap⟩ := publish_queued hq (by omega) isBegin m
  rw [hsz] at hloop hmap
  exact ⟨segs, noise, hq, q', segs', hloop, hq', hmap⟩

/-- In a ring of ten cells with one message queued, a message whose frame takes all ten is
lost together with the one queued. -/
theorem publish_loop_ten : 2 ≤ 10 ∧ 10 < 65535 ∧ ∃ queue, queueInit (fun _ => 0) 0 10 = some queue ∧
    let q := run mqttQueueStep queue [.puts [1]]
    ∃ segs noise, Queued q segs noise ∧
      ∃ q' segs', mqttQueueLoop (fun _ => 0) [1, 2, 3, 4, 5, 6, 7, 8] (q.fillCnt + 1) q =
          some ((publishResult (10 - q.fillCnt) segs [1, 2, 3, 4, 5, 6, 7, 8]).1, q') ∧
        Queued q' segs' [] ∧ segs'.map Prod.snd = (publishResult (10 - q.fillCnt) segs [1, 2, 3, 4, 5, 6, 7, 8]).2 :=
  ⟨by decide, by decide, publish_loop (fun _ => 0) 0 (by decide) (by decide) [.puts [1]] (fun _ => 0) [1, 2, 3, 4, 5, 6, 7, 8]⟩

example : publishResult 7 [([], [1])] [1, 2, 3, 4, 5, 6, 7, 8] = (false, []) := by decide

end Nonos
