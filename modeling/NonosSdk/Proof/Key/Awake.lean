import NonosSdk.Framework.Runs
import NonosSdk.Impl.Key

/-!
# A key never goes deaf

Every handler works on one key at a time (`Acts`): on its fields, and on the
interrupt type of its pin, which no other key shares. So what a run does to a
key is a run of the functions `onIntr`, `on50ms` and `on3s` on the key alone,
and these keep `KeyOk`: a released key waits for a falling edge, and a pressed
one for a rising edge or for `key_50ms`.
-/

namespace Nonos

/-- A key and the interrupt type of its pin. -/
abbrev PinnedKey := SingleKey × GpioIntType

namespace PinnedKey

/-- `key_init` on one key. -/
def onInit (p : PinnedKey) : PinnedKey := ({ p.1 with keyLevel := 1 }, .negedge)

/-- `key_intr_handler` on one key. -/
def onIntr (gpioStatus : Word) (p : PinnedKey) : PinnedKey :=
  if gpioStatus &&& Keys.bit p.1.gpioId ≠ 0 then
    if p.1.keyLevel = 1 then ({ p.1 with key3s := true, keyLevel := 0 }, .posedge)
    else ({ p.1 with key50ms := true }, .disable)
  else p

/-- `key_50ms_cb` -/
def on50ms (level : Bool) (p : PinnedKey) : PinnedKey :=
  if level = true then ({ p.1 with key50ms := false, key3s := false, keyLevel := 1 }, .negedge)
  else ({ p.1 with key50ms := false }, .posedge)

/-- `key_3s_cb` -/
def on3s (p : PinnedKey) : PinnedKey := ({ p.1 with key3s := false }, p.2)

/-- The key hears its next edge, or a timer will see to it. -/
structure Ok (p : PinnedKey) : Prop where
  level : p.1.keyLevel = 0 ∨ p.1.keyLevel = 1
  high : p.1.keyLevel = 1 ↔ p.2 = .negedge
  low : p.1.keyLevel = 0 → p.2 = .posedge ∨ p.2 = .disable ∧ p.1.key50ms = true
  key50ms : p.1.key50ms = true → p.2 = .disable ∧ p.1.keyLevel = 0
  key3s : p.1.key3s = true → p.1.keyLevel = 0

/-- The timers of a fresh key are not armed. -/
structure Fresh (k : SingleKey) : Prop where
  key50ms : k.key50ms = false
  key3s : k.key3s = false

theorem ok_onInit {p : PinnedKey} (h : Fresh p.1) : (onInit p).Ok := by
  refine ⟨.inr rfl, by simp [onInit], by simp [onInit], ?_, ?_⟩
  · intro h50; rw [onInit, h.key50ms] at h50; cases h50
  · intro h3; rw [onInit, h.key3s] at h3; cases h3

theorem Ok.onIntr {p : PinnedKey} (h : p.Ok) (gpioStatus : Word) : (p.onIntr gpioStatus).Ok := by
  unfold PinnedKey.onIntr
  split_ifs with hs h1
  · -- `key_50ms` runs only while the key is down
    have h50 : p.1.key50ms = false := by
      by_contra hc
      have := (h.key50ms (by simpa using hc)).2
      rw [this] at h1
      cases h1
    exact ⟨.inl rfl, by simp, fun _ => .inl rfl, fun hc => absurd hc (by simp [h50]), fun _ => rfl⟩
  · have h0 := h.level.resolve_right h1
    exact ⟨h.level, iff_of_false h1 (by simp), fun _ => .inr ⟨rfl, rfl⟩, fun _ => ⟨rfl, h0⟩, h.key3s⟩
  · exact h

theorem Ok.on50ms {p : PinnedKey} (h : p.Ok) (h50 : p.1.key50ms = true) (level : Bool) :
    (p.on50ms level).Ok := by
  have h0 := (h.key50ms h50).2
  unfold PinnedKey.on50ms
  split_ifs
  · exact ⟨.inr rfl, by simp, by simp, by simp, by simp⟩
  · exact ⟨h.level, by simp [h0], fun _ => .inl rfl, by simp, h.key3s⟩

theorem Ok.on3s {p : PinnedKey} (h : p.Ok) : p.on3s.Ok :=
  ⟨h.level, h.high, h.low, h.key50ms, fun hc => Bool.noConfusion hc⟩

end PinnedKey

namespace Keys

variable {s : Keys}

/-- A key as the handlers see it. -/
def view (s : Keys) (j : Nat) : Option PinnedKey := s.singleKey[j]?.map fun k => (k, s.intType k.gpioId)

def ids (s : Keys) : List Nat := s.singleKey.map (·.gpioId)

/-- The step from `s` to `s'` is `f` on key `i`. -/
structure Acts (s s' : Keys) (i : Nat) (f : PinnedKey → PinnedKey) : Prop where
  ids : s'.ids = s.ids
  view : ∀ j, s'.view j = if j = i then (s.view j).map f else s.view j

/-- A new key `i` and a new interrupt type of its pin, with pins of their own. -/
theorem acts_of_set {s' : Keys} (hn : s.ids.Nodup) {i : Nat} {k : SingleKey} (hk : s.singleKey[i]? = some k)
    {f : PinnedKey → PinnedKey} {k' : SingleKey} {t : GpioIntType} (h1 : s'.singleKey = s.singleKey.set i k')
    (h2 : s'.intType = Function.update s.intType k.gpioId t) (hid : k'.gpioId = k.gpioId)
    (hf : f (k, s.intType k.gpioId) = (k', t)) : Acts s s' i f := by
  obtain ⟨hi, hki⟩ := List.getElem?_eq_some_iff.mp hk
  refine ⟨?_, fun j => ?_⟩
  · apply List.ext_getElem?
    intro j
    simp only [ids, h1, List.getElem?_map, List.getElem?_set]
    split_ifs with hj
    · subst hj; simp [hid, hi, hki]
    · rfl
  · by_cases hj : j = i
    · subst hj
      simp [view, h1, h2, hi, hki, hid, hf]
    · have hne : ∀ k₁, s.singleKey[j]? = some k₁ → k₁.gpioId ≠ k.gpioId := by
        intro k₁ hk₁ he
        obtain ⟨hj', hkj⟩ := List.getElem?_eq_some_iff.mp hk₁
        have hjl : j < s.ids.length := by simpa [ids] using hj'
        have hil : i < s.ids.length := by simpa [ids] using hi
        refine hj ((@List.Nodup.getElem_inj_iff _ _ hn j hjl i hil).mp ?_)
        simp [ids, hkj, hki, he]
      rw [if_neg hj, view, h1, List.getElem?_set_ne (Ne.symm hj), view]
      match hk₁ : s.singleKey[j]? with
      | none => rfl
      | some k₁ => rw [Option.map_some, Option.map_some, h2, Function.update_of_ne (hne k₁ hk₁)]

/-- Nothing happens to a key that is not there. -/
theorem acts_none {i : Nat} (hk : s.singleKey[i]? = none) (f : PinnedKey → PinnedKey) : Acts s s i f := by
  refine ⟨rfl, fun j => ?_⟩
  split_ifs with hj
  · subst hj; simp [view, hk]
  · rfl

theorem acts_initKey (hn : s.ids.Nodup) (i : Nat) : Acts s (s.initKey i) i PinnedKey.onInit := by
  unfold initKey
  match hk : s.singleKey[i]? with
  | none => exact acts_none hk _
  | some k => exact acts_of_set hn hk rfl (Function.update_idem _ _ _) rfl rfl

theorem acts_intrKey (hn : s.ids.Nodup) (gpioStatus : Word) (i : Nat) :
    Acts s (s.intrKey gpioStatus i) i (PinnedKey.onIntr gpioStatus) := by
  unfold intrKey
  match hk : s.singleKey[i]? with
  | none => exact acts_none hk _
  | some k =>
    dsimp only
    split_ifs with hs h1
    · exact acts_of_set hn hk rfl (Function.update_idem _ _ _) rfl
        (by rw [PinnedKey.onIntr, if_pos hs, if_pos h1])
    · exact acts_of_set hn hk rfl rfl rfl (by rw [PinnedKey.onIntr, if_pos hs, if_neg h1])
    · have hset : s.singleKey.set i k = s.singleKey := by
        obtain ⟨hi, rfl⟩ := List.getElem?_eq_some_iff.mp hk
        exact List.set_getElem_self hi
      exact acts_of_set hn hk hset.symm (Function.update_eq_self _ _).symm rfl
        (by rw [PinnedKey.onIntr, if_neg hs])

@[simp] theorem call_singleKey (s : Keys) (i : Nat) (isSet : Bool) (f : KeyFunction) :
    (s.call i isSet f).singleKey = s.singleKey := by
  unfold call; split_ifs <;> rfl

@[simp] theorem call_intType (s : Keys) (i : Nat) (isSet : Bool) (f : KeyFunction) :
    (s.call i isSet f).intType = s.intType := by
  unfold call; split_ifs <;> rfl

theorem acts_key50msCb (hn : s.ids.Nodup) (i : Nat) (level : Bool) :
    Acts s (s.key50msCb i level) i (PinnedKey.on50ms level) := by
  unfold key50msCb
  match hk : s.singleKey[i]? with
  | none => exact acts_none hk _
  | some k =>
    dsimp only
    split_ifs with hl
    · exact acts_of_set hn hk (call_singleKey _ _ _ _) (call_intType _ _ _ _) rfl
        (by rw [PinnedKey.on50ms, if_pos hl])
    · exact acts_of_set hn hk rfl rfl rfl (by rw [PinnedKey.on50ms, if_neg hl])

theorem acts_key3sCb (hn : s.ids.Nodup) (i : Nat) (level : Bool) :
    Acts s (s.key3sCb i level) i PinnedKey.on3s := by
  unfold key3sCb
  match hk : s.singleKey[i]? with
  | none => exact acts_none hk _
  | some k =>
    have hself : s.intType = Function.update s.intType k.gpioId (s.intType k.gpioId) :=
      (Function.update_eq_self _ _).symm
    dsimp only
    split_ifs
    · exact acts_of_set hn hk (call_singleKey _ _ _ _) ((call_intType _ _ _ _).trans hself) rfl rfl
    · exact acts_of_set hn hk rfl hself rfl rfl

/-- A loop over the keys does to each what its body does. -/
theorem foldl_acts {g : Keys → Nat → Keys} {f : PinnedKey → PinnedKey}
    (hg : ∀ (s : Keys) i, s.ids.Nodup → Acts s (g s i) i f) {is : List Nat} (hi : is.Nodup) (hn : s.ids.Nodup) :
    (is.foldl g s).ids = s.ids ∧
      ∀ j, (is.foldl g s).view j = if j ∈ is then (s.view j).map f else s.view j := by
  induction is generalizing s with
  | nil => exact ⟨rfl, fun j => by simp⟩
  | cons i is ih =>
    obtain ⟨h1, h2⟩ := hg s i hn
    obtain ⟨hni, hi'⟩ := List.nodup_cons.mp hi
    obtain ⟨h3, h4⟩ := ih hi' (h1.symm ▸ hn)
    refine ⟨h3.trans h1, fun j => ?_⟩
    rw [List.foldl_cons, h4, h2]
    by_cases hj : j = i
    · subst hj; simp [hni]
    · simp [hj]

/-- The loop of the handler and of `key_init` goes over all keys. -/
theorem loop_acts {g : Keys → Nat → Keys} {f : PinnedKey → PinnedKey}
    (hg : ∀ (s : Keys) i, s.ids.Nodup → Acts s (g s i) i f) (hn : s.ids.Nodup) :
    ((List.range s.singleKey.length).foldl g s).ids = s.ids ∧
      ∀ j, ((List.range s.singleKey.length).foldl g s).view j = (s.view j).map f := by
  obtain ⟨h1, h2⟩ := foldl_acts hg List.nodup_range hn
  refine ⟨h1, fun j => (h2 j).trans ?_⟩
  split_ifs with hj
  · rfl
  · have hv : s.view j = none := by
      rw [view, List.getElem?_eq_none (by simpa using hj), Option.map_none]
    rw [hv, Option.map_none]

/-! ## Runs -/

/-- What an event does to key `j`. -/
def onEvent (e : KeyEvent) (j : Nat) : PinnedKey → PinnedKey :=
  match e with
  | .intr gpioStatus => PinnedKey.onIntr gpioStatus
  | .timer50ms i level => if j = i then PinnedKey.on50ms level else id
  | .timer3s i _ => if j = i then PinnedKey.on3s else id

/-- An event is one of a key if it is the expiry of its timer, or an interrupt
with its status bit. -/
def Concerns (s : Keys) (e : KeyEvent) (j : Nat) : Prop :=
  match e with
  | .intr gpioStatus => ∃ k ∈ s.singleKey[j]?, gpioStatus &&& bit k.gpioId ≠ 0
  | .timer50ms i _ | .timer3s i _ => j = i

theorem handle_view (hn : s.ids.Nodup) (e : KeyEvent) : (s.handle e).ids = s.ids ∧
    ∀ j, (s.handle e).view j = (s.view j).map (onEvent e j) := by
  have hone : ∀ {s' : Keys} {i : Nat} {f : PinnedKey → PinnedKey}, Acts s s' i f → s'.ids = s.ids ∧
      ∀ j, s'.view j = (s.view j).map (if j = i then f else id) := by
    intro s' i f h
    refine ⟨h.ids, fun j => (h.view j).trans ?_⟩
    split_ifs
    · rfl
    · exact (congrFun Option.map_id _).symm
  cases e with
  | intr gpioStatus => exact loop_acts (fun s i hn => acts_intrKey hn gpioStatus i) hn
  | timer50ms i level => exact hone (acts_key50msCb hn i level)
  | timer3s i level => exact hone (acts_key3sCb hn i level)

/-- Every key is in order. -/
def AllOk (s : Keys) : Prop := ∀ j p, s.view j = some p → p.Ok

theorem step_ids (hn : s.ids.Nodup) (e : KeyEvent) : (s.step e).ids = s.ids := by
  unfold step
  split_ifs
  · exact (handle_view hn e).1
  · rfl

theorem AllOk.step (h : s.AllOk) (hn : s.ids.Nodup) (e : KeyEvent) : (s.step e).AllOk := by
  unfold Keys.step
  split_ifs with he
  · intro j p hp
    rw [(handle_view hn e).2] at hp
    obtain ⟨q, hq, rfl⟩ := Option.map_eq_some_iff.mp hp
    have hok := h j q hq
    obtain ⟨k, hk, rfl⟩ := Option.map_eq_some_iff.mp hq
    cases e with
    | intr gpioStatus => exact hok.onIntr gpioStatus
    | timer50ms i level =>
      simp only [onEvent]
      split_ifs with hj
      · subst hj
        obtain ⟨k', hk', h50⟩ := he
        obtain rfl : k = k' := Option.some.inj (hk.symm.trans hk')
        exact hok.on50ms h50 level
      · exact hok
    | timer3s i level =>
      simp only [onEvent]
      split_ifs
      · exact hok.on3s
      · exact hok
  · exact h

/-- An event of one key leaves the others alone. -/
theorem step_view_of_not_concerns (hn : s.ids.Nodup) {e : KeyEvent} {j : Nat} (hc : ¬ s.Concerns e j) :
    (s.step e).view j = s.view j := by
  unfold step
  split_ifs
  · rw [(handle_view hn e).2]
    match hv : s.view j with
    | none => rfl
    | some p =>
      obtain ⟨k, hk, rfl⟩ := Option.map_eq_some_iff.mp hv
      rw [Option.map_some]
      cases e with
      | intr gpioStatus => rw [onEvent, PinnedKey.onIntr, if_neg fun hs => hc ⟨k, hk, hs⟩]
      | timer50ms i level => rw [onEvent, if_neg (show ¬ j = i from hc)]; rfl
      | timer3s i level => rw [onEvent, if_neg (show ¬ j = i from hc)]; rfl
  · rfl

/-- `key_init_single` for every key, and `key_init`; what the pins' interrupt
types were before is `t`. -/
def start (ks : List (Nat × Bool × Bool)) (t : Nat → GpioIntType) : Keys :=
  keyInit { singleKey := ks.map fun k => keyInitSingle k.1 k.2.1 k.2.2, intType := t }

theorem start_ok {ks : List (Nat × Bool × Bool)} (hn : (ks.map Prod.fst).Nodup) (t : Nat → GpioIntType) :
    (start ks t).ids = ks.map Prod.fst ∧ (start ks t).AllOk := by
  have hids : ids { singleKey := ks.map fun k => keyInitSingle k.1 k.2.1 k.2.2, intType := t } =
      ks.map Prod.fst := by simp [ids, keyInitSingle]
  obtain ⟨h1, h2⟩ := loop_acts (fun s i hn => acts_initKey hn i) (hids.symm ▸ hn)
  refine ⟨h1.trans hids, fun j p hp => ?_⟩
  obtain ⟨q, hq, rfl⟩ := Option.map_eq_some_iff.mp ((h2 j).symm.trans hp)
  obtain ⟨k, hk, rfl⟩ := Option.map_eq_some_iff.mp hq
  rw [List.getElem?_map] at hk
  obtain ⟨x, -, rfl⟩ := Option.map_eq_some_iff.mp hk
  exact PinnedKey.ok_onInit ⟨rfl, rfl⟩

/-- For any number of keys with pins of their own, in every state that a run
reaches, every key is in order, and an event of one key leaves the others
alone. -/
theorem key_never_deaf (ks : List (Nat × Bool × Bool)) (hn : (ks.map Prod.fst).Nodup)
    (t : Nat → GpioIntType) (es : List KeyEvent) :
    (run step (start ks t) es).ids = ks.map Prod.fst ∧ (run step (start ks t) es).AllOk ∧
      ∀ e j, ¬ (run step (start ks t) es).Concerns e j →
        ((run step (start ks t) es).step e).view j = (run step (start ks t) es).view j := by
  have hinv : (run step (start ks t) es).ids = ks.map Prod.fst ∧ (run step (start ks t) es).AllOk :=
    run_inv (I := fun s : Keys => s.ids = ks.map Prod.fst ∧ s.AllOk)
      (fun s e ⟨hi, hok⟩ => ⟨(step_ids (hi ▸ hn) e).trans hi, hok.step (hi ▸ hn) e⟩) (start_ok hn t) es
  exact ⟨hinv.1, hinv.2, fun e j => step_view_of_not_concerns (hinv.1 ▸ hn)⟩

/-- Two keys; the first is pressed and released. -/
theorem two_keys_never_deaf : (run step (start [(13, true, true), (0, false, true)] fun _ => .disable)
    [.intr 0x2000, .intr 0x2000, .timer50ms 0 true]).AllOk :=
  (key_never_deaf [(13, true, true), (0, false, true)] (by decide) _ _).2.1

end Keys

end Nonos
