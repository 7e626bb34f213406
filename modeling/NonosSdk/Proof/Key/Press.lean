import NonosSdk.Proof.Key.Awake

/-!
# One press, one action

The keys with the functions called for each of them since it last went down (`PressRun`).
`key_50ms_cb` disarms `key_3s`, so a short press is never followed by a long one; but
`key_3s_cb` leaves no trace for `key_50ms_cb`, which calls `short_press` on every release.
So a press leads to at most one call exactly in the runs in which no release is noticed
after `long_press` has been called for it (`one_action_iff`).
-/

namespace Nonos

/-! ## What an event does to one key -/

/-- Key `j` after an event. -/
def SingleKey.after (e : KeyEvent) (j : Nat) (k : SingleKey) : SingleKey :=
  match e with
  | .intr gpioStatus =>
    if gpioStatus &&& Keys.bit k.gpioId ≠ 0 then
      if k.keyLevel = 1 then { k with key3s := true, keyLevel := 0 } else { k with key50ms := true }
    else k
  | .timer50ms i level =>
    if j = i ∧ k.key50ms = true then
      if level = true then { k with key50ms := false, key3s := false, keyLevel := 1 }
      else { k with key50ms := false }
    else k
  | .timer3s i _ => if j = i ∧ k.key3s = true then { k with key3s := false } else k

/-- The function it leads to a call of. -/
def SingleKey.called (e : KeyEvent) (j : Nat) (k : SingleKey) : List KeyFunction :=
  match e with
  | .intr _ => []
  | .timer50ms i level => if j = i ∧ k.key50ms = true ∧ level = true ∧ k.shortPress = true then [.shortPress] else []
  | .timer3s i level => if j = i ∧ k.key3s = true ∧ level = false ∧ k.longPress = true then [.longPress] else []

namespace Keys

variable {s : Keys}

/-- A loop whose body works on one key at a time. -/
theorem foldl_singleKey {g : Keys → Nat → Keys} {f : SingleKey → SingleKey}
    (hg : ∀ (s : Keys) i j, (g s i).singleKey[j]? = if j = i then s.singleKey[j]?.map f else s.singleKey[j]?)
    (n : Nat) (j : Nat) : ((List.range n).foldl g s).singleKey[j]? =
      if j < n then s.singleKey[j]?.map f else s.singleKey[j]? := by
  induction n with
  | zero => rfl
  | succ n ih =>
    rw [List.range_succ, List.foldl_append, List.foldl_cons, List.foldl_nil, hg, ih]
    by_cases hj : j = n
    · subst hj; simp
    · rw [if_neg hj]
      by_cases hlt : j < n
      · rw [if_pos hlt, if_pos (by omega)]
      · rw [if_neg hlt, if_neg (by omega)]

/-- The loops of the handler and of `key_init` go over all keys. -/
theorem loop_singleKey {g : Keys → Nat → Keys} {f : SingleKey → SingleKey}
    (hg : ∀ (s : Keys) i j, (g s i).singleKey[j]? = if j = i then s.singleKey[j]?.map f else s.singleKey[j]?)
    (j : Nat) : ((List.range s.singleKey.length).foldl g s).singleKey[j]? = s.singleKey[j]?.map f := by
  rw [foldl_singleKey hg]
  split_ifs with hj
  · rfl
  · rw [List.getElem?_eq_none (by omega)]; rfl

/-- A change of key `i`, seen from key `j`. -/
theorem set_getElem? {ks : List SingleKey} {i : Nat} {k : SingleKey} (hk : ks[i]? = some k)
    (f : SingleKey → SingleKey) (j : Nat) : (ks.set i (f k))[j]? = if j = i then ks[j]?.map f else ks[j]? := by
  obtain ⟨hi, rfl⟩ := List.getElem?_eq_some_iff.mp hk
  rw [List.getElem?_set]
  by_cases hj : i = j
  · subst hj; simp [hi]
  · rw [if_neg hj, if_neg (Ne.symm hj)]

theorem initKey_singleKey (s : Keys) (i j : Nat) : (s.initKey i).singleKey[j]? =
    if j = i then s.singleKey[j]?.map (fun k => { k with keyLevel := 1 }) else s.singleKey[j]? := by
  unfold initKey
  match hk : s.singleKey[i]? with
  | none =>
    split_ifs with hj
    · subst hj; rw [hk]; rfl
    · rfl
  | some k => exact set_getElem? hk (fun k => { k with keyLevel := 1 }) j

theorem intrKey_singleKey (gpioStatus : Word) (s : Keys) (i j : Nat) : (s.intrKey gpioStatus i).singleKey[j]? =
    if j = i then s.singleKey[j]?.map (SingleKey.after (.intr gpioStatus) j) else s.singleKey[j]? := by
  unfold intrKey
  match hk : s.singleKey[i]? with
  | none =>
    split_ifs with hj
    · subst hj; rw [hk]; rfl
    · rfl
  | some k =>
    rw [← set_getElem? hk]
    dsimp only [SingleKey.after]
    split_ifs
    · rfl
    · rfl
    · obtain ⟨hi, rfl⟩ := List.getElem?_eq_some_iff.mp hk
      rw [List.set_getElem_self hi]

theorem call_presses (s : Keys) (i : Nat) (isSet : Bool) (f : KeyFunction) :
    (s.call i isSet f).presses = s.presses ++ if isSet = true then [(i, f)] else [] := by
  unfold call
  split_ifs
  · rfl
  · exact (List.append_nil _).symm

theorem key50msCb_singleKey (s : Keys) {i : Nat} {k : SingleKey} (hk : s.singleKey[i]? = some k) (level : Bool) :
    (s.key50msCb i level).singleKey = s.singleKey.set i
        (if level = true then { k with key50ms := false, key3s := false, keyLevel := 1 }
          else { k with key50ms := false }) ∧
      (s.key50msCb i level).presses =
        s.presses ++ if level = true ∧ k.shortPress = true then [(i, .shortPress)] else [] := by
  rw [key50msCb, hk]
  dsimp only
  by_cases hl : level = true
  · rw [if_pos hl, if_pos hl]
    refine ⟨call_singleKey _ _ _ _, (call_presses _ _ _ _).trans ?_⟩
    simp only [hl, true_and]
    rfl
  · rw [if_neg hl, if_neg hl, if_neg fun h => hl h.1]
    exact ⟨rfl, (List.append_nil _).symm⟩

theorem key3sCb_singleKey (s : Keys) {i : Nat} {k : SingleKey} (hk : s.singleKey[i]? = some k) (level : Bool) :
    (s.key3sCb i level).singleKey = s.singleKey.set i { k with key3s := false } ∧
      (s.key3sCb i level).presses =
        s.presses ++ if level = false ∧ k.longPress = true then [(i, .longPress)] else [] := by
  rw [key3sCb, hk]
  dsimp only
  by_cases hl : level = false
  · rw [if_pos hl]
    refine ⟨call_singleKey _ _ _ _, (call_presses _ _ _ _).trans ?_⟩
    simp only [hl, true_and]
    rfl
  · rw [if_neg hl, if_neg fun h => hl h.1]
    exact ⟨rfl, (List.append_nil _).symm⟩

theorem keyIntrHandler_presses (s : Keys) (gpioStatus : Word) :
    (s.keyIntrHandler gpioStatus).presses = s.presses := by
  have hone (s : Keys) (i : Nat) : (s.intrKey gpioStatus i).presses = s.presses := by
    unfold intrKey
    split
    · rfl
    · split_ifs <;> rfl
  unfold keyIntrHandler
  generalize List.range s.singleKey.length = is
  induction is generalizing s with
  | nil => rfl
  | cons i is ih => rw [List.foldl_cons, ih, hone]

/-- An event, on key `j`. -/
theorem step_singleKey (s : Keys) (e : KeyEvent) (j : Nat) :
    (s.step e).singleKey[j]? = s.singleKey[j]?.map (SingleKey.after e j) := by
  unfold step
  split_ifs with he
  · cases e with
    | intr gpioStatus => exact loop_singleKey (fun s i j => intrKey_singleKey gpioStatus s i j) j
    | timer50ms i level =>
      obtain ⟨k, hk, h50⟩ := he
      show (s.key50msCb i level).singleKey[j]? = _
      rw [(key50msCb_singleKey s hk level).1]
      by_cases hj : j = i
      · subst hj
        rw [List.getElem?_set_self (List.getElem?_eq_some_iff.mp hk).1, hk]
        simp [SingleKey.after, h50]
      · rw [List.getElem?_set_ne (Ne.symm hj)]
        cases s.singleKey[j]? with
        | none => rfl
        | some k' => rw [Option.map_some, SingleKey.after, if_neg fun h => hj h.1]
    | timer3s i level =>
      obtain ⟨k, hk, h3⟩ := he
      show (s.key3sCb i level).singleKey[j]? = _
      rw [(key3sCb_singleKey s hk level).1]
      by_cases hj : j = i
      · subst hj
        rw [List.getElem?_set_self (List.getElem?_eq_some_iff.mp hk).1, hk]
        simp [SingleKey.after, h3]
      · rw [List.getElem?_set_ne (Ne.symm hj)]
        cases s.singleKey[j]? with
        | none => rfl
        | some k' => rw [Option.map_some, SingleKey.after, if_neg fun h => hj h.1]
  · -- the timer is not armed
    match hk : s.singleKey[j]? with
    | none => rfl
    | some k =>
      cases e with
      | intr gpioStatus => exact absurd trivial he
      | timer50ms i level =>
        rw [Option.map_some, SingleKey.after, if_neg]
        rintro ⟨rfl, h50⟩
        exact he ⟨k, hk, h50⟩
      | timer3s i level =>
        rw [Option.map_some, SingleKey.after, if_neg]
        rintro ⟨rfl, h3⟩
        exact he ⟨k, hk, h3⟩

/-- What a call for key `i` adds, seen from key `j`. -/
theorem newCalls_eq (presses : List (Nat × KeyFunction)) (i j : Nat) (c : Prop) [Decidable c] (f : KeyFunction) :
    (((presses ++ if c then [(i, f)] else []).drop presses.length).filter (·.1 = j)).map (·.2) =
      if j = i ∧ c then [f] else [] := by
  rw [List.drop_left]
  by_cases hc : c
  · by_cases hj : j = i
    · subst hj; simp [hc]
    · simp [hc, hj, Ne.symm hj]
  · rw [if_neg hc, if_neg fun h => hc h.2]; rfl

/-- The calls it leads to. -/
theorem step_presses (s : Keys) (e : KeyEvent) (j : Nat) :
    (((s.step e).presses.drop s.presses.length).filter (·.1 = j)).map (·.2) =
      (s.singleKey[j]?.map (SingleKey.called e j)).getD [] := by
  unfold step
  split_ifs with he
  · cases e with
    | intr gpioStatus =>
      show (((s.keyIntrHandler gpioStatus).presses.drop _).filter _).map _ = _
      rw [keyIntrHandler_presses, List.drop_length]
      cases s.singleKey[j]? <;> rfl
    | timer50ms i level =>
      obtain ⟨k, hk, h50⟩ := he
      show (((s.key50msCb i level).presses.drop _).filter _).map _ = _
      rw [(key50msCb_singleKey s hk level).2, newCalls_eq]
      by_cases hj : j = i
      · subst hj
        rw [hk, Option.map_some, Option.getD_some, SingleKey.called]
        simp only [h50, true_and]
      · rw [if_neg fun h => hj h.1]
        cases s.singleKey[j]? with
        | none => rfl
        | some k' => rw [Option.map_some, SingleKey.called, if_neg fun h => hj h.1]; rfl
    | timer3s i level =>
      obtain ⟨k, hk, h3⟩ := he
      show (((s.key3sCb i level).presses.drop _).filter _).map _ = _
      rw [(key3sCb_singleKey s hk level).2, newCalls_eq]
      by_cases hj : j = i
      · subst hj
        rw [hk, Option.map_some, Option.getD_some, SingleKey.called]
        simp only [h3, true_and]
      · rw [if_neg fun h => hj h.1]
        cases s.singleKey[j]? with
        | none => rfl
        | some k' => rw [Option.map_some, SingleKey.called, if_neg fun h => hj h.1]; rfl
  · rw [List.drop_length]
    match hk : s.singleKey[j]? with
    | none => rfl
    | some k =>
      cases e with
      | intr gpioStatus => rfl
      | timer50ms i level =>
        rw [Option.map_some, SingleKey.called, if_neg]
        · rfl
        · rintro ⟨rfl, h50, -⟩
          exact he ⟨k, hk, h50⟩
      | timer3s i level =>
        rw [Option.map_some, SingleKey.called, if_neg]
        · rfl
        · rintro ⟨rfl, h3, -⟩
          exact he ⟨k, hk, h3⟩

end Keys

/-! ## Presses -/

/-- The keys, and the functions called for each since its level last went from 1 to 0. -/
structure PressRun where
  keys : Keys
  calls : Nat → List KeyFunction

namespace PressRun

/-- After `key_init`. -/
def start (ks : List (Nat × Bool × Bool)) (t : Nat → GpioIntType) : PressRun := ⟨Keys.start ks t, fun _ => []⟩

/-- `key_level` of key `j`. -/
def level (s : Keys) (j : Nat) : Option Byte := s.singleKey[j]?.map (·.keyLevel)

def step (r : PressRun) (e : KeyEvent) : PressRun where
  keys := r.keys.step e
  calls := fun j =>
    if level r.keys j = some 1 ∧ level (r.keys.step e) j = some 0 then []
    else r.calls j ++ (((r.keys.step e).presses.drop r.keys.presses.length).filter (·.1 = j)).map (·.2)

/-- Since its last transition, each key has led to one call at most. -/
def OneAction (r : PressRun) (e : KeyEvent) : Prop := ∀ j, ((r.step e).calls j).length ≤ 1

/-- `key_50ms_cb` finds no key released for whose press `long_press` has been called, and
would call `short_press`. -/
def NoLateShort (r : PressRun) (e : KeyEvent) : Prop :=
  ∀ (j : Nat) (k : SingleKey), e = .timer50ms j true → r.keys.singleKey[j]? = some k → k.key50ms = true →
    k.shortPress = true → .longPress ∉ r.calls j

variable {r : PressRun}

/-- Where a key is in its press. -/
structure Inv (r : PressRun) : Prop where
  calls : ∀ j, (r.calls j).length ≤ 1
  /-- A key that is up has no timer armed. -/
  up : ∀ (j : Nat) (k : SingleKey), r.keys.singleKey[j]? = some k → k.keyLevel = 1 →
    k.key3s = false ∧ k.key50ms = false
  /-- For a key that is down, nothing has been called, or `long_press` when `key_3s` fired. -/
  down : ∀ (j : Nat) (k : SingleKey), r.keys.singleKey[j]? = some k → k.keyLevel ≠ 1 →
    r.calls j = [] ∨ r.calls j = [.longPress] ∧ k.key3s = false

theorem inv_start (ks : List (Nat × Bool × Bool)) (t : Nat → GpioIntType) : (start ks t).Inv := by
  have hkey (j : Nat) {k : SingleKey} (hk : (start ks t).keys.singleKey[j]? = some k) :
      k.keyLevel = 1 ∧ k.key3s = false ∧ k.key50ms = false := by
    have hloop := Keys.loop_singleKey (s := { singleKey := ks.map fun k => keyInitSingle k.1 k.2.1 k.2.2,
                                              intType := t }) (fun s i j => Keys.initKey_singleKey s i j) j
    obtain ⟨k₀, hk₀, rfl⟩ := Option.map_eq_some_iff.mp (hloop.symm.trans hk)
    rw [List.getElem?_map] at hk₀
    obtain ⟨x, -, rfl⟩ := Option.map_eq_some_iff.mp hk₀
    exact ⟨rfl, rfl, rfl⟩
  exact ⟨fun j => Nat.zero_le 1, fun j k hk _ => (hkey j hk).2, fun j k hk h1 => absurd (hkey j hk).1 h1⟩

/-- An event, on the calls for a key. -/
theorem step_calls (r : PressRun) (e : KeyEvent) {j : Nat} {k : SingleKey} (hk : r.keys.singleKey[j]? = some k) :
    (r.step e).calls j = if k.keyLevel = 1 ∧ (k.after e j).keyLevel = 0 then [] else r.calls j ++ k.called e j := by
  have hlevel : level r.keys j = some k.keyLevel := by rw [level, hk]; rfl
  have hlevel' : level (r.keys.step e) j = some (k.after e j).keyLevel := by
    rw [level, Keys.step_singleKey, hk]; rfl
  show (if level r.keys j = some 1 ∧ level (r.keys.step e) j = some 0 then [] else _) = _
  rw [Keys.step_presses, hlevel, hlevel', hk]
  simp only [Option.some.injEq, Option.map_some, Option.getD_some]

theorem step_calls_none (r : PressRun) (e : KeyEvent) {j : Nat} (hk : r.keys.singleKey[j]? = none) :
    (r.step e).calls j = r.calls j := by
  have hlevel : level r.keys j = none := by rw [level, hk]; rfl
  show (if level r.keys j = some 1 ∧ level (r.keys.step e) j = some 0 then [] else _) = _
  rw [Keys.step_presses, hlevel, hk, if_neg fun h => by cases h.1]
  exact List.append_nil _

section

variable (h : r.Inv)
include h

/-- A key with a timer armed is down. -/
theorem Inv.down_of_key3s {j : Nat} {k : SingleKey} (hk : r.keys.singleKey[j]? = some k) (h3 : k.key3s = true) :
    k.keyLevel ≠ 1 ∧ r.calls j = [] := by
  have hlevel : k.keyLevel ≠ 1 := fun h1 => by
    rw [(h.up j k hk h1).1] at h3
    cases h3
  refine ⟨hlevel, (h.down j k hk hlevel).resolve_right fun hl => ?_⟩
  rw [hl.2] at h3
  cases h3

theorem Inv.down_of_key50ms {j : Nat} {k : SingleKey} (hk : r.keys.singleKey[j]? = some k)
    (h50 : k.key50ms = true) : k.keyLevel ≠ 1 := fun h1 => by
  rw [(h.up j k hk h1).2] at h50
  cases h50

/-- There is a second call exactly if a release is noticed after `long_press`. -/
theorem Inv.oneAction_iff (e : KeyEvent) : r.OneAction e ↔ r.NoLateShort e := by
  constructor
  · rintro hone j k rfl hk h50 hs hmem
    have hlevel := h.down_of_key50ms hk h50
    have hcalls := hone j
    rw [step_calls r _ hk, if_neg fun hc => hlevel hc.1, SingleKey.called, if_pos ⟨rfl, h50, rfl, hs⟩,
      List.length_append, List.length_singleton] at hcalls
    have hlen := List.length_pos_of_mem hmem
    omega
  · intro hno j
    match hk : r.keys.singleKey[j]? with
    | none =>
      rw [step_calls_none r e hk]
      exact h.calls j
    | some k =>
      rw [step_calls r e hk]
      split_ifs with hdown
      · exact Nat.zero_le 1
      · cases e with
        | intr gpioStatus =>
          rw [SingleKey.called, List.append_nil]
          exact h.calls j
        | timer50ms i level =>
          rw [SingleKey.called]
          split_ifs with hc
          · obtain ⟨rfl, h50, rfl, hs⟩ := hc
            rcases h.down j k hk (h.down_of_key50ms hk h50) with hnil | ⟨hlong, -⟩
            · rw [hnil]; rfl
            · exact absurd (by rw [hlong]; exact List.mem_singleton_self _) (hno j k rfl hk h50 hs)
          · rw [List.append_nil]
            exact h.calls j
        | timer3s i level =>
          rw [SingleKey.called]
          split_ifs with hc
          · rw [(h.down_of_key3s hk hc.2.1).2]; rfl
          · rw [List.append_nil]
            exact h.calls j

/-- A key that is up after an event has no timer armed. -/
theorem Inv.up_after (e : KeyEvent) {j : Nat} {k : SingleKey} (hk : r.keys.singleKey[j]? = some k)
    (hup : (k.after e j).keyLevel = 1) : (k.after e j).key3s = false ∧ (k.after e j).key50ms = false := by
  have hold := h.up j k hk
  cases e with
  | intr gpioStatus =>
    rw [SingleKey.after] at hup ⊢
    split_ifs at hup ⊢ with hbit h1
    · cases hup
    · exact absurd hup h1
    · exact hold hup
  | timer50ms i level =>
    rw [SingleKey.after] at hup ⊢
    split_ifs at hup ⊢ with hc hl
    · exact ⟨rfl, rfl⟩
    · exact ⟨(hold hup).1, rfl⟩
    · exact hold hup
  | timer3s i level =>
    rw [SingleKey.after] at hup ⊢
    split_ifs at hup ⊢ with hc
    · exact ⟨rfl, (hold hup).2⟩
    · exact hold hup

/-- A key that an event does nothing to. -/
theorem Inv.down_idle {e : KeyEvent} {j : Nat} {k : SingleKey} (hk : r.keys.singleKey[j]? = some k)
    (hafter : k.after e j = k) (hcalled : k.called e j = []) (hdown : (k.after e j).keyLevel ≠ 1) :
    (r.step e).calls j = [] ∨ (r.step e).calls j = [.longPress] ∧ (k.after e j).key3s = false := by
  rw [hafter] at hdown
  rw [step_calls r e hk, hafter, hcalled, if_neg fun hc => hdown hc.1, List.append_nil]
  exact h.down j k hk hdown

/-- For a key that is down after an event, nothing has been called, or `long_press`. -/
theorem Inv.down_after (e : KeyEvent) {j : Nat} {k : SingleKey} (hk : r.keys.singleKey[j]? = some k)
    (hdown : (k.after e j).keyLevel ≠ 1) :
    (r.step e).calls j = [] ∨ (r.step e).calls j = [.longPress] ∧ (k.after e j).key3s = false := by
  have hold := h.down j k hk
  cases e with
  | intr gpioStatus =>
    by_cases hbit : gpioStatus &&& Keys.bit k.gpioId ≠ 0
    · rw [step_calls r _ hk, SingleKey.called, List.append_nil]
      by_cases h1 : k.keyLevel = 1
      · -- the key goes down
        have hafter : k.after (.intr gpioStatus) j = { k with key3s := true, keyLevel := 0 } := by
          rw [SingleKey.after, if_pos hbit, if_pos h1]
        exact .inl (if_pos ⟨h1, by rw [hafter]⟩)
      · have hafter : k.after (.intr gpioStatus) j = { k with key50ms := true } := by
          rw [SingleKey.after, if_pos hbit, if_neg h1]
        rw [if_neg fun hc => h1 hc.1, hafter]
        exact hold h1
    · exact h.down_idle hk (by rw [SingleKey.after, if_neg hbit]) rfl hdown
  | timer50ms i level =>
    by_cases hc : j = i ∧ k.key50ms = true
    · have hlevel := h.down_of_key50ms hk hc.2
      by_cases hl : level = true
      · have hafter : (k.after (.timer50ms i level) j).keyLevel = 1 := by
          rw [SingleKey.after, if_pos hc, if_pos hl]
        exact absurd hafter hdown
      · have hafter : k.after (.timer50ms i level) j = { k with key50ms := false } := by
          rw [SingleKey.after, if_pos hc, if_neg hl]
        rw [step_calls r _ hk, if_neg fun hc => hlevel hc.1, hafter, SingleKey.called, if_neg fun h => hl h.2.2.1,
          List.append_nil]
        exact hold hlevel
    · exact h.down_idle hk (by rw [SingleKey.after, if_neg hc])
        (by rw [SingleKey.called, if_neg fun h => hc ⟨h.1, h.2.1⟩]) hdown
  | timer3s i level =>
    by_cases hc : j = i ∧ k.key3s = true
    · obtain ⟨hlevel, hnil⟩ := h.down_of_key3s hk hc.2
      have hafter : k.after (.timer3s i level) j = { k with key3s := false } := by
        rw [SingleKey.after, if_pos hc]
      rw [step_calls r _ hk, if_neg fun hc => hlevel hc.1, hafter, hnil, SingleKey.called]
      split_ifs
      · exact .inr ⟨rfl, rfl⟩
      · exact .inl rfl
    · exact h.down_idle hk (by rw [SingleKey.after, if_neg hc])
        (by rw [SingleKey.called, if_neg fun h => hc ⟨h.1, h.2.1⟩]) hdown

theorem Inv.step {e : KeyEvent} (hone : r.OneAction e) : (r.step e).Inv := by
  have hkey {j : Nat} {k' : SingleKey} (hk' : (r.step e).keys.singleKey[j]? = some k') :
      ∃ k, r.keys.singleKey[j]? = some k ∧ k.after e j = k' :=
    Option.map_eq_some_iff.mp ((Keys.step_singleKey r.keys e j).symm.trans hk')
  refine ⟨hone, fun j k' hk' hup => ?_, fun j k' hk' hdown => ?_⟩
  · obtain ⟨k, hk, rfl⟩ := hkey hk'
    exact h.up_after e hk hup
  · obtain ⟨k, hk, rfl⟩ := hkey hk'
    exact h.down_after e hk hdown

end

/-- For any keys and any run after `key_init`: between two transitions from 1 to 0 at most
one call, exactly if no release is noticed after `long_press`. -/
theorem one_action_iff (ks : List (Nat × Bool × Bool)) (t : Nat → GpioIntType) (es : List KeyEvent) :
    Along step OneAction (start ks t) es ↔ Along step NoLateShort (start ks t) es :=
  Along.congr_of_keeps (I := Inv) (fun _ e h hno => h.step ((h.oneAction_iff e).mpr hno))
    (fun _ e h => h.oneAction_iff e) (inv_start ks t) es

/-- A key held past the 3 s and released. -/
theorem long_then_short : ¬ Along step OneAction (start [(13, true, true)] fun _ => .disable)
    [.intr 0x2000, .timer3s 0 false, .intr 0x2000, .timer50ms 0 true] := by
  rintro ⟨-, -, -, h, -⟩
  exact absurd (h 0) (by decide)

end PressRun

end Nonos
