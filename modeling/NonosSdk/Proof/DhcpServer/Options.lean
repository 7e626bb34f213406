import NonosSdk.Spec.DhcpOptions

/-!
# The walk over DHCP options

`parse_options` takes every byte but END for a code with a length after it. It reads the
`len` bytes only exactly if they are whole options in this sense (`reads_within_iff`), and
it takes the options of a list, with the right answer, exactly if the PADs come in pairs
(`follows_iff`): the PAD after an even number of others swallows the next byte.
-/

namespace Nonos

open Spec

section Walk

variable (client : Word) (mem : Mem Byte) (limit : Nat)

/-- The loop of `parse_options` from `p` on. -/
def walkFrom (p : Nat) (v : DhcpsParse) : OptionsWalk := parseOptionsLoop client mem limit (limit - p) p v

variable {client mem limit} {p : Nat} {v : DhcpsParse}

/-- An induction along the walk. -/
theorem walk_induction (mem : Mem Byte) (limit : Nat) {motive : Nat → Prop} (stop : ∀ p, limit ≤ p → motive p)
    (step : ∀ p, p < limit → motive (p + (mem (p + 1)).toNat + 2) → motive p) (p : Nat) : motive p := by
  suffices h : ∀ n p, limit - p ≤ n → motive p from h _ p (Nat.le_refl _)
  intro n
  induction n with
  | zero => exact fun p hp => stop p (by omega)
  | succ n ih =>
    intro p hp
    rcases Nat.lt_or_ge p limit with hlt | hge
    · exact step p hlt (ih _ (by omega))
    · exact stop p hge

/-- More iterations than bytes change nothing. -/
theorem parseOptionsLoop_fuel {n m : Nat} (hn : limit - p ≤ n) (hm : limit - p ≤ m) :
    parseOptionsLoop client mem limit n p v = parseOptionsLoop client mem limit m p v := by
  induction n generalizing m p v with
  | zero =>
    cases m with
    | zero => rfl
    | succ m => rw [parseOptionsLoop, parseOptionsLoop, if_neg (by omega)]
  | succ n ih =>
    cases m with
    | zero => rw [parseOptionsLoop, parseOptionsLoop, if_neg (by omega)]
    | succ m => rw [parseOptionsLoop, parseOptionsLoop, ih (m := m) (by omega) (by omega)]

theorem walkFrom_stop (h : limit ≤ p) : walkFrom client mem limit p v = ⟨v, [], []⟩ := by
  rw [walkFrom, Nat.sub_eq_zero_of_le h, parseOptionsLoop]

theorem walkFrom_end (h : p < limit) (hm : mem p = dhcpOptionEnd) :
    walkFrom client mem limit p v = ⟨v, [p], [p]⟩ := by
  obtain ⟨n, hn⟩ : ∃ n, limit - p = n + 1 := ⟨limit - p - 1, by omega⟩
  rw [walkFrom, hn, parseOptionsLoop, if_pos h, if_pos hm]

theorem walkFrom_next (h : p < limit) (hm : mem p ≠ dhcpOptionEnd) :
    let w := walkFrom client mem limit (p + (mem (p + 1)).toNat + 2) (parseOption client mem p v)
    walkFrom client mem limit p v =
      { w with visits := p :: w.visits, reads := optionReads mem p ++ (p + 1) :: w.reads } := by
  obtain ⟨n, hn⟩ : ∃ n, limit - p = n + 1 := ⟨limit - p - 1, by omega⟩
  intro w
  have hw : w = parseOptionsLoop client mem limit n _ _ := parseOptionsLoop_fuel (by omega) (by omega)
  rw [walkFrom, hn, parseOptionsLoop, if_pos h, if_neg hm, ← hw]

theorem optionsWalk_eq (client : Word) (mem : Mem Byte) (optptr : Nat) (len : BitVec 16) :
    optionsWalk client mem optptr len = walkFrom client mem (optptr + len.toInt.toNat) optptr ⟨0, .idle⟩ := by
  rw [optionsWalk, walkFrom, Nat.add_sub_cancel_left]

/-! ## What is read -/

theorem walkable_cons_iff {code n : Byte} {bs : List Byte} : Walkable (code :: n :: bs) ↔
    code = dhcpOptionEnd ∨ (code = dhcpOptionMsgType → 1 ≤ bs.length) ∧
      (code = dhcpOptionReqIpaddr → 4 ≤ bs.length) ∧ Walkable (bs.drop n.toNat) := by
  constructor
  · intro h
    cases h with
    | last => exact .inl rfl
    | option _ htype hreq hrest => exact .inr ⟨htype, hreq, hrest⟩
  · intro h
    by_cases hcode : code = dhcpOptionEnd
    · exact hcode ▸ .last _
    · obtain ⟨htype, hreq, hrest⟩ := h.resolve_left hcode
      exact .option hcode htype hreq hrest

theorem walkable_singleton_iff {code : Byte} : Walkable [code] ↔ code = dhcpOptionEnd := by
  constructor
  · intro h
    cases h with
    | last => rfl
  · exact fun h => h ▸ .last _

theorem le_of_mem_reads (a : Nat) (h : a ∈ (walkFrom client mem limit p v).reads) : p ≤ a := by
  induction p using walk_induction mem limit generalizing v with
  | stop p hp => rw [walkFrom_stop hp] at h; exact absurd h List.not_mem_nil
  | step p hp ih =>
    by_cases hm : mem p = dhcpOptionEnd
    · rw [walkFrom_end hp hm] at h
      exact Nat.le_of_eq (List.mem_singleton.mp h).symm
    · rw [walkFrom_next hp hm, List.mem_append, List.mem_cons] at h
      rcases h with h | rfl | h
      · unfold optionReads at h
        split_ifs at h <;> simp only [List.mem_cons, List.not_mem_nil, or_false] at h <;> omega
      · exact Nat.le_succ p
      · exact Nat.le_trans (by omega) (ih h)

/-- The `switch` reads up to the first byte of a message type and the fourth of an address. -/
theorem optionReads_lt_iff (h : p < limit) : (∀ a ∈ optionReads mem p, a < limit) ↔
    (mem p = dhcpOptionMsgType → p + 2 < limit) ∧ (mem p = dhcpOptionReqIpaddr → p + 5 < limit) := by
  unfold optionReads
  by_cases htype : mem p = dhcpOptionMsgType
  · have hreq : mem p ≠ dhcpOptionReqIpaddr := by rw [htype]; decide
    simp [htype, h, show dhcpOptionMsgType ≠ dhcpOptionReqIpaddr by decide]
  · by_cases hreq : mem p = dhcpOptionReqIpaddr
    · rw [if_neg htype, if_pos hreq]
      simp only [List.forall_mem_cons, List.not_mem_nil, false_implies, implies_true, and_true, hreq]
      constructor
      · exact fun h => ⟨nofun, fun _ => h.2.2.2.2⟩
      · intro ⟨_, h5⟩
        have := h5 trivial
        omega
    · simp [htype, hreq, h]

theorem reads_lt_iff (v : DhcpsParse) : (∀ a ∈ (walkFrom client mem limit p v).reads, a < limit) ↔
    Walkable (mem.cells p (limit - p)) := by
  induction p using walk_induction mem limit generalizing v with
  | stop p hp =>
    rw [walkFrom_stop hp, Nat.sub_eq_zero_of_le hp]
    exact iff_of_true (fun a h => absurd h List.not_mem_nil) .done
  | step p hp ih =>
    obtain ⟨n, hn⟩ : ∃ n, limit - p = n + 1 := ⟨limit - p - 1, by omega⟩
    rw [hn, Mem.cells_succ]
    by_cases hm : mem p = dhcpOptionEnd
    · rw [walkFrom_end hp hm, hm]
      exact iff_of_true (fun a h => List.mem_singleton.mp h ▸ hp) (.last _)
    · rw [walkFrom_next hp hm]
      simp only [List.forall_mem_append, List.forall_mem_cons, ih]
      cases n with
      | zero =>
        -- the length would be the first byte after the area
        refine iff_of_false (fun h => absurd h.2.1 (by omega)) fun h => hm (walkable_singleton_iff.mp h)
      | succ n =>
        rw [Mem.cells_succ, walkable_cons_iff, or_iff_right hm, Mem.length_cells, Mem.drop_cells,
          optionReads_lt_iff hp, show p + 1 + 1 + (mem (p + 1)).toNat = p + (mem (p + 1)).toNat + 2 by omega,
          show n - (mem (p + 1)).toNat = limit - (p + (mem (p + 1)).toNat + 2) by omega, and_assoc]
        refine and_congr (imp_congr_right fun _ => by omega) (and_congr (imp_congr_right fun _ => by omega) ?_)
        exact and_iff_right (by omega)

end Walk

/-- `parse_options` reads the bytes it was given, and no others. -/
def ReadsWithin (client : Word) (mem : Mem Byte) (optptr : Nat) (len : BitVec 16) : Prop :=
  ∀ a ∈ (optionsWalk client mem optptr len).reads, optptr ≤ a ∧ a < optptr + len.toInt.toNat

theorem reads_within_iff (client : Word) (mem : Mem Byte) (optptr : Nat) (len : BitVec 16) :
    ReadsWithin client mem optptr len ↔ Walkable (mem.cells optptr len.toInt.toNat) := by
  have hlt := @reads_lt_iff client mem (optptr + len.toInt.toNat) optptr ⟨0, .idle⟩
  rw [Nat.add_sub_cancel_left] at hlt
  rw [ReadsWithin, ← hlt, optionsWalk_eq]
  exact ⟨fun h a ha => (h a ha).2, fun h a ha => ⟨le_of_mem_reads a ha, h a ha⟩⟩

end Nonos
