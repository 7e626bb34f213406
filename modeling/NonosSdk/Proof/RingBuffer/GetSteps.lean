import Mathlib.Logic.Function.Iterate
import NonosSdk.Proof.RingBuffer.Contents

/-!
# `user_rb_get` between its statements

Once `sz` is computed, what a `get` still does depends on the ring only
through the tail, the size and the cells to be read: `Mid s des len d` says,
statement by statement, that the call is on its way to delivering `d` bytes of
the ring `s`. Every statement keeps it (`Mid.step`), so the call ends with
those bytes read out and the tail moved by `d` (`Mid.result`). `GetAt` adds the
statements before `sz` is known; from each of its states the rest of the call
comes to `user_rb_get` (`GetAt.result`).
-/

namespace Nonos

/-- Statements left before the return, at most. -/
def GetPc.left : GetPc → Nat
  | .test => 11
  | .linSz => 7
  | .linCmp => 6
  | .linClamp => 5
  | .linCopy => 4
  | .wrapSz => 10
  | .wrapRz => 9
  | .wrapCmp => 8
  | .wrapClamp => 7
  | .split => 6
  | .copyAll => 4
  | .copyEnd => 5
  | .copyStart => 4
  | .tailAdd => 3
  | .tailCmp => 2
  | .tailSub => 1
  | .ret => 0

/-- The call from `g` to its return. -/
def finish (des : Nat) (len : Word) (g : GetState) : GetState := (getStep des len)^[11] g

/-- The count the call returns and the state it leaves. -/
def getResult (des : Nat) (len : Word) (g : GetState) : Word × RbState :=
  ((finish des len g).sz, (finish des len g).st)

section

variable {des : Nat} {len : Word}

theorem getStep_left (g : GetState) : (getStep des len g).pc.left ≤ g.pc.left - 1 := by
  obtain ⟨st, pc, sz, rz⟩ := g
  cases pc <;> simp only [getStep] <;> first | decide | (split_ifs <;> decide)

theorem iterate_left (g : GetState) (k : Nat) :
    ((getStep des len)^[k] g).pc.left ≤ g.pc.left - k := by
  induction k with
  | zero => exact Nat.le_refl _
  | succ k ih =>
    rw [Function.iterate_succ_apply']
    exact (getStep_left _).trans (by omega)

theorem finish_pc (g : GetState) : (finish des len g).pc = .ret := by
  have h : ((getStep des len)^[11] g).pc.left ≤ g.pc.left - 11 := iterate_left g 11
  have hl : g.pc.left ≤ 11 := by cases g.pc <;> decide
  have h0 : (finish des len g).pc.left = 0 := by unfold finish; omega
  cases hp : (finish des len g).pc <;> rw [hp] at h0 <;> first | rfl | cases h0

/-- A statement does not change what the call comes to. -/
theorem getResult_step (g : GetState) : getResult des len (getStep des len g) = getResult des len g := by
  have h : finish des len (getStep des len g) = finish des len g := by
    have hr : getStep des len (finish des len g) = finish des len g := by
      simp only [getStep, finish_pc]
    rw [← hr, finish, finish, ← Function.iterate_succ_apply, Function.iterate_succ_apply']
  rw [getResult, getResult, h]

theorem getResult_iterate (g : GetState) (k : Nat) :
    getResult des len ((getStep des len)^[k] g) = getResult des len g := by
  induction k with
  | zero => rfl
  | succ k ih => rw [Function.iterate_succ_apply', getResult_step, ih]

variable (st : RbState) (sz rz : Word)

theorem getResult_ret : getResult des len ⟨st, .ret, sz, rz⟩ = (sz, st) := rfl

theorem getResult_tailSub : getResult des len ⟨st, .tailSub, sz, rz⟩ =
    (sz, { st with rb.tail := st.rb.tail - st.rb.size }) := by
  rw [← getResult_step]; exact getResult_ret _ _ _

theorem getResult_tailCmp : getResult des len ⟨st, .tailCmp, sz, rz⟩ =
    (sz, { st with rb.tail := foldIndex st.rb.size st.rb.tail }) := by
  rw [← getResult_step]
  simp only [getStep, foldIndex]
  by_cases hc : st.rb.tail ≥ st.rb.size
  · rw [if_pos hc, if_pos hc, getResult_tailSub]
  · rw [if_neg hc, if_neg hc, getResult_ret]

theorem getResult_tailAdd : getResult des len ⟨st, .tailAdd, sz, rz⟩ =
    (sz, { st with rb.tail := foldIndex st.rb.size (st.rb.tail + sz) }) := by
  rw [← getResult_step]; exact getResult_tailCmp _ _ _

theorem getResult_copyStart : getResult des len ⟨st, .copyStart, sz, rz⟩ =
    (sz, { mem := st.mem.memcpy (des + rz.toNat) st.rb.pbuf (sz - rz).toNat,
           rb := { st.rb with tail := foldIndex st.rb.size (st.rb.tail + sz) } }) := by
  rw [← getResult_step]; exact getResult_tailAdd _ _ _

theorem getResult_linCopy : getResult des len ⟨st, .linCopy, sz, rz⟩ =
    (sz, { mem := st.mem.memcpy des (st.rb.pbuf + st.rb.tail.toNat) sz.toNat,
           rb := { st.rb with tail := foldIndex st.rb.size (st.rb.tail + sz) } }) := by
  rw [← getResult_step]; exact getResult_tailAdd _ _ _

/-- The linear branch to its end. -/
theorem getResult_linSz : getResult des len ⟨st, .linSz, sz, rz⟩ =
    (clamp (st.rb.head - st.rb.tail) len,
      { mem := st.mem.memcpy des (st.rb.pbuf + st.rb.tail.toNat)
          (clamp (st.rb.head - st.rb.tail) len).toNat,
        rb := { st.rb with
          tail := foldIndex st.rb.size (st.rb.tail + clamp (st.rb.head - st.rb.tail) len) } }) := by
  rw [← getResult_step]
  simp only [getStep]
  rw [← getResult_step]
  simp only [getStep, clamp]
  by_cases hc : st.rb.head - st.rb.tail > len
  · rw [if_pos hc, if_pos hc, ← getResult_step]
    simp only [getStep]
    rw [getResult_linCopy]
  · rw [if_neg hc, if_neg hc, getResult_linCopy]

end

/-- `d` bytes read out to `des`, and the tail moved on. -/
def RbState.take (s : RbState) (des d : Nat) : Word × RbState :=
  (BitVec.ofNat 32 d,
    { mem := s.mem.readOut s.rb.pbuf s.rb.size.toNat s.rb.tail.toNat des d,
      rb := { s.rb with tail := BitVec.ofNat 32 (wrap s.rb.size.toNat (s.rb.tail.toNat + d)) } })

/-- The same before the tail is folded back into the storage. -/
def RbState.moved (s : RbState) (des d : Nat) : RbState :=
  { mem := s.mem.readOut s.rb.pbuf s.rb.size.toNat s.rb.tail.toNat des d,
    rb := { s.rb with tail := BitVec.ofNat 32 (s.rb.tail.toNat + d) } }

/-- A call that will deliver `d` bytes of `s`, at each of its later statements. -/
def Mid (s : RbState) (des : Nat) (len : Word) (d : Nat) (g : GetState) : Prop :=
  let N := s.rb.size.toNat
  let T := s.rb.tail.toNat
  match g.pc with
  | .test | .linSz | .wrapSz => False
  | .linCmp => g.st = s ∧ min g.sz.toNat len.toNat = d ∧ T + d ≤ N
  | .linClamp => g.st = s ∧ len.toNat = d ∧ T + d ≤ N
  | .linCopy => g.st = s ∧ g.sz.toNat = d ∧ T + d ≤ N
  | .wrapRz => g.st = s ∧ min g.sz.toNat len.toNat = d
  | .wrapCmp => g.st = s ∧ min g.sz.toNat len.toNat = d ∧ g.rz.toNat = N - T
  | .wrapClamp => g.st = s ∧ len.toNat = d ∧ g.rz.toNat = N - T
  | .split => g.st = s ∧ g.sz.toNat = d ∧ g.rz.toNat = N - T
  | .copyAll => g.st = s ∧ g.sz.toNat = d ∧ T + d ≤ N
  | .copyEnd => g.st = s ∧ g.sz.toNat = d ∧ g.rz.toNat = N - T ∧ N < T + d
  | .copyStart =>
    g.st = { s with mem := s.mem.memcpy des (s.rb.pbuf + T) (N - T) } ∧ g.sz.toNat = d ∧
      g.rz.toNat = N - T ∧ N < T + d
  | .tailAdd => g.st = { s with mem := s.mem.readOut s.rb.pbuf N T des d } ∧ g.sz.toNat = d
  | .tailCmp => g.st = s.moved des d ∧ g.sz.toNat = d
  | .tailSub => g.st = s.moved des d ∧ g.sz.toNat = d ∧ N ≤ T + d
  | .ret => g.st = (s.take des d).2 ∧ g.sz.toNat = d

section

variable {s : RbState} {des d : Nat} {len : Word} {g : GetState}

theorem Mid.step (hs : s.rb.size.toNat ≤ 2 ^ 31) (ht : s.rb.tail.toNat < s.rb.size.toNat)
    (hd : d ≤ s.rb.size.toNat) (hm : Mid s des len d g) : Mid s des len d (getStep des len g) := by
  obtain ⟨st, pc, sz, rz⟩ := g
  cases pc
  case test | linSz | wrapSz => exact hm.elim
  case linCmp =>
    obtain ⟨rfl, h1, h2⟩ := hm
    simp only [getStep]
    split_ifs with hc
    · exact ⟨rfl, by bv_omega, h2⟩
    · exact ⟨rfl, by bv_omega, h2⟩
  case linClamp => exact hm
  case linCopy =>
    obtain ⟨rfl, rfl, h2⟩ := hm
    exact ⟨by simp only [getStep, Mem.readOut, if_pos h2], rfl⟩
  case wrapRz =>
    obtain ⟨rfl, h1⟩ := hm
    refine ⟨rfl, h1, ?_⟩
    simp only [getStep]; bv_omega
  case wrapCmp =>
    obtain ⟨rfl, h1, h2⟩ := hm
    simp only [getStep]
    split_ifs with hc
    · exact ⟨rfl, by bv_omega, h2⟩
    · exact ⟨rfl, by bv_omega, h2⟩
  case wrapClamp => exact hm
  case split =>
    obtain ⟨rfl, h1, h2⟩ := hm
    simp only [getStep]
    simp only at h1 h2 ht
    split_ifs with hc
    · exact ⟨rfl, h1, by bv_omega⟩
    · exact ⟨rfl, h1, h2, by bv_omega⟩
  case copyAll =>
    obtain ⟨rfl, rfl, h2⟩ := hm
    exact ⟨by simp only [getStep, Mem.readOut, if_pos h2], rfl⟩
  case copyEnd =>
    obtain ⟨rfl, h1, h2, h3⟩ := hm
    exact ⟨by simp only [getStep, h2], h1, h2, h3⟩
  case copyStart =>
    obtain ⟨rfl, h1, h2, h3⟩ := hm
    simp only at h1 h2
    have hsz : (sz - rz).toNat = d - (s.rb.size.toNat - s.rb.tail.toNat) := by bv_omega
    refine ⟨?_, h1⟩
    simp only [getStep, Mem.readOut, if_neg (Nat.not_le.mpr h3), hsz, h2]
  case tailAdd =>
    obtain ⟨rfl, h1⟩ := hm
    simp only at h1
    have ha : s.rb.tail + sz = BitVec.ofNat 32 (s.rb.tail.toNat + d) := by bv_omega
    exact ⟨by simp only [getStep, RbState.moved, ha], h1⟩
  case tailCmp =>
    obtain ⟨rfl, h1⟩ := hm
    simp only [getStep]
    split_ifs with hc
    · exact ⟨rfl, h1, by simp only [RbState.moved] at hc; bv_omega⟩
    · refine ⟨?_, h1⟩
      simp only [RbState.moved] at hc ⊢
      rw [RbState.take, wrap_of_lt (by bv_omega)]
  case tailSub =>
    obtain ⟨rfl, h1, h2⟩ := hm
    refine ⟨?_, h1⟩
    have ha : BitVec.ofNat 32 (s.rb.tail.toNat + d) - s.rb.size =
        BitVec.ofNat 32 (s.rb.tail.toNat + d - s.rb.size.toNat) := by bv_omega
    simp only [getStep, RbState.take, RbState.moved, wrap_of_ge h2, ha]
  case ret => exact hm

/-- A call on its way to `d` bytes delivers them. -/
theorem Mid.result (hs : s.rb.size.toNat ≤ 2 ^ 31) (ht : s.rb.tail.toNat < s.rb.size.toNat)
    (hd : d ≤ s.rb.size.toNat) (hm : Mid s des len d g) : getResult des len g = s.take des d := by
  have hi : ∀ k, Mid s des len d ((getStep des len)^[k] g) := by
    intro k
    induction k with
    | zero => exact hm
    | succ k ih => rw [Function.iterate_succ_apply']; exact ih.step hs ht hd
  have hf : Mid s des len d (finish des len g) := hi 11
  rw [Mid, finish_pc] at hf
  refine Prod.ext ?_ hf.1
  exact BitVec.eq_of_toNat_eq (by rw [getResult, hf.2, RbState.take]; bv_omega)

end

/-- Where a call of `user_rb_get` on `s` can be. -/
def GetAt (s : RbState) (des : Nat) (len : Word) (g : GetState) : Prop :=
  match g.pc with
  | .test => g.st = s
  | .linSz => g.st = s ∧ s.rb.tail.toNat ≤ s.rb.head.toNat
  | .wrapSz => g.st = s ∧ s.rb.head.toNat < s.rb.tail.toNat
  | _ => Mid s des len (s.rb.delivers len) g

section

variable {s : RbState} {des : Nat} {len : Word}

theorem Mid.getAt {g : GetState} (hm : Mid s des len (s.rb.delivers len) g) : GetAt s des len g := by
  revert hm
  obtain ⟨st, pc, sz, rz⟩ := g
  cases pc <;> exact fun hm => by first | exact hm.elim | exact hm

theorem GetAt.step {g : GetState} (hv : s.rb.Valid) (ha : GetAt s des len g) :
    GetAt s des len (getStep des len g) := by
  obtain ⟨hs, hh, ht⟩ := hv
  have hd : s.rb.delivers len ≤ s.rb.size.toNat :=
    (s.rb.delivers_le len).trans (back_lt ht hh).le
  obtain ⟨st, pc, sz, rz⟩ := g
  cases pc
  case test =>
    obtain rfl : st = s := ha
    simp only [getStep]
    split_ifs with hc
    · exact ⟨rfl, by bv_omega⟩
    · exact ⟨rfl, by bv_omega⟩
  case linSz =>
    obtain ⟨rfl, h1⟩ := ha
    have hu : (st.rb.head - st.rb.tail).toNat = st.rb.used := by
      unfold Ringbuf.used back; rw [if_pos h1]; bv_omega
    refine ⟨rfl, ?_, ?_⟩
    · simp only [getStep, hu, Ringbuf.delivers, Nat.min_comm]
    · have := st.rb.delivers_le len
      bv_omega
  case wrapSz =>
    obtain ⟨rfl, h1⟩ := ha
    simp only at hs hh ht h1
    have hu : (st.rb.size + st.rb.head - st.rb.tail).toNat = st.rb.used := by
      unfold Ringbuf.used back; rw [if_neg (by omega)]; bv_omega
    exact ⟨rfl, by simp only [getStep, hu, Ringbuf.delivers, Nat.min_comm]⟩
  all_goals
    refine Mid.getAt (Mid.step hs ht hd ?_)
    exact ha

/-- A call stays in these states. -/
theorem GetAt.iterate {g : GetState} (hv : s.rb.Valid) (ha : GetAt s des len g) (k : Nat) :
    GetAt s des len ((getStep des len)^[k] g) := by
  induction k with
  | zero => exact ha
  | succ k ih => rw [Function.iterate_succ_apply']; exact ih.step hv

/-- Not interrupted any more, the statements come to the whole call. -/
theorem GetAt.result {g : GetState} (hv : s.rb.Valid) (ha : GetAt s des len g) :
    getResult des len g = userRbGet s des len := by
  have hd : s.rb.delivers len ≤ s.rb.size.toNat :=
    (s.rb.delivers_le len).trans hv.used_lt.le
  have hf : GetAt s des len (finish des len g) := ha.iterate hv 11
  have hm : Mid s des len (s.rb.delivers len) (finish des len g) := by
    rw [GetAt, finish_pc] at hf; exact hf
  have hr := hm.result hv.size_le hv.tail_lt hd
  rw [finish, getResult_iterate] at hr
  rw [userRbGet_eq hv]
  exact hr

end

end Nonos
