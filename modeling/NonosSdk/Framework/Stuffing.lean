import Mathlib.Data.List.Basic
import Mathlib.Tactic.Common

/-!
# Byte stuffing

A message is sent as a frame: a start symbol, its symbols, a stop symbol. A
symbol of the message that is one of the three special ones is sent as the
escape symbol and its image under `flip`, so that no special symbol but the
escape stands between the start and the stop of a frame.

A proper prefix of a frame has no stop symbol (`stop_not_mem_take`), so a frame
that was cut off is noise to a reader that waits for one. `stream` is what a
channel carries: frames, noise before each, and noise at the end; a frame or a
prefix of one sent at its end gives a stream again (`stream_concat`,
`stream_noise`).
-/

namespace Nonos

/-- Three different special symbols, and what stands for one inside a frame. -/
structure Stuffing (α : Type) where
  start : α
  stop : α
  esc : α
  flip : α → α
  start_ne_stop : start ≠ stop
  esc_ne_stop : esc ≠ stop
  flip_ne_stop : flip start ≠ stop ∧ flip stop ≠ stop ∧ flip esc ≠ stop

namespace Stuffing

variable {α : Type} [DecidableEq α] (S : Stuffing α)

/-- One of the three. -/
def Special (b : α) : Prop := b = S.esc ∨ b = S.start ∨ b = S.stop

instance (b : α) : Decidable (S.Special b) := inferInstanceAs (Decidable (_ ∨ _))

/-- What is sent for one symbol. -/
def stuff (b : α) : List α := if S.Special b then [S.esc, S.flip b] else [b]

/-- What is sent for a message. -/
def frame (m : List α) : List α := S.start :: (m.flatMap S.stuff ++ [S.stop])

@[simp] theorem frame_ne_nil (m : List α) : S.frame m ≠ [] := List.cons_ne_nil _ _

theorem stop_not_mem_stuff (b : α) : S.stop ∉ S.stuff b := by
  obtain ⟨h1, h2, h3⟩ := S.flip_ne_stop
  unfold stuff
  split
  · rename_i hs
    have hf : S.flip b ≠ S.stop := by
      rcases hs with rfl | rfl | rfl <;> assumption
    simpa using ⟨S.esc_ne_stop.symm, hf.symm⟩
  · rename_i hs
    simpa using fun h => hs (Or.inr (Or.inr h.symm))

/-- A frame that was cut off has no stop symbol. -/
theorem stop_not_mem_take (m : List α) {k : Nat} (h : k < (S.frame m).length) :
    S.stop ∉ (S.frame m).take k := by
  have hlast : (S.frame m).take k = (S.start :: m.flatMap S.stuff).take k := by
    rw [frame, ← List.cons_append, List.take_append_of_le_length]
    simp only [frame, List.length_cons, List.length_append, List.length_nil] at h ⊢
    omega
  rw [hlast]
  intro hmem
  have := List.mem_of_mem_take hmem
  rw [List.mem_cons, List.mem_flatMap] at this
  rcases this with he | ⟨b, -, hb⟩
  · exact S.start_ne_stop he.symm
  · exact S.stop_not_mem_stuff b hb

/-- Frames, each after some noise, and noise at the end. -/
def stream (segs : List (List α × List α)) (noise : List α) : List α :=
  segs.flatMap (fun seg => seg.1 ++ S.frame seg.2) ++ noise

/-- The noise of a stream has no stop symbol. -/
def Quiet (segs : List (List α × List α)) (noise : List α) : Prop :=
  (∀ seg ∈ segs, S.stop ∉ seg.1) ∧ S.stop ∉ noise

theorem stream_cons (j m : List α) (segs : List (List α × List α)) (noise : List α) :
    S.stream ((j, m) :: segs) noise = j ++ S.frame m ++ S.stream segs noise := by
  simp [stream]

/-- A frame sent at the end. -/
theorem stream_concat (segs : List (List α × List α)) (noise m : List α) :
    S.stream segs noise ++ S.frame m = S.stream (segs ++ [(noise, m)]) [] := by
  simp [stream]

/-- A part of a frame sent at the end. -/
theorem stream_noise (segs : List (List α × List α)) (noise xs : List α) :
    S.stream segs noise ++ xs = S.stream segs (noise ++ xs) := by
  simp [stream]

variable {S} {segs : List (List α × List α)} {noise : List α}

omit [DecidableEq α] in
theorem Quiet.concat (h : S.Quiet segs noise) (m : List α) : S.Quiet (segs ++ [(noise, m)]) [] := by
  refine ⟨fun seg hseg => ?_, by simp⟩
  rcases List.mem_append.mp hseg with hs | hs
  · exact h.1 seg hs
  · rw [List.mem_singleton] at hs
    subst hs
    exact h.2

theorem Quiet.cut (h : S.Quiet segs noise) (m : List α) {k : Nat} (hk : k < (S.frame m).length) :
    S.Quiet segs (noise ++ (S.frame m).take k) :=
  ⟨h.1, fun hmem => (List.mem_append.mp hmem).elim h.2 (S.stop_not_mem_take m hk)⟩

omit [DecidableEq α] in
theorem Quiet.tail {seg : List α × List α} (h : S.Quiet (seg :: segs) noise) : S.Quiet segs noise :=
  ⟨fun s hs => h.1 s (List.mem_cons_of_mem _ hs), h.2⟩

end Stuffing

end Nonos
