import Mathlib.Data.List.Basic

/-!
# A first-in, first-out queue with its history

What a byte queue is for: everything accepted comes out once and in order.
The history is part of the state, and the law is a field, so there is no
queue that has lost, repeated or reordered anything.
-/

namespace Nonos.Spec

/-- A queue, with all it has accepted and delivered. -/
structure Fifo (α : Type) where
  accepted : List α
  delivered : List α
  items : List α
  law : delivered ++ items = accepted

namespace Fifo

variable {α : Type}

/-- The queue nothing has gone through. -/
def empty : Fifo α := ⟨[], [], [], rfl⟩

/-- Accept `xs`. -/
def enqueue (q : Fifo α) (xs : List α) : Fifo α where
  accepted := q.accepted ++ xs
  delivered := q.delivered
  items := q.items ++ xs
  law := by rw [← List.append_assoc, q.law]

/-- Deliver up to `n` of the oldest items. -/
def dequeue (q : Fifo α) (n : Nat) : Fifo α where
  accepted := q.accepted
  delivered := q.delivered ++ q.items.take n
  items := q.items.drop n
  law := by rw [List.append_assoc, List.take_append_drop, q.law]

end Fifo

end Nonos.Spec
