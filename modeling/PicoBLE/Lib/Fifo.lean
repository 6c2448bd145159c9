import Mathlib.Tactic.Common

/-!
# Bounded queues

A queue that takes as much of its input as it has room for. `Passes` is what a
queue is for: between two states, what was in it and what went in is what came
out and what is in it, in this order. It composes, so it is shown for one
operation at a time.
-/

/-- At most `cap` items, the oldest first. -/
structure Fifo (α : Type) (cap : Nat) where
  items : List α
  le : items.length ≤ cap
deriving DecidableEq

namespace Fifo

variable {α : Type} {cap : Nat}

def empty : Fifo α cap := ⟨[], Nat.zero_le _⟩

/-- Take what there is room for, and say how much that was. -/
def enqueue (q : Fifo α cap) (xs : List α) : Fifo α cap × Nat :=
  let space := cap - q.items.length
  let len := if xs.length > space then space else xs.length
  (⟨q.items ++ xs.take len, by
    have hle := q.le
    have hlen : len ≤ space := by
      show (if xs.length > space then space else xs.length) ≤ space
      split <;> omega
    rw [List.length_append, List.length_take]
    omega⟩, len)

/-- Take `n` items off the front. -/
def dequeue (q : Fifo α cap) (n : Nat) : Fifo α cap :=
  ⟨q.items.drop n, by
    have hle := q.le
    rw [List.length_drop]
    omega⟩

@[simp] theorem dequeue_items (q : Fifo α cap) (n : Nat) : (q.dequeue n).items = q.items.drop n :=
  rfl

@[ext] theorem ext {q r : Fifo α cap} (h : q.items = r.items) : q = r := by
  cases q
  cases r
  subst h
  rfl

/-- From `q` to `r`, with `input` going in and `output` coming out. -/
def Passes (q : Fifo α cap) (input output : List α) (r : Fifo α cap) : Prop :=
  q.items ++ input = output ++ r.items

theorem Passes.refl (q : Fifo α cap) : q.Passes [] [] q := List.append_nil _

theorem Passes.trans {q r t : Fifo α cap} {i i' o o' : List α} (h : q.Passes i o r)
    (h' : r.Passes i' o' t) : q.Passes (i ++ i') (o ++ o') t := by
  unfold Passes at h h' ⊢
  calc q.items ++ (i ++ i') = o ++ r.items ++ i' := by rw [← List.append_assoc, h]
    _ = o ++ (o' ++ t.items) := by rw [List.append_assoc, h']
    _ = o ++ o' ++ t.items := (List.append_assoc ..).symm

/-- What is taken goes in. -/
theorem passes_enqueue (q : Fifo α cap) (xs : List α) :
    q.Passes (xs.take (q.enqueue xs).2) [] (q.enqueue xs).1 := rfl

/-- What is at the front comes out. -/
theorem passes_dequeue (q : Fifo α cap) (n : Nat) : q.Passes [] (q.items.take n) (q.dequeue n) := by
  unfold Passes
  rw [List.append_nil, dequeue_items, List.take_append_drop]

end Fifo
