import Mathlib.Data.List.Basic

/-!
# The bounded FIFO

The sequential object behind a bounded queue: a list with the oldest element
first.  `tryPush` refuses exactly on a full list, `tryPop` takes the head.
Concurrent queues are related to it by showing that each of their atomic steps
is one of these two operations on the list they represent, or leaves that list
alone (`Moves`).
-/

namespace CryptoHft
namespace Lib
namespace BoundedFifo

universe u

variable {α : Type u} {cap : Nat} {xs ys : List α} {x : α}

/-- Append to a list that is shorter than the capacity, else refuse. -/
def tryPush (cap : Nat) (xs : List α) (x : α) : Bool × List α :=
  if xs.length < cap then (true, xs ++ [x]) else (false, xs)

/-- Take the oldest element. -/
def tryPop : List α → Option (α × List α)
  | [] => none
  | x :: xs => some (x, xs)

/-- One atomic change of a bounded FIFO, or none. -/
inductive Moves (cap : Nat) (xs : List α) : List α → Prop
  | stay : Moves cap xs xs
  | push {ys : List α} (x : α) (h : tryPush cap xs x = (true, ys)) : Moves cap xs ys
  | pop {ys : List α} (x : α) (h : tryPop xs = some (x, ys)) : Moves cap xs ys

theorem tryPush_of_lt
    (h : xs.length < cap) :
    tryPush cap xs x = (true, xs ++ [x]) := by
  simp [tryPush, h]

theorem tryPush_of_le
    (h : cap ≤ xs.length) :
    tryPush cap xs x = (false, xs) := by
  simp [tryPush, Nat.not_lt.mpr h]

theorem eq_nil_of_tryPop
    {q : List α}
    (h : tryPop q = none) :
    q = [] := by
  cases q with
  | nil =>
      rfl
  | cons =>
      cases h

theorem eq_cons_of_tryPop
    (h : tryPop xs = some (x, ys)) :
    xs = x :: ys := by
  cases xs with
  | nil =>
      cases h
  | cons head rest =>
      cases h
      rfl

end BoundedFifo
end Lib
end CryptoHft
