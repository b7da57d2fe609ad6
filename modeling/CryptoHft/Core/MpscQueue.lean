import CryptoHft.Lib.Runs
import CryptoHft.Lib.Word64
import Mathlib.Logic.Function.Basic

/-!
# `MPSCTradeQueue`: the atomic steps

`include/core/trade_queue.hpp`, lines 105-198.  A bounded ring of `Capacity`
slots, each with a payload and a `sequence` word; producers claim a position by
a compare-exchange on `enqueue_pos_`, write the payload and publish it by
storing `pos + 1` into the slot's sequence; the only consumer releases a slot
by storing `dequeue_pos_ + Capacity`.

The calls are cut into their atomic accesses.  A producer thread is at one of
the program points of `PushPc`, the consumer at one of `PopPc`, and
`step` performs the next access of one thread, so that a run of `step` is one
interleaving under sequential consistency.  `compare_exchange_weak` may fail
spuriously: the label of a producer step says whether it does.

Two lists record the history and are read by no step: `pushed` holds the
payloads in the order of the successful compare-exchanges, `popped` what
`try_pop` returned.
-/

namespace CryptoHft
namespace Core

open Lib

universe u v

/-- One slot.  The payload is indeterminate until it is first written. -/
structure Slot (α : Type u) where
  sequence : Nat
  data : Option α

/--
Program points of `try_push`, named after the access that comes next, with the
locals that are live there: the load of `enqueue_pos_`, the load of
`slot.sequence` with the branch on `diff`, the compare-exchange, the write of
`slot.data` and the store that publishes it.
-/
inductive PushPc (α : Type u)
  | idle
  | loadPos (trade : α)
  | loadSeq (trade : α) (pos : Nat)
  | casPos (trade : α) (pos : Nat)
  | writeData (trade : α) (pos : Nat)
  | storeSeq (trade : α) (pos : Nat)
  | returned (trade : α) (result : Bool)

/--
Program points of `try_pop`: the load of `slot.sequence` with the branch on
`diff`, the read of `slot.data`, the store that releases the slot and the
increment of `dequeue_pos_`.
-/
inductive PopPc (α : Type u)
  | idle
  | loadSeq
  | readData
  | storeSeq (trade : Option α)
  | increment (trade : Option α)
  | returned (result : Option (Option α))

/-- The queue, its threads and the recorded history. -/
structure MpscQueue (ι : Type v) (α : Type u) where
  buffer : Nat → Slot α
  enqueuePos : Nat
  dequeuePos : Nat
  producers : ι → PushPc α
  consumer : PopPc α
  pushed : List α
  popped : List (Option α)

/-- Labels: which thread moves.  `spurious` is read by the compare-exchange only. -/
inductive QueueAction (ι : Type v) (α : Type u)
  | callPush (i : ι) (trade : α)
  | push (i : ι) (spurious : Bool)
  | callPop
  | pop

namespace MpscQueue

variable {ι : Type v} {α : Type u}

/-- The constructor: slot `i` starts with sequence `i`. -/
def empty : MpscQueue ι α where
  buffer i := ⟨i, none⟩
  enqueuePos := 0
  dequeuePos := 0
  producers _ := .idle
  consumer := .idle
  pushed := []
  popped := []

/-- Store a sequence word. -/
def storeSequence (q : MpscQueue ι α) (i seq : Nat) : MpscQueue ι α :=
  { q with buffer := Function.update q.buffer i { q.buffer i with sequence := seq } }

/-- Write a payload. -/
def writeSlot (q : MpscQueue ι α) (i : Nat) (trade : α) : MpscQueue ι α :=
  { q with buffer := Function.update q.buffer i { q.buffer i with data := some trade } }

section Producers

variable [DecidableEq ι]

/-- Move one producer. -/
def setProducer (q : MpscQueue ι α) (i : ι) (pc : PushPc α) : MpscQueue ι α :=
  { q with producers := Function.update q.producers i pc }

@[simp] theorem setProducer_self (q : MpscQueue ι α) (i : ι) (pc : PushPc α) :
    (q.setProducer i pc).producers i = pc := by
  simp [setProducer]

/-- The next atomic access of a producer inside `try_push`. -/
def pushStep (cap : PowTwo) (q : MpscQueue ι α) (i : ι) (spurious : Bool) :
    Option (MpscQueue ι α) :=
  match q.producers i with
  | .idle => none
  | .loadPos trade =>
      some (q.setProducer i (.loadSeq trade q.enqueuePos))
  | .loadSeq trade pos =>
      let diff := signedDiff (q.buffer (cap.index pos)).sequence pos
      if diff = 0 then
        some (q.setProducer i (.casPos trade pos))
      else if diff < 0 then
        some (q.setProducer i (.returned trade false))
      else
        some (q.setProducer i (.loadPos trade))
  | .casPos trade pos =>
      if q.enqueuePos = pos ∧ spurious = false then
        some { q.setProducer i (.writeData trade pos) with
          enqueuePos := wrap (pos + 1)
          pushed := q.pushed ++ [trade] }
      else
        some (q.setProducer i (.loadSeq trade q.enqueuePos))
  | .writeData trade pos =>
      some ((q.writeSlot (cap.index pos) trade).setProducer i (.storeSeq trade pos))
  | .storeSeq trade pos =>
      some ((q.storeSequence (cap.index pos) (wrap (pos + 1))).setProducer i
        (.returned trade true))
  | .returned _ _ =>
      some (q.setProducer i .idle)

/-- The next atomic access of the consumer inside `try_pop`. -/
def popStep (cap : PowTwo) (q : MpscQueue ι α) : Option (MpscQueue ι α) :=
  match q.consumer with
  | .idle => none
  | .loadSeq =>
      let diff := signedDiff (q.buffer (cap.index q.dequeuePos)).sequence
        (wrap (q.dequeuePos + 1))
      if diff < 0 then
        some { q with consumer := .returned none }
      else
        some { q with consumer := .readData }
  | .readData =>
      some { q with consumer := .storeSeq (q.buffer (cap.index q.dequeuePos)).data }
  | .storeSeq trade =>
      some { q.storeSequence (cap.index q.dequeuePos) (wrap (q.dequeuePos + cap.size)) with
        consumer := .increment trade }
  | .increment trade =>
      some { q with
        dequeuePos := wrap (q.dequeuePos + 1)
        consumer := .returned (some trade)
        popped := q.popped ++ [trade] }
  | .returned _ =>
      some { q with consumer := .idle }

/-- One atomic step of one thread, calls included. -/
def step (cap : PowTwo) (q : MpscQueue ι α) : QueueAction ι α → Option (MpscQueue ι α)
  | .callPush i trade =>
      match q.producers i with
      | .idle => some (q.setProducer i (.loadPos trade))
      | _ => none
  | .push i spurious => pushStep cap q i spurious
  | .callPop =>
      match q.consumer with
      | .idle => some { q with consumer := .loadSeq }
      | _ => none
  | .pop => popStep cap q

end Producers

/-- Positions released by the consumer: stored, not necessarily counted yet. -/
def released (q : MpscQueue ι α) : Nat :=
  match q.consumer with
  | .increment _ => q.dequeuePos + 1
  | _ => q.dequeuePos

/-- Positions whose payload the consumer has read. -/
def readCount (q : MpscQueue ι α) : Nat :=
  match q.consumer with
  | .storeSeq _ => q.dequeuePos + 1
  | .increment _ => q.dequeuePos + 1
  | _ => q.dequeuePos

/-- The queue as a list: claimed and not yet released. -/
def contents (q : MpscQueue ι α) : List α :=
  q.pushed.drop q.released

end MpscQueue

end Core
end CryptoHft
