import CryptoHft.Core.MpscQueue
import Mathlib.Tactic

/-!
# The ring invariant of `MPSCTradeQueue`

Positions are split by two numbers: everything below `released` has left the
queue, everything below `pushed.length` has been claimed.

* A claimed, unreleased position `p` has sequence `p` while its producer is
  still writing, and sequence `p + 1` together with the right payload once it
  is published.
* A free position `p` of the current window has sequence `p`.

The window `[released, released + Capacity)` meets every slot exactly once, so
these two clauses describe the whole buffer (`Ring`).  `Ring` changes in four
ways only: a position is claimed, written, published or released; each is one
lemma.  The program points add what a thread knows about its own position
(`PushOk`, `PopOk`), and `Inv` puts the pieces together.

The words do not wrap as long as the number of pushes and the capacity add up
to at most `2 ^ 63`; the invariant is proved for runs within that bound.
-/

namespace CryptoHft
namespace Core

open Lib

universe u v

variable {ι : Type v} {α : Type u}

/-- The buffer, seen through the claimed payloads and the released count. -/
structure Ring (cap : PowTwo) (buffer : Nat → Slot α) (pushed : List α)
    (released : Nat) : Prop where
  released_le : released ≤ pushed.length
  room : pushed.length ≤ released + cap.size
  free : ∀ p, pushed.length ≤ p → p < released + cap.size →
    (buffer (cap.index p)).sequence = p
  claimed : ∀ p, released ≤ p → p < pushed.length →
    (buffer (cap.index p)).sequence = p ∨
      ((buffer (cap.index p)).sequence = p + 1 ∧
        (buffer (cap.index p)).data = pushed[p]?)

/-- A position that is claimed and whose producer has not published it yet. -/
structure Owned (cap : PowTwo) (buffer : Nat → Slot α) (pushed : List α)
    (released : Nat) (trade : α) (pos : Nat) : Prop where
  le : released ≤ pos
  payload : pushed[pos]? = some trade
  sequence : (buffer (cap.index pos)).sequence = pos

/-- A position whose payload can be read. -/
structure Published (cap : PowTwo) (buffer : Nat → Slot α) (pushed : List α)
    (pos : Nat) : Prop where
  lt : pos < pushed.length
  sequence : (buffer (cap.index pos)).sequence = pos + 1
  data : (buffer (cap.index pos)).data = pushed[pos]?

section RingLemmas

variable {cap : PowTwo} {buffer : Nat → Slot α} {pushed : List α} {released : Nat}

theorem getElem?_append_of_some
    {xs : List α} {p : Nat} {x y : α}
    (h : xs[p]? = some x) :
    (xs ++ [y])[p]? = some x := by
  obtain ⟨hp, _⟩ := List.getElem?_eq_some_iff.mp h
  rw [List.getElem?_append_left hp, h]

theorem Owned.lt
    {trade : α} {pos : Nat}
    (h : Owned cap buffer pushed released trade pos) :
    pos < pushed.length :=
  (List.getElem?_eq_some_iff.mp h.payload).1

theorem Owned.index_ne
    {trade trade' : α} {pos pos' : Nat}
    (hring : Ring cap buffer pushed released)
    (h : Owned cap buffer pushed released trade pos)
    (h' : Owned cap buffer pushed released trade' pos')
    (hne : pos ≠ pos') :
    cap.index pos' ≠ cap.index pos := by
  intro heq
  have hroom := hring.room
  have hlt := h.lt
  have hlt' := h'.lt
  exact hne (cap.index_inj_window h.le (by omega) h'.le (by omega) heq.symm)

theorem Published.index_ne
    {trade : α} {pos pos' : Nat}
    (hring : Ring cap buffer pushed released)
    (hle : released ≤ pos')
    (hpub : Published cap buffer pushed pos')
    (h : Owned cap buffer pushed released trade pos) :
    cap.index pos' ≠ cap.index pos := by
  intro heq
  have hroom := hring.room
  have hlt := h.lt
  have hlt' := hpub.lt
  have hpos : pos' = pos :=
    cap.index_inj_window hle (by omega) h.le (by omega) heq
  have hseq := hpub.sequence
  rw [hpos, h.sequence] at hseq
  omega

/-- Claiming the next free position. -/
theorem Ring.claim
    (hring : Ring cap buffer pushed released)
    (hroom : pushed.length < released + cap.size)
    (trade : α) :
    Ring cap buffer (pushed ++ [trade]) released := by
  refine ⟨?_, ?_, ?_, ?_⟩
  · have := hring.released_le
    simp only [List.length_append, List.length_singleton]
    omega
  · simp only [List.length_append, List.length_singleton]
    omega
  · intro p hp hp'
    simp only [List.length_append, List.length_singleton] at hp
    exact hring.free p (by omega) hp'
  · intro p hp hp'
    simp only [List.length_append, List.length_singleton] at hp'
    by_cases hlast : p = pushed.length
    · left
      exact hring.free p (by omega) (by omega)
    · rw [List.getElem?_append_left (by omega)]
      exact hring.claimed p hp (by omega)

/-- Replacing the slot of an owned position by a slot that is still claimed. -/
theorem Ring.update_owned
    {trade : α} {pos : Nat} {slot : Slot α}
    (hring : Ring cap buffer pushed released)
    (hown : Owned cap buffer pushed released trade pos)
    (hslot : slot.sequence = pos ∨
      (slot.sequence = pos + 1 ∧ slot.data = pushed[pos]?)) :
    Ring cap (Function.update buffer (cap.index pos) slot) pushed released := by
  have hlt := hown.lt
  have hle := hown.le
  have hroom := hring.room
  refine ⟨hring.released_le, hring.room, ?_, ?_⟩
  · intro p hp hp'
    have hne : cap.index p ≠ cap.index pos := by
      intro heq
      have := cap.index_inj_window (by omega) hp' hle (by omega) heq
      omega
    rw [Function.update_of_ne hne]
    exact hring.free p hp hp'
  · intro p hp hp'
    by_cases heq : cap.index p = cap.index pos
    · have hpos : p = pos :=
        cap.index_inj_window hp (by omega) hle (by omega) heq
      rw [heq, Function.update_self, hpos]
      exact hslot
    · rw [Function.update_of_ne heq]
      exact hring.claimed p hp hp'

/-- Releasing the oldest position. -/
theorem Ring.release
    (hring : Ring cap buffer pushed released)
    (hlt : released < pushed.length) :
    Ring cap
      (Function.update buffer (cap.index released)
        { buffer (cap.index released) with sequence := released + cap.size })
      pushed (released + 1) := by
  have hroom := hring.room
  have hpos := cap.size_pos
  refine ⟨by omega, by omega, ?_, ?_⟩
  · intro p hp hp'
    by_cases heq : cap.index p = cap.index released
    · have hround := cap.add_size_le_of_index_eq (by omega) heq.symm
      rw [heq, Function.update_self]
      show released + cap.size = p
      omega
    · have hne : p ≠ released + cap.size := by
        intro h
        apply heq
        rw [h, PowTwo.index_eq_mod, PowTwo.index_eq_mod, Nat.add_mod_right]
      rw [Function.update_of_ne heq]
      exact hring.free p hp (by omega)
  · intro p hp hp'
    have hne : cap.index p ≠ cap.index released := by
      intro heq
      have hle : released ≤ p := by omega
      have := cap.index_inj_window hle (by omega) le_rfl (by omega) heq
      omega
    rw [Function.update_of_ne hne]
    exact hring.claimed p (by omega) hp'

/-- A slot that shows its own position to a producer is not a full one. -/
theorem Ring.lt_of_sequence_eq
    (hring : Ring cap buffer pushed released)
    (hcap : 2 ≤ cap.size)
    {pos : Nat}
    (hpos : pos ≤ pushed.length)
    (hseq : (buffer (cap.index pos)).sequence = pos) :
    pos < released + cap.size := by
  by_contra hge
  -- the slot is held by the position one or more rounds earlier
  obtain ⟨p, hp, hp', hidx⟩ := cap.exists_window released pos
  have hround := cap.add_size_le_of_index_eq (by omega) hidx
  rw [← hidx] at hseq
  rcases hring.claimed p hp (by omega) with h | ⟨h, _⟩ <;> omega

/-- A slot whose sequence is behind a producer's position is not released yet. -/
theorem Ring.full_of_sequence_lt
    (hring : Ring cap buffer pushed released)
    {pos : Nat}
    (hpos : pos ≤ pushed.length)
    (hseq : (buffer (cap.index pos)).sequence < pos) :
    pushed.length = released + cap.size := by
  have hroom := hring.room
  have hsize := cap.size_pos
  by_contra hne
  obtain ⟨p, hp, hp', hidx⟩ := cap.exists_window released pos
  rw [← hidx] at hseq
  have hge : p ≤ (buffer (cap.index p)).sequence := by
    by_cases hlt : p < pushed.length
    · rcases hring.claimed p hp hlt with h | ⟨h, _⟩ <;> omega
    · rw [hring.free p (by omega) hp']
  have hround := cap.add_size_le_of_index_eq (by omega) hidx
  omega

/-- Sequence words stay within one round of the claimed positions. -/
theorem Ring.sequence_lt
    (hring : Ring cap buffer pushed released)
    (pos : Nat) :
    (buffer (cap.index pos)).sequence < pushed.length + cap.size := by
  have hle := hring.released_le
  have hsize := cap.size_pos
  obtain ⟨p, hp, hp', hidx⟩ := cap.exists_window released pos
  rw [← hidx]
  by_cases hlt : p < pushed.length
  · rcases hring.claimed p hp hlt with h | ⟨h, _⟩ <;> omega
  · rw [hring.free p (by omega) hp']
    omega

end RingLemmas

/-- What a producer knows at each program point. -/
def PushOk (cap : PowTwo) (buffer : Nat → Slot α) (pushed : List α) (released : Nat) :
    PushPc α → Prop
  | .loadSeq _ pos => pos ≤ pushed.length
  | .casPos _ pos => pos ≤ pushed.length ∧ pos < released + cap.size
  | .writeData trade pos => Owned cap buffer pushed released trade pos
  | .storeSeq trade pos =>
      Owned cap buffer pushed released trade pos ∧
        (buffer (cap.index pos)).data = some trade
  | _ => True

/-- What the consumer knows at each program point. -/
def PopOk (cap : PowTwo) (buffer : Nat → Slot α) (pushed : List α) (dequeuePos : Nat) :
    PopPc α → Prop
  | .readData => Published cap buffer pushed dequeuePos
  | .storeSeq trade =>
      Published cap buffer pushed dequeuePos ∧ trade = pushed[dequeuePos]?
  | .increment trade =>
      dequeuePos < pushed.length ∧ trade = pushed[dequeuePos]?
  | _ => True

/-- The position a producer has claimed and not yet published. -/
def PushPc.owned : PushPc α → Option Nat
  | .writeData _ pos => some pos
  | .storeSeq _ pos => some pos
  | _ => none

/-- The invariant of the queue and its threads. -/
structure MpscQueue.Inv (cap : PowTwo) (q : MpscQueue ι α) : Prop where
  enqueue : q.enqueuePos = q.pushed.length
  dequeue : q.dequeuePos = q.popped.length
  ring : Ring cap q.buffer q.pushed q.released
  producers : ∀ i, PushOk cap q.buffer q.pushed q.released (q.producers i)
  distinct : ∀ i j p,
    (q.producers i).owned = some p → (q.producers j).owned = some p → i = j
  consumer : PopOk cap q.buffer q.pushed q.dequeuePos q.consumer
  popped : q.popped = (q.pushed.take q.popped.length).map some

section ThreadLemmas

variable {cap : PowTwo} {buffer : Nat → Slot α} {pushed : List α} {released : Nat}

theorem PushOk.owned
    {pc : PushPc α} {pos : Nat}
    (h : PushOk cap buffer pushed released pc)
    (hpc : pc.owned = some pos) :
    ∃ trade, Owned cap buffer pushed released trade pos := by
  cases pc with
  | writeData trade p =>
      simp only [PushPc.owned, Option.some.injEq] at hpc
      subst hpc
      exact ⟨trade, h⟩
  | storeSeq trade p =>
      simp only [PushPc.owned, Option.some.injEq] at hpc
      subst hpc
      exact ⟨trade, h.1⟩
  | _ =>
      simp [PushPc.owned] at hpc

/-- A claim by another producer keeps what a producer knows. -/
theorem PushOk.claim
    {pc : PushPc α}
    (h : PushOk cap buffer pushed released pc)
    (trade : α) :
    PushOk cap buffer (pushed ++ [trade]) released pc := by
  cases pc with
  | loadSeq t pos =>
      simp only [PushOk, List.length_append, List.length_singleton] at h ⊢
      omega
  | casPos t pos =>
      simp only [PushOk, List.length_append, List.length_singleton] at h ⊢
      omega
  | writeData t pos =>
      exact ⟨h.le, getElem?_append_of_some h.payload, h.sequence⟩
  | storeSeq t pos =>
      exact ⟨⟨h.1.le, getElem?_append_of_some h.1.payload, h.1.sequence⟩, h.2⟩
  | _ =>
      trivial

/-- A change of a slot that a producer does not own keeps what it knows. -/
theorem PushOk.update
    {pc : PushPc α} {i : Nat} {slot : Slot α}
    (h : PushOk cap buffer pushed released pc)
    (hne : ∀ pos, pc.owned = some pos → cap.index pos ≠ i) :
    PushOk cap (Function.update buffer i slot) pushed released pc := by
  cases pc with
  | writeData t pos =>
      have hi := hne pos rfl
      refine ⟨h.le, h.payload, ?_⟩
      rw [Function.update_of_ne hi]
      exact h.sequence
  | storeSeq t pos =>
      have hi := hne pos rfl
      refine ⟨⟨h.1.le, h.1.payload, ?_⟩, ?_⟩
      · rw [Function.update_of_ne hi]
        exact h.1.sequence
      · rw [Function.update_of_ne hi]
        exact h.2
  | _ =>
      exact h

/-- Releasing a position keeps what producers of other positions know. -/
theorem PushOk.release
    {pc : PushPc α}
    (h : PushOk cap buffer pushed released pc)
    (hne : ∀ pos, pc.owned = some pos → pos ≠ released) :
    PushOk cap buffer pushed (released + 1) pc := by
  cases pc with
  | casPos t pos =>
      simp only [PushOk] at h ⊢
      omega
  | writeData t pos =>
      have hpos := hne pos rfl
      have hle := h.le
      exact ⟨by omega, h.payload, h.sequence⟩
  | storeSeq t pos =>
      have hpos := hne pos rfl
      have hle := h.1.le
      exact ⟨⟨by omega, h.1.payload, h.1.sequence⟩, h.2⟩
  | _ =>
      exact h

theorem Published.claim
    {pos : Nat}
    (h : Published cap buffer pushed pos)
    (trade : α) :
    Published cap buffer (pushed ++ [trade]) pos := by
  refine ⟨?_, h.sequence, ?_⟩
  · have := h.lt
    simp only [List.length_append, List.length_singleton]
    omega
  · rw [List.getElem?_append_left h.lt]
    exact h.data

theorem Published.update
    {pos i : Nat} {slot : Slot α}
    (h : Published cap buffer pushed pos)
    (hne : cap.index pos ≠ i) :
    Published cap (Function.update buffer i slot) pushed pos := by
  refine ⟨h.lt, ?_, ?_⟩
  · rw [Function.update_of_ne hne]
    exact h.sequence
  · rw [Function.update_of_ne hne]
    exact h.data

theorem PopOk.claim
    {pc : PopPc α} {dequeuePos : Nat}
    (h : PopOk cap buffer pushed dequeuePos pc)
    (trade : α) :
    PopOk cap buffer (pushed ++ [trade]) dequeuePos pc := by
  cases pc with
  | readData =>
      exact Published.claim h trade
  | storeSeq t =>
      refine ⟨h.1.claim trade, ?_⟩
      rw [List.getElem?_append_left h.1.lt]
      exact h.2
  | increment t =>
      refine ⟨?_, ?_⟩
      · have := h.1
        simp only [List.length_append, List.length_singleton]
        omega
      · rw [List.getElem?_append_left h.1]
        exact h.2
  | _ =>
      trivial

theorem PopOk.update
    {pc : PopPc α} {dequeuePos i : Nat} {slot : Slot α}
    (h : PopOk cap buffer pushed dequeuePos pc)
    (hne : (∀ t, pc ≠ .increment t) → Published cap buffer pushed dequeuePos →
      cap.index dequeuePos ≠ i) :
    PopOk cap (Function.update buffer i slot) pushed dequeuePos pc := by
  cases pc with
  | readData =>
      exact Published.update h (hne (by simp) h)
  | storeSeq t =>
      exact ⟨h.1.update (hne (by simp) h.1), h.2⟩
  | _ =>
      exact h

end ThreadLemmas

namespace MpscQueue

section Steps

variable [DecidableEq ι] {cap : PowTwo} {q q' : MpscQueue ι α}

omit [DecidableEq ι] in
theorem released_eq_dequeuePos
    (h : ∀ t, q.consumer ≠ .increment t) :
    q.released = q.dequeuePos := by
  unfold released
  split
  · rename_i t ht
    exact absurd ht (h t)
  · rfl

omit [DecidableEq ι] in
theorem inv_empty (cap : PowTwo) :
    Inv cap (empty : MpscQueue ι α) := by
  refine ⟨rfl, rfl, ⟨le_rfl, ?_, ?_, ?_⟩, ?_, ?_, ?_, rfl⟩
  · simp [empty]
  · intro p _ hp
    have hp' : p < cap.size := by simpa [empty, released] using hp
    show cap.index p = p
    rw [PowTwo.index_eq_mod, Nat.mod_eq_of_lt hp']
  · intro p _ hp
    simp [empty] at hp
  · intro i
    trivial
  · intro i j p hi
    simp [empty, PushPc.owned] at hi
  · trivial

/-- Moving one producer to a program point whose facts hold. -/
theorem Inv.setProducer
    (h : Inv cap q)
    {i : ι} {pc : PushPc α}
    (hpc : PushOk cap q.buffer q.pushed q.released pc)
    (howned : ∀ p, pc.owned = some p → ∀ j, j ≠ i → (q.producers j).owned ≠ some p) :
    Inv cap (q.setProducer i pc) := by
  refine ⟨h.enqueue, h.dequeue, h.ring, ?_, ?_, h.consumer, h.popped⟩
  · intro j
    show PushOk cap q.buffer q.pushed q.released (Function.update q.producers i pc j)
    by_cases hj : j = i
    · rw [hj, Function.update_self]
      exact hpc
    · rw [Function.update_of_ne hj]
      exact h.producers j
  · intro j k p hj hk
    by_cases hji : j = i
    · by_cases hki : k = i
      · rw [hji, hki]
      · subst hji
        simp only [MpscQueue.setProducer, Function.update_self,
          Function.update_of_ne hki] at hj hk
        exact absurd hk (howned p hj k hki)
    · by_cases hki : k = i
      · subst hki
        simp only [MpscQueue.setProducer, Function.update_self,
          Function.update_of_ne hji] at hj hk
        exact absurd hj (howned p hk j hji)
      · simp only [MpscQueue.setProducer, Function.update_of_ne hji,
          Function.update_of_ne hki] at hj hk
        exact h.distinct j k p hj hk

/-- A successful compare-exchange. -/
theorem Inv.claim
    (h : Inv cap q)
    {i : ι} {trade : α}
    (hroom : q.pushed.length < q.released + cap.size)
    (hbound : q.pushed.length + 1 < 2 ^ 64) :
    Inv cap
      { q.setProducer i (.writeData trade q.pushed.length) with
        enqueuePos := wrap (q.pushed.length + 1)
        pushed := q.pushed ++ [trade] } := by
  have hclaimed : Inv cap
      { q with
        enqueuePos := wrap (q.pushed.length + 1)
        pushed := q.pushed ++ [trade] } := by
    refine ⟨?_, h.dequeue, h.ring.claim hroom trade, ?_, h.distinct,
      h.consumer.claim trade, ?_⟩
    · simp [wrap_of_lt hbound]
    · intro j
      exact (h.producers j).claim trade
    · have hle : q.popped.length ≤ q.pushed.length := by
        have := congrArg List.length h.popped
        simp only [List.length_map, List.length_take] at this
        omega
      show q.popped = ((q.pushed ++ [trade]).take q.popped.length).map some
      rw [List.take_append_of_le_length hle]
      exact h.popped
  have hown : Owned cap q.buffer (q.pushed ++ [trade]) q.released trade
      q.pushed.length :=
    ⟨h.ring.released_le, by simp, h.ring.free _ le_rfl hroom⟩
  have hpc : PushOk cap q.buffer (q.pushed ++ [trade]) q.released
      (.writeData trade q.pushed.length) := hown
  refine hclaimed.setProducer (i := i) hpc ?_
  intro p hp j _ hj
  obtain ⟨_, hjown⟩ := (h.producers j).owned hj
  have hlt := hjown.lt
  simp only [PushPc.owned, Option.some.injEq] at hp
  omega

/-- A write of a producer into the slot it owns, and its move to the next point. -/
theorem Inv.update_owned
    (h : Inv cap q)
    {i : ι} {trade : α} {pos : Nat} {slot : Slot α} {pc : PushPc α}
    (hi : (q.producers i).owned = some pos)
    (hown : Owned cap q.buffer q.pushed q.released trade pos)
    (hslot : slot.sequence = pos ∨
      (slot.sequence = pos + 1 ∧ slot.data = q.pushed[pos]?))
    (hpc : PushOk cap (Function.update q.buffer (cap.index pos) slot)
      q.pushed q.released pc)
    (howned : ∀ p, pc.owned = some p → p = pos) :
    Inv cap
      (({ q with buffer := Function.update q.buffer (cap.index pos) slot }).setProducer
        i pc) := by
  have hother : ∀ j, j ≠ i → ∀ p, (q.producers j).owned = some p →
      cap.index p ≠ cap.index pos := by
    intro j hj p hp
    obtain ⟨_, hjown⟩ := (h.producers j).owned hp
    refine hown.index_ne h.ring hjown ?_
    intro heq
    exact hj (h.distinct j i p hp (heq ▸ hi))
  refine ⟨h.enqueue, h.dequeue, h.ring.update_owned hown hslot, ?_, ?_, ?_, h.popped⟩
  · intro j
    show PushOk cap (Function.update q.buffer (cap.index pos) slot) q.pushed q.released
      (Function.update q.producers i pc j)
    by_cases hj : j = i
    · rw [hj, Function.update_self]
      exact hpc
    · rw [Function.update_of_ne hj]
      exact (h.producers j).update (hother j hj)
  · intro j k p hj hk
    have hback : ∀ m, (Function.update q.producers i pc m).owned = some p →
        (q.producers m).owned = some p := by
      intro m hm
      by_cases hmi : m = i
      · subst hmi
        rw [Function.update_self] at hm
        rw [howned p hm]
        exact hi
      · rwa [Function.update_of_ne hmi] at hm
    exact h.distinct j k p (hback j hj) (hback k hk)
  · refine h.consumer.update ?_
    intro hinc hpub
    exact hpub.index_ne h.ring (released_eq_dequeuePos hinc).le hown

omit [DecidableEq ι] in
/-- The words a producer compares are below `2 ^ 63` within the bound. -/
theorem Inv.signedDiff_eq
    (h : Inv cap q)
    (hbound : q.pushed.length + cap.size ≤ 2 ^ 63)
    {pos : Nat}
    (hpos : pos ≤ q.pushed.length) :
    signedDiff (q.buffer (cap.index pos)).sequence pos =
      ((q.buffer (cap.index pos)).sequence : Int) - pos := by
  have hseq := h.ring.sequence_lt pos
  have hsize := cap.size_pos
  exact Lib.signedDiff_eq (by omega) (by omega)

/-- Every atomic access of a producer keeps the invariant. -/
theorem Inv.pushStep
    (h : Inv cap q)
    (hcap : 2 ≤ cap.size)
    (hbound : q.pushed.length + cap.size ≤ 2 ^ 63)
    {i : ι} {spurious : Bool}
    (hstep : q.pushStep cap i spurious = some q') :
    Inv cap q' := by
  have hpc := h.producers i
  unfold MpscQueue.pushStep at hstep
  split at hstep
  · cases hstep
  · cases hstep
    exact h.setProducer h.enqueue.le (by simp [PushPc.owned])
  · rename_i trade pos hi
    rw [hi] at hpc
    have hpos : pos ≤ q.pushed.length := hpc
    have hdiff := h.signedDiff_eq hbound hpos
    dsimp only at hstep
    rw [hdiff] at hstep
    split_ifs at hstep with hzero hneg
    · cases hstep
      have hseq : (q.buffer (cap.index pos)).sequence = pos := by omega
      exact h.setProducer ⟨hpos, h.ring.lt_of_sequence_eq hcap hpos hseq⟩
        (by simp [PushPc.owned])
    · cases hstep
      exact h.setProducer trivial (by simp [PushPc.owned])
    · cases hstep
      exact h.setProducer trivial (by simp [PushPc.owned])
  · rename_i trade pos hi
    rw [hi] at hpc
    obtain ⟨_, hlt⟩ := hpc
    split_ifs at hstep with hcas
    · cases hstep
      have hpos : pos = q.pushed.length := hcas.1.symm.trans h.enqueue
      subst hpos
      exact h.claim hlt (by omega)
    · cases hstep
      exact h.setProducer h.enqueue.le (by simp [PushPc.owned])
  · rename_i trade pos hi
    rw [hi] at hpc
    have hown : Owned cap q.buffer q.pushed q.released trade pos := hpc
    cases hstep
    refine h.update_owned (by rw [hi]; rfl) hown (Or.inl hown.sequence) ?_ ?_
    · refine ⟨⟨hown.le, hown.payload, ?_⟩, ?_⟩
      · rw [Function.update_self]
        exact hown.sequence
      · rw [Function.update_self]
    · intro p hp
      exact (Option.some.inj hp).symm
  · rename_i trade pos hi
    rw [hi] at hpc
    obtain ⟨hown, hdata⟩ := hpc
    have hwrap : wrap (pos + 1) = pos + 1 := by
      have := hown.lt
      exact wrap_of_lt (by omega)
    cases hstep
    refine h.update_owned (by rw [hi]; rfl) hown (Or.inr ⟨hwrap, ?_⟩) trivial ?_
    · exact hdata.trans hown.payload.symm
    · intro p hp
      simp [PushPc.owned] at hp
  · cases hstep
    exact h.setProducer trivial (by simp [PushPc.owned])

omit [DecidableEq ι] in
/-- Moving the consumer between program points that release nothing. -/
theorem Inv.setConsumer
    (h : Inv cap q)
    {pc : PopPc α}
    (hold : ∀ t, q.consumer ≠ .increment t)
    (hnew : ∀ t, pc ≠ .increment t)
    (hpc : PopOk cap q.buffer q.pushed q.dequeuePos pc) :
    Inv cap { q with consumer := pc } := by
  have hrel : released { q with consumer := pc } = q.released := by
    rw [released_eq_dequeuePos hold]
    exact released_eq_dequeuePos hnew
  refine ⟨h.enqueue, h.dequeue, ?_, ?_, h.distinct, hpc, h.popped⟩
  · rw [hrel]
    exact h.ring
  · intro i
    rw [hrel]
    exact h.producers i

omit [DecidableEq ι] in
/-- The oldest position shows `dequeue_pos_ + 1` only once it is published. -/
theorem Inv.published
    (h : Inv cap q)
    (hinc : ∀ t, q.consumer ≠ .increment t)
    (hseq : q.dequeuePos + 1 ≤ (q.buffer (cap.index q.dequeuePos)).sequence) :
    Published cap q.buffer q.pushed q.dequeuePos := by
  have hrel := released_eq_dequeuePos hinc
  have hle := h.ring.released_le
  have hsize := cap.size_pos
  by_cases hlt : q.dequeuePos < q.pushed.length
  · rcases h.ring.claimed q.dequeuePos hrel.le hlt with hc | ⟨hc, hdata⟩
    · omega
    · exact ⟨hlt, hc, hdata⟩
  · have hfree := h.ring.free q.dequeuePos (by omega) (by omega)
    omega

omit [DecidableEq ι] in
/-- The store that releases the oldest position. -/
theorem Inv.release
    (h : Inv cap q)
    {trade : Option α}
    (hc : q.consumer = .storeSeq trade) :
    Inv cap
      { q with
        buffer := Function.update q.buffer (cap.index q.dequeuePos)
          { q.buffer (cap.index q.dequeuePos) with sequence := q.dequeuePos + cap.size }
        consumer := .increment trade } := by
  have hpop := h.consumer
  rw [hc] at hpop
  obtain ⟨hpub, htrade⟩ := hpop
  have hrel : q.released = q.dequeuePos :=
    released_eq_dequeuePos (by simp [hc])
  have hring := h.ring
  rw [hrel] at hring
  refine ⟨h.enqueue, h.dequeue, hring.release hpub.lt, ?_, h.distinct,
    ⟨hpub.lt, htrade⟩, h.popped⟩
  intro i
  show PushOk cap _ q.pushed (q.dequeuePos + 1) (q.producers i)
  have hpush := h.producers i
  have hindex : ∀ p, (q.producers i).owned = some p →
      cap.index p ≠ cap.index q.dequeuePos := by
    intro p hp
    obtain ⟨_, hown⟩ := hpush.owned hp
    exact (hpub.index_ne h.ring hrel.le hown).symm
  rw [hrel] at hpush
  refine (hpush.release ?_).update hindex
  intro p hp heq
  exact hindex p hp (congrArg cap.index heq)

omit [DecidableEq ι] in
/-- Every atomic access of the consumer keeps the invariant. -/
theorem Inv.popStep
    (h : Inv cap q)
    (hcap : 2 ≤ cap.size)
    (hbound : q.pushed.length + cap.size ≤ 2 ^ 63)
    (hstep : q.popStep cap = some q') :
    Inv cap q' := by
  have hle := h.ring.released_le
  unfold MpscQueue.popStep at hstep
  split at hstep
  · cases hstep
  · rename_i hc
    have hinc : ∀ t, q.consumer ≠ .increment t := by simp [hc]
    have hrel := released_eq_dequeuePos hinc
    have hseq := h.ring.sequence_lt q.dequeuePos
    have hwrap : wrap (q.dequeuePos + 1) = q.dequeuePos + 1 :=
      wrap_of_lt (by omega)
    dsimp only at hstep
    rw [hwrap] at hstep
    split_ifs at hstep with hneg
    · cases hstep
      exact h.setConsumer hinc (by simp) trivial
    · cases hstep
      refine h.setConsumer hinc (by simp) (h.published hinc ?_)
      rw [Lib.signedDiff_eq (by omega) (by omega)] at hneg
      omega
  · rename_i hc
    have hpop := h.consumer
    rw [hc] at hpop
    have hpub : Published cap q.buffer q.pushed q.dequeuePos := hpop
    cases hstep
    exact h.setConsumer (by simp [hc]) (by simp) ⟨hpub, hpub.data⟩
  · rename_i trade hc
    have hrel := released_eq_dequeuePos (q := q) (by simp [hc])
    have hwrap : wrap (q.dequeuePos + cap.size) = q.dequeuePos + cap.size :=
      wrap_of_lt (by omega)
    cases hstep
    rw [hwrap]
    exact h.release hc
  · rename_i trade hc
    have hpop := h.consumer
    rw [hc] at hpop
    obtain ⟨hlt, htrade⟩ := hpop
    have hrel : q.released = q.dequeuePos + 1 := by simp [released, hc]
    have hwrap : wrap (q.dequeuePos + 1) = q.dequeuePos + 1 :=
      wrap_of_lt (by omega)
    cases hstep
    rw [hwrap]
    have hring := h.ring
    rw [hrel] at hring
    refine ⟨h.enqueue, ?_, hring, ?_, h.distinct, trivial, ?_⟩
    · simp [h.dequeue]
    · intro i
      have hpush := h.producers i
      rw [hrel] at hpush
      exact hpush
    · have hdeq := h.dequeue
      rw [hdeq] at hlt htrade
      have hsnoc : q.pushed.take (q.popped.length + 1) =
          q.pushed.take q.popped.length ++ q.pushed[q.popped.length]?.toList :=
        List.take_add_one
      simp only [List.length_append, List.length_singleton]
      rw [hsnoc, List.map_append, ← h.popped, htrade,
        List.getElem?_eq_getElem hlt]
      rfl
  · rename_i hc
    cases hstep
    exact h.setConsumer (by simp [hc]) (by simp) trivial

/-- Every step of every thread keeps the invariant. -/
theorem Inv.step
    (h : Inv cap q)
    (hcap : 2 ≤ cap.size)
    (hbound : q.pushed.length + cap.size ≤ 2 ^ 63)
    {a : QueueAction ι α}
    (hstep : q.step cap a = some q') :
    Inv cap q' := by
  cases a with
  | callPush i trade =>
      simp only [MpscQueue.step] at hstep
      split at hstep
      · cases hstep
        exact h.setProducer trivial (by simp [PushPc.owned])
      · cases hstep
  | push i spurious =>
      exact h.pushStep hcap hbound hstep
  | callPop =>
      simp only [MpscQueue.step] at hstep
      split at hstep
      · rename_i hc
        cases hstep
        exact h.setConsumer (by simp [hc]) (by simp) trivial
      · cases hstep
  | pop =>
      exact h.popStep hcap hbound hstep

end Steps

end MpscQueue

end Core
end CryptoHft
