import CryptoHft.Core.MpscInvariant
import CryptoHft.Lib.BoundedFifo

/-!
# `MPSCTradeQueue` is a bounded FIFO

The invariant of `MpscInvariant` is turned into statements about whole runs.

* `contents_step`: seen as the list of claimed, unreleased payloads, every
  atomic step appends one payload to a list that is not full, removes the head,
  or changes nothing.
* `mpsc_bounded_fifo`: this, and what `try_pop` returned is a prefix of what the
  successful compare-exchanges claimed; a payload is overwritten only after it
  has been read; and `try_push` refuses only on a full ring.

The last part needs room for one more round below `2 ^ 63`: a producer that
holds an old position compares it with a sequence word of the newest round, and
`stale_producer_refused` shows the comparison turning negative on an empty ring
once such a word reaches `2 ^ 63`.
-/

namespace CryptoHft
namespace Core

open Lib

universe u v

variable {ι : Type v} {α : Type u} [DecidableEq ι]

namespace MpscQueue

/-- `Capacity` claimed positions are not yet released by the consumer. -/
def Full (cap : PowTwo) (q : MpscQueue ι α) : Prop :=
  q.pushed.length = q.released + cap.size

/-- Runs of the queue from its constructed state. -/
def Reaches (cap : PowTwo) (q : MpscQueue ι α) : Prop :=
  Reachable (Steps (MpscQueue.step cap)) MpscQueue.empty q

section Runs

variable {cap : PowTwo} {q q' : MpscQueue ι α} {a : QueueAction ι α}

/-- A step appends at most one payload to the claimed ones. -/
theorem step_pushed
    (hstep : q.step cap a = some q') :
    q'.pushed = q.pushed ∨
      ∃ trade, q'.pushed = q.pushed ++ [trade] ∧ q'.consumer = q.consumer ∧
        q'.dequeuePos = q.dequeuePos := by
  cases a with
  | callPush i trade =>
      simp only [MpscQueue.step] at hstep
      split at hstep <;> cases hstep
      exact Or.inl rfl
  | push i spurious =>
      simp only [MpscQueue.step, MpscQueue.pushStep] at hstep
      split at hstep
      · cases hstep
      · cases hstep
        exact Or.inl rfl
      · split_ifs at hstep <;> cases hstep <;> exact Or.inl rfl
      · rename_i trade pos hi
        split_ifs at hstep
        · cases hstep
          exact Or.inr ⟨trade, rfl, rfl, rfl⟩
        · cases hstep
          exact Or.inl rfl
      · cases hstep
        exact Or.inl rfl
      · cases hstep
        exact Or.inl rfl
      · cases hstep
        exact Or.inl rfl
  | callPop =>
      simp only [MpscQueue.step] at hstep
      split at hstep <;> cases hstep
      exact Or.inl rfl
  | pop =>
      simp only [MpscQueue.step, MpscQueue.popStep] at hstep
      split at hstep
      · cases hstep
      · split_ifs at hstep <;> cases hstep <;> exact Or.inl rfl
      · cases hstep
        exact Or.inl rfl
      · cases hstep
        exact Or.inl rfl
      · cases hstep
        exact Or.inl rfl
      · cases hstep
        exact Or.inl rfl

theorem length_pushed_le
    (hstep : q.step cap a = some q') :
    q.pushed.length ≤ q'.pushed.length := by
  rcases step_pushed hstep with h | ⟨trade, h, _⟩ <;> simp [h]

/-- The ring invariant holds along every run within the bound. -/
theorem Reaches.inv
    (hreach : Reaches cap q)
    (hcap : 2 ≤ cap.size)
    (hbound : q.pushed.length + cap.size ≤ 2 ^ 63) :
    Inv cap q := by
  refine Reachable.invariant_below
    (B := fun q => q.pushed.length + cap.size ≤ 2 ^ 63)
    (inv_empty cap) ?_ ?_ hreach hbound
  · intro s b t hstep ht
    have := length_pushed_le hstep
    omega
  · intro s b t hs hstep ht
    have := length_pushed_le hstep
    exact hs.step hcap (by omega) hstep

/-- The released count grows only when a claimed position is released. -/
theorem Inv.step_released
    (h : Inv cap q)
    (hbound : q.pushed.length + cap.size ≤ 2 ^ 63)
    (hstep : q.step cap a = some q') :
    q'.released = q.released ∨
      (q'.released = q.released + 1 ∧ q.released < q.pushed.length ∧
        q'.pushed = q.pushed) := by
  cases a with
  | callPush i trade =>
      simp only [MpscQueue.step] at hstep
      split at hstep <;> cases hstep
      exact Or.inl rfl
  | push i spurious =>
      simp only [MpscQueue.step, MpscQueue.pushStep] at hstep
      split at hstep <;> (try split_ifs at hstep) <;> cases hstep <;> exact Or.inl rfl
  | callPop =>
      simp only [MpscQueue.step] at hstep
      split at hstep
      · rename_i hc
        cases hstep
        simp [released, hc]
      · cases hstep
  | pop =>
      simp only [MpscQueue.step, MpscQueue.popStep] at hstep
      split at hstep
      · cases hstep
      · rename_i hc
        split_ifs at hstep <;> cases hstep <;> simp [released, hc]
      · rename_i hc
        cases hstep
        simp [released, hc]
      · rename_i trade hc
        have hpop := h.consumer
        rw [hc] at hpop
        have hlt := hpop.1.lt
        cases hstep
        right
        simpa [released, hc, storeSequence] using hlt
      · rename_i trade hc
        have hle := h.ring.released_le
        have hsize := cap.size_pos
        have hrel : q.released = q.dequeuePos + 1 := by simp [released, hc]
        have hwrap : wrap (q.dequeuePos + 1) = q.dequeuePos + 1 :=
          wrap_of_lt (by omega)
        cases hstep
        left
        rw [hrel]
        exact hwrap
      · rename_i hc
        cases hstep
        simp [released, hc]

/-- Each atomic step is one operation of a bounded FIFO on the contents, or none. -/
theorem Inv.contents_step
    (h : Inv cap q)
    (h' : Inv cap q')
    (hbound : q.pushed.length + cap.size ≤ 2 ^ 63)
    (hstep : q.step cap a = some q') :
    BoundedFifo.Moves cap.size q.contents q'.contents := by
  have hle := h.ring.released_le
  rcases h.step_released hbound hstep with hrel | ⟨hrel, hlt, hpushed⟩
  · rcases step_pushed hstep with hpushed | ⟨trade, hpushed, _⟩
    · rw [contents, contents, hrel, hpushed]
      exact BoundedFifo.Moves.stay
    · have hroom := h'.ring.room
      rw [hpushed, hrel] at hroom
      simp only [List.length_append, List.length_singleton] at hroom
      refine BoundedFifo.Moves.push trade ?_
      rw [BoundedFifo.tryPush_of_lt (by simp only [contents, List.length_drop]; omega),
        contents, contents, hrel, hpushed, List.drop_append_of_le_length hle]
  · refine BoundedFifo.Moves.pop q.pushed[q.released] ?_
    rw [contents, contents, hrel, hpushed, List.drop_eq_getElem_cons hlt]
    rfl

omit [DecidableEq ι] in
/-- A producer about to write finds every earlier payload of its slot read. -/
theorem Inv.overwritten_is_read
    (h : Inv cap q)
    {i : ι} {trade : α} {pos p : Nat}
    (hi : q.producers i = .writeData trade pos)
    (hp : p < pos)
    (hslot : cap.index p = cap.index pos) :
    p < q.readCount := by
  have hpc := h.producers i
  rw [hi] at hpc
  have hown : Owned cap q.buffer q.pushed q.released trade pos := hpc
  have hround := cap.add_size_le_of_index_eq hp hslot
  have hlt := hown.lt
  have hroom := h.ring.room
  have hread : q.released ≤ q.readCount := by
    unfold released readCount
    split <;> simp_all
    split <;> omega
  omega

/-- `try_push` decides to return `false` on a full ring only. -/
theorem Inv.full_of_refused
    (h : Inv cap q)
    (hbound : q.pushed.length + cap.size ≤ 2 ^ 63)
    {i : ι} {spurious : Bool} {trade : α}
    (hstep : q.step cap (.push i spurious) = some q')
    (hret : q'.producers i = .returned trade false) :
    Full cap q := by
  have hpc := h.producers i
  simp only [MpscQueue.step, MpscQueue.pushStep] at hstep
  split at hstep
  · cases hstep
  · cases hstep
    simp at hret
  · rename_i t pos hi
    rw [hi] at hpc
    have hpos : pos ≤ q.pushed.length := hpc
    rw [h.signedDiff_eq hbound hpos] at hstep
    split_ifs at hstep with hzero hneg
    · cases hstep
      simp at hret
    · exact h.ring.full_of_sequence_lt hpos (by omega)
    · cases hstep
      simp at hret
  · split_ifs at hstep
    · cases hstep
      simp at hret
    · cases hstep
      simp at hret
  · cases hstep
    simp at hret
  · cases hstep
    simp at hret
  · cases hstep
    simp at hret

/--
Within the bound, `try_pop` returns the claimed payloads in claiming order, each
once and unchanged; no payload is overwritten before it is read; `try_push`
refuses only while `Capacity` claimed positions are unreleased; and every step is an
operation of a bounded FIFO on the claimed, unreleased payloads, or none.

A payload is claimed before it can be read.  `try_pop` may therefore answer that the queue is
empty although a push has returned true, as long as the producer of an older payload has claimed
its position and not yet published it.
-/
theorem mpsc_bounded_fifo
    (cap : PowTwo)
    (hcap : 2 ≤ cap.size)
    (q : MpscQueue ι α)
    (hreach : Reaches cap q)
    (hbound : q.pushed.length + cap.size ≤ 2 ^ 63) :
    q.popped <+: q.pushed.map some ∧
    (∀ i trade pos, q.producers i = .writeData trade pos →
      ∀ p, p < pos → cap.index p = cap.index pos → p < q.readCount) ∧
    (∀ i spurious q' trade, q.step cap (.push i spurious) = some q' →
      q'.producers i = .returned trade false → Full cap q) ∧
    ∀ a q', q.step cap a = some q' → q'.pushed.length + cap.size ≤ 2 ^ 63 →
      BoundedFifo.Moves cap.size q.contents q'.contents := by
  have h := hreach.inv hcap hbound
  refine ⟨?_, ?_, ?_, ?_⟩
  · rw [h.popped, List.map_take]
    exact List.take_prefix _ _
  · intro i trade pos hi p hp hslot
    exact h.overwritten_is_read hi hp hslot
  · intro i spurious q' trade hstep hret
    exact h.full_of_refused hbound hstep hret
  · intro a q' hstep hbound'
    have hreach' : Reaches cap q' := hreach.tail hstep
    exact h.contents_step (hreach'.inv hcap hbound') hbound hstep

/-- A ring of two slots after one push and one pop by two threads. -/
theorem mpsc_bounded_fifo_one_round :
    ∃ q : MpscQueue Unit Nat,
      Reaches ⟨1⟩ q ∧ q.pushed = [7] ∧ q.popped = [some 7] ∧
        q.popped <+: q.pushed.map some := by
  have hsome : (runActions (MpscQueue.step ⟨1⟩) (empty : MpscQueue Unit Nat)
      [.callPush () 7, .push () false, .push () false, .push () false, .push () false,
        .push () false, .callPop, .pop, .pop, .pop, .pop]).isSome = true := by
    decide
  obtain ⟨q, hq⟩ := Option.isSome_iff_exists.mp hsome
  have hpushed : q.pushed = [7] ∧ q.popped = [some 7] := by
    cases hq
    exact ⟨rfl, rfl⟩
  have hreach : Reaches ⟨1⟩ q := Reachable.of_runActions _ Reachable.init hq
  refine ⟨q, hreach, hpushed.1, hpushed.2, ?_⟩
  exact (mpsc_bounded_fifo ⟨1⟩ (by decide) q hreach (by rw [hpushed.1]; decide)).1

end Runs

section StaleProducer

/-!
## A stale producer on a ring of two slots

Thread `false` loads `enqueue_pos_` once, at `0`, and then sleeps.  Thread
`true` and the consumer push and pop one payload at a time, so that the ring
never holds more than one.  `rounds n` is the state after `n` rounds.
-/

/-- The ring of two slots after `n` rounds. -/
def roundBuffer (n : Nat) (i : Nat) : Slot Unit :=
  if i < 2 then
    ⟨if i = n % 2 then n else n + 1, if i < n then some () else none⟩
  else
    ⟨i, none⟩

/-- A state of the two threads and the consumer, with thread `false` asleep. -/
def withSleeper (buffer : Nat → Slot Unit) (enq deq : Nat) (pc : PushPc Unit)
    (consumer : PopPc Unit) (n m : Nat) : MpscQueue Bool Unit where
  buffer := buffer
  enqueuePos := enq
  dequeuePos := deq
  producers i := if i then pc else .loadSeq () 0
  consumer := consumer
  pushed := List.replicate n ()
  popped := List.replicate m (some ())

/-- The state after `n` rounds. -/
def rounds (n : Nat) : MpscQueue Bool Unit :=
  withSleeper (roundBuffer n) n n .idle .idle n n

/-- Reached along a run whose states all have a free slot. -/
def ReachedWithRoom (q : MpscQueue Bool Unit) : Prop :=
  ∃ trace, Execution (Steps (MpscQueue.step ⟨1⟩)) MpscQueue.empty trace q ∧
    ∀ p ∈ trace, ¬ Full ⟨1⟩ p.1

theorem ReachedWithRoom.tail
    {q q' : MpscQueue Bool Unit} {a : QueueAction Bool Unit}
    (h : ReachedWithRoom q)
    (hroom : ¬ Full ⟨1⟩ q)
    (hstep : q.step ⟨1⟩ a = some q') :
    ReachedWithRoom q' := by
  obtain ⟨trace, hrun, hall⟩ := h
  refine ⟨_, hrun.tail hstep, ?_⟩
  intro p hp
  rcases List.mem_append.mp hp with hp | hp
  · exact hall p hp
  · rw [List.mem_singleton.mp hp]
    exact hroom

section Round

variable (buffer : Nat → Slot Unit) (enq deq : Nat) (pc pc' : PushPc Unit)
  (consumer : PopPc Unit) (n m : Nat)

theorem withSleeper_setProducer :
    (withSleeper buffer enq deq pc consumer n m).setProducer true pc' =
      withSleeper buffer enq deq pc' consumer n m := by
  have hproducers :
      Function.update (fun i => if i then pc else .loadSeq () 0) true pc' =
        fun i : Bool => if i then pc' else .loadSeq () 0 := by
    funext i
    cases i <;> simp
  simp only [MpscQueue.setProducer, withSleeper, hproducers]

theorem not_full_withSleeper
    (h : n ≤ deq + 1) :
    ¬ Full ⟨1⟩ (withSleeper buffer enq deq pc consumer n m) := by
  have hrel : deq ≤ (withSleeper buffer enq deq pc consumer n m).released := by
    unfold released
    split <;> simp [withSleeper]
  have hsize : (PowTwo.mk 1).size = 2 := rfl
  simp only [Full, withSleeper, List.length_replicate, hsize] at hrel ⊢
  omega

end Round

theorem roundBuffer_sequence (n : Nat) :
    (roundBuffer n ((PowTwo.mk 1).index n)).sequence = n := by
  have hidx : (PowTwo.mk 1).index n = n % 2 := PowTwo.index_eq_mod _ n
  have hlt : n % 2 < 2 := Nat.mod_lt n (by omega)
  simp [roundBuffer, hidx, hlt]

/-- A round rewrites the slot of position `n` and leaves the other one alone. -/
theorem roundBuffer_succ (n : Nat) :
    Function.update (roundBuffer n) ((PowTwo.mk 1).index n) ⟨n + 2, some ()⟩ =
      roundBuffer (n + 1) := by
  have hidx : (PowTwo.mk 1).index n = n % 2 := PowTwo.index_eq_mod _ n
  funext i
  rw [hidx]
  by_cases hi : i = n % 2
  · have hne : i ≠ (n + 1) % 2 := by omega
    have hlt : i < 2 := by omega
    have hle : i < n + 1 := by
      have := Nat.mod_le n 2
      omega
    rw [hi, Function.update_self, ← hi]
    simp [roundBuffer, hne, hlt, hle]
  · rw [Function.update_of_ne hi]
    by_cases hlt : i < 2
    · have heq : i = (n + 1) % 2 := by omega
      have hiff : i < n + 1 ↔ i < n := by omega
      simp only [roundBuffer, hlt, if_true, hi, if_false, heq.symm, hiff]
    · simp [roundBuffer, hlt]

/-- The first half of a round: thread `true` pushes one payload. -/
theorem ReachedWithRoom.push
    {n : Nat}
    (h : ReachedWithRoom (rounds n))
    (hn : n + 1 < 2 ^ 64) :
    ReachedWithRoom
      (withSleeper
        (Function.update (roundBuffer n) ((PowTwo.mk 1).index n) ⟨n + 1, some ()⟩)
        (n + 1) n .idle .idle (n + 1) n) := by
  have hseq := roundBuffer_sequence n
  have hwrap : wrap (n + 1) = n + 1 := wrap_of_lt hn
  have hroom : ∀ (b : Nat → Slot Unit) e pc c,
      ¬ Full ⟨1⟩ (withSleeper b e n pc c n n) := by
    intro b e pc c
    exact not_full_withSleeper _ _ _ _ _ _ _ (by omega)
  have hroom' : ∀ (b : Nat → Slot Unit) e pc c,
      ¬ Full ⟨1⟩ (withSleeper b e n pc c (n + 1) n) := by
    intro b e pc c
    exact not_full_withSleeper _ _ _ _ _ _ _ le_rfl
  have h1 : ReachedWithRoom (withSleeper (roundBuffer n) n n (.loadPos ()) .idle n n) := by
    refine h.tail (hroom _ _ _ _) (a := .callPush true ()) ?_
    exact congrArg some (withSleeper_setProducer ..)
  have h2 : ReachedWithRoom (withSleeper (roundBuffer n) n n (.loadSeq () n) .idle n n) := by
    refine h1.tail (hroom _ _ _ _) (a := .push true false) ?_
    exact congrArg some (withSleeper_setProducer ..)
  have h3 : ReachedWithRoom (withSleeper (roundBuffer n) n n (.casPos () n) .idle n n) := by
    refine h2.tail (hroom _ _ _ _) (a := .push true false) ?_
    show (if signedDiff (roundBuffer n ((PowTwo.mk 1).index n)).sequence n = 0 then _ else _)
      = _
    rw [hseq, if_pos (signedDiff_self n), withSleeper_setProducer]
  have h4 : ReachedWithRoom
      (withSleeper (roundBuffer n) (n + 1) n (.writeData () n) .idle (n + 1) n) := by
    refine h3.tail (hroom _ _ _ _) (a := .push true false) ?_
    show (if n = n ∧ false = false then _ else _) = _
    rw [if_pos ⟨rfl, rfl⟩, withSleeper_setProducer, hwrap]
    simp only [withSleeper, List.replicate_succ']
  have h5 : ReachedWithRoom
      (withSleeper (Function.update (roundBuffer n) ((PowTwo.mk 1).index n) ⟨n, some ()⟩)
        (n + 1) n (.storeSeq () n) .idle (n + 1) n) := by
    refine h4.tail (hroom' _ _ _ _) (a := .push true false) ?_
    show some ((withSleeper (Function.update (roundBuffer n) ((PowTwo.mk 1).index n)
      ⟨(roundBuffer n ((PowTwo.mk 1).index n)).sequence, some ()⟩) (n + 1) n
      (.writeData () n) .idle (n + 1) n).setProducer true _) = _
    rw [hseq, withSleeper_setProducer]
  have h6 : ReachedWithRoom
      (withSleeper (Function.update (roundBuffer n) ((PowTwo.mk 1).index n) ⟨n + 1, some ()⟩)
        (n + 1) n (.returned () true) .idle (n + 1) n) := by
    refine h5.tail (hroom' _ _ _ _) (a := .push true false) ?_
    show some ((withSleeper (Function.update
      (Function.update (roundBuffer n) ((PowTwo.mk 1).index n) ⟨n, some ()⟩)
      ((PowTwo.mk 1).index n)
      ⟨wrap (n + 1), (Function.update (roundBuffer n) ((PowTwo.mk 1).index n) ⟨n, some ()⟩
        ((PowTwo.mk 1).index n)).data⟩)
      (n + 1) n (.storeSeq () n) .idle (n + 1) n).setProducer true _) = _
    rw [hwrap, Function.update_idem, Function.update_self, withSleeper_setProducer]
  refine h6.tail (hroom' _ _ _ _) (a := .push true false) ?_
  exact congrArg some (withSleeper_setProducer ..)

/-- The second half of a round: the consumer takes the payload out again. -/
theorem ReachedWithRoom.pop
    {n : Nat}
    (h : ReachedWithRoom
      (withSleeper
        (Function.update (roundBuffer n) ((PowTwo.mk 1).index n) ⟨n + 1, some ()⟩)
        (n + 1) n .idle .idle (n + 1) n))
    (hn : n + 2 < 2 ^ 64) :
    ReachedWithRoom (rounds (n + 1)) := by
  have hwrap : wrap (n + 1) = n + 1 := wrap_of_lt (by omega)
  have hwrap2 : wrap (n + 2) = n + 2 := wrap_of_lt hn
  have hroom : ∀ (b : Nat → Slot Unit) e pc c m,
      ¬ Full ⟨1⟩ (withSleeper b e n pc c (n + 1) m) := by
    intro b e pc c m
    exact not_full_withSleeper _ _ _ _ _ _ _ le_rfl
  have h1 : ReachedWithRoom
      (withSleeper (Function.update (roundBuffer n) ((PowTwo.mk 1).index n) ⟨n + 1, some ()⟩)
        (n + 1) n .idle .loadSeq (n + 1) n) := by
    exact h.tail (hroom _ _ _ _ _) (a := .callPop) rfl
  have h2 : ReachedWithRoom
      (withSleeper (Function.update (roundBuffer n) ((PowTwo.mk 1).index n) ⟨n + 1, some ()⟩)
        (n + 1) n .idle .readData (n + 1) n) := by
    refine h1.tail (hroom _ _ _ _ _) (a := .pop) ?_
    show (if signedDiff (Function.update (roundBuffer n) ((PowTwo.mk 1).index n)
      ⟨n + 1, some ()⟩ ((PowTwo.mk 1).index n)).sequence (wrap (n + 1)) < 0 then _ else _) = _
    rw [Function.update_self, hwrap, if_neg (by rw [signedDiff_self]; omega)]
    rfl
  have h3 : ReachedWithRoom
      (withSleeper (Function.update (roundBuffer n) ((PowTwo.mk 1).index n) ⟨n + 1, some ()⟩)
        (n + 1) n .idle (.storeSeq (some ())) (n + 1) n) := by
    refine h2.tail (hroom _ _ _ _ _) (a := .pop) ?_
    show some (withSleeper _ _ _ _ (.storeSeq (Function.update (roundBuffer n)
      ((PowTwo.mk 1).index n) ⟨n + 1, some ()⟩ ((PowTwo.mk 1).index n)).data) _ _) = _
    rw [Function.update_self]
    rfl
  have h4 : ReachedWithRoom
      (withSleeper (roundBuffer (n + 1)) (n + 1) n .idle (.increment (some ())) (n + 1) n) := by
    refine h3.tail (hroom _ _ _ _ _) (a := .pop) ?_
    show some (withSleeper (Function.update
      (Function.update (roundBuffer n) ((PowTwo.mk 1).index n) ⟨n + 1, some ()⟩)
      ((PowTwo.mk 1).index n)
      ⟨wrap (n + 2), (Function.update (roundBuffer n) ((PowTwo.mk 1).index n)
        ⟨n + 1, some ()⟩ ((PowTwo.mk 1).index n)).data⟩)
      (n + 1) n .idle (.increment (some ())) (n + 1) n) = _
    rw [hwrap2, Function.update_idem, Function.update_self, roundBuffer_succ]
  have h5 : ReachedWithRoom
      (withSleeper (roundBuffer (n + 1)) (n + 1) (n + 1) .idle
        (.returned (some (some ()))) (n + 1) (n + 1)) := by
    refine h4.tail (hroom _ _ _ _ _) (a := .pop) ?_
    simp only [MpscQueue.step, MpscQueue.popStep, withSleeper, hwrap, List.replicate_succ']
  refine h5.tail (not_full_withSleeper _ _ _ _ _ _ _ (by omega)) (a := .pop) rfl

/-- Thread `false` loads `enqueue_pos_` on the empty ring and falls asleep. -/
theorem reachedWithRoom_rounds_zero :
    ReachedWithRoom (rounds 0) := by
  have hempty : ReachedWithRoom MpscQueue.empty :=
    ⟨[], Execution.init, by simp⟩
  have hroom : ∀ pc, ¬ Full ⟨1⟩ ((empty : MpscQueue Bool Unit).setProducer false pc) := by
    intro pc
    simp [Full, empty, released, setProducer, PowTwo.size]
  have h1 : ReachedWithRoom (empty.setProducer false (.loadPos ())) :=
    hempty.tail (a := .callPush false ())
      (by simp [Full, empty, released, PowTwo.size]) rfl
  refine h1.tail (hroom _) (a := .push false false) ?_
  have hbuffer : roundBuffer 0 = fun i => ⟨i, none⟩ := by
    funext i
    by_cases hi : i < 2
    · have : i = 0 ∨ i = 1 := by omega
      rcases this with rfl | rfl <;> rfl
    · simp [roundBuffer, hi]
  have hproducers :
      Function.update (Function.update (fun _ => .idle) false (.loadPos ())) false
        (.loadSeq () 0) =
      fun i : Bool => if i then (.idle : PushPc Unit) else .loadSeq () 0 := by
    funext i
    cases i <;> simp
  show some (setProducer (setProducer empty false (.loadPos ())) false (.loadSeq () 0)) = _
  simp only [setProducer, empty, rounds, withSleeper, hbuffer, hproducers,
    List.replicate_zero]

theorem reachedWithRoom_rounds :
    ∀ n : Nat, n < 2 ^ 63 → ReachedWithRoom (rounds n)
  | 0, _ => reachedWithRoom_rounds_zero
  | n + 1, h =>
      ((reachedWithRoom_rounds n (by omega)).push (by omega)).pop (by omega)

/--
After `2 ^ 63 - 1` pushes, on a ring that was never full, the sleeping producer
reads the word `2 ^ 63` as a negative number and reports a full queue.
-/
theorem stale_producer_refused :
    ∃ (trace : List (MpscQueue Bool Unit × QueueAction Bool Unit))
      (q q' : MpscQueue Bool Unit),
      Execution (Steps (MpscQueue.step ⟨1⟩)) MpscQueue.empty trace q ∧
        q.pushed.length < 2 ^ 63 ∧
        (∀ p ∈ trace, ¬ Full ⟨1⟩ p.1) ∧ ¬ Full ⟨1⟩ q ∧
        q.step ⟨1⟩ (.push false false) = some q' ∧
        q'.producers false = .returned () false := by
  -- the number of rounds is kept abstract, so that nothing unfolds the long lists
  obtain ⟨n, hn⟩ : ∃ n : Nat, n + 1 = 2 ^ 63 := ⟨2 ^ 63 - 1, by norm_num⟩
  obtain ⟨trace, hrun, hall⟩ := reachedWithRoom_rounds n (by omega)
  have hseq : (roundBuffer n ((PowTwo.mk 1).index 0)).sequence = 2 ^ 63 := by
    have hidx : (PowTwo.mk 1).index 0 = 0 := rfl
    have hodd : n % 2 = 1 := by omega
    rw [hidx]
    simp only [roundBuffer, hodd]
    simpa using hn
  refine ⟨trace, rounds n, (rounds n).setProducer false (.returned () false), hrun, ?_,
    hall, ?_, ?_, setProducer_self _ _ _⟩
  · simp only [rounds, withSleeper, List.length_replicate]
    omega
  · exact not_full_withSleeper _ _ _ _ _ _ _ (by omega)
  · show (if signedDiff (roundBuffer n ((PowTwo.mk 1).index 0)).sequence 0 = 0
      then _ else if signedDiff (roundBuffer n ((PowTwo.mk 1).index 0)).sequence 0
        < 0 then _ else _) = _
    rw [hseq, if_neg (by decide), if_pos (by decide)]

end StaleProducer

end MpscQueue

end Core
end CryptoHft
