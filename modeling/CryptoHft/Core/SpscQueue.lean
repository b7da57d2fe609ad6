import CryptoHft.Lib.BoundedFifo
import CryptoHft.Lib.Runs
import CryptoHft.Lib.Word64
import Mathlib.Logic.Function.Basic

/-!
# `SPSCTradeQueue`

`include/core/trade_queue.hpp`, lines 25-97.  A ring of `Capacity` slots between
two masked indices: the producer writes at `tail_` and advances it, the consumer
reads at `head_` and advances it.  One slot stays free, so that equal indices
mean an empty ring.

`Represents` says which list a ring holds; each access of the two sides is one
lemma about it.  `SpscRun` cuts the calls of one producer and one consumer into
their accesses, and a run is an interleaving of these.  Each side works with the
index of the other as it was loaded; the index may have moved since, but only in
the direction that leaves more room, or more trades.

`pushed` and `popped` record what was stored by `try_push` and returned by
`try_pop`; no step reads them.
-/

namespace CryptoHft
namespace Core

open Lib

universe u

/-- A power of two that is a `size_t`. -/
structure Capacity extends PowTwo where
  fits : exponent < 64

/-- The slots are indeterminate until they are first written. -/
structure SpscTradeQueue (α : Type u) where
  head : Nat
  tail : Nat
  buffer : Nat → Option α

namespace SpscTradeQueue

variable {α : Type u}

def create : SpscTradeQueue α where
  head := 0
  tail := 0
  buffer _ := none

/-- `(index + 1) & MASK`. -/
def next (cap : Capacity) (index : Nat) : Nat :=
  cap.index (wrap (index + 1))

def writeSlot (q : SpscTradeQueue α) (i : Nat) (trade : α) : SpscTradeQueue α :=
  { q with buffer := Function.update q.buffer i (some trade) }

/-- `try_push`, undisturbed. -/
def tryPush (cap : Capacity) (q : SpscTradeQueue α) (trade : α) : Bool × SpscTradeQueue α :=
  if next cap q.tail = q.head then (false, q)
  else (true, { q.writeSlot q.tail trade with tail := next cap q.tail })

/-- `try_pop`, undisturbed. -/
def tryPop (cap : Capacity) (q : SpscTradeQueue α) :
    Option (Option α) × SpscTradeQueue α :=
  if q.head = q.tail then (none, q)
  else (some (q.buffer q.head), { q with head := next cap q.head })

def isEmpty (q : SpscTradeQueue α) : Bool :=
  q.head = q.tail

/-- `(tail - head + Capacity) & MASK`. -/
def size (cap : Capacity) (q : SpscTradeQueue α) : Nat :=
  cap.index (wrap (wrapSub q.tail q.head + cap.size))

/-- The ring holds `queued`, the first of them at position `n`. -/
structure Represents (cap : Capacity) (q : SpscTradeQueue α) (n : Nat) (queued : List α) :
    Prop where
  head : q.head = cap.index n
  tail : q.tail = cap.index (n + queued.length)
  room : queued.length < cap.size
  slots : ∀ (i : Nat) (x : α), queued[i]? = some x → q.buffer (cap.index (n + i)) = some x

section Representation

variable {cap : Capacity} {q : SpscTradeQueue α} {n : Nat} {queued : List α}

theorem next_index
    (cap : Capacity)
    (pos : Nat) :
    next cap (cap.index pos) = cap.index (pos + 1) := by
  rw [next, cap.index_wrap (Nat.le_of_lt cap.fits), cap.index_index_add]

theorem represents_create
    (cap : Capacity) :
    Represents cap (create : SpscTradeQueue α) 0 [] where
  head := by simp [create, PowTwo.index]
  tail := by simp [create, PowTwo.index]
  room := cap.size_pos
  slots i x hx := by simp at hx

/-- The ring is empty exactly if the indices agree. -/
theorem Represents.head_eq_tail_iff
    (h : Represents cap q n queued) :
    q.head = q.tail ↔ queued = [] := by
  rw [h.head, h.tail]
  constructor
  · intro heq
    have hroom := h.room
    have hpos := cap.size_pos
    have hsame : n = n + queued.length :=
      cap.index_inj_window (Nat.le_refl n) (by omega) (by omega) (by omega) heq
    exact List.length_eq_zero_iff.mp (by omega)
  · intro hnil
    rw [hnil, List.length_nil, Nat.add_zero]

/-- The test for a full ring: one slot is left. -/
theorem Represents.next_tail_eq_head_iff
    (h : Represents cap q n queued) :
    next cap q.tail = q.head ↔ queued.length + 1 = cap.size := by
  rw [h.head, h.tail, next_index]
  have hroom := h.room
  constructor
  · intro heq
    have := cap.add_size_le_of_index_eq (p := n) (q := n + queued.length + 1) (by omega) heq.symm
    omega
  · intro hfull
    rw [Nat.add_assoc, hfull, cap.index_eq_mod, cap.index_eq_mod, Nat.add_mod_right]

theorem Represents.size_eq
    (h : Represents cap q n queued) :
    q.size cap = queued.length := by
  have hroom := h.room
  have hpow : cap.size ∣ 2 ^ 64 := Nat.pow_dvd_pow 2 (Nat.le_of_lt cap.fits)
  have hlt : cap.size ≤ 2 ^ 64 := Nat.le_of_dvd (by norm_num) hpow
  have hhead : q.head < cap.size := h.head ▸ cap.index_lt n
  have hmod : q.size cap = (q.tail + (2 ^ 64 - q.head)) % cap.size := by
    rw [size, cap.index_wrap (Nat.le_of_lt cap.fits), cap.index_eq_mod, Nat.add_mod_right, wrapSub,
      wrap, Nat.mod_mod_of_dvd _ hpow]
  -- both sides agree once the head is added
  have hadd : q.tail + (2 ^ 64 - q.head) + n ≡ queued.length + n [MOD cap.size] := by
    calc q.tail + (2 ^ 64 - q.head) + n
        ≡ q.tail + (2 ^ 64 - q.head) + q.head [MOD cap.size] := by
          rw [h.head, cap.index_eq_mod]
          exact (Nat.mod_modEq n cap.size).symm.add_left _
      _ = q.tail + 2 ^ 64 := by omega
      _ ≡ n + queued.length + 0 [MOD cap.size] := by
          rw [h.tail, cap.index_eq_mod]
          exact (Nat.mod_modEq _ _).add ((Nat.modEq_zero_iff_dvd).mpr hpow)
      _ = queued.length + n := by omega
  rw [hmod, hadd.add_right_cancel' n, Nat.mod_eq_of_lt hroom]

/-- The slot at the tail holds no queued trade. -/
theorem Represents.tail_ne
    (h : Represents cap q n queued)
    {i : Nat}
    (hi : i < queued.length) :
    cap.index (n + i) ≠ q.tail := by
  rw [h.tail]
  intro heq
  have hroom := h.room
  have := cap.index_inj_window (Nat.le_add_right n i) (by omega) (by omega) (by omega) heq
  omega

/-- The producer writes the slot at the tail. -/
theorem Represents.write
    (h : Represents cap q n queued)
    (trade : α) :
    Represents cap (q.writeSlot q.tail trade) n queued := by
  refine ⟨h.head, h.tail, h.room, ?_⟩
  intro i x hx
  obtain ⟨hi, -⟩ := List.getElem?_eq_some_iff.mp hx
  exact (Function.update_of_ne (h.tail_ne hi) _ _).trans (h.slots i x hx)

/-- The producer advances the tail. -/
theorem Represents.storeTail
    (h : Represents cap q n queued)
    {trade : α}
    (hslot : q.buffer q.tail = some trade)
    (hroom : queued.length + 1 < cap.size) :
    Represents cap { q with tail := next cap q.tail } n (queued ++ [trade]) := by
  refine ⟨h.head, ?_, ?_, ?_⟩
  · show next cap q.tail = _
    rw [h.tail, next_index, List.length_append, List.length_singleton, Nat.add_assoc]
  · rw [List.length_append, List.length_singleton]
    exact hroom
  · intro i x hx
    rcases Nat.lt_trichotomy i queued.length with hlt | heq | hgt
    · rw [List.getElem?_append_left hlt] at hx
      exact h.slots i x hx
    · subst heq
      rw [List.getElem?_concat_length, Option.some.injEq] at hx
      rw [← h.tail, ← hx]
      exact hslot
    · rw [List.getElem?_eq_none (by simpa using hgt)] at hx
      cases hx

/-- The consumer finds the oldest trade at the head. -/
theorem Represents.front
    {x : α} {rest : List α}
    (h : Represents cap q n (x :: rest)) :
    q.buffer q.head = some x := by
  rw [h.head]
  exact h.slots 0 x rfl

/-- The consumer advances the head. -/
theorem Represents.storeHead
    {x : α} {rest : List α}
    (h : Represents cap q n (x :: rest)) :
    Represents cap { q with head := next cap q.head } (n + 1) rest := by
  have hroom := h.room
  rw [List.length_cons] at hroom
  refine ⟨?_, ?_, by omega, ?_⟩
  · show next cap q.head = _
    rw [h.head, next_index]
  · show q.tail = _
    rw [h.tail, List.length_cons, Nat.add_assoc, Nat.add_comm 1]
  · intro i y hy
    rw [Nat.add_assoc, Nat.add_comm 1]
    exact h.slots (i + 1) y (by simpa using hy)

theorem Represents.tryPush_full
    (h : Represents cap q n queued)
    (hfull : queued.length = cap.size - 1)
    (trade : α) :
    q.tryPush cap trade = (false, q) := by
  have hpos := cap.size_pos
  rw [tryPush, if_pos (h.next_tail_eq_head_iff.mpr (by omega))]

theorem Represents.tryPush_room
    (h : Represents cap q n queued)
    (hroom : queued.length < cap.size - 1)
    (trade : α) :
    (q.tryPush cap trade).1 = true ∧
      Represents cap (q.tryPush cap trade).2 n (queued ++ [trade]) := by
  rw [tryPush, if_neg (fun heq => by have := h.next_tail_eq_head_iff.mp heq; omega)]
  exact ⟨rfl, (h.write trade).storeTail (Function.update_self ..) (by omega)⟩

theorem Represents.tryPop_nil
    (h : Represents cap q n []) :
    q.tryPop cap = (none, q) := by
  rw [tryPop, if_pos (h.head_eq_tail_iff.mpr rfl)]

theorem Represents.tryPop_cons
    {x : α} {rest : List α}
    (h : Represents cap q n (x :: rest)) :
    (q.tryPop cap).1 = some (some x) ∧ Represents cap (q.tryPop cap).2 (n + 1) rest := by
  rw [tryPop, if_neg (fun heq => List.cons_ne_nil _ _ (h.head_eq_tail_iff.mp heq)), h.front]
  exact ⟨rfl, h.storeHead⟩

end Representation

end SpscTradeQueue

/-- The points of `try_push`, named after the access that comes next. -/
inductive SpscPushPc (α : Type u)
  | idle
  | loadTail (trade : α)
  | loadHead (trade : α) (tail : Nat)
  | writeSlot (trade : α) (tail nextTail : Nat)
  | storeTail (trade : α) (nextTail : Nat)
  | returned (result : Bool)

/-- The points of `try_pop` and `peek`, which make the same loads. -/
inductive SpscPopPc (α : Type u)
  | idle
  | loadHead (peek : Bool)
  | loadTail (peek : Bool) (head : Nat)
  | readSlot (peek : Bool) (head : Nat)
  | storeHead (head : Nat) (trade : Option α)
  | returned (result : Option (Option α))

structure SpscRun (α : Type u) where
  queue : SpscTradeQueue α
  producer : SpscPushPc α
  consumer : SpscPopPc α
  pushed : List α
  popped : List (Option α)

inductive SpscAction (α : Type u)
  | callPush (trade : α)
  | push
  | callPop
  | callPeek
  | pop

namespace SpscRun

open SpscTradeQueue

variable {α : Type u}

def create : SpscRun α where
  queue := .create
  producer := .idle
  consumer := .idle
  pushed := []
  popped := []

/-- The trades that were pushed and not popped. -/
def queued (s : SpscRun α) : List α :=
  s.pushed.drop s.popped.length

/-- The next access of `try_push`. -/
def pushStep (cap : Capacity) (s : SpscRun α) : Option (SpscRun α) :=
  match s.producer with
  | .idle => none
  | .loadTail trade => some { s with producer := .loadHead trade s.queue.tail }
  | .loadHead trade tail =>
      let nextTail := next cap tail
      if nextTail = s.queue.head then some { s with producer := .returned false }
      else some { s with producer := .writeSlot trade tail nextTail }
  | .writeSlot trade tail nextTail =>
      some { s with
        queue := s.queue.writeSlot tail trade
        producer := .storeTail trade nextTail }
  | .storeTail trade nextTail =>
      some { s with
        queue := { s.queue with tail := nextTail }
        producer := .returned true
        pushed := s.pushed ++ [trade] }
  | .returned _ => some { s with producer := .idle }

/-- The next access of `try_pop` or `peek`. -/
def popStep (cap : Capacity) (s : SpscRun α) : Option (SpscRun α) :=
  match s.consumer with
  | .idle => none
  | .loadHead peek => some { s with consumer := .loadTail peek s.queue.head }
  | .loadTail peek head =>
      if head = s.queue.tail then some { s with consumer := .returned none }
      else some { s with consumer := .readSlot peek head }
  | .readSlot peek head =>
      if peek then some { s with consumer := .returned (some (s.queue.buffer head)) }
      else some { s with consumer := .storeHead head (s.queue.buffer head) }
  | .storeHead head trade =>
      some { s with
        queue := { s.queue with head := next cap head }
        consumer := .returned (some trade)
        popped := s.popped ++ [trade] }
  | .returned _ => some { s with consumer := .idle }

def step (cap : Capacity) (s : SpscRun α) : SpscAction α → Option (SpscRun α)
  | .callPush trade =>
      match s.producer with
      | .idle => some { s with producer := .loadTail trade }
      | _ => none
  | .push => s.pushStep cap
  | .callPop =>
      match s.consumer with
      | .idle => some { s with consumer := .loadHead false }
      | _ => none
  | .callPeek =>
      match s.consumer with
      | .idle => some { s with consumer := .loadHead true }
      | _ => none
  | .pop => s.popStep cap

/-- What the producer knows at its points, when `queued` trades are in the ring. -/
def PushOk (cap : Capacity) (q : SpscTradeQueue α) (queued : Nat) : SpscPushPc α → Prop
  | .loadHead _ tail => tail = q.tail
  | .writeSlot _ tail nextTail =>
      tail = q.tail ∧ nextTail = next cap q.tail ∧ queued + 1 < cap.size
  | .storeTail trade nextTail =>
      q.buffer q.tail = some trade ∧ nextTail = next cap q.tail ∧ queued + 1 < cap.size
  | _ => True

/-- What the consumer knows at its points. -/
def PopOk (q : SpscTradeQueue α) (queued : List α) : SpscPopPc α → Prop
  | .loadTail _ head => head = q.head
  | .readSlot _ head => head = q.head ∧ queued ≠ []
  | .storeHead head trade => head = q.head ∧ ∃ x rest, queued = x :: rest ∧ trade = some x
  | _ => True

structure Inv (cap : Capacity) (s : SpscRun α) : Prop where
  ring : Represents cap s.queue s.popped.length s.queued
  sequence : s.pushed.map some = s.popped ++ s.queued.map some
  producer : PushOk cap s.queue s.queued.length s.producer
  consumer : PopOk s.queue s.queued s.consumer

section Steps

variable {cap : Capacity} {s t : SpscRun α}

theorem inv_create
    (cap : Capacity) :
    Inv cap (create : SpscRun α) :=
  ⟨represents_create cap, rfl, trivial, trivial⟩

theorem Inv.length_popped_le
    (h : Inv cap s) :
    s.popped.length ≤ s.pushed.length := by
  have hlength := congrArg List.length h.sequence
  rw [List.length_map, List.length_append] at hlength
  omega

/-- The store of the tail makes a trade queued. -/
theorem Inv.queued_push
    (h : Inv cap s)
    (trade : α) :
    (s.pushed ++ [trade]).drop s.popped.length = s.queued ++ [trade] := by
  rw [queued, List.drop_append_of_le_length h.length_popped_le]

/-- The store of the head takes the oldest trade out of the queue. -/
theorem queued_pop
    {x : α} {rest : List α}
    (hqueued : s.queued = x :: rest)
    (trade : Option α) :
    s.pushed.drop (s.popped ++ [trade]).length = rest := by
  rw [List.length_append, List.length_singleton, ← List.drop_drop, ← queued, hqueued]
  rfl

/-- What the producer knows survives the consumer. -/
theorem PushOk.of_le
    {q q' : SpscTradeQueue α} {k k' : Nat} {pc : SpscPushPc α}
    (h : PushOk cap q k pc)
    (htail : q'.tail = q.tail)
    (hbuffer : q'.buffer = q.buffer)
    (hle : k' ≤ k) :
    PushOk cap q' k' pc := by
  cases pc with
  | idle | loadTail | returned =>
      trivial
  | loadHead trade tail =>
      exact h.trans htail.symm
  | writeSlot trade tail nextTail =>
      obtain ⟨hslot, hnext, hroom⟩ := h
      exact ⟨hslot.trans htail.symm, by rw [htail, hnext], by omega⟩
  | storeTail trade nextTail =>
      obtain ⟨hslot, hnext, hroom⟩ := h
      exact ⟨by rw [htail, hbuffer, hslot], by rw [htail, hnext], by omega⟩

/-- What the consumer knows survives the producer. -/
theorem PopOk.of_isPrefix
    {q q' : SpscTradeQueue α} {queued queued' : List α} {pc : SpscPopPc α}
    (h : PopOk q queued pc)
    (hhead : q'.head = q.head)
    (hqueued : queued <+: queued') :
    PopOk q' queued' pc := by
  obtain ⟨later, rfl⟩ := hqueued
  cases pc with
  | idle | loadHead | returned =>
      trivial
  | loadTail peek head =>
      exact h.trans hhead.symm
  | readSlot peek head =>
      exact ⟨h.1.trans hhead.symm, List.append_ne_nil_of_left_ne_nil h.2 later⟩
  | storeHead head trade =>
      obtain ⟨hslot, x, rest, hfront, htrade⟩ := h
      exact ⟨hslot.trans hhead.symm, x, rest ++ later, by rw [hfront, List.cons_append], htrade⟩

theorem Inv.pushStep
    (h : Inv cap s)
    (hstep : s.pushStep cap = some t) :
    Inv cap t := by
  unfold SpscRun.pushStep at hstep
  have hproducer := h.producer
  cases hpc : s.producer with
  | idle =>
      simp [hpc] at hstep
  | loadTail trade =>
      simp only [hpc, Option.some.injEq] at hstep
      subst hstep
      exact ⟨h.ring, h.sequence, rfl, h.consumer⟩
  | loadHead trade tail =>
      simp only [hpc] at hstep
      rw [hpc] at hproducer
      split at hstep
      · cases hstep
        exact ⟨h.ring, h.sequence, trivial, h.consumer⟩
      · rename_i hfree
        cases hstep
        have htail : tail = s.queue.tail := hproducer
        rw [htail] at hfree
        have hfull := mt h.ring.next_tail_eq_head_iff.mpr hfree
        have hroom : s.queued.length + 1 < cap.size := lt_of_le_of_ne h.ring.room hfull
        exact ⟨h.ring, h.sequence, ⟨htail, by rw [htail], hroom⟩, h.consumer⟩
  | writeSlot trade tail nextTail =>
      simp only [hpc, Option.some.injEq] at hstep
      subst hstep
      rw [hpc] at hproducer
      obtain ⟨rfl, hnext, hroom⟩ := hproducer
      refine ⟨h.ring.write trade, h.sequence, ⟨?_, hnext, hroom⟩,
        h.consumer.of_isPrefix rfl List.prefix_rfl⟩
      exact Function.update_self _ _ _
  | storeTail trade nextTail =>
      simp only [hpc, Option.some.injEq] at hstep
      subst hstep
      rw [hpc] at hproducer
      obtain ⟨hslot, rfl, hroom⟩ := hproducer
      have hqueued := h.queued_push trade
      refine ⟨?_, ?_, trivial, ?_⟩
      · rw [queued, hqueued]
        exact h.ring.storeTail hslot hroom
      · rw [queued, hqueued, List.map_append, List.map_append, h.sequence, List.append_assoc]
      · rw [queued, hqueued]
        exact h.consumer.of_isPrefix rfl (List.prefix_append _ _)
  | returned result =>
      simp only [hpc, Option.some.injEq] at hstep
      subst hstep
      exact ⟨h.ring, h.sequence, trivial, h.consumer⟩

theorem Inv.popStep
    (h : Inv cap s)
    (hstep : s.popStep cap = some t) :
    Inv cap t := by
  unfold SpscRun.popStep at hstep
  have hconsumer := h.consumer
  cases hpc : s.consumer with
  | idle =>
      simp [hpc] at hstep
  | loadHead peek =>
      simp only [hpc, Option.some.injEq] at hstep
      subst hstep
      exact ⟨h.ring, h.sequence, h.producer, rfl⟩
  | loadTail peek head =>
      simp only [hpc] at hstep
      rw [hpc] at hconsumer
      split at hstep
      · cases hstep
        exact ⟨h.ring, h.sequence, h.producer, trivial⟩
      · rename_i hfilled
        cases hstep
        have hhead : head = s.queue.head := hconsumer
        rw [hhead] at hfilled
        exact ⟨h.ring, h.sequence, h.producer, hhead, mt h.ring.head_eq_tail_iff.mpr hfilled⟩
  | readSlot peek head =>
      simp only [hpc] at hstep
      rw [hpc] at hconsumer
      obtain ⟨rfl, hne⟩ := hconsumer
      split at hstep
      · cases hstep
        exact ⟨h.ring, h.sequence, h.producer, trivial⟩
      · cases hstep
        obtain ⟨x, rest, hfront⟩ := List.exists_cons_of_ne_nil hne
        have hring := h.ring
        rw [hfront] at hring
        exact ⟨h.ring, h.sequence, h.producer, rfl, x, rest, hfront, hring.front⟩
  | storeHead head trade =>
      simp only [hpc, Option.some.injEq] at hstep
      subst hstep
      rw [hpc] at hconsumer
      obtain ⟨rfl, x, rest, hfront, rfl⟩ := hconsumer
      have hqueued := queued_pop hfront (some x)
      have hring := h.ring
      have hsequence := h.sequence
      have hproducer := h.producer
      rw [hfront] at hring hsequence hproducer
      refine ⟨?_, ?_, ?_, trivial⟩
      · rw [queued, hqueued, List.length_append]
        exact hring.storeHead
      · rw [queued, hqueued, hsequence]
        simp
      · rw [queued, hqueued]
        exact hproducer.of_le rfl rfl (by simp)
  | returned result =>
      simp only [hpc, Option.some.injEq] at hstep
      subst hstep
      exact ⟨h.ring, h.sequence, h.producer, trivial⟩

theorem Inv.step
    (h : Inv cap s)
    {a : SpscAction α}
    (hstep : s.step cap a = some t) :
    Inv cap t := by
  cases a with
  | callPush trade =>
      simp only [SpscRun.step] at hstep
      split at hstep
      · cases hstep
        exact ⟨h.ring, h.sequence, trivial, h.consumer⟩
      · cases hstep
  | push =>
      exact h.pushStep hstep
  | callPop | callPeek =>
      simp only [SpscRun.step] at hstep
      split at hstep
      · cases hstep
        exact ⟨h.ring, h.sequence, h.producer, trivial⟩
      · cases hstep
  | pop =>
      exact h.popStep hstep

theorem inv_of_reachable
    (hs : Reachable (Steps (step cap)) create s) :
    Inv cap s :=
  hs.invariant (inv_create cap) (fun _ _ _ h hstep => h.step hstep)

/-- Seen as a list, a step pushes one trade, pops one, or changes nothing. -/
theorem Inv.moves
    (h : Inv cap s)
    {a : SpscAction α}
    (hstep : s.step cap a = some t) :
    BoundedFifo.Moves (cap.size - 1) s.queued t.queued := by
  cases a with
  | callPush | callPop | callPeek =>
      simp only [SpscRun.step] at hstep
      split at hstep
      · cases hstep
        exact .stay
      · cases hstep
  | push =>
      simp only [SpscRun.step, SpscRun.pushStep] at hstep
      split at hstep
      · cases hstep
      · cases hstep
        exact .stay
      · split at hstep <;> cases hstep <;> exact .stay
      · cases hstep
        exact .stay
      · rename_i trade nextTail hpc
        cases hstep
        have hproducer := h.producer
        rw [hpc] at hproducer
        refine .push trade ?_
        rw [BoundedFifo.tryPush_of_lt (by have := hproducer.2.2; omega)]
        exact congrArg _ (h.queued_push trade).symm
      · cases hstep
        exact .stay
  | pop =>
      simp only [SpscRun.step, SpscRun.popStep] at hstep
      split at hstep
      · cases hstep
      · cases hstep
        exact .stay
      · split at hstep <;> cases hstep <;> exact .stay
      · split at hstep <;> cases hstep <;> exact .stay
      · rename_i head trade hpc
        cases hstep
        have hconsumer := h.consumer
        rw [hpc] at hconsumer
        obtain ⟨-, x, rest, hfront, -⟩ := hconsumer
        refine .pop x ?_
        rw [hfront]
        exact congrArg (fun ys => some (x, ys)) (queued_pop hfront trade).symm
      · cases hstep
        exact .stay

/-- A refused push has found the ring full at its load of the head. -/
theorem Inv.full_of_refused
    (h : Inv cap s)
    (hstep : s.step cap .push = some t)
    (hrefused : t.producer = .returned false) :
    s.queued.length = cap.size - 1 := by
  have hproducer := h.producer
  simp only [SpscRun.step, SpscRun.pushStep] at hstep
  split at hstep
  · cases hstep
  · cases hstep
    cases hrefused
  · rename_i trade tail hpc
    split at hstep
    · rename_i hfull
      rw [hpc] at hproducer
      have htail : tail = s.queue.tail := hproducer
      rw [htail, h.ring.next_tail_eq_head_iff] at hfull
      omega
    · cases hstep
      cases hrefused
  · cases hstep
    cases hrefused
  · cases hstep
    cases hrefused
  · cases hstep
    cases hrefused

/-- The trade that the consumer is about to read. -/
theorem Inv.slot_read
    (h : Inv cap s)
    {peek : Bool} {head : Nat}
    (hpc : s.consumer = .readSlot peek head) :
    s.queue.buffer head = s.queued.head? ∧ s.queued ≠ [] := by
  have hconsumer := h.consumer
  rw [hpc] at hconsumer
  obtain ⟨rfl, hne⟩ := hconsumer
  obtain ⟨x, rest, hfront⟩ := List.exists_cons_of_ne_nil hne
  have hring := h.ring
  rw [hfront] at hring
  rw [hfront]
  exact ⟨hring.front, by simp⟩

end Steps

/-- The queue is a bounded FIFO of `Capacity - 1` trades. -/
structure RefinesFifo (cap : Capacity) (s : SpscRun α) : Prop where
  /-- What was popped is what was pushed, in order and with its values. -/
  popped : s.popped <+: s.pushed.map some
  /-- Each step is one of a bounded FIFO. -/
  moves : ∀ a t, s.step cap a = some t →
    BoundedFifo.Moves (cap.size - 1) s.queued t.queued
  /-- `try_pop` and `peek` read the oldest trade. -/
  read : ∀ peek head, s.consumer = .readSlot peek head →
    s.queue.buffer head = s.queued.head? ∧ s.queued ≠ []
  /-- An unread trade is in its slot, and the producer writes another one. -/
  unread : ∀ i x, s.queued[i]? = some x →
    s.queue.buffer (cap.index (s.popped.length + i)) = some x ∧
      ∀ trade tail nextTail, s.producer = .writeSlot trade tail nextTail →
        cap.index (s.popped.length + i) ≠ tail
  /-- `try_push` refuses at its load of the head only if the ring is full there. -/
  refused : ∀ t, s.step cap .push = some t → t.producer = .returned false →
    s.queued.length = cap.size - 1
  /-- `size` and `empty`, when no operation is in progress. -/
  atRest : s.producer = .idle → s.consumer = .idle →
    s.queue.size cap = s.queued.length ∧ (s.queue.isEmpty = true ↔ s.queued.length = 0)

/-- In every interleaving of the producer and the consumer the queue is a bounded FIFO. -/
theorem spsc_refines_fifo
    (cap : Capacity)
    {s : SpscRun α}
    (hs : Reachable (Steps (step cap)) create s) :
    RefinesFifo cap s := by
  have h := inv_of_reachable hs
  refine ⟨?_, fun a t => h.moves, fun peek head => h.slot_read, ?_, fun t => h.full_of_refused, ?_⟩
  · rw [h.sequence]
    exact List.prefix_append _ _
  · intro i x hx
    refine ⟨h.ring.slots i x hx, ?_⟩
    intro trade tail nextTail hpc
    have hproducer := h.producer
    rw [hpc] at hproducer
    rw [hproducer.1]
    exact h.ring.tail_ne (List.getElem?_eq_some_iff.mp hx).1
  · intro _ _
    refine ⟨h.ring.size_eq, ?_⟩
    rw [isEmpty, decide_eq_true_iff, h.ring.head_eq_tail_iff, List.length_eq_zero_iff]

section TwoSlots

/-- With two slots, a second push is refused, the first trade is popped, and the ring wraps. -/
def pushRefusedPopPush : List (SpscAction Nat) :=
  List.flatten
    [[.callPush 7, .push, .push, .push, .push, .push], [.callPush 8, .push, .push, .push],
      [.callPop, .pop, .pop, .pop, .pop, .pop], [.callPush 9, .push, .push, .push, .push, .push]]

theorem spsc_refines_fifo_two_slots :
    ∃ s : SpscRun Nat, Reachable (Steps (step ⟨⟨1⟩, by decide⟩)) create s ∧
      s.pushed = [7, 9] ∧ s.popped = [some 7] ∧ s.queue.size ⟨⟨1⟩, by decide⟩ = 1 ∧
      RefinesFifo ⟨⟨1⟩, by decide⟩ s := by
  have hrun : (runActions (step ⟨⟨1⟩, by decide⟩) create pushRefusedPopPush).map
      (fun s => (s.pushed, s.popped, s.queue.size ⟨⟨1⟩, by decide⟩)) =
      some ([7, 9], [some 7], 1) := by
    decide
  obtain ⟨s, hs, hview⟩ := Reachable.exists_of_runActions hrun
  simp only [Prod.mk.injEq] at hview
  obtain ⟨hpushed, hpopped, hsize⟩ := hview
  exact ⟨s, hs, hpushed, hpopped, hsize, spsc_refines_fifo _ hs⟩

end TwoSlots

end SpscRun

end Core
end CryptoHft
