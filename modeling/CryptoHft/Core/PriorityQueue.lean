import CryptoHft.Core.SpscQueue
import CryptoHft.Lib.LevelQueue
import CryptoHft.Types.Trade
import Mathlib.Data.Fintype.BigOperators

/-!
# `PriorityTradeQueue`

`include/core/trade_queue.hpp`, lines 203-245.  Four rings, one for each level of
priority: a push goes to the ring of its level, a pop scans the rings from level 0
on and takes the first trade it finds.

`RepresentsLevels` says which list the four rings hold together, with the oldest
trade first: the ring of a level holds the trades of that level.  Under it each
call does what the call of `Lib.LevelQueue` does, and `runCalls_simulation` carries
this along every sequence of calls.
-/

namespace CryptoHft
namespace Core

open Lib

/-- `CapacityPerLevel`: an array of as many trades, of 64 bytes or more each, is an object. -/
structure LevelCapacity extends Capacity where
  object : 64 * 2 ^ exponent < 2 ^ 63

/-- `priority_to_level`. -/
def priorityToLevel (priority : UInt8) : Fin 4 :=
  if priority < 32 then 0
  else if priority < 96 then 1
  else if priority < 192 then 2
  else 3

/-- The level that `try_pop` looks at first. -/
def mostUrgentLevel : Fin 4 := 0

structure PriorityTradeQueue (R : Type) where
  queues : Fin 4 → SpscTradeQueue (Trade R)

namespace PriorityTradeQueue

variable {R : Type}

def create : PriorityTradeQueue R where
  queues _ := .create

/-- The ring that the calls for a trade go to. -/
def levelOf (trade : Trade R) : Fin 4 :=
  priorityToLevel trade.priority

def setQueue (pq : PriorityTradeQueue R) (l : Fin 4) (q : SpscTradeQueue (Trade R)) :
    PriorityTradeQueue R where
  queues := Function.update pq.queues l q

def tryPush (cap : LevelCapacity) (pq : PriorityTradeQueue R) (trade : Trade R) :
    Bool × PriorityTradeQueue R :=
  let level := priorityToLevel trade.priority
  let (result, q) := (pq.queues level).tryPush cap.toCapacity trade
  (result, pq.setQueue level q)

/-- The loop of `try_pop`, over the levels that are left. -/
def tryPopFrom (cap : LevelCapacity) :
    List (Fin 4) → PriorityTradeQueue R → Option (Option (Trade R)) × PriorityTradeQueue R
  | [], pq => (none, pq)
  | i :: levels, pq =>
      match (pq.queues i).tryPop cap.toCapacity with
      | (some trade, q) => (some trade, pq.setQueue i q)
      | (none, q) => tryPopFrom cap levels (pq.setQueue i q)

def tryPop (cap : LevelCapacity) (pq : PriorityTradeQueue R) :
    Option (Option (Trade R)) × PriorityTradeQueue R :=
  tryPopFrom cap (List.finRange 4) pq

def isEmpty (pq : PriorityTradeQueue R) : Bool :=
  (List.finRange 4).all (fun l => (pq.queues l).isEmpty)

/-- `total += q.size()`, in 64 bits. -/
def size (cap : LevelCapacity) (pq : PriorityTradeQueue R) : Nat :=
  (List.finRange 4).foldl (fun total l => wrap (total + (pq.queues l).size cap.toCapacity)) 0

def call (cap : LevelCapacity) (pq : PriorityTradeQueue R) :
    QueueCall (Trade R) → QueueAnswer (Option (Trade R)) × PriorityTradeQueue R
  | .push trade => (.pushed (pq.tryPush cap trade).1, (pq.tryPush cap trade).2)
  | .pop => (.popped (pq.tryPop cap).1, (pq.tryPop cap).2)

/-- The trades of one level. -/
def ofLevel (queued : List (Trade R)) (l : Fin 4) : List (Trade R) :=
  queued.filter (fun trade => levelOf trade = l)

/-- The four rings hold `queued`. -/
def RepresentsLevels (cap : LevelCapacity) (pq : PriorityTradeQueue R) (queued : List (Trade R)) :
    Prop :=
  ∀ l, ∃ n, (pq.queues l).Represents cap.toCapacity n (ofLevel queued l)

section Representation

variable {cap : LevelCapacity} {pq : PriorityTradeQueue R} {queued : List (Trade R)}

theorem representsLevels_create
    (cap : LevelCapacity) :
    RepresentsLevels cap (create : PriorityTradeQueue R) [] :=
  fun _ => ⟨0, SpscTradeQueue.represents_create cap.toCapacity⟩

theorem setQueue_queues
    (pq : PriorityTradeQueue R)
    (l : Fin 4)
    (q : SpscTradeQueue (Trade R)) :
    (pq.setQueue l q).queues = Function.update pq.queues l q := rfl

theorem setQueue_self
    (pq : PriorityTradeQueue R)
    (l : Fin 4) :
    pq.setQueue l (pq.queues l) = pq := by
  rw [setQueue, Function.update_eq_self]

/-- One ring changes, and with it the trades of its level. -/
theorem RepresentsLevels.setQueue
    (h : RepresentsLevels cap pq queued)
    {l : Fin 4} {q : SpscTradeQueue (Trade R)} {n : Nat} {queued' : List (Trade R)}
    (hq : q.Represents cap.toCapacity n (ofLevel queued' l))
    (hother : ∀ l', l' ≠ l → ofLevel queued' l' = ofLevel queued l') :
    RepresentsLevels cap (pq.setQueue l q) queued' := by
  intro l'
  by_cases hl : l' = l
  · subst hl
    refine ⟨n, ?_⟩
    rwa [setQueue_queues, Function.update_self]
  · obtain ⟨n', hn'⟩ := h l'
    refine ⟨n', ?_⟩
    rwa [setQueue_queues, Function.update_of_ne hl, hother l' hl]

theorem RepresentsLevels.length_ofLevel_lt
    (h : RepresentsLevels cap pq queued)
    (l : Fin 4) :
    (ofLevel queued l).length < cap.size := by
  obtain ⟨n, hn⟩ := h l
  exact hn.room

theorem ofLevel_append
    (queued : List (Trade R))
    (trade : Trade R) :
    ofLevel (queued ++ [trade]) (levelOf trade) = ofLevel queued (levelOf trade) ++ [trade] := by
  simp [ofLevel, List.filter_append]

theorem ofLevel_append_of_ne
    (queued : List (Trade R))
    {trade : Trade R} {l : Fin 4}
    (hne : l ≠ levelOf trade) :
    ofLevel (queued ++ [trade]) l = ofLevel queued l := by
  simp [ofLevel, List.filter_append, hne.symm]

theorem RepresentsLevels.tryPush_full
    (h : RepresentsLevels cap pq queued)
    {trade : Trade R}
    (hfull : (ofLevel queued (levelOf trade)).length = cap.size - 1) :
    pq.tryPush cap trade = (false, pq) := by
  obtain ⟨n, hn⟩ := h (levelOf trade)
  have hring := hn.tryPush_full hfull trade
  rw [levelOf] at hring
  simp only [PriorityTradeQueue.tryPush, hring, setQueue_self]

/-- A push goes to the end of its level. -/
theorem RepresentsLevels.tryPush_room
    (h : RepresentsLevels cap pq queued)
    (trade : Trade R)
    (hroom : (ofLevel queued (levelOf trade)).length < cap.size - 1) :
    (pq.tryPush cap trade).1 = true ∧
      RepresentsLevels cap (pq.tryPush cap trade).2 (queued ++ [trade]) := by
  obtain ⟨n, hn⟩ := h (levelOf trade)
  obtain ⟨hresult, hnext⟩ := hn.tryPush_room hroom trade
  refine ⟨hresult, h.setQueue (l := levelOf trade) (n := n) ?_ ?_⟩
  · rw [ofLevel_append]
    exact hnext
  · intro l' hne
    exact ofLevel_append_of_ne queued hne

theorem countP_level
    (queued : List (Trade R))
    (trade : Trade R) :
    queued.countP (fun t => levelOf t = levelOf trade) =
      (ofLevel queued (levelOf trade)).length :=
  List.countP_eq_length_filter

theorem RepresentsLevels.tryPush
    (h : RepresentsLevels cap pq queued)
    (trade : Trade R) :
    (pq.tryPush cap trade).1 = (LevelQueue.tryPush levelOf (cap.size - 1) queued trade).1 ∧
      RepresentsLevels cap (pq.tryPush cap trade).2
        (LevelQueue.tryPush levelOf (cap.size - 1) queued trade).2 := by
  rw [LevelQueue.tryPush, countP_level]
  have hlt := h.length_ofLevel_lt (levelOf trade)
  split
  · rename_i hroom
    exact h.tryPush_room trade hroom
  · rw [h.tryPush_full (by omega)]
    exact ⟨rfl, h⟩

theorem RepresentsLevels.tryPush_eq_false_iff
    (h : RepresentsLevels cap pq queued)
    (trade : Trade R) :
    (pq.tryPush cap trade).1 = false ↔
      (ofLevel queued (levelOf trade)).length = cap.size - 1 := by
  constructor
  · intro hrefused
    by_contra hne
    have hlt := h.length_ofLevel_lt (levelOf trade)
    have haccepted := (h.tryPush_room trade (by omega)).1
    exact Bool.noConfusion (hrefused.symm.trans haccepted)
  · intro hfull
    rw [h.tryPush_full hfull]

/-- The scan stops at the first level that has a trade. -/
theorem RepresentsLevels.tryPopFrom
    (h : RepresentsLevels cap pq queued)
    {levels : List (Fin 4)}
    (hsorted : levels.Pairwise (· < ·))
    (hlevels : ∀ trade ∈ queued, levelOf trade ∈ levels) :
    (tryPopFrom cap levels pq).1 = (LevelQueue.tryPop levelOf queued).1.map some ∧
      RepresentsLevels cap (tryPopFrom cap levels pq).2 (LevelQueue.tryPop levelOf queued).2 := by
  induction levels with
  | nil =>
      have hnil : queued = [] := by
        rw [List.eq_nil_iff_forall_not_mem]
        intro trade htrade
        exact absurd (hlevels trade htrade) List.not_mem_nil
      subst hnil
      exact ⟨rfl, h⟩
  | cons i levels ih =>
      rw [List.pairwise_cons] at hsorted
      obtain ⟨n, hn⟩ := h i
      cases hlevel : ofLevel queued i with
      | nil =>
          rw [hlevel] at hn
          rw [PriorityTradeQueue.tryPopFrom, hn.tryPop_nil]
          simp only [setQueue_self]
          refine ih hsorted.2 ?_
          intro trade htrade
          refine (List.mem_cons.mp (hlevels trade htrade)).resolve_left ?_
          intro hi
          rw [ofLevel, List.filter_eq_nil_iff] at hlevel
          exact hlevel trade htrade (by simpa using hi)
      | cons x rest =>
          rw [hlevel] at hn
          obtain ⟨hresult, hnext⟩ := hn.tryPop_cons
          have hle : ∀ trade ∈ queued, i ≤ levelOf trade := by
            intro trade htrade
            rcases List.mem_cons.mp (hlevels trade htrade) with heq | hin
            · exact le_of_eq heq.symm
            · exact le_of_lt (hsorted.1 _ hin)
          obtain ⟨hpop, hrest, hother⟩ := LevelQueue.tryPop_of_least hle hlevel
          have hscan : PriorityTradeQueue.tryPopFrom cap (i :: levels) pq =
              (some (some x), pq.setQueue i ((pq.queues i).tryPop cap.toCapacity).2) := by
            rw [PriorityTradeQueue.tryPopFrom]
            split
            · rename_i trade q heq
              rw [heq] at hresult ⊢
              exact congrArg (·, pq.setQueue i q) hresult
            · rename_i q heq
              rw [heq] at hresult
              cases hresult
          rw [hscan, hpop]
          refine ⟨rfl, h.setQueue (n := n + 1) ?_ hother⟩
          rw [ofLevel, hrest]
          exact hnext

theorem RepresentsLevels.tryPop
    (h : RepresentsLevels cap pq queued) :
    (pq.tryPop cap).1 = (LevelQueue.tryPop levelOf queued).1.map some ∧
      RepresentsLevels cap (pq.tryPop cap).2 (LevelQueue.tryPop levelOf queued).2 :=
  h.tryPopFrom (List.pairwise_lt_finRange 4) (fun _ _ => List.mem_finRange _)

theorem RepresentsLevels.call
    (h : RepresentsLevels cap pq queued)
    (c : QueueCall (Trade R)) :
    (pq.call cap c).1 = (LevelQueue.call levelOf (cap.size - 1) queued c).1.map some ∧
      RepresentsLevels cap (pq.call cap c).2
        (LevelQueue.call levelOf (cap.size - 1) queued c).2 := by
  cases c with
  | push trade =>
      obtain ⟨hresult, hnext⟩ := h.tryPush trade
      exact ⟨congrArg QueueAnswer.pushed hresult, hnext⟩
  | pop =>
      obtain ⟨hresult, hnext⟩ := h.tryPop
      exact ⟨congrArg QueueAnswer.popped hresult, hnext⟩

/-- Every trade is in one of the four levels. -/
theorem length_eq_ofLevel
    (queued : List (Trade R)) :
    queued.length = (ofLevel queued 0).length + (ofLevel queued 1).length +
      (ofLevel queued 2).length + (ofLevel queued 3).length := by
  induction queued with
  | nil =>
      rfl
  | cons trade rest ih =>
      have hlevel : ∀ l : Fin 4, l = 0 ∨ l = 1 ∨ l = 2 ∨ l = 3 := by decide
      simp only [ofLevel] at ih ⊢
      rcases hlevel (levelOf trade) with h | h | h | h <;> simp [h, ih] <;> omega

theorem RepresentsLevels.size_eq
    (h : RepresentsLevels cap pq queued) :
    pq.size cap = queued.length := by
  have hsize : ∀ l, (pq.queues l).size cap.toCapacity = (ofLevel queued l).length := by
    intro l
    obtain ⟨n, hn⟩ := h l
    exact hn.size_eq
  have hobject : 64 * cap.size < 2 ^ 63 := cap.object
  have h0 := h.length_ofLevel_lt 0
  have h1 := h.length_ofLevel_lt 1
  have h2 := h.length_ofLevel_lt 2
  have h3 := h.length_ofLevel_lt 3
  rw [length_eq_ofLevel, size, show List.finRange 4 = [0, 1, 2, 3] from by decide]
  simp only [List.foldl_cons, List.foldl_nil, hsize, Nat.zero_add]
  simp only [wrap]
  omega

theorem RepresentsLevels.isEmpty_iff
    (h : RepresentsLevels cap pq queued) :
    pq.isEmpty = true ↔ queued = [] := by
  have hlevel : ∀ l, (pq.queues l).isEmpty = true ↔ ofLevel queued l = [] := by
    intro l
    obtain ⟨n, hn⟩ := h l
    rw [SpscTradeQueue.isEmpty, decide_eq_true_iff, hn.head_eq_tail_iff]
  rw [isEmpty, List.all_eq_true]
  constructor
  · intro hall
    rw [List.eq_nil_iff_forall_not_mem]
    intro trade htrade
    have hnil := (hlevel (levelOf trade)).mp (hall _ (List.mem_finRange _))
    rw [ofLevel, List.filter_eq_nil_iff] at hnil
    exact hnil trade htrade (by simp)
  · rintro rfl l -
    exact (hlevel l).mpr rfl

end Representation

section Runs

/-- The trades that are queued after `calls`, the oldest first. -/
def queuedAfter (cap : LevelCapacity) (calls : List (QueueCall (Trade R))) : List (Trade R) :=
  (runCalls (LevelQueue.call levelOf (cap.size - 1)) [] calls).2

/-- The queue after `calls` serves by level and then by age. -/
structure ServesByLevel (cap : LevelCapacity) (calls : List (QueueCall (Trade R)))
    (answers : List (QueueAnswer (Option (Trade R)))) (pq : PriorityTradeQueue R) : Prop where
  /-- The calls were answered as those of the list of queued trades. -/
  refines : answers =
    (runCalls (LevelQueue.call levelOf (cap.size - 1)) [] calls).1.map (QueueAnswer.map some)
  /-- The queued trades are accepted ones, in the order of their pushes. -/
  age : List.Sublist (queuedAfter cap calls) (LevelQueue.accepted calls answers)
  /-- An accepted trade is popped once, or is still queued. -/
  conserved : List.Perm ((LevelQueue.accepted calls answers).map some)
    (LevelQueue.popped answers ++ (queuedAfter cap calls).map some)
  /-- `try_pop` returns the oldest of the trades of the smallest level, and takes it out. -/
  pop : ∀ result, (pq.tryPop cap).1 = some result →
    ∃ older trade newer, result = some trade ∧ queuedAfter cap calls = older ++ trade :: newer ∧
      (∀ t ∈ queuedAfter cap calls, levelOf trade ≤ levelOf t) ∧
      (∀ t ∈ older, levelOf trade < levelOf t) ∧
      queuedAfter cap (calls ++ [.pop]) = older ++ newer
  /-- It returns nothing exactly if no trade is queued. -/
  popNone : (pq.tryPop cap).1 = none ↔ queuedAfter cap calls = []
  /-- `try_push` fails exactly if the level of the trade is full. -/
  push : ∀ trade, (pq.tryPush cap trade).1 = false ↔
    (queuedAfter cap calls).countP (fun t => levelOf t = levelOf trade) = cap.size - 1
  /-- A push that fails changes nothing. -/
  refused : ∀ trade, (pq.tryPush cap trade).1 = false → (pq.tryPush cap trade).2 = pq
  size : pq.size cap = (queuedAfter cap calls).length
  empty : pq.isEmpty = true ↔ queuedAfter cap calls = []

theorem serves_by_level
    (cap : LevelCapacity)
    (calls : List (QueueCall (Trade R))) :
    ServesByLevel cap calls (runCalls (call cap) create calls).1
      (runCalls (call cap) create calls).2 := by
  obtain ⟨hanswers, h⟩ := runCalls_simulation (fun _ _ c hr => RepresentsLevels.call hr c)
    (representsLevels_create (R := R) cap) calls
  have hsublist : List.Sublist (queuedAfter cap calls) _ := LevelQueue.sublist_accepted calls
  have hconserved : List.Perm _ (_ ++ queuedAfter cap calls) := LevelQueue.conserved calls
  obtain ⟨hpop, -⟩ := h.tryPop
  constructor
  · exact hanswers
  · rw [hanswers, LevelQueue.accepted_map]
    exact hsublist
  · rw [hanswers, LevelQueue.accepted_map, LevelQueue.popped_map]
    rw [List.append_nil] at hconserved
    have := hconserved.map some
    rwa [List.map_append] at this
  · intro result hresult
    rw [hpop, Option.map_eq_some_iff] at hresult
    obtain ⟨trade, htrade, rfl⟩ := hresult
    obtain ⟨older, newer, hq, hrest, hleast, holder⟩ := LevelQueue.tryPop_eq_some htrade
    refine ⟨older, trade, newer, rfl, hq, LevelQueue.isLeast_iff.mp hleast, ?_, ?_⟩
    · intro t ht
      exact LevelQueue.lt_of_not_isLeast hleast (by rw [hq]; simp [ht]) (holder t ht)
    · rw [queuedAfter, runCalls_concat]
      exact hrest
  · rw [hpop, Option.map_eq_none_iff, LevelQueue.tryPop_eq_none_iff]
    rfl
  · intro trade
    rw [h.tryPush_eq_false_iff, countP_level]
    rfl
  · intro trade hrefused
    rw [h.tryPush_full ((h.tryPush_eq_false_iff trade).mp hrefused)]
  · exact h.size_eq
  · exact h.isEmpty_iff

end Runs

end PriorityTradeQueue

end Core
end CryptoHft
