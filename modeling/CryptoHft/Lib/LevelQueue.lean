import CryptoHft.Lib.Runs
import Mathlib.Data.List.Find
import Mathlib.Data.List.MinMax
import Mathlib.Data.List.Perm.Basic
import Mathlib.Order.Basic

/-!
# Queues with levels

The sequential object behind a queue that serves by level and then by age: a list
with the oldest element first.  `tryPop` takes the first of the elements whose
level is the smallest, and `tryPush` refuses an element when its level has as many
elements as fit.

`tryPop_of_least` describes a pop by the elements of each level, which is what an
implementation with one queue for each level has; `conserved` says that along any
sequence of calls nothing is lost or served twice.
-/

namespace CryptoHft
namespace Lib

universe u v

inductive QueueCall (α : Type u)
  | push (x : α)
  | pop

inductive QueueAnswer (β : Type u)
  | pushed (result : Bool)
  | popped (result : Option β)

def QueueAnswer.map {β : Type u} {γ : Type v} (f : β → γ) : QueueAnswer β → QueueAnswer γ
  | .pushed result => .pushed result
  | .popped result => .popped (result.map f)

namespace LevelQueue

section Answers

variable {α : Type u} {β : Type v} {γ : Type*}

/-- The elements that were pushed and not refused. -/
def accepted : List (QueueCall α) → List (QueueAnswer β) → List α
  | .push x :: calls, .pushed true :: answers => x :: accepted calls answers
  | _ :: calls, _ :: answers => accepted calls answers
  | _, _ => []

/-- The elements that were popped. -/
def popped : List (QueueAnswer β) → List β
  | .popped (some x) :: answers => x :: popped answers
  | _ :: answers => popped answers
  | [] => []

theorem accepted_map
    (f : β → γ)
    (calls : List (QueueCall α))
    (answers : List (QueueAnswer β)) :
    accepted calls (answers.map (QueueAnswer.map f)) = accepted calls answers := by
  induction calls generalizing answers with
  | nil =>
      simp [accepted]
  | cons c calls ih =>
      cases answers with
      | nil =>
          simp [accepted]
      | cons answer answers =>
          rcases c with x | _ <;> rcases answer with (_ | _) | _ <;>
            simp [QueueAnswer.map, accepted, ih]

theorem popped_map
    (f : β → γ)
    (answers : List (QueueAnswer β)) :
    popped (answers.map (QueueAnswer.map f)) = (popped answers).map f := by
  induction answers with
  | nil =>
      rfl
  | cons answer answers ih =>
      rcases answer with _ | (_ | x) <;> simp [QueueAnswer.map, popped, ih]

end Answers

variable {α : Type u} {κ : Type v} [LinearOrder κ] (level : α → κ)

/-- No element has a smaller level. -/
def isLeast (q : List α) (x : α) : Bool :=
  q.all (fun y => level x ≤ level y)

def tryPush (cap : Nat) (q : List α) (x : α) : Bool × List α :=
  if q.countP (fun y => level y = level x) < cap then (true, q ++ [x]) else (false, q)

def tryPop (q : List α) : Option α × List α :=
  (q.find? (isLeast level q), q.eraseP (isLeast level q))

def call (cap : Nat) (q : List α) : QueueCall α → QueueAnswer α × List α
  | .push x => (.pushed (tryPush level cap q x).1, (tryPush level cap q x).2)
  | .pop => (.popped (tryPop level q).1, (tryPop level q).2)

variable {level} {cap : Nat} {q : List α} {x : α}

theorem isLeast_iff :
    isLeast level q x = true ↔ ∀ y ∈ q, level x ≤ level y := by
  simp [isLeast]

theorem lt_of_not_isLeast
    {y : α}
    (hx : isLeast level q x = true)
    (hmem : y ∈ q)
    (hy : isLeast level q y = false) :
    level x < level y := by
  rw [isLeast_iff] at hx
  refine lt_of_le_of_ne (hx y hmem) ?_
  intro heq
  have hleast : isLeast level q y = true := isLeast_iff.mpr (fun z hz => heq ▸ hx z hz)
  exact Bool.noConfusion (hy.symm.trans hleast)

/-- A list that has elements has a least one. -/
theorem tryPop_eq_none_iff :
    (tryPop level q).1 = none ↔ q = [] := by
  constructor
  · intro hnone
    rw [← List.argmin_eq_none (f := level)]
    cases hmin : q.argmin level with
    | none =>
        rfl
    | some x =>
        have hnot := List.find?_eq_none.mp hnone x (List.argmin_mem hmin)
        exact absurd (isLeast_iff.mpr (fun y hy => List.le_of_mem_argmin hy hmin)) hnot
  · rintro rfl
    rfl

/-- A pop cuts the list at the element it returns. -/
theorem tryPop_eq_some
    (h : (tryPop level q).1 = some x) :
    ∃ older newer, q = older ++ x :: newer ∧ (tryPop level q).2 = older ++ newer ∧
      isLeast level q x = true ∧ ∀ y ∈ older, isLeast level q y = false := by
  obtain ⟨hx, older, newer, hq, holder⟩ := List.find?_eq_some_iff_append.mp h
  have hnone : ∀ y ∈ older, ¬ isLeast level q y = true := by
    intro y hy
    simpa using holder y hy
  refine ⟨older, newer, hq, ?_, hx, fun y hy => by simpa using hnone y hy⟩
  have herase : (older ++ x :: newer).eraseP (isLeast level q) = older ++ newer := by
    rw [List.eraseP_append_right _ hnone, List.eraseP_cons_of_pos hx]
  exact hq ▸ herase

theorem perm_tryPop
    (h : (tryPop level q).1 = some x) :
    List.Perm q (x :: (tryPop level q).2) := by
  obtain ⟨older, newer, hq, hrest, -⟩ := tryPop_eq_some h
  rw [hrest, hq]
  exact List.perm_middle

/-- A pop, seen level by level: `l` is the smallest level with an element. -/
theorem tryPop_of_least
    {l : κ} {rest : List α}
    (hle : ∀ y ∈ q, l ≤ level y)
    (hleast : q.filter (fun y => level y = l) = x :: rest) :
    (tryPop level q).1 = some x ∧
      (tryPop level q).2.filter (fun y => level y = l) = rest ∧
      ∀ l', l' ≠ l → (tryPop level q).2.filter (fun y => level y = l') =
        q.filter (fun y => level y = l') := by
  have hmem : x ∈ q ∧ level x = l := by
    have hfirst : x ∈ q.filter (fun y => level y = l) := by
      rw [hleast]
      exact List.mem_cons_self
    rwa [List.mem_filter, decide_eq_true_iff] at hfirst
  have hiff : ∀ y ∈ q, isLeast level q y = decide (level y = l) := by
    intro y hy
    rw [isLeast, Bool.eq_iff_iff, List.all_eq_true, decide_eq_true_iff]
    constructor
    · intro hall
      have hxy := hall x hmem.1
      rw [decide_eq_true_iff, hmem.2] at hxy
      exact le_antisymm hxy (hle y hy)
    · intro heq z hz
      rw [decide_eq_true_iff, heq]
      exact hle z hz
  have hfind : (tryPop level q).1 = some x := by
    rw [tryPop, List.find?_congr hiff, ← List.head?_filter, hleast]
    rfl
  obtain ⟨older, newer, hq, hrest, -, holder⟩ := tryPop_eq_some hfind
  have hnone : older.filter (fun y => level y = l) = [] := by
    rw [List.filter_eq_nil_iff]
    intro y hy
    rw [← hiff y (by simp [hq, hy]), holder y hy]
    simp
  refine ⟨hfind, ?_, ?_⟩
  · rw [hq, List.filter_append, hnone, List.nil_append,
      List.filter_cons_of_pos (by simpa using hmem.2), List.cons.injEq] at hleast
    rw [hrest, List.filter_append, hnone, List.nil_append, hleast.2]
  · intro l' hne
    have hx : level x ≠ l' := by
      rw [hmem.2]
      exact hne.symm
    rw [hrest, hq, List.filter_append, List.filter_append,
      List.filter_cons_of_neg (by simpa using hx)]

section Runs

/-- Nothing is lost, and nothing is served twice. -/
theorem conserved
    (calls : List (QueueCall α)) :
    List.Perm (accepted calls (runCalls (call level cap) q calls).1 ++ q)
      (popped (runCalls (call level cap) q calls).1 ++ (runCalls (call level cap) q calls).2) := by
  induction calls generalizing q with
  | nil =>
      exact List.Perm.refl _
  | cons c rest ih =>
      cases c with
      | push x =>
          simp only [runCalls, call, tryPush]
          split
          · have hnext := ih (q := q ++ [x])
            refine List.Perm.trans ?_ hnext
            rw [accepted, List.cons_append, ← List.append_assoc]
            exact (List.perm_append_singleton x _).symm
          · exact ih
      | pop =>
          simp only [runCalls, call]
          have hnext := ih (q := (tryPop level q).2)
          cases hpop : (tryPop level q).1 with
          | none =>
              have hall : ∀ y ∈ q, ¬ isLeast level q y = true := by
                simpa [tryPop] using List.find?_eq_none.mp hpop
              have hsame : (tryPop level q).2 = q := List.eraseP_of_forall_not hall
              rw [hsame] at hnext ⊢
              exact hnext
          | some x =>
              simp only [accepted, popped, List.cons_append]
              calc List.Perm (accepted rest _ ++ q) (accepted rest _ ++ (x :: (tryPop level q).2)) :=
                    (perm_tryPop hpop).append_left _
                List.Perm _ (x :: (accepted rest _ ++ (tryPop level q).2)) := List.perm_middle
                List.Perm _ _ := hnext.cons x

/-- The elements that are left are in the order in which they were pushed. -/
theorem sublist_accepted
    (calls : List (QueueCall α)) :
    List.Sublist (runCalls (call level cap) q calls).2
      (q ++ accepted calls (runCalls (call level cap) q calls).1) := by
  induction calls generalizing q with
  | nil =>
      simp [runCalls, accepted]
  | cons c rest ih =>
      cases c with
      | push x =>
          simp only [runCalls, call, tryPush]
          split
          · have hnext := ih (q := q ++ [x])
            rw [List.append_assoc] at hnext
            exact hnext
          · exact ih
      | pop =>
          simp only [runCalls, call]
          refine (ih (q := (tryPop level q).2)).trans ?_
          exact List.eraseP_sublist.append_right _

end Runs

end LevelQueue

end Lib
end CryptoHft
