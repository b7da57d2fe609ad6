import Mathlib.Algebra.GroupWithZero.Nat
import Mathlib.Data.List.Basic
import Mathlib.Data.List.Induction
import Mathlib.Logic.Function.Basic

/-!
# Runs of labelled transition systems

The concurrent components of the platform are modelled as labelled step
relations `step s a t`: the thread and the atomic action are the label `a`,
and a run is any interleaving of labels.  This module holds the two rules that
every safety argument about such a component uses.

* `Reachable.invariant`: what holds initially and is preserved by every step
  holds in every reachable state.  `Reachable.invariant_below` is the same rule
  for invariants that survive only as long as a bound on the run is respected.
* `Execution.forall_states_iff`: when a guard decides whether a property
  survives a step, the property holds along a run exactly if all steps of the
  run meet the guard.  `Execution.forall_steps_iff` is the same rule with an
  invariant of its own and a property of the steps.

`Execution.potential` bounds what the steps of a run cost in all.

Step functions with values in `Option` are read as step relations by `Steps`,
and `runActions` evaluates such a function along a list of labels.  An object that
is called by one thread is a function from a call to an answer and the next state;
`runCalls_simulation` compares two of them.  In a family of machines one makes a step
at a time, `stepAt`.
-/

namespace CryptoHft
namespace Lib

universe u v

section Runs

variable {σ : Type u} {ℓ : Type v}

/-- States reachable from `s₀` along a labelled step relation. -/
inductive Reachable (step : σ → ℓ → σ → Prop) (s₀ : σ) : σ → Prop
  | init : Reachable step s₀ s₀
  | tail {s t : σ} {a : ℓ}
      (hs : Reachable step s₀ s)
      (ha : step s a t) :
      Reachable step s₀ t

/-- Finite executions, with the state before each step and its label. -/
inductive Execution (step : σ → ℓ → σ → Prop) (s₀ : σ) :
    List (σ × ℓ) → σ → Prop
  | init : Execution step s₀ [] s₀
  | tail {trace : List (σ × ℓ)} {s t : σ} {a : ℓ}
      (hs : Execution step s₀ trace s)
      (ha : step s a t) :
      Execution step s₀ (trace ++ [(s, a)]) t

/-- The step relation of a partial step function. -/
def Steps (f : σ → ℓ → Option σ) : σ → ℓ → σ → Prop :=
  fun s a t => f s a = some t

/-- A step relation restricted to the steps that meet a guard. -/
def Guarded (step : σ → ℓ → σ → Prop) (ok : σ → ℓ → Prop) :
    σ → ℓ → σ → Prop :=
  fun s a t => step s a t ∧ ok s a

/-- Evaluate a partial step function along a list of labels. -/
def runActions (f : σ → ℓ → Option σ) : σ → List ℓ → Option σ
  | s, [] => some s
  | s, a :: rest => (f s a).bind (fun t => runActions f t rest)

/-- The same, with the states on the way. -/
def runTrace (f : σ → ℓ → Option σ) : σ → List ℓ → Option (List (σ × ℓ) × σ)
  | s, [] => some ([], s)
  | s, a :: rest =>
      (f s a).bind (fun t => (runTrace f t rest).map (fun p => ((s, a) :: p.1, p.2)))

/-- A partial step function restricted to the steps that meet a decidable guard. -/
def guardActions (f : σ → ℓ → Option σ) (ok : σ → ℓ → Prop) [∀ s a, Decidable (ok s a)] :
    σ → ℓ → Option σ :=
  fun s a => if ok s a then f s a else none

theorem guarded_of_guardActions
    {f : σ → ℓ → Option σ} {ok : σ → ℓ → Prop} [∀ s a, Decidable (ok s a)]
    {s t : σ} {a : ℓ}
    (h : guardActions f ok s a = some t) :
    Guarded (Steps f) ok s a t := by
  by_cases hguard : ok s a
  · rw [guardActions, if_pos hguard] at h
    exact ⟨h, hguard⟩
  · rw [guardActions, if_neg hguard] at h
    cases h

variable {step : σ → ℓ → σ → Prop} {s₀ : σ}

namespace Reachable

/-- The invariant rule. -/
theorem invariant
    {P : σ → Prop}
    (hinit : P s₀)
    (hstep : ∀ s a t, P s → step s a t → P t)
    {s : σ}
    (hs : Reachable step s₀ s) :
    P s := by
  induction hs with
  | init =>
      exact hinit
  | tail _ ha ih =>
      exact hstep _ _ _ ih ha

/--
The invariant rule below a bound: `B` is inherited by earlier states, and only
steps that stay within `B` have to preserve the invariant.
-/
theorem invariant_below
    {P B : σ → Prop}
    (hinit : P s₀)
    (hbound : ∀ s a t, step s a t → B t → B s)
    (hstep : ∀ s a t, P s → step s a t → B t → P t)
    {s : σ}
    (hs : Reachable step s₀ s)
    (hB : B s) :
    P s := by
  induction hs with
  | init =>
      exact hinit
  | tail _ ha ih =>
      exact hstep _ _ _ (ih (hbound _ _ _ ha hB)) ha hB

/-- Reachability composes. -/
theorem trans
    {s t : σ}
    (hs : Reachable step s₀ s)
    (ht : Reachable step s t) :
    Reachable step s₀ t := by
  induction ht with
  | init =>
      exact hs
  | tail _ ha ih =>
      exact ih.tail ha

/-- Evaluating a step function reaches its result. -/
theorem of_runActions
    {f : σ → ℓ → Option σ} :
    ∀ {s t : σ} (as : List ℓ),
      Reachable (Steps f) s₀ s →
      runActions f s as = some t →
      Reachable (Steps f) s₀ t
  | s, t, [], hs, h => by
      simp only [runActions, Option.some.injEq] at h
      subst h
      exact hs
  | s, t, a :: rest, hs, h => by
      obtain ⟨q, hq, hrest⟩ := Option.bind_eq_some_iff.mp h
      exact of_runActions rest (hs.tail hq) hrest

/-- The same, for an observation of the final state that can be decided. -/
theorem exists_of_runActions
    {β : Type*} {f : σ → ℓ → Option σ} {g : σ → β} {b : β} {as : List ℓ}
    (h : (runActions f s₀ as).map g = some b) :
    ∃ t, Reachable (Steps f) s₀ t ∧ g t = b := by
  obtain ⟨t, ht, hb⟩ := Option.map_eq_some_iff.mp h
  exact ⟨t, of_runActions as Reachable.init ht, hb⟩

/-- Evaluating a step function along labels that all meet a guard. -/
theorem guarded_of_runActions
    {f : σ → ℓ → Option σ} {ok : ℓ → Prop} :
    ∀ {s t : σ} (as : List ℓ),
      Reachable (Guarded (Steps f) (fun _ a => ok a)) s₀ s →
      (∀ a ∈ as, ok a) →
      runActions f s as = some t →
      Reachable (Guarded (Steps f) (fun _ a => ok a)) s₀ t
  | s, t, [], hs, _, h => by
      simp only [runActions, Option.some.injEq] at h
      subst h
      exact hs
  | s, t, a :: rest, hs, hok, h => by
      rw [List.forall_mem_cons] at hok
      obtain ⟨q, hq, hrest⟩ := Option.bind_eq_some_iff.mp h
      exact guarded_of_runActions rest (hs.tail ⟨hq, hok.1⟩) hok.2 hrest

/-- A run that meets a guard is a run. -/
theorem of_guarded
    {ok : σ → ℓ → Prop} {s : σ}
    (hs : Reachable (Guarded step ok) s₀ s) :
    Reachable step s₀ s := by
  induction hs with
  | init =>
      exact .init
  | tail _ ha ih =>
      exact ih.tail ha.1

/-- Evaluating a guarded step function stays within the guard. -/
theorem exists_of_guardActions
    {β : Type*} {f : σ → ℓ → Option σ} {ok : σ → ℓ → Prop} [∀ s a, Decidable (ok s a)]
    {g : σ → β} {b : β} {as : List ℓ}
    (h : (runActions (guardActions f ok) s₀ as).map g = some b) :
    ∃ t, Reachable (Guarded (Steps f) ok) s₀ t ∧ g t = b := by
  obtain ⟨t, ht, hb⟩ := exists_of_runActions h
  refine ⟨t, ?_, hb⟩
  clear hb h
  induction ht with
  | init =>
      exact .init
  | tail _ ha ih =>
      exact ih.tail (guarded_of_guardActions ha)

end Reachable

namespace Execution

/--
The exact rule.  `I` implies `P` and survives the steps that meet the guard, all
of which have the property `Q`; a step from `I` that has `Q` and leads to `P`
meets the guard.  Then `P` holds in every state and `Q` of every step of an
execution exactly if every step of the execution meets the guard.
-/
theorem forall_steps_iff
    {I P : σ → Prop} {Q ok : σ → ℓ → Prop}
    (hinit : I s₀)
    (hP : ∀ s, I s → P s)
    (hok : ∀ s a t, I s → step s a t → ok s a → Q s a ∧ I t)
    (hbad : ∀ s a t, I s → step s a t → Q s a → P t → ok s a)
    {trace : List (σ × ℓ)} {s : σ}
    (hrun : Execution step s₀ trace s) :
    ((∀ p ∈ trace, P p.1 ∧ Q p.1 p.2) ∧ P s) ↔ ∀ p ∈ trace, ok p.1 p.2 := by
  -- a guarded execution stays within `I`
  have hinv : ∀ {trace : List (σ × ℓ)} {s : σ}, Execution step s₀ trace s →
      (∀ p ∈ trace, ok p.1 p.2) → I s := by
    intro trace s hrun
    induction hrun with
    | init =>
        intro _
        exact hinit
    | @tail trace s t a hs ha ih =>
        intro hall
        have hs' := ih (fun q hq => hall q (by simp [hq]))
        exact (hok s a t hs' ha (hall (s, a) (by simp))).2
  induction hrun with
  | init =>
      simp [hP _ hinit]
  | @tail trace s t a hs ha ih =>
      simp only [List.forall_mem_append, List.forall_mem_singleton]
      constructor
      · rintro ⟨⟨hall, hsP, hsQ⟩, ht⟩
        have hguards := ih.mp ⟨hall, hsP⟩
        exact ⟨hguards, hbad s a t (hinv hs hguards) ha hsQ ht⟩
      · rintro ⟨hguards, hguard⟩
        obtain ⟨hall, hsP⟩ := ih.mpr hguards
        obtain ⟨hsQ, ht⟩ := hok s a t (hinv hs hguards) ha hguard
        exact ⟨⟨hall, hsP, hsQ⟩, hP t ht⟩

/--
If, in reachable states where `P` holds, `P` survives a step exactly if the step
meets the guard, then `P` holds in every state of an execution exactly if every
step of the execution meets the guard.
-/
theorem forall_states_iff
    {P : σ → Prop} {ok : σ → ℓ → Prop}
    (hinit : P s₀)
    (hstep : ∀ s a t, Reachable step s₀ s → P s → step s a t → (P t ↔ ok s a))
    {trace : List (σ × ℓ)} {s : σ}
    (hrun : Execution step s₀ trace s) :
    ((∀ p ∈ trace, P p.1) ∧ P s) ↔ ∀ p ∈ trace, ok p.1 p.2 := by
  have hok : ∀ s a t, (Reachable step s₀ s ∧ P s) → step s a t → ok s a →
      True ∧ Reachable step s₀ t ∧ P t := by
    intro s a t h ha hguard
    exact ⟨trivial, h.1.tail ha, (hstep s a t h.1 h.2 ha).mpr hguard⟩
  have hbad : ∀ s a t, (Reachable step s₀ s ∧ P s) → step s a t → True → P t → ok s a := by
    intro s a t h ha _ ht
    exact (hstep s a t h.1 h.2 ha).mp ht
  have hrule := forall_steps_iff ⟨Reachable.init, hinit⟩ (fun _ h => h.2) hok hbad hrun
  simpa using hrule

theorem reachable
    {trace : List (σ × ℓ)} {s : σ}
    (hrun : Execution step s₀ trace s) :
    Reachable step s₀ s := by
  induction hrun with
  | init =>
      exact .init
  | tail _ ha ih =>
      exact ih.tail ha

/-- Executions can be cut at any step. -/
theorem split
    {after : List (σ × ℓ)} {before : List (σ × ℓ)} {s : σ}
    (hrun : Execution step s₀ (before ++ after) s) :
    ∃ t, Execution step s₀ before t ∧ Execution step t after s := by
  induction after using List.reverseRecOn generalizing s with
  | nil =>
      rw [List.append_nil] at hrun
      exact ⟨s, hrun, .init⟩
  | append_singleton after p ih =>
      rw [← List.append_assoc] at hrun
      generalize htrace : before ++ after ++ [p] = trace at hrun
      cases hrun with
      | init =>
          simp at htrace
      | tail hs ha =>
          obtain ⟨rfl, rfl⟩ := List.append_singleton_inj.mp htrace
          obtain ⟨t, hbefore, hafter⟩ := ih hs
          exact ⟨t, hbefore, hafter.tail ha⟩

/-- An execution that ends within a bound stays within it, if earlier states inherit it. -/
theorem within_bound
    {B : σ → Prop}
    (hbound : ∀ s a t, step s a t → B t → B s)
    {trace : List (σ × ℓ)} {s : σ}
    (hrun : Execution step s₀ trace s)
    (hB : B s) :
    Execution (fun s a t => step s a t ∧ B t) s₀ trace s := by
  induction hrun with
  | init =>
      exact .init
  | tail _ ha ih =>
      exact (ih (hbound _ _ _ ha hB)).tail ⟨ha, hB⟩

/-- An execution that ends within a bound starts within it. -/
theorem bound_first
    {B : σ → Prop}
    (hbound : ∀ s a t, step s a t → B t → B s)
    {trace : List (σ × ℓ)} {s : σ}
    (hrun : Execution step s₀ trace s)
    (hB : B s) :
    B s₀ := by
  induction hrun with
  | init =>
      exact hB
  | tail _ ha ih =>
      exact ih (hbound _ _ _ ha hB)

/-- What every step can only let grow lies, in every state of an execution, between its first
and its last value. -/
theorem grows
    {R : σ → σ → Prop}
    (hrefl : ∀ s, R s s)
    (htrans : ∀ s t u, R s t → R t u → R s u)
    (hstep : ∀ s a t, step s a t → R s t)
    {trace : List (σ × ℓ)} {s : σ}
    (hrun : Execution step s₀ trace s) :
    R s₀ s ∧ ∀ p ∈ trace, R s₀ p.1 ∧ R p.1 s := by
  induction hrun with
  | init =>
      exact ⟨hrefl s₀, by simp⟩
  | @tail trace s t a hs ha ih =>
      obtain ⟨hfirst, hall⟩ := ih
      have hlast := hstep s a t ha
      refine ⟨htrans _ _ _ hfirst hlast, ?_⟩
      simp only [List.forall_mem_append, List.forall_mem_singleton]
      refine ⟨?_, hfirst, hlast⟩
      intro p hp
      exact ⟨(hall p hp).1, htrans _ _ _ (hall p hp).2 hlast⟩

/-- What the steps of an execution cost, or bring, in all. -/
def total (amount : σ → ℓ → Nat) (trace : List (σ × ℓ)) : Nat :=
  (trace.map (fun p => amount p.1 p.2)).sum

theorem total_concat
    (amount : σ → ℓ → Nat)
    (trace : List (σ × ℓ))
    (s : σ)
    (a : ℓ) :
    total amount (trace ++ [(s, a)]) = total amount trace + amount s a := by
  simp [total]

/--
The potential rule.  If every step pays for its cost out of the potential and what it
brings, so does an execution.
-/
theorem potential
    (Φ : σ → Nat) (cost credit : σ → ℓ → Nat) (ok : σ → ℓ → Prop)
    {I : σ → Prop}
    (hinit : I s₀)
    (hkeeps : ∀ s a t, I s → step s a t → ok s a → I t)
    (hstep : ∀ s a t, I s → step s a t → ok s a → Φ t + cost s a ≤ Φ s + credit s a)
    {trace : List (σ × ℓ)} {s : σ}
    (hrun : Execution step s₀ trace s)
    (hok : ∀ p ∈ trace, ok p.1 p.2) :
    I s ∧ Φ s + total cost trace ≤ Φ s₀ + total credit trace := by
  induction hrun with
  | init =>
      exact ⟨hinit, Nat.le_refl _⟩
  | @tail trace s t a hs ha ih =>
      obtain ⟨hI, hbound⟩ := ih (fun p hp => hok p (List.mem_append_left _ hp))
      have hlabel := hok (s, a) (by simp)
      refine ⟨hkeeps s a t hI ha hlabel, ?_⟩
      have hlast := hstep s a t hI ha hlabel
      rw [total_concat, total_concat]
      omega

/-- The potential rule where nothing is brought: the potential pays for all steps. -/
theorem measure
    (Φ : σ → Nat) (cost : σ → ℓ → Nat) (ok : σ → ℓ → Prop)
    {I : σ → Prop}
    (hinit : I s₀)
    (hkeeps : ∀ s a t, I s → step s a t → ok s a → I t)
    (hstep : ∀ s a t, I s → step s a t → ok s a → Φ t + cost s a ≤ Φ s)
    {trace : List (σ × ℓ)} {s : σ}
    (hrun : Execution step s₀ trace s)
    (hok : ∀ p ∈ trace, ok p.1 p.2) :
    I s ∧ Φ s + total cost trace ≤ Φ s₀ := by
  have hrule := potential Φ cost (fun _ _ => 0) ok hinit hkeeps hstep hrun hok
  have hnone : total (fun (_ : σ) (_ : ℓ) => 0) trace = 0 := by
    simp [total]
  rwa [hnone] at hrule

/-- Evaluating a step function gives an execution. -/
theorem of_runTrace
    {f : σ → ℓ → Option σ} :
    ∀ {s t : σ} {before after : List (σ × ℓ)} (as : List ℓ),
      Execution (Steps f) s₀ before s →
      runTrace f s as = some (after, t) →
      Execution (Steps f) s₀ (before ++ after) t
  | s, t, before, after, [], hs, h => by
      simp only [runTrace, Option.some.injEq, Prod.mk.injEq] at h
      obtain ⟨rfl, rfl⟩ := h
      rwa [List.append_nil]
  | s, t, before, after, a :: rest, hs, h => by
      obtain ⟨q, hq, hrest⟩ := Option.bind_eq_some_iff.mp h
      obtain ⟨⟨later, u⟩, hlater, heq⟩ := Option.map_eq_some_iff.mp hrest
      obtain ⟨rfl, rfl⟩ := Prod.mk.inj heq
      have hrun := of_runTrace rest (hs.tail hq) hlater
      rwa [List.append_assoc] at hrun

/-- Evaluating a guarded step function gives an execution that meets the guard. -/
theorem exists_of_guardActions
    {β : Type*} {f : σ → ℓ → Option σ} {ok : σ → ℓ → Prop} [∀ s a, Decidable (ok s a)]
    {g : σ → β} {b : β} :
    ∀ {s : σ} {trace : List (σ × ℓ)} (as : List ℓ),
      Execution (Steps f) s₀ trace s →
      (∀ p ∈ trace, ok p.1 p.2) →
      (runActions (guardActions f ok) s as).map g = some b →
      ∃ trace' t, Execution (Steps f) s₀ trace' t ∧
        (∀ p ∈ trace', ok p.1 p.2) ∧ g t = b
  | s, trace, [], hs, hok, h => by
      simp only [runActions, Option.map_some, Option.some.injEq] at h
      exact ⟨trace, s, hs, hok, h⟩
  | s, trace, a :: rest, hs, hok, h => by
      obtain ⟨t, ht, hb⟩ := Option.map_eq_some_iff.mp h
      obtain ⟨q, hq, hrest⟩ := Option.bind_eq_some_iff.mp ht
      obtain ⟨hstep, hguard⟩ := guarded_of_guardActions hq
      refine exists_of_guardActions rest (hs.tail hstep) ?_
        (Option.map_eq_some_iff.mpr ⟨t, hrest, hb⟩)
      intro p hp
      rcases List.mem_append.mp hp with hp | hp
      · exact hok p hp
      · rw [List.mem_singleton.mp hp]
        exact hguard

end Execution

end Runs

section Families

variable {σ : Type u} {ℓ : Type v} {κ : Type*} [DecidableEq κ]

/-- One machine of a family makes a step. -/
def stepAt (f : σ → ℓ → Option σ) (s : κ → σ) (k : κ) (a : ℓ) : Option (κ → σ) :=
  (f (s k) a).map (Function.update s k)

end Families

section Calls

variable {σ : Type u} {τ : Type*} {ι : Type*} {ο : Type v} {ο' : Type*}

/-- A sequence of calls of a sequential object: the answers and the last state. -/
def runCalls (call : σ → ι → ο × σ) : σ → List ι → List ο × σ
  | s, [] => ([], s)
  | s, i :: rest =>
      let (answer, t) := call s i
      let (answers, u) := runCalls call t rest
      (answer :: answers, u)

theorem runCalls_concat
    (call : σ → ι → ο × σ)
    (s : σ)
    (calls : List ι)
    (i : ι) :
    (runCalls call s (calls ++ [i])).2 = (call (runCalls call s calls).2 i).2 := by
  induction calls generalizing s with
  | nil =>
      rfl
  | cons j rest ih =>
      exact ih (call s j).2

/-- The simulation rule for sequential objects: from related states each call answers as the
call of the other object does. -/
theorem runCalls_simulation
    {call : σ → ι → ο × σ} {call' : τ → ι → ο' × τ} {R : σ → τ → Prop} {view : ο' → ο}
    (hcall : ∀ s t i, R s t → (call s i).1 = view (call' t i).1 ∧ R (call s i).2 (call' t i).2)
    {s : σ} {t : τ}
    (h : R s t)
    (calls : List ι) :
    (runCalls call s calls).1 = (runCalls call' t calls).1.map view ∧
      R (runCalls call s calls).2 (runCalls call' t calls).2 := by
  induction calls generalizing s t with
  | nil =>
      exact ⟨rfl, h⟩
  | cons i rest ih =>
      obtain ⟨hanswer, hnext⟩ := hcall s t i h
      obtain ⟨hanswers, hlast⟩ := ih hnext
      refine ⟨?_, hlast⟩
      simp only [runCalls, hanswer, hanswers, List.map_cons]

end Calls

section Folds

variable {σ : Type u} {ι : Type*} {β : Type*}

/-- A part of the state that each step overwrites or keeps holds what was written last. -/
theorem view_foldl
    {apply : σ → ι → σ} (view : σ → Option β) {written : ι → Option β}
    (hstep : ∀ s i, view (apply s i) = (written i).or (view s))
    (s : σ)
    (is : List ι) :
    view (is.foldl apply s) = (is.filterMap written).getLast?.or (view s) := by
  induction is generalizing s with
  | nil =>
      rfl
  | cons i rest ih =>
      rw [List.foldl_cons, ih, hstep, ← Option.or_assoc]
      congr 1
      cases hi : written i with
      | none => rw [List.filterMap_cons_none hi, Option.or_none]
      | some b =>
          rw [List.filterMap_cons_some hi, List.getLast?_cons]
          cases (rest.filterMap written).getLast? <;> rfl

end Folds

end Lib
end CryptoHft
