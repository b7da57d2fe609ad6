import CryptoHft.Core.OrderExecutor
import CryptoHft.Lib.Runs

/-!
# The execution loop of `OrderExecutor`

`include/core/order_executor.hpp`, lines 113-207, with `send_order` of
`include/exchange/websocket_client.hpp`.  Strategy threads call `submit_trade`,
the executor thread runs `execution_loop`, and the connection sets and clears
`authenticated_`; a step is one atomic action of one of them.  `try_pop` may find
nothing although the queue is not empty, because the oldest trade has been
claimed by its producer and not published yet.

An accepted trade is in the queue, held by the loop, or handed to `async_send`.
Two steps of the loop can lose it: the re-push of a refused trade into a queue
that has become full, and `send_order` on a connection that is no longer
authenticated.  `accounted_iff` says that these are all.
-/

namespace CryptoHft
namespace Core

open Lib

/-- The points of `execution_loop`. -/
inductive LoopPc (R : Type)
  | checkRunning
  | checkAuthenticated
  | tryPop
  | tryAcquire (trade : Trade R)
  | rePush (trade : Trade R)
  | sendOrder (trade : Trade R)
  | asyncSend (trade : Trade R)
  | countSent
  | exited

/-- The points of `submit_trade`. -/
inductive SubmitPc (κ R : Type)
  | idle
  | checkRunning (trade : Trade R) (callback : Option κ)
  | register (trade : Trade R) (callback : Option κ)
  | tryPush (trade : Trade R)
  | returned (result : Bool)

/-- The trade that the loop holds. -/
def LoopPc.held {R : Type} : LoopPc R → List (Trade R)
  | .tryAcquire trade => [trade]
  | .rePush trade => [trade]
  | .sendOrder trade => [trade]
  | .asyncSend trade => [trade]
  | .checkRunning => []
  | .checkAuthenticated => []
  | .tryPop => []
  | .countSent => []
  | .exited => []

/--
The executor with its threads.  `accepted` records the trades of successful
`submit_trade` calls, `handed` the trades given to `async_send`.
-/
structure RunningExecutor (ι κ R : Type) where
  executor : OrderExecutor κ R
  authenticated : Bool
  loop : LoopPc R
  submitters : ι → SubmitPc κ R
  errors : Nat
  accepted : List (Trade R)
  handed : List (Trade R)

/--
The atomic actions.  A step of the loop comes with the clock reading for the rate
limiter, and with whether `try_pop` finds the oldest trade unpublished.
-/
inductive ExecutorAction (ι κ R : Type)
  | start
  | stop
  | setAuthenticated (authenticated : Bool)
  | callSubmit (i : ι) (trade : Trade R) (callback : Option κ)
  | submit (i : ι)
  | loop (ms : Int) (unpublished : Bool)

namespace RunningExecutor

variable {ι κ R : Type}

def create : RunningExecutor ι κ R where
  executor := .create
  authenticated := false
  loop := .exited
  submitters _ := .idle
  errors := 0
  accepted := []
  handed := []

/-- One step of `execution_loop`. -/
def loopStep (s : RunningExecutor ι κ R) (ms : Int) (unpublished : Bool) :
    Option (RunningExecutor ι κ R) :=
  match s.loop with
  | .checkRunning =>
      some { s with loop := if s.executor.running then .checkAuthenticated else .exited }
  | .checkAuthenticated =>
      some { s with loop := if s.authenticated then .tryPop else .checkRunning }
  | .tryPop =>
      match if unpublished then none else BoundedFifo.tryPop s.executor.tradeQueue with
      | none => some { s with loop := .checkRunning }
      | some (trade, queue) =>
          some { s with
            executor := { s.executor with tradeQueue := queue }
            loop := .tryAcquire trade }
  | .tryAcquire trade =>
      let (granted, limiter) := s.executor.rateLimiter.tryAcquire ms
      some { s with
        executor := { s.executor with rateLimiter := limiter }
        loop := if granted then .sendOrder trade else .rePush trade }
  | .rePush trade =>
      some { s with
        executor := (s.executor.tryPush trade).2
        loop := .checkRunning }
  | .sendOrder trade =>
      if s.authenticated then
        some { s with loop := .asyncSend trade }
      else
        some { s with errors := s.errors + 1, loop := .countSent }
  | .asyncSend trade =>
      some { s with handed := s.handed ++ [trade], loop := .countSent }
  | .countSent =>
      some { s with
        executor := { s.executor with ordersSent := s.executor.ordersSent + 1 }
        loop := .tryPop }
  | .exited => none

/-- The loop does not touch the pending orders. -/
theorem pendingOrders_loopStep
    {s t : RunningExecutor ι κ R} {ms : Int} {unpublished : Bool}
    (h : s.loopStep ms unpublished = some t) :
    t.executor.pendingOrders = s.executor.pendingOrders := by
  unfold loopStep at h
  cases hloop : s.loop with
  | exited =>
      simp [hloop] at h
  | checkRunning | checkAuthenticated | tryAcquire | rePush | asyncSend | countSent =>
      simp only [hloop, Option.some.injEq] at h
      subst h
      rfl
  | tryPop =>
      simp only [hloop] at h
      split at h
      · cases h
        rfl
      · cases h
        rfl
  | sendOrder trade =>
      simp only [hloop] at h
      split at h
      · cases h
        rfl
      · cases h
        rfl

/-- Where accepted trades can be. -/
def places (s : RunningExecutor ι κ R) : List (Trade R) :=
  s.executor.tradeQueue ++ s.loop.held ++ s.handed

/-- Every accepted trade is in exactly one place, and nothing else is. -/
def Accounted (s : RunningExecutor ι κ R) : Prop :=
  s.accepted.Perm s.places

/--
The loop puts a refused trade back only while the queue has room, and reaches the
check of `send_order` only while the connection is authenticated.
-/
def KeepsTrade (s : RunningExecutor ι κ R) : ExecutorAction ι κ R → Prop
  | .loop _ _ =>
      match s.loop with
      | .rePush _ => s.executor.tradeQueue.length < OrderExecutor.queueCapacity
      | .sendOrder _ => s.authenticated = true
      | _ => True
  | _ => True

variable {s t : RunningExecutor ι κ R}

/-- A step that moves trades between places only. -/
theorem Accounted.of_perm
    (h : s.Accounted)
    (haccepted : t.accepted = s.accepted)
    (hplaces : s.places.Perm t.places) :
    t.Accounted := by
  unfold Accounted
  rw [haccepted]
  exact h.trans hplaces

/-- A step that drops a trade. -/
theorem Accounted.not_of_length
    (h : s.Accounted)
    (haccepted : t.accepted = s.accepted)
    (hplaces : t.places.length < s.places.length) :
    ¬ t.Accounted := by
  intro ht
  have hs := h.length_eq
  have htl := ht.length_eq
  rw [haccepted] at htl
  omega

/-- A step of the loop keeps all trades accounted for exactly if it keeps its trade. -/
theorem accounted_loopStep_iff
    (h : s.Accounted)
    {ms : Int} {unpublished : Bool}
    (hstep : s.loopStep ms unpublished = some t) :
    t.Accounted ↔ s.KeepsTrade (.loop ms unpublished) := by
  unfold loopStep at hstep
  cases hloop : s.loop with
  | exited =>
      simp [hloop] at hstep
  | checkRunning =>
      simp only [hloop, Option.some.injEq] at hstep
      subst hstep
      simp only [KeepsTrade, hloop, iff_true]
      refine h.of_perm rfl ?_
      simp only [places, hloop]
      split <;> exact List.Perm.refl _
  | checkAuthenticated =>
      simp only [hloop, Option.some.injEq] at hstep
      subst hstep
      simp only [KeepsTrade, hloop, iff_true]
      refine h.of_perm rfl ?_
      simp only [places, hloop]
      split <;> exact List.Perm.refl _
  | tryPop =>
      simp only [hloop] at hstep
      simp only [KeepsTrade, hloop, iff_true]
      split at hstep
      · cases hstep
        refine h.of_perm rfl ?_
        simp only [places, hloop]
        exact List.Perm.refl _
      · rename_i trade queue hpop
        cases hstep
        refine h.of_perm rfl ?_
        have hqueue : s.executor.tradeQueue = trade :: queue := by
          split at hpop
          · cases hpop
          · exact BoundedFifo.eq_cons_of_tryPop hpop
        simp only [places, hloop, hqueue, LoopPc.held, List.append_nil]
        refine List.Perm.append_right _ ?_
        exact (List.perm_append_singleton trade queue).symm
  | tryAcquire trade =>
      simp only [hloop, Option.some.injEq] at hstep
      subst hstep
      simp only [KeepsTrade, hloop, iff_true]
      refine h.of_perm rfl ?_
      simp only [places, hloop]
      split <;> exact List.Perm.refl _
  | rePush trade =>
      simp only [hloop, Option.some.injEq] at hstep
      subst hstep
      simp only [KeepsTrade, hloop]
      by_cases hroom : s.executor.tradeQueue.length < OrderExecutor.queueCapacity
      · refine iff_of_true (h.of_perm rfl ?_) hroom
        simp only [places, hloop, LoopPc.held, OrderExecutor.tryPush,
          BoundedFifo.tryPush_of_lt hroom, List.append_nil]
        exact List.Perm.refl _
      · refine iff_of_false (h.not_of_length rfl ?_) hroom
        simp only [places, hloop, LoopPc.held, OrderExecutor.tryPush,
          BoundedFifo.tryPush_of_le (not_lt.mp hroom), List.length_append, List.length_nil,
          List.length_singleton]
        omega
  | sendOrder trade =>
      simp only [hloop] at hstep
      simp only [KeepsTrade, hloop]
      by_cases hauth : s.authenticated = true
      · simp only [hauth, if_true, Option.some.injEq] at hstep
        subst hstep
        refine iff_of_true (h.of_perm rfl ?_) hauth
        simp only [places, hloop, LoopPc.held]
        exact List.Perm.refl _
      · simp only [hauth, if_false, Bool.false_eq_true, Option.some.injEq] at hstep
        subst hstep
        refine iff_of_false (h.not_of_length rfl ?_) hauth
        simp only [places, hloop, LoopPc.held, List.length_append, List.length_nil,
          List.length_singleton]
        omega
  | asyncSend trade =>
      simp only [hloop, Option.some.injEq] at hstep
      subst hstep
      simp only [KeepsTrade, hloop, iff_true]
      refine h.of_perm rfl ?_
      simp only [places, hloop, LoopPc.held, List.append_nil, List.append_assoc]
      exact List.Perm.append_left _ List.perm_append_comm
  | countSent =>
      simp only [hloop, Option.some.injEq] at hstep
      subst hstep
      simp only [KeepsTrade, hloop, iff_true]
      refine h.of_perm rfl ?_
      simp only [places, hloop]
      exact List.Perm.refl _

section Threads

variable [DecidableEq ι]

def setSubmitter (s : RunningExecutor ι κ R) (i : ι) (pc : SubmitPc κ R) :
    RunningExecutor ι κ R :=
  { s with submitters := Function.update s.submitters i pc }

/-- One step of `submit_trade`. -/
def submitStep (s : RunningExecutor ι κ R) (i : ι) : Option (RunningExecutor ι κ R) :=
  match s.submitters i with
  | .idle => none
  | .checkRunning trade callback =>
      if s.executor.running then some (s.setSubmitter i (.register trade callback))
      else some (s.setSubmitter i (.returned false))
  | .register trade callback =>
      some { s.setSubmitter i (.tryPush trade) with
        executor := s.executor.register trade callback }
  | .tryPush trade =>
      let (pushed, executor) := s.executor.tryPush trade
      some { s.setSubmitter i (.returned pushed) with
        executor := executor
        accepted := if pushed then s.accepted ++ [trade] else s.accepted }
  | .returned _ => none

def step (s : RunningExecutor ι κ R) : ExecutorAction ι κ R → Option (RunningExecutor ι κ R)
  | .start =>
      match s.loop with
      | .exited => some { s with executor := s.executor.start, loop := .checkRunning }
      | _ => none
  | .stop => some { s with executor := { s.executor with running := false } }
  | .setAuthenticated authenticated => some { s with authenticated := authenticated }
  | .callSubmit i trade callback =>
      match s.submitters i with
      | .idle => some (s.setSubmitter i (.checkRunning trade callback))
      | .returned _ => some (s.setSubmitter i (.checkRunning trade callback))
      | _ => none
  | .submit i => s.submitStep i
  | .loop ms unpublished => s.loopStep ms unpublished

theorem Accounted.submitStep
    (h : s.Accounted)
    {i : ι}
    (hstep : s.submitStep i = some t) :
    t.Accounted := by
  unfold RunningExecutor.submitStep at hstep
  cases hpc : s.submitters i with
  | idle | returned =>
      simp [hpc] at hstep
  | checkRunning trade callback =>
      simp only [hpc] at hstep
      split at hstep
      · cases hstep
        exact h
      · cases hstep
        exact h
  | register trade callback =>
      simp only [hpc, Option.some.injEq] at hstep
      subst hstep
      refine h.of_perm rfl ?_
      cases callback with
      | none =>
          exact List.Perm.refl _
      | some k =>
          exact List.Perm.refl _
  | tryPush trade =>
      simp only [hpc, Option.some.injEq] at hstep
      subst hstep
      by_cases hroom : s.executor.tradeQueue.length < OrderExecutor.queueCapacity
      · simp only [Accounted, places, OrderExecutor.tryPush, BoundedFifo.tryPush_of_lt hroom,
          if_true]
        have hmove : (s.executor.tradeQueue ++ s.loop.held ++ s.handed ++ [trade]).Perm
            (s.executor.tradeQueue ++ [trade] ++ s.loop.held ++ s.handed) := by
          simp only [List.append_assoc]
          refine List.Perm.append_left _ ?_
          rw [← List.append_assoc]
          exact List.perm_append_comm
        exact (h.append_right [trade]).trans hmove
      · simp only [Accounted, places, OrderExecutor.tryPush,
          BoundedFifo.tryPush_of_le (not_lt.mp hroom)]
        exact h

theorem accounted_step_iff
    (h : s.Accounted)
    {a : ExecutorAction ι κ R}
    (hstep : s.step a = some t) :
    t.Accounted ↔ s.KeepsTrade a := by
  cases a with
  | start =>
      simp only [step] at hstep
      split at hstep
      · rename_i hloop
        cases hstep
        refine iff_of_true (h.of_perm rfl ?_) trivial
        simp only [places, hloop]
        exact List.Perm.refl _
      · cases hstep
  | stop =>
      cases hstep
      exact iff_of_true h trivial
  | setAuthenticated authenticated =>
      cases hstep
      exact iff_of_true h trivial
  | callSubmit i trade callback =>
      simp only [step] at hstep
      split at hstep
      · cases hstep
        exact iff_of_true h trivial
      · cases hstep
        exact iff_of_true h trivial
      · cases hstep
  | submit i =>
      exact iff_of_true (h.submitStep hstep) trivial
  | loop ms unpublished =>
      exact accounted_loopStep_iff h hstep

/--
In every state of a run the accepted trades are each in the queue, in the hands
of the loop or handed to `async_send`, exactly if the loop re-pushes refused
trades only while the queue has room and sends only while authenticated.
-/
theorem accounted_iff
    (trace : List (RunningExecutor ι κ R × ExecutorAction ι κ R))
    (s : RunningExecutor ι κ R)
    (hrun : Execution (Steps step) create trace s) :
    ((∀ p ∈ trace, p.1.Accounted) ∧ s.Accounted) ↔ ∀ p ∈ trace, p.1.KeepsTrade p.2 := by
  refine Execution.forall_states_iff ?_ ?_ hrun
  · exact List.Perm.refl _
  · intro s a t _ h hstep
    exact accounted_step_iff h hstep

end Threads

section Disconnect

instance (s : RunningExecutor Unit Unit ℚ) (a : ExecutorAction Unit Unit ℚ) :
    Decidable (s.KeepsTrade a) :=
  match a with
  | .loop _ _ =>
      match h : s.loop with
      | .rePush _ =>
          decidable_of_iff
            (s.executor.tradeQueue.length < OrderExecutor.queueCapacity) (by simp [KeepsTrade, h])
      | .sendOrder _ => decidable_of_iff (s.authenticated = true) (by simp [KeepsTrade, h])
      | .checkRunning | .checkAuthenticated | .tryPop | .tryAcquire _ | .asyncSend _
      | .countSent | .exited => isTrue (by simp [KeepsTrade, h])
  | .start | .stop | .setAuthenticated _ | .callSubmit _ _ _ | .submit _ => isTrue trivial

/-- The executor is started and connected, and one order is submitted. -/
def submitFirst : List (ExecutorAction Unit Unit ℚ) :=
  [.start, .setAuthenticated true, .callSubmit () firstOrder none, .submit (), .submit (),
    .submit ()]

/-- The loop takes the order and gets a permit from the rate limiter. -/
def takeFirst : List (ExecutorAction Unit Unit ℚ) :=
  [.loop 0 false, .loop 0 false, .loop 0 false, .loop 0 false]

theorem accounted_iff_one_order :
    ∃ trace s, Execution (Steps step) (create : RunningExecutor Unit Unit ℚ) trace s ∧
      (s.accepted = [firstOrder] ∧ s.handed = [firstOrder]) ∧ s.Accounted := by
  have hrun : (runActions (guardActions step KeepsTrade)
      (create : RunningExecutor Unit Unit ℚ)
      (submitFirst ++ takeFirst ++ [.loop 0 false, .loop 0 false])).map
        (fun s => decide (s.accepted = [firstOrder] ∧ s.handed = [firstOrder])) =
      some true := by
    decide +kernel
  obtain ⟨trace, s, hexec, hkeeps, hview⟩ :=
    Execution.exists_of_guardActions _ Execution.init (by simp) hrun
  exact ⟨trace, s, hexec, of_decide_eq_true hview,
    ((accounted_iff trace s hexec).mpr hkeeps).2⟩

/-- The connection drops between the check of the outer loop and `send_order`. -/
theorem disconnect_loses_trade :
    ∃ s : RunningExecutor Unit Unit ℚ, Reachable (Steps step) create s ∧
      (s.accepted = [firstOrder] ∧ s.places = []) ∧ ¬ s.Accounted := by
  have hrun : (runActions step (create : RunningExecutor Unit Unit ℚ)
      (submitFirst ++ takeFirst ++ [.setAuthenticated false, .loop 0 false])).map
        (fun s => decide (s.accepted = [firstOrder] ∧ s.places = [])) = some true := by
    decide +kernel
  obtain ⟨s, hs, hview⟩ := Reachable.exists_of_runActions hrun
  have hlost := of_decide_eq_true hview
  refine ⟨s, hs, hlost, ?_⟩
  intro h
  have hlength := h.length_eq
  rw [hlost.1, hlost.2] at hlength
  cases hlength

end Disconnect

end RunningExecutor

end Core
end CryptoHft
