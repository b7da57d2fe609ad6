import CryptoHft.Core.ExecutionLoop

/-!
# `execution_loop` works off its queue

No trade of the queue has a bound of its own on how long it waits: the loop may find
the connection not authenticated, the oldest trade unpublished, or the rate limiter
exhausted, and a refused trade goes behind all others.  `work` is the number of steps
that the loop still makes, at most, until it has handed over all trades, and
`addedWork` is what an action adds to it: a newly accepted trade, a refusal, or a
round of waiting.

As soon as the loop has made more steps than there was work, it has found the queue
empty in between.  `backlog_drains` draws the consequence for the trades that were
accepted before.
-/

namespace CryptoHft
namespace Core

open Lib

/-- The steps of the loop up to its next poll; a trade to be put back is work again. -/
def LoopPc.rank {R : Type} : LoopPc R → Nat
  | .checkRunning => 2
  | .checkAuthenticated => 1
  | .tryPop => 0
  | .tryAcquire _ => 4
  | .rePush _ => 8
  | .sendOrder _ => 3
  | .asyncSend _ => 2
  | .countSent => 1
  | .exited => 0

namespace RunningExecutor

variable {ι κ R : Type}

/-- The steps of the loop that the trades at hand need. -/
def work (s : RunningExecutor ι κ R) : Nat :=
  5 * s.executor.tradeQueue.length + s.loop.rank

def loopActions (_ : RunningExecutor ι κ R) : ExecutorAction ι κ R → Nat
  | .loop _ _ => 1
  | _ => 0

/-- What an action adds to the work of the loop. -/
def addedWork (s : RunningExecutor ι κ R) : ExecutorAction ι κ R → Nat
  | .start => 2
  | .submit i =>
      match s.submitters i with
      | .tryPush trade => if (s.executor.tryPush trade).1 then 5 else 0
      | _ => 0
  | .loop ms unpublished =>
      match s.loop with
      | .checkAuthenticated => if s.authenticated then 0 else 2
      | .tryPop => if unpublished then 3 else 0
      | .tryAcquire _ => if (s.executor.rateLimiter.tryAcquire ms).1 then 0 else 5
      | _ => 0
  | _ => 0

/-- Nothing that was accepted waits. -/
def AllHanded (s : RunningExecutor ι κ R) : Prop :=
  s.accepted.Perm s.handed

/-- What was accepted or handed over stays on record. -/
def RecordsGrow (s t : RunningExecutor ι κ R) : Prop :=
  s.accepted <+: t.accepted ∧ s.handed <+: t.handed

variable {s t : RunningExecutor ι κ R}

theorem RecordsGrow.of_eq
    (haccepted : t.accepted = s.accepted)
    (hhanded : t.handed = s.handed) :
    s.RecordsGrow t := by
  unfold RecordsGrow
  rw [haccepted, hhanded]
  exact ⟨List.prefix_rfl, List.prefix_rfl⟩

theorem RecordsGrow.loopStep
    {ms : Int} {unpublished : Bool}
    (hstep : s.loopStep ms unpublished = some t) :
    s.RecordsGrow t := by
  unfold RunningExecutor.loopStep at hstep
  cases hloop : s.loop with
  | exited =>
      simp [hloop] at hstep
  | checkRunning | checkAuthenticated | tryAcquire | rePush | countSent =>
      simp only [hloop, Option.some.injEq] at hstep
      subst hstep
      exact .of_eq rfl rfl
  | tryPop =>
      simp only [hloop] at hstep
      split at hstep <;> cases hstep <;> exact .of_eq rfl rfl
  | sendOrder trade =>
      simp only [hloop] at hstep
      split at hstep <;> cases hstep <;> exact .of_eq rfl rfl
  | asyncSend trade =>
      simp only [hloop, Option.some.injEq] at hstep
      subst hstep
      exact ⟨List.prefix_rfl, List.prefix_append _ _⟩

/-- An empty poll of an executor that has lost nothing finds everything handed over. -/
theorem Accounted.allHanded
    (h : s.Accounted)
    (hloop : s.loop = .tryPop)
    (hqueue : s.executor.tradeQueue = []) :
    s.AllHanded := by
  unfold Accounted places at h
  rwa [hloop, hqueue] at h

/-- A step of the loop does one unit of the work. -/
theorem Accounted.work_loopStep
    (h : s.Accounted)
    (hwaiting : ¬ s.AllHanded)
    {ms : Int} {unpublished : Bool}
    (hkeeps : s.KeepsTrade (.loop ms unpublished))
    (hstep : s.loopStep ms unpublished = some t) :
    t.work + 1 ≤ s.work + s.addedWork (.loop ms unpublished) := by
  unfold RunningExecutor.loopStep at hstep
  cases hloop : s.loop with
  | exited =>
      simp [hloop] at hstep
  | checkRunning =>
      simp only [hloop, Option.some.injEq] at hstep
      subst hstep
      simp only [work, addedWork, hloop]
      split <;> simp [LoopPc.rank]
  | checkAuthenticated =>
      simp only [hloop, Option.some.injEq] at hstep
      subst hstep
      simp only [work, addedWork, hloop]
      split <;> simp [LoopPc.rank]
  | tryPop =>
      simp only [hloop] at hstep
      split at hstep
      · -- an empty poll is a wait for an unpublished trade
        rename_i hpop
        cases hstep
        have hunpublished : unpublished = true := by
          by_contra hpublished
          simp only [Bool.not_eq_true] at hpublished
          subst hpublished
          exact hwaiting (h.allHanded hloop (BoundedFifo.eq_nil_of_tryPop hpop))
        simp [work, addedWork, hloop, hunpublished, LoopPc.rank]
      · rename_i trade queue hpop
        cases hstep
        have hqueue : s.executor.tradeQueue = trade :: queue := by
          split at hpop
          · cases hpop
          · exact BoundedFifo.eq_cons_of_tryPop hpop
        simp only [work, hloop, hqueue, LoopPc.rank, List.length_cons]
        omega
  | tryAcquire trade =>
      simp only [hloop, Option.some.injEq] at hstep
      subst hstep
      simp only [work, addedWork, hloop]
      split <;> simp [LoopPc.rank]
  | rePush trade =>
      simp only [hloop, Option.some.injEq] at hstep
      subst hstep
      simp only [KeepsTrade, hloop] at hkeeps
      simp only [work, hloop, OrderExecutor.tryPush, BoundedFifo.tryPush_of_lt hkeeps,
        LoopPc.rank, List.length_append, List.length_singleton]
      omega
  | sendOrder trade =>
      simp only [hloop] at hstep
      simp only [work, addedWork, hloop]
      split at hstep <;> cases hstep <;> simp [LoopPc.rank]
  | asyncSend trade =>
      simp only [hloop, Option.some.injEq] at hstep
      subst hstep
      simp [work, hloop, LoopPc.rank]
  | countSent =>
      simp only [hloop, Option.some.injEq] at hstep
      subst hstep
      simp [work, hloop, LoopPc.rank]

section Threads

variable [DecidableEq ι]

theorem RecordsGrow.submitStep
    {i : ι}
    (hstep : s.submitStep i = some t) :
    s.RecordsGrow t := by
  unfold RunningExecutor.submitStep at hstep
  cases hpc : s.submitters i with
  | idle | returned =>
      simp [hpc] at hstep
  | checkRunning trade callback =>
      simp only [hpc] at hstep
      split at hstep <;> cases hstep <;> exact .of_eq rfl rfl
  | register trade callback =>
      simp only [hpc, Option.some.injEq] at hstep
      subst hstep
      exact .of_eq rfl rfl
  | tryPush trade =>
      simp only [hpc, Option.some.injEq] at hstep
      subst hstep
      refine ⟨?_, List.prefix_rfl⟩
      change s.accepted <+: if (s.executor.tryPush trade).1 then s.accepted ++ [trade] else s.accepted
      split
      · exact List.prefix_append _ _
      · exact List.prefix_rfl

theorem RecordsGrow.step
    {a : ExecutorAction ι κ R}
    (hstep : s.step a = some t) :
    s.RecordsGrow t := by
  cases a with
  | start =>
      simp only [RunningExecutor.step] at hstep
      split at hstep <;> cases hstep
      exact .of_eq rfl rfl
  | stop | setAuthenticated =>
      cases hstep
      exact .of_eq rfl rfl
  | callSubmit i trade callback =>
      simp only [RunningExecutor.step] at hstep
      split at hstep <;> cases hstep <;> exact .of_eq rfl rfl
  | submit i =>
      exact .submitStep hstep
  | loop ms unpublished =>
      exact .loopStep hstep

theorem work_submitStep
    {i : ι}
    (hstep : s.submitStep i = some t) :
    t.work ≤ s.work + s.addedWork (.submit i) := by
  unfold submitStep at hstep
  cases hpc : s.submitters i with
  | idle | returned =>
      simp [hpc] at hstep
  | checkRunning trade callback =>
      simp only [hpc] at hstep
      split at hstep <;> cases hstep <;> exact Nat.le_add_right _ _
  | register trade callback =>
      simp only [hpc, Option.some.injEq] at hstep
      subst hstep
      cases callback with
      | none =>
          exact Nat.le_add_right _ _
      | some k =>
          exact Nat.le_add_right _ _
  | tryPush trade =>
      simp only [hpc, Option.some.injEq] at hstep
      subst hstep
      by_cases hroom : s.executor.tradeQueue.length < OrderExecutor.queueCapacity
      · simp only [work, addedWork, hpc, OrderExecutor.tryPush, BoundedFifo.tryPush_of_lt hroom,
          if_true, setSubmitter, List.length_append, List.length_singleton]
        omega
      · simp only [work, addedWork, OrderExecutor.tryPush,
          BoundedFifo.tryPush_of_le (not_lt.mp hroom), setSubmitter]
        omega

/-- Each action pays for what it does to the work. -/
theorem Accounted.work_step
    (h : s.Accounted)
    (hwaiting : ¬ s.AllHanded)
    {a : ExecutorAction ι κ R}
    (hkeeps : s.KeepsTrade a)
    (hstep : s.step a = some t) :
    t.work + s.loopActions a ≤ s.work + s.addedWork a := by
  cases a with
  | start =>
      simp only [RunningExecutor.step] at hstep
      split at hstep
      · rename_i hloop
        cases hstep
        simp [work, hloop, loopActions, addedWork, OrderExecutor.start, LoopPc.rank]
      · cases hstep
  | stop | setAuthenticated =>
      cases hstep
      exact Nat.le_refl _
  | callSubmit i trade callback =>
      simp only [RunningExecutor.step] at hstep
      split at hstep <;> cases hstep <;> exact Nat.le_refl _
  | submit i =>
      exact work_submitStep hstep
  | loop ms unpublished =>
      exact h.work_loopStep hwaiting hkeeps hstep

/-- A loop that has made more steps than there was work has found nothing waiting. -/
theorem Accounted.exists_allHanded
    {s₀ : RunningExecutor ι κ R}
    (h : s₀.Accounted)
    {trace : List (RunningExecutor ι κ R × ExecutorAction ι κ R)}
    (hrun : Execution (Steps step) s₀ trace s)
    (hkeeps : ∀ p ∈ trace, p.1.KeepsTrade p.2)
    (hlong : s₀.work + Execution.total addedWork trace < Execution.total loopActions trace) :
    ∃ p ∈ trace, p.1.AllHanded := by
  by_contra! hnone
  have hpotential := (Execution.potential work loopActions addedWork
    (fun s a => s.KeepsTrade a ∧ ¬ s.AllHanded) (I := Accounted) h
    (fun s a t hs hstep hok => (accounted_step_iff hs hstep).mpr hok.1)
    (fun s a t hs hstep hok => hs.work_step hok.2 hok.1 hstep) hrun
    (fun p hp => ⟨hkeeps p hp, hnone p hp⟩)).2
  omega

/--
Between two moments of a run in which no trade is lost, let the loop make more steps
than the trades of the queue, the trades accepted meanwhile, the refusals of the rate
limiter and the fruitless tests and polls account for.  Then all trades accepted before
the first moment have been handed to `async_send` by the second.
-/
theorem backlog_drains
    {s₀ : RunningExecutor ι κ R}
    (h : s₀.Accounted)
    {trace : List (RunningExecutor ι κ R × ExecutorAction ι κ R)}
    (hrun : Execution (Steps step) s₀ trace s)
    (hkeeps : ∀ p ∈ trace, p.1.KeepsTrade p.2)
    (hlong : s₀.work + Execution.total addedWork trace < Execution.total loopActions trace) :
    s₀.accepted.Subperm s.handed := by
  obtain ⟨p, hp, hall⟩ := h.exists_allHanded hrun hkeeps hlong
  have hgrows := (hrun.grows (R := RecordsGrow) (fun _ => .of_eq rfl rfl)
    (fun _ _ _ hst htu => ⟨hst.1.trans htu.1, hst.2.trans htu.2⟩)
    (fun _ _ _ hstep => .step hstep)).2 p hp
  have haccepted := hgrows.1.1.sublist.subperm
  have hhanded := hgrows.2.2.sublist.subperm
  exact (haccepted.trans hall.subperm).trans hhanded

end Threads

section OneOrder

/-- One order is waiting; the loop sends it and polls once more. -/
theorem backlog_drains_one_order :
    ∃ (s₀ : RunningExecutor Unit Unit ℚ) (trace : _) (s : _),
      Execution (Steps step) s₀ trace s ∧
      (s₀.accepted = [firstOrder] ∧ s₀.handed = []) ∧ s₀.accepted.Subperm s.handed := by
  have hrun : ((runActions step (create : RunningExecutor Unit Unit ℚ) submitFirst).bind
      (fun s₀ => (runTrace step s₀ (List.replicate 8 (.loop 0 false))).map
        (fun p => (s₀, p)))).map
      (fun p => decide ((p.1.accepted = [firstOrder] ∧ p.1.handed = []) ∧
        p.1.places = p.1.accepted ∧ (∀ q ∈ p.2.1, q.1.KeepsTrade q.2) ∧
        p.1.work + Execution.total addedWork p.2.1 < Execution.total loopActions p.2.1)) =
      some true := by
    decide +kernel
  obtain ⟨⟨s₀, trace, s⟩, hsome, hview⟩ := Option.map_eq_some_iff.mp hrun
  obtain ⟨u, -, htrace⟩ := Option.bind_eq_some_iff.mp hsome
  obtain ⟨⟨after, t⟩, hafter, heq⟩ := Option.map_eq_some_iff.mp htrace
  simp only [Prod.mk.injEq] at heq
  obtain ⟨rfl, rfl, rfl⟩ := heq
  obtain ⟨hfirst, hplaces, hkeeps, hlong⟩ := of_decide_eq_true hview
  have hexec := Execution.of_runTrace _ Execution.init hafter
  have haccounted : u.Accounted := by
    unfold Accounted
    rw [hplaces]
  exact ⟨u, after, t, hexec, hfirst, backlog_drains haccounted hexec hkeeps hlong⟩

end OneOrder

end RunningExecutor

end Core
end CryptoHft
