import CryptoHft.Core.ExecutionLoop

/-!
# The order in which trades reach `send_order`

The queue of `OrderExecutor` is first in, first out, and `execution_loop` looks at
its oldest trade only.  A trade that the rate limiter refuses goes back to the end
of the queue.  Two orders are of interest: the one in which a thread submitted its
trades, and the one of `Trade::priority`.

`DispatchLedger` follows the trades of a run under the numbers of their
submissions: through the queue, in the hands of the loop, and handed to
`send_order` together with what was waiting when the loop took them.  It is kept
beside the executor, and `Tracks` says that it agrees with it.

* `handed_in_submission_order`: the trades of one thread and one priority are
  handed over in the order of submission, if no trade is put back behind one of
  its own thread and priority.
* `urgent_handed_first`: no trade is handed over before a more urgent one that
  was already waiting, if trades enter the queue only behind trades that are at
  least as urgent.
-/

namespace CryptoHft
namespace Core

open Lib

/-- A successful call of `submit_trade`. -/
structure Submission (ι R : Type) where
  number : Nat
  thread : ι
  trade : Trade R

/-- A submission that the loop took, with those that were left in the queue then. -/
structure Handover (ι R : Type) where
  submission : Submission ι R
  waiting : List (Submission ι R)

/-- The way of the accepted trades; `count` is the number of submissions so far. -/
structure DispatchLedger (ι R : Type) where
  queued : List (Submission ι R)
  held : Option (Handover ι R)
  handedOver : List (Handover ι R)
  count : Nat

namespace DispatchLedger

variable {ι R : Type}

def create : DispatchLedger ι R :=
  ⟨[], none, [], 0⟩

def enter (l : DispatchLedger ι R) (i : ι) (trade : Trade R) : DispatchLedger ι R :=
  { l with queued := l.queued ++ [⟨l.count, i, trade⟩], count := l.count + 1 }

def take (l : DispatchLedger ι R) : DispatchLedger ι R :=
  match l.queued with
  | [] => l
  | x :: rest => { l with queued := rest, held := some ⟨x, rest⟩ }

theorem take_cases
    (l : DispatchLedger ι R) :
    l.take = l ∨ ∃ x rest, l.queued = x :: rest ∧
      l.take = { l with queued := rest, held := some ⟨x, rest⟩ } := by
  cases hqueued : l.queued with
  | nil =>
      exact .inl (by simp [take, hqueued])
  | cons x rest =>
      exact .inr ⟨x, rest, rfl, by simp [take, hqueued]⟩

def heldSubmission (l : DispatchLedger ι R) : List (Submission ι R) :=
  l.held.toList.map Handover.submission

def putBack (l : DispatchLedger ι R) : DispatchLedger ι R :=
  { l with queued := l.queued ++ l.heldSubmission, held := none }

/-- The re-push into a full queue. -/
def drop (l : DispatchLedger ι R) : DispatchLedger ι R :=
  { l with held := none }

def handOver (l : DispatchLedger ι R) : DispatchLedger ι R :=
  { l with handedOver := l.handedOver ++ l.held.toList, held := none }

/-- The submissions handed to `send_order`, the first one first. -/
def handed (l : DispatchLedger ι R) : List (Submission ι R) :=
  l.handedOver.map Handover.submission

/-- What one atomic action of the executor `s` means for the trades. -/
def after {κ : Type} (s : RunningExecutor ι κ R) (l : DispatchLedger ι R) :
    ExecutorAction ι κ R → DispatchLedger ι R
  | .submit i =>
      match s.submitters i with
      | .tryPush trade => if (s.executor.tryPush trade).1 then l.enter i trade else l
      | _ => l
  | .loop _ unpublished =>
      match s.loop with
      | .tryPop => if unpublished then l else l.take
      | .rePush trade => if (s.executor.tryPush trade).1 then l.putBack else l.drop
      | .sendOrder _ => l.handOver
      | _ => l
  | _ => l

/-- The changes of the ledger, with the actions behind those that put a trade into the queue. -/
theorem after_cases
    {κ : Type} (s : RunningExecutor ι κ R) (l : DispatchLedger ι R) (a : ExecutorAction ι κ R) :
    l.after s a = l ∨
      (∃ i trade, a = .submit i ∧ s.submitters i = .tryPush trade ∧
        (s.executor.tryPush trade).1 = true ∧ l.after s a = l.enter i trade) ∨
      l.after s a = l.take ∨
      (∃ ms unpublished trade, a = .loop ms unpublished ∧ s.loop = .rePush trade ∧
        (s.executor.tryPush trade).1 = true ∧ l.after s a = l.putBack) ∨
      l.after s a = l.drop ∨
      l.after s a = l.handOver := by
  cases a with
  | start | stop | setAuthenticated | callSubmit =>
      exact .inl rfl
  | submit i =>
      cases hpc : s.submitters i with
      | idle | checkRunning | register | returned =>
          exact .inl (by simp [after, hpc])
      | tryPush trade =>
          by_cases hpush : (s.executor.tryPush trade).1 = true
          · exact .inr (.inl ⟨i, trade, rfl, hpc, hpush, by simp [after, hpc, hpush]⟩)
          · exact .inl (by simp [after, hpc, hpush])
  | loop ms unpublished =>
      cases hloop : s.loop with
      | checkRunning | checkAuthenticated | tryAcquire | asyncSend | countSent | exited =>
          exact .inl (by simp [after, hloop])
      | tryPop =>
          cases unpublished with
          | false =>
              exact .inr (.inr (.inl (by simp [after, hloop])))
          | true =>
              exact .inl (by simp [after, hloop])
      | rePush trade =>
          by_cases hpush : (s.executor.tryPush trade).1 = true
          · exact .inr (.inr (.inr (.inl ⟨ms, unpublished, trade, rfl, rfl, hpush,
              by simp [after, hloop, hpush]⟩)))
          · exact .inr (.inr (.inr (.inr (.inl (by simp [after, hloop, hpush])))))
      | sendOrder trade =>
          exact .inr (.inr (.inr (.inr (.inr (by simp [after, hloop])))))

end DispatchLedger

/-- The trade that the loop has taken and not handed over. -/
def LoopPc.unsent {R : Type} : LoopPc R → List (Trade R)
  | .tryAcquire trade => [trade]
  | .rePush trade => [trade]
  | .sendOrder trade => [trade]
  | .checkRunning => []
  | .checkAuthenticated => []
  | .tryPop => []
  | .asyncSend _ => []
  | .countSent => []
  | .exited => []

/-- An executor with its ledger. -/
structure Dispatch (ι κ R : Type) where
  running : RunningExecutor ι κ R
  ledger : DispatchLedger ι R

namespace Dispatch

section Steps

variable {ι κ R : Type}

def create : Dispatch ι κ R :=
  ⟨.create, .create⟩

/-- The ledger agrees with the queue and with what the loop holds. -/
structure Tracks (d : Dispatch ι κ R) : Prop where
  queue : d.running.executor.tradeQueue = d.ledger.queued.map Submission.trade
  held : d.running.loop.unsent = d.ledger.heldSubmission.map Submission.trade

theorem tracks_create : Tracks (create : Dispatch ι κ R) :=
  ⟨rfl, rfl⟩

/-- Trades of one thread and one priority. -/
def SameLane (x y : Submission ι R) : Prop :=
  x.thread = y.thread ∧ x.trade.priority = y.trade.priority

/-- The trades of each lane are handed over in the order of their submission. -/
def InSubmissionOrder (d : Dispatch ι κ R) : Prop :=
  d.ledger.handed.Pairwise (fun x y => SameLane x y → x.number < y.number)

instance [DecidableEq ι] (x y : Submission ι R) : Decidable (SameLane x y) :=
  inferInstanceAs (Decidable (x.thread = y.thread ∧ x.trade.priority = y.trade.priority))

instance [DecidableEq ι] (d : Dispatch ι κ R) : Decidable d.InSubmissionOrder :=
  inferInstanceAs (Decidable
    (d.ledger.handed.Pairwise (fun x y => SameLane x y → x.number < y.number)))

/-- No trade was handed over while a more urgent one had been waiting. -/
def UrgentFirst (d : Dispatch ι κ R) : Prop :=
  ∀ h ∈ d.ledger.handedOver, ∀ y ∈ h.waiting, ¬ y.trade.priority < h.submission.trade.priority

instance (d : Dispatch ι κ R) : Decidable d.UrgentFirst :=
  inferInstanceAs (Decidable (∀ h ∈ d.ledger.handedOver, ∀ y ∈ h.waiting,
    ¬ y.trade.priority < h.submission.trade.priority))

/-- A refused trade is put back only while no trade of its lane is waiting. -/
def KeepsPlace (d : Dispatch ι κ R) : ExecutorAction ι κ R → Prop
  | .loop _ _ =>
      match d.running.loop with
      | .rePush _ => ∀ x ∈ d.ledger.heldSubmission, ∀ y ∈ d.ledger.queued, ¬ SameLane y x
      | _ => True
  | _ => True

/-- Every waiting trade is at least as urgent as `trade`. -/
def BehindUrgent (d : Dispatch ι κ R) (trade : Trade R) : Prop :=
  ∀ waiting ∈ d.running.executor.tradeQueue, waiting.priority ≤ trade.priority

/-- A trade enters the queue, or is put back, only behind trades at least as urgent. -/
def EntersInOrder (d : Dispatch ι κ R) : ExecutorAction ι κ R → Prop
  | .submit i =>
      match d.running.submitters i with
      | .tryPush trade => d.BehindUrgent trade
      | _ => True
  | .loop _ _ =>
      match d.running.loop with
      | .rePush trade => d.BehindUrgent trade
      | _ => True
  | _ => True

variable [DecidableEq ι]

def step (d : Dispatch ι κ R) (a : ExecutorAction ι κ R) : Option (Dispatch ι κ R) :=
  (d.running.step a).map (fun running => ⟨running, d.ledger.after d.running a⟩)

end Steps

section Tracking

variable {ι κ R : Type} {d e : Dispatch ι κ R}

/-- A successful push appends, a refused one changes nothing. -/
theorem tradeQueue_tryPush
    (x : OrderExecutor κ R) (trade : Trade R) :
    (x.tryPush trade).2.tradeQueue =
      if (x.tryPush trade).1 then x.tradeQueue ++ [trade] else x.tradeQueue := by
  by_cases hroom : x.tradeQueue.length < OrderExecutor.queueCapacity
  · simp [OrderExecutor.tryPush, BoundedFifo.tryPush_of_lt hroom]
  · simp [OrderExecutor.tryPush, BoundedFifo.tryPush_of_le (not_lt.mp hroom)]

/-- A step that moves no trade. -/
theorem Tracks.of_same
    (h : Tracks d)
    {running : RunningExecutor ι κ R} {ledger : DispatchLedger ι R}
    (hledger : ledger = d.ledger)
    (hqueue : running.executor.tradeQueue = d.running.executor.tradeQueue)
    (hunsent : running.loop.unsent = d.running.loop.unsent) :
    Tracks ⟨running, ledger⟩ := by
  subst hledger
  exact ⟨hqueue.trans h.queue, hunsent.trans h.held⟩

theorem Tracks.loop
    (h : Tracks d)
    {ms : Int} {unpublished : Bool} {running : RunningExecutor ι κ R}
    (hstep : d.running.loopStep ms unpublished = some running) :
    Tracks ⟨running, d.ledger.after d.running (.loop ms unpublished)⟩ := by
  unfold RunningExecutor.loopStep at hstep
  cases hloop : d.running.loop with
  | exited =>
      simp [hloop] at hstep
  | checkRunning | checkAuthenticated | tryAcquire =>
      simp only [hloop, Option.some.injEq] at hstep
      subst hstep
      refine h.of_same (by simp [DispatchLedger.after, hloop]) rfl ?_
      rw [hloop]
      dsimp only
      split
      · rfl
      · rfl
  | asyncSend | countSent =>
      simp only [hloop, Option.some.injEq] at hstep
      subst hstep
      exact h.of_same (by simp [DispatchLedger.after, hloop]) rfl (by rw [hloop]; rfl)
  | tryPop =>
      simp only [hloop] at hstep
      cases unpublished with
      | true =>
          cases hstep
          exact h.of_same (by simp [DispatchLedger.after, hloop]) rfl (by rw [hloop]; rfl)
      | false =>
          have hqueue := h.queue
          cases hqueued : d.ledger.queued with
          | nil =>
              rw [hqueued, List.map_nil] at hqueue
              simp only [hqueue, BoundedFifo.tryPop] at hstep
              cases hstep
              exact h.of_same (by simp [DispatchLedger.after, hloop, DispatchLedger.take, hqueued])
                rfl (by rw [hloop]; rfl)
          | cons x rest =>
              rw [hqueued, List.map_cons] at hqueue
              simp only [hqueue, BoundedFifo.tryPop] at hstep
              cases hstep
              simp only [DispatchLedger.after, hloop, DispatchLedger.take, hqueued]
              exact ⟨rfl, rfl⟩
  | rePush trade =>
      have hheld := h.held
      simp only [hloop, Option.some.injEq] at hstep
      subst hstep
      rw [hloop] at hheld
      by_cases hpush : (d.running.executor.tryPush trade).1 = true
      · simp only [DispatchLedger.after, hloop, hpush, if_true]
        refine ⟨?_, rfl⟩
        simp only [DispatchLedger.putBack, tradeQueue_tryPush, hpush, if_true, h.queue,
          List.map_append, ← hheld, LoopPc.unsent]
      · simp only [DispatchLedger.after, hloop, hpush, if_false, Bool.false_eq_true]
        refine ⟨?_, rfl⟩
        simp only [DispatchLedger.drop, tradeQueue_tryPush, hpush, if_false, h.queue,
          Bool.false_eq_true]
  | sendOrder trade =>
      simp only [hloop] at hstep
      simp only [DispatchLedger.after, hloop]
      split at hstep
      · cases hstep
        exact ⟨h.queue, rfl⟩
      · cases hstep
        exact ⟨h.queue, rfl⟩

variable [DecidableEq ι]

theorem Tracks.submit
    (h : Tracks d)
    {i : ι} {running : RunningExecutor ι κ R}
    (hstep : d.running.submitStep i = some running) :
    Tracks ⟨running, d.ledger.after d.running (.submit i)⟩ := by
  unfold RunningExecutor.submitStep at hstep
  cases hpc : d.running.submitters i with
  | idle | returned =>
      simp [hpc] at hstep
  | checkRunning trade callback =>
      simp only [hpc] at hstep
      split at hstep
      · cases hstep
        exact h.of_same (by simp [DispatchLedger.after, hpc]) rfl rfl
      · cases hstep
        exact h.of_same (by simp [DispatchLedger.after, hpc]) rfl rfl
  | register trade callback =>
      simp only [hpc, Option.some.injEq] at hstep
      subst hstep
      cases callback with
      | none | some =>
          exact h.of_same (by simp [DispatchLedger.after, hpc]) rfl rfl
  | tryPush trade =>
      simp only [hpc, Option.some.injEq] at hstep
      subst hstep
      by_cases hpush : (d.running.executor.tryPush trade).1 = true
      · simp only [DispatchLedger.after, hpc, hpush, if_true]
        refine ⟨?_, h.held⟩
        simp only [DispatchLedger.enter, tradeQueue_tryPush, hpush, if_true, h.queue,
          List.map_append, List.map_cons, List.map_nil]
      · refine h.of_same (by simp [DispatchLedger.after, hpc, hpush]) ?_ rfl
        simp only [tradeQueue_tryPush, hpush, if_false, Bool.false_eq_true]

/-- The ledger goes along with every step of the executor. -/
theorem Tracks.step
    (h : Tracks d)
    {a : ExecutorAction ι κ R}
    (hstep : d.step a = some e) :
    Tracks e := by
  obtain ⟨running, hrunning, rfl⟩ := Option.map_eq_some_iff.mp hstep
  cases a with
  | start =>
      simp only [RunningExecutor.step] at hrunning
      split at hrunning
      · rename_i hloop
        cases hrunning
        exact h.of_same rfl rfl (by rw [hloop]; rfl)
      · cases hrunning
  | stop | setAuthenticated =>
      cases hrunning
      exact h.of_same rfl rfl rfl
  | callSubmit i trade callback =>
      simp only [RunningExecutor.step] at hrunning
      split at hrunning
      · cases hrunning
        exact h.of_same rfl rfl rfl
      · cases hrunning
        exact h.of_same rfl rfl rfl
      · cases hrunning
  | submit i =>
      exact h.submit hrunning
  | loop ms unpublished =>
      exact h.loop hrunning

end Tracking

section SubmissionOrder

variable {ι R : Type} {l m : DispatchLedger ι R}

/-- All submissions in the order in which they will reach `send_order`. -/
def line (l : DispatchLedger ι R) : List (Submission ι R) :=
  l.handed ++ l.heldSubmission ++ l.queued

/-- Each lane of the line is in the order of submission. -/
structure InLine (l : DispatchLedger ι R) : Prop where
  order : (line l).Pairwise (fun x y => SameLane x y → x.number < y.number)
  numbers : ∀ x ∈ line l, x.number < l.count

theorem inLine_create : InLine (.create : DispatchLedger ι R) := by
  refine ⟨.nil, ?_⟩
  intro x hx
  cases hx

/-- Steps that keep the line or leave out a part of it. -/
theorem InLine.of_sublist
    (h : InLine l)
    (hline : (line m).Sublist (line l))
    (hcount : m.count = l.count) :
    InLine m := by
  refine ⟨h.order.sublist hline, ?_⟩
  intro x hx
  rw [hcount]
  exact h.numbers x (hline.subset hx)

theorem InLine.take
    (h : InLine l) :
    InLine l.take := by
  rcases l.take_cases with heq | ⟨x, rest, hqueued, heq⟩
  · rw [heq]
    exact h
  · rw [heq]
    refine h.of_sublist ?_ rfl
    simp only [line, hqueued, List.append_assoc]
    exact (List.sublist_append_right l.heldSubmission (x :: rest)).append_left l.handed

theorem InLine.drop
    (h : InLine l) :
    InLine l.drop := by
  refine h.of_sublist ?_ rfl
  simp only [line, List.append_assoc]
  exact (List.sublist_append_right l.heldSubmission l.queued).append_left l.handed

theorem InLine.handOver
    (h : InLine l) :
    InLine l.handOver := by
  refine h.of_sublist ?_ rfl
  simp [line, DispatchLedger.handed, DispatchLedger.heldSubmission, DispatchLedger.handOver]

/-- A new submission goes to the end of the line. -/
theorem InLine.enter
    (h : InLine l)
    (i : ι) (trade : Trade R) :
    InLine (l.enter i trade) := by
  have hline : line (l.enter i trade) = line l ++ [⟨l.count, i, trade⟩] := by
    simp [line, DispatchLedger.enter, DispatchLedger.handed, DispatchLedger.heldSubmission]
  refine ⟨?_, ?_⟩
  · rw [hline, List.pairwise_append]
    refine ⟨h.order, List.pairwise_singleton _ _, ?_⟩
    intro x hx y hy _
    rw [List.mem_singleton.mp hy]
    exact h.numbers x hx
  · intro x hx
    rw [hline, List.mem_append, List.mem_singleton] at hx
    rcases hx with hx | rfl
    · exact Nat.lt_succ_of_lt (h.numbers x hx)
    · exact Nat.lt_succ_self _

/-- A refused submission goes to the end of the line, past no one of its lane. -/
theorem InLine.putBack
    (h : InLine l)
    (hlane : ∀ x ∈ l.heldSubmission, ∀ y ∈ l.queued, ¬ SameLane y x) :
    InLine l.putBack := by
  have hline : line l.putBack = l.handed ++ (l.queued ++ l.heldSubmission) := by
    simp [line, DispatchLedger.putBack, DispatchLedger.handed, DispatchLedger.heldSubmission]
  have horder := h.order
  rw [line, List.append_assoc, List.pairwise_append, List.pairwise_append] at horder
  obtain ⟨hhanded, ⟨hheld, hqueued, -⟩, hbefore⟩ := horder
  refine ⟨?_, ?_⟩
  · rw [hline, List.pairwise_append, List.pairwise_append]
    refine ⟨hhanded, ⟨hqueued, hheld, ?_⟩, ?_⟩
    · intro y hy x hx hsame
      exact absurd hsame (hlane x hx y hy)
    · intro x hx y hy
      refine hbefore x hx y ?_
      rw [List.mem_append] at hy ⊢
      exact hy.symm
  · intro x hx
    refine h.numbers x ?_
    rw [hline] at hx
    simp only [line, List.mem_append] at hx ⊢
    rcases hx with hx | hx | hx
    · exact .inl (.inl hx)
    · exact .inr hx
    · exact .inl (.inr hx)

variable {κ : Type} [DecidableEq ι] {d e : Dispatch ι κ R}

theorem InLine.step
    (h : InLine d.ledger)
    {a : ExecutorAction ι κ R}
    (hstep : d.step a = some e)
    (hkeeps : d.KeepsPlace a) :
    InLine e.ledger := by
  obtain ⟨running, -, rfl⟩ := Option.map_eq_some_iff.mp hstep
  show InLine (d.ledger.after d.running a)
  rcases DispatchLedger.after_cases d.running d.ledger a with heq |
    ⟨i, trade, -, -, -, heq⟩ | heq | ⟨ms, unpublished, trade, rfl, hloop, -, heq⟩ | heq | heq
  · rw [heq]
    exact h
  · rw [heq]
    exact h.enter i trade
  · rw [heq]
    exact h.take
  · rw [heq]
    refine h.putBack ?_
    simpa only [KeepsPlace, hloop] using hkeeps
  · rw [heq]
    exact h.drop
  · rw [heq]
    exact h.handOver

/--
In every run in which a trade that the rate limiter refuses is put back only while
no trade of its thread and priority is waiting, the trades of one thread and one
priority are handed to `send_order` in the order of their submission.
-/
theorem handed_in_submission_order
    (hrun : Reachable (Guarded (Steps step) KeepsPlace) create d) :
    d.InSubmissionOrder := by
  have hinline : InLine d.ledger := by
    refine hrun.invariant (P := fun d => InLine d.ledger) inLine_create ?_
    intro s a t h hstep
    exact h.step hstep.1 hstep.2
  have horder := hinline.order
  rw [line, List.append_assoc, List.pairwise_append] at horder
  exact horder.1

end SubmissionOrder

section Priorities

variable {ι R : Type} {l : DispatchLedger ι R}

/-- The queue is ordered by priority, and so was every trade that was taken. -/
structure Ordered (l : DispatchLedger ι R) : Prop where
  queue : l.queued.Pairwise (fun x y => x.trade.priority ≤ y.trade.priority)
  held : ∀ h ∈ l.held.toList, ∀ y ∈ h.waiting, h.submission.trade.priority ≤ y.trade.priority
  handed : ∀ h ∈ l.handedOver, ∀ y ∈ h.waiting, h.submission.trade.priority ≤ y.trade.priority

theorem ordered_create : Ordered (.create : DispatchLedger ι R) :=
  ⟨.nil, by simp [DispatchLedger.create], by simp [DispatchLedger.create]⟩

theorem Ordered.take
    (h : Ordered l) :
    Ordered l.take := by
  rcases l.take_cases with heq | ⟨x, rest, hqueued, heq⟩
  · rw [heq]
    exact h
  · have hqueue := h.queue
    rw [hqueued, List.pairwise_cons] at hqueue
    rw [heq]
    refine ⟨hqueue.2, ?_, h.handed⟩
    intro taken htaken
    rw [Option.toList_some, List.mem_singleton] at htaken
    subst htaken
    exact hqueue.1

theorem Ordered.drop
    (h : Ordered l) :
    Ordered l.drop :=
  ⟨h.queue, by simp [DispatchLedger.drop], h.handed⟩

theorem Ordered.handOver
    (h : Ordered l) :
    Ordered l.handOver := by
  refine ⟨h.queue, by simp [DispatchLedger.handOver], ?_⟩
  intro taken htaken
  rcases List.mem_append.mp htaken with hold | hnew
  · exact h.handed taken hold
  · exact h.held taken hnew

/-- More trades at the end of the queue. -/
theorem Ordered.append
    (h : Ordered l)
    {xs : List (Submission ι R)} {m : DispatchLedger ι R}
    (hqueued : m.queued = l.queued ++ xs)
    (hxs : xs.Pairwise (fun x y => x.trade.priority ≤ y.trade.priority))
    (hbehind : ∀ x ∈ xs, ∀ y ∈ l.queued, y.trade.priority ≤ x.trade.priority)
    (hheld : m.held.toList ⊆ l.held.toList)
    (hhanded : m.handedOver = l.handedOver) :
    Ordered m := by
  refine ⟨?_, fun taken htaken => h.held taken (hheld htaken), by rw [hhanded]; exact h.handed⟩
  rw [hqueued, List.pairwise_append]
  exact ⟨h.queue, hxs, fun y hy x hx => hbehind x hx y hy⟩

variable {κ : Type} {d e : Dispatch ι κ R}

/-- The condition on the queue, for the submissions in the ledger. -/
theorem Tracks.behindUrgent
    (h : Tracks d)
    {trade : Trade R}
    (hurgent : d.BehindUrgent trade) :
    ∀ y ∈ d.ledger.queued, y.trade.priority ≤ trade.priority := by
  intro y hy
  refine hurgent y.trade ?_
  rw [h.queue]
  exact List.mem_map_of_mem hy

variable [DecidableEq ι]

theorem Ordered.step
    (h : Ordered d.ledger)
    (htracks : Tracks d)
    {a : ExecutorAction ι κ R}
    (hstep : d.step a = some e)
    (henters : d.EntersInOrder a) :
    Ordered e.ledger := by
  obtain ⟨running, -, rfl⟩ := Option.map_eq_some_iff.mp hstep
  show Ordered (d.ledger.after d.running a)
  rcases DispatchLedger.after_cases d.running d.ledger a with heq |
    ⟨i, trade, rfl, hpc, -, heq⟩ | heq | ⟨ms, unpublished, trade, rfl, hloop, -, heq⟩ | heq | heq
  · rw [heq]
    exact h
  · rw [heq]
    simp only [EntersInOrder, hpc] at henters
    refine h.append rfl (List.pairwise_singleton _ _) ?_ (List.Subset.refl _) rfl
    intro x hx
    rw [List.mem_singleton.mp hx]
    exact htracks.behindUrgent henters
  · rw [heq]
    exact h.take
  · rw [heq]
    simp only [EntersInOrder, hloop] at henters
    -- the loop holds one trade, and it is the one that is put back
    have hheld := htracks.held
    rw [hloop, LoopPc.unsent, eq_comm, List.map_eq_singleton_iff] at hheld
    obtain ⟨x, hx, htrade⟩ := hheld
    refine h.append rfl ?_ ?_ (List.nil_subset _) rfl
    · rw [hx]
      exact List.pairwise_singleton _ _
    · intro y hy
      rw [hx, List.mem_singleton] at hy
      rw [hy, htrade]
      exact htracks.behindUrgent henters
  · rw [heq]
    exact h.drop
  · rw [heq]
    exact h.handOver

/--
In every run in which trades enter the queue, by submission or after a refusal of
the rate limiter, only behind trades that are at least as urgent, the loop hands
no trade to `send_order` while a more urgent one has been waiting in the queue
since before it took that trade.
-/
theorem urgent_handed_first
    (hrun : Reachable (Guarded (Steps step) EntersInOrder) create d) :
    d.UrgentFirst := by
  have hordered : Tracks d ∧ Ordered d.ledger := by
    refine hrun.invariant (P := fun d => Tracks d ∧ Ordered d.ledger)
      ⟨tracks_create, ordered_create⟩ ?_
    intro s a t h hstep
    exact ⟨h.1.step hstep.1, h.2.step h.1 hstep.1 hstep.2⟩
  intro taken htaken y hy
  exact UInt8.not_lt.mpr (hordered.2.handed taken htaken y hy)

end Priorities

section Backlogs

/-- One thread, no callbacks. -/
abbrev OneThread : Type :=
  Dispatch Unit Unit ℚ

instance (d : OneThread) (a : ExecutorAction Unit Unit ℚ) : Decidable (d.KeepsPlace a) :=
  match a with
  | .loop _ _ =>
      match h : d.running.loop with
      | .rePush _ =>
          decidable_of_iff
            (∀ x ∈ d.ledger.heldSubmission, ∀ y ∈ d.ledger.queued, ¬ SameLane y x)
            (by simp [KeepsPlace, h])
      | .checkRunning | .checkAuthenticated | .tryPop | .tryAcquire _ | .sendOrder _
      | .asyncSend _ | .countSent | .exited => isTrue (by simp [KeepsPlace, h])
  | .start | .stop | .setAuthenticated _ | .callSubmit _ _ _ | .submit _ => isTrue trivial

instance (d : OneThread) (trade : Trade ℚ) : Decidable (d.BehindUrgent trade) :=
  inferInstanceAs (Decidable
    (∀ waiting ∈ d.running.executor.tradeQueue, waiting.priority ≤ trade.priority))

instance (d : OneThread) (a : ExecutorAction Unit Unit ℚ) : Decidable (d.EntersInOrder a) :=
  match a with
  | .submit i =>
      match h : d.running.submitters i with
      | .tryPush trade => decidable_of_iff (d.BehindUrgent trade) (by simp [EntersInOrder, h])
      | .idle | .checkRunning _ _ | .register _ _ | .returned _ =>
          isTrue (by simp [EntersInOrder, h])
  | .loop _ _ =>
      match h : d.running.loop with
      | .rePush trade => decidable_of_iff (d.BehindUrgent trade) (by simp [EntersInOrder, h])
      | .checkRunning | .checkAuthenticated | .tryPop | .tryAcquire _ | .sendOrder _
      | .asyncSend _ | .countSent | .exited => isTrue (by simp [EntersInOrder, h])
  | .start | .stop | .setAuthenticated _ | .callSubmit _ _ _ => isTrue trivial

/-- The executor is started and connected, and trades are submitted one after the other. -/
def submitAll (trades : List (Trade ℚ)) : List (ExecutorAction Unit Unit ℚ) :=
  .start :: .setAuthenticated true ::
    trades.flatMap (fun trade => [.callSubmit () trade none, .submit (), .submit (), .submit ()])

/-- The loop makes `n` steps while the clock shows `ms`. -/
def loopFor (n : Nat) (ms : Int) : List (ExecutorAction Unit Unit ℚ) :=
  List.replicate n (.loop ms false)

def limitOrder (k : UInt64) : Trade ℚ :=
  (Trade.createLimitOrder k 0 1 (text "BTC_USDT") .buy 1 100 .gtc .default).1

def marketOrder (k : UInt64) : Trade ℚ :=
  (Trade.createMarketOrder k 0 1 (text "BTC_USDT") .buy 1).1

def handedNumbers (d : OneThread) : List Nat :=
  d.ledger.handed.map Submission.number

theorem handed_in_submission_order_two_orders :
    ∃ d : OneThread, Reachable (Guarded (Steps step) KeepsPlace) create d ∧
      handedNumbers d = [0, 1] ∧ d.InSubmissionOrder := by
  have hrun : (runActions (guardActions step KeepsPlace) (create : OneThread)
      (submitAll [limitOrder 0, limitOrder 1] ++ loopFor 10 0)).map handedNumbers =
      some [0, 1] := by
    decide +kernel
  obtain ⟨d, hd, hview⟩ := Reachable.exists_of_guardActions hrun
  exact ⟨d, hd, hview, handed_in_submission_order hd⟩

/--
Seventeen orders of one thread.  The rate limiter grants fifteen of them, the
sixteenth is put back behind the seventeenth.
-/
theorem backlog_overtaken :
    ∃ d : OneThread, Reachable (Steps step) create d ∧
      (handedNumbers d).drop 15 = [16, 15] ∧ ¬ d.InSubmissionOrder := by
  have hrun : (runActions step (create : OneThread)
      (submitAll ((List.range 17).map (fun k => limitOrder (UInt64.ofNat k))) ++
        loopFor 82 0 ++ loopFor 8 1000)).map
        (fun d => ((handedNumbers d).drop 15, decide d.InSubmissionOrder)) =
      some ([16, 15], false) := by
    decide +kernel
  obtain ⟨d, hd, hview⟩ := Reachable.exists_of_runActions hrun
  rw [Prod.mk.injEq, decide_eq_false_iff_not] at hview
  exact ⟨d, hd, hview⟩

theorem urgent_handed_first_market_then_limit :
    ∃ d : OneThread, Reachable (Guarded (Steps step) EntersInOrder) create d ∧
      handedNumbers d = [0, 1] ∧ d.UrgentFirst := by
  have hrun : (runActions (guardActions step EntersInOrder) (create : OneThread)
      (submitAll [marketOrder 0, limitOrder 1] ++ loopFor 10 0)).map handedNumbers =
      some [0, 1] := by
    decide +kernel
  obtain ⟨d, hd, hview⟩ := Reachable.exists_of_guardActions hrun
  exact ⟨d, hd, hview, urgent_handed_first hd⟩

/-- A limit order is handed over while a market order is waiting behind it. -/
theorem market_order_waits :
    ∃ d : OneThread, Reachable (Steps step) create d ∧
      handedNumbers d = [0] ∧ ¬ d.UrgentFirst := by
  have hrun : (runActions step (create : OneThread)
      (submitAll [limitOrder 0, marketOrder 1] ++ loopFor 5 0)).map
        (fun d => (handedNumbers d, decide d.UrgentFirst)) = some ([0], false) := by
    decide +kernel
  obtain ⟨d, hd, hview⟩ := Reachable.exists_of_runActions hrun
  rw [Prod.mk.injEq, decide_eq_false_iff_not] at hview
  exact ⟨d, hd, hview⟩

end Backlogs

end Dispatch

end Core
end CryptoHft
