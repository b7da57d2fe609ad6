import CryptoHft.Storage.JsonlLossless

/-!
# `close` comes to its end

`close` sets `closed_` and joins the flusher, which goes on until it finds the queue
empty.  After `closed_` is set, at most one `append` has still to push its event: the
one that has passed the test and holds `queue_mutex_`.  So the queue only shrinks from
there on, a batch at a time, and `closingPotential` counts the steps that the flusher
still makes.

The flusher waits for nothing but `queue_mutex_`, and an `append` that holds it waits
for nothing.
-/

namespace CryptoHft
namespace Storage

open Lib

/-- The steps to the next look at the queue, and one for that. -/
def FlusherPc.rank {R : Type} : FlusherPc R → Nat
  | .waiting => 1
  | .writing _ => 4
  | .committing _ => 3
  | .counting _ => 2
  | .stopped => 0

/-- An event that has passed the test of `closed_` and is not pushed. -/
def AppendPc.pending {R : Type} : AppendPc R → Nat
  | .push _ => 1
  | _ => 0

namespace JsonlRun

variable {ι γ φ R : Type}

/-- The event of the thread that holds `queue_mutex_`. -/
def pendingPush (s : JsonlRun ι γ φ R) : Nat :=
  (s.queueMutex.map (fun i => (s.appenders i).pending)).getD 0

def closingPotential (s : JsonlRun ι γ φ R) : Nat :=
  4 * (s.storage.queue.length + s.pendingPush) + s.flusher.rank

def flusherSteps (_ : JsonlRun ι γ φ R) : JsonlAction ι γ φ R → Nat
  | .flusher => 1
  | _ => 0

/-- The thread that holds `queue_mutex_` is inside the critical section. -/
def Locked (s : JsonlRun ι γ φ R) : Prop :=
  ∀ i, s.queueMutex = some i → (s.appenders i).holds = true

/-- A storage with a mutex that is held by an `append` only, and batches of some size. -/
structure Sound (s : JsonlRun ι γ φ R) : Prop where
  locked : s.Locked
  batchSize : 0 < s.storage.batchSize

/-- What the queue is measured by, and what it is guarded by, are as before. -/
structure QueueKept (s t : JsonlRun ι γ φ R) : Prop where
  mutex : t.queueMutex = s.queueMutex
  appenders : t.appenders = s.appenders
  batchSize : t.storage.batchSize = s.storage.batchSize
  closed : s.storage.closed = true → t.storage.closed = true

section Progress

variable {json : JsonText R} {base : JsonlAsyncStorage R} {s t : JsonlRun ι γ φ R}

theorem QueueKept.pendingPush
    (h : QueueKept s t) :
    t.pendingPush = s.pendingPush := by
  rw [JsonlRun.pendingPush, JsonlRun.pendingPush, h.mutex, h.appenders]

theorem QueueKept.sound
    (h : QueueKept s t)
    (hs : s.Sound) :
    t.Sound where
  locked i hi := by
    rw [h.appenders]
    exact hs.locked i (h.mutex ▸ hi)
  batchSize := h.batchSize ▸ hs.batchSize

theorem queueKept_of_flusherStep
    (hstep : s.flusherStep json = some t) :
    QueueKept s t := by
  unfold JsonlRun.flusherStep at hstep
  cases hpc : s.flusher with
  | stopped =>
      simp [hpc] at hstep
  | waiting =>
      simp only [hpc] at hstep
      split at hstep
      · cases hstep
      · split at hstep <;> cases hstep <;> exact ⟨rfl, rfl, rfl, id⟩
  | writing batch | committing batch | counting batchSize =>
      simp only [hpc, Option.some.injEq] at hstep
      subst hstep
      exact ⟨rfl, rfl, rfl, id⟩

/-- Once the storage is closed, each step of the flusher brings it nearer to its end. -/
theorem closingPotential_flusherStep
    (hbatch : 0 < s.storage.batchSize)
    (hclosed : s.storage.closed = true)
    (hstep : s.flusherStep json = some t) :
    t.closingPotential + 1 ≤ s.closingPotential := by
  rw [closingPotential, closingPotential, (queueKept_of_flusherStep hstep).pendingPush]
  unfold JsonlRun.flusherStep at hstep
  cases hpc : s.flusher with
  | stopped =>
      simp [hpc] at hstep
  | waiting =>
      simp only [hpc, hclosed, if_true] at hstep
      split at hstep
      · cases hstep
      · split at hstep
        · cases hstep
          exact Nat.le_refl _
        · rename_i hmore
          have hpos : 0 < s.storage.queue.length :=
            List.length_pos_iff.mpr (fun hnil => hmore (by rw [hnil]; rfl))
          cases hstep
          simp only [FlusherPc.rank, List.length_drop]
          omega
  | writing batch | committing batch | counting batchSize =>
      simp only [hpc, Option.some.injEq] at hstep
      subst hstep
      exact Nat.le_refl _

section Threads

variable [DecidableEq ι] [DecidableEq γ] [DecidableEq φ]

omit [DecidableEq ι] [DecidableEq φ] in
theorem queueKept_of_closeStep
    {j : γ}
    (hstep : s.closeStep j = some t) :
    QueueKept s t ∧ t.storage.queue = s.storage.queue ∧ t.flusher = s.flusher := by
  unfold JsonlRun.closeStep at hstep
  cases hpc : s.closers j with
  | idle | returned =>
      simp [hpc] at hstep
  | exchange =>
      simp only [hpc, Option.some.injEq] at hstep
      subst hstep
      exact ⟨⟨rfl, rfl, rfl, fun _ => rfl⟩, rfl, rfl⟩
  | closeFile | resetDepth =>
      simp only [hpc, Option.some.injEq] at hstep
      subst hstep
      exact ⟨⟨rfl, rfl, rfl, id⟩, rfl, rfl⟩
  | joining =>
      simp only [hpc] at hstep
      split at hstep <;> cases hstep
      exact ⟨⟨rfl, rfl, rfl, id⟩, rfl, rfl⟩

omit [DecidableEq γ] [DecidableEq φ] in
/-- A thread outside the critical section moves to another point. -/
theorem setAppender_outside
    (hs : s.Sound)
    {i : ι}
    (hfrom : (s.appenders i).holds = false)
    (pc : AppendPc R) :
    (s.setAppender i pc).Sound ∧ (s.setAppender i pc).pendingPush = s.pendingPush := by
  have hne : s.queueMutex ≠ some i := by
    intro hheld
    rw [hs.locked i hheld] at hfrom
    cases hfrom
  have hsame : ∀ k, s.queueMutex = some k → (s.setAppender i pc).appenders k = s.appenders k := by
    rintro k hk
    refine appenders_setAppender_of_ne ?_
    rintro rfl
    exact hne hk
  refine ⟨⟨?_, hs.batchSize⟩, ?_⟩
  · intro k hk
    rw [hsame k hk]
    exact hs.locked k hk
  · show (s.queueMutex.map _).getD 0 = _
    cases hheld : s.queueMutex with
    | none =>
        rw [pendingPush, hheld]
        rfl
    | some k =>
        rw [pendingPush, hheld, Option.map_some, Option.map_some, hsame k hheld]

omit [DecidableEq ι] [DecidableEq γ] [DecidableEq φ] in
theorem pendingPush_of_held
    (i : ι)
    (h : s.queueMutex = some i) :
    s.pendingPush = (s.appenders i).pending := by
  rw [pendingPush, h]
  rfl

omit [DecidableEq γ] [DecidableEq φ] in
/-- An `append` leaves at most the event behind that it was about to push. -/
theorem appendStep_progress
    (hs : s.Sound)
    (hlocked : ∀ i, (s.appenders i).holds = true → s.queueMutex = some i)
    {i : ι} {nowNs : Int64}
    (hstep : s.appendStep i nowNs = some t) :
    t.Sound ∧ (s.storage.closed = true → t.storage.closed = true ∧
      t.closingPotential ≤ s.closingPotential) := by
  unfold JsonlRun.appendStep at hstep
  cases hpc : s.appenders i with
  | idle | returned =>
      simp [hpc] at hstep
  | checkPayload event =>
      simp only [hpc] at hstep
      have hfrom : (s.appenders i).holds = false := by rw [hpc]; rfl
      split at hstep
      all_goals
        cases hstep
        obtain ⟨hsound, hpending⟩ := setAppender_outside hs hfrom _
        refine ⟨hsound, fun hclosed => ⟨hclosed, ?_⟩⟩
        rw [closingPotential, hpending]
        exact Nat.le_refl _
  | lock event =>
      simp only [hpc] at hstep
      split at hstep
      · cases hstep
      · rename_i hfree
        cases hstep
        refine ⟨⟨?_, hs.batchSize⟩, fun hclosed => ⟨hclosed, ?_⟩⟩
        · intro k hk
          rw [← Option.some.inj hk]
          exact congrArg AppendPc.holds (appenders_setAppender_self i _)
        · have hpending : pendingPush
              { s.setAppender i (.checkClosed event) with queueMutex := some i } = 0 := by
            rw [pendingPush_of_held i rfl]
            exact congrArg AppendPc.pending (appenders_setAppender_self i _)
          rw [closingPotential, closingPotential, hpending]
          exact Nat.add_le_add_right (Nat.mul_le_mul_left 4 (Nat.le_add_right _ _)) _
  | checkClosed event =>
      have hheld := hlocked i (by rw [hpc]; rfl)
      simp only [hpc] at hstep
      split at hstep
      · cases hstep
        refine ⟨⟨fun k hk => (by cases hk), hs.batchSize⟩, fun hclosed => ⟨hclosed, ?_⟩⟩
        exact Nat.add_le_add_right (Nat.mul_le_mul_left 4 (Nat.le_add_right _ _)) _
      · rename_i hopen
        cases hstep
        refine ⟨⟨?_, hs.batchSize⟩, fun hclosed => absurd hclosed hopen⟩
        intro k hk
        have heq : i = k := Option.some.inj (hheld.symm.trans hk)
        rw [← heq]
        exact congrArg AppendPc.holds (appenders_setAppender_self i _)
  | push event =>
      have hheld := hlocked i (by rw [hpc]; rfl)
      have hpending : s.pendingPush = 1 := by
        rw [pendingPush_of_held i hheld, hpc]
        rfl
      simp only [hpc] at hstep
      split at hstep
      all_goals
        cases hstep
        refine ⟨⟨fun k hk => (by cases hk), hs.batchSize⟩, fun hclosed => ⟨hclosed, ?_⟩⟩
      · exact Nat.add_le_add_right (Nat.mul_le_mul_left 4 (Nat.le_add_right _ _)) _
      · -- the event is in the queue now
        rw [closingPotential, closingPotential, hpending]
        show 4 * ((s.storage.queue ++ [_]).length + 0) + _ ≤ _
        rw [List.length_append]
        exact Nat.le_refl _

/-- Every step keeps the measure sound, and after `closed_` is set the flusher's steps pay. -/
theorem step_progress
    (hinv : Inv json base s)
    (hs : s.Sound)
    {a : JsonlAction ι γ φ R}
    (hstep : s.step json a = some t) :
    t.Sound ∧ (s.storage.closed = true → t.storage.closed = true ∧
      t.closingPotential + s.flusherSteps a ≤ s.closingPotential) := by
  cases a with
  | callAppend i event =>
      have hfrom : (s.appenders i).holds = false := by
        simp only [JsonlRun.step] at hstep
        split at hstep
        · rename_i hpc
          rw [hpc]
          rfl
        · rename_i hpc
          rw [hpc]
          rfl
        · cases hstep
      rw [eq_of_callAppend hstep]
      obtain ⟨hsound, hpending⟩ := setAppender_outside hs hfrom (.checkPayload event)
      refine ⟨hsound, fun hclosed => ⟨hclosed, ?_⟩⟩
      rw [closingPotential, hpending]
      exact Nat.le_refl _
  | append i nowNs =>
      exact appendStep_progress hs hinv.holder hstep
  | flusher =>
      have hkept := queueKept_of_flusherStep hstep
      exact ⟨hkept.sound hs, fun hclosed =>
        ⟨hkept.closed hclosed, closingPotential_flusherStep hs.batchSize hclosed hstep⟩⟩
  | callClose j =>
      rw [eq_of_callClose hstep]
      exact ⟨⟨hs.locked, hs.batchSize⟩, fun hclosed => ⟨hclosed, Nat.le_refl _⟩⟩
  | close j =>
      obtain ⟨hkept, hqueue, hflusher⟩ := queueKept_of_closeStep hstep
      refine ⟨hkept.sound hs, fun hclosed => ⟨hkept.closed hclosed, ?_⟩⟩
      rw [closingPotential, closingPotential, hqueue, hflusher, hkept.pendingPush]
      exact Nat.le_refl _
  | callFlush k =>
      rw [eq_of_callFlush hstep]
      exact ⟨⟨hs.locked, hs.batchSize⟩, fun hclosed => ⟨hclosed, Nat.le_refl _⟩⟩
  | flush k timedOut =>
      obtain ⟨pc, flushCount, rfl⟩ := flushStep_cases hstep
      exact ⟨⟨hs.locked, hs.batchSize⟩, fun hclosed => ⟨hclosed, Nat.le_refl _⟩⟩

theorem sound_of_reachable
    [Double R]
    {config : JsonlAsyncStorageConfig} {file : Option Bytes}
    (hs : Reachable (Steps (step json)) (start (.create json config file)) s) :
    s.Sound := by
  have hboth : Inv json (.create json config file) s ∧ s.Sound := by
    refine hs.invariant (P := fun u => Inv json (.create json config file) u ∧ u.Sound)
      ⟨inv_start rfl rfl, fun i hi => ?_, ?_⟩ ?_
    · cases hi
    · exact lt_max_of_lt_right Nat.one_pos
    · rintro u a v ⟨hinv, hsound⟩ hstep
      exact ⟨hinv.step hstep, (step_progress hinv hsound hstep).1⟩
  exact hboth.2

omit [DecidableEq ι] [DecidableEq γ] [DecidableEq φ] in
theorem closingPotential_le (s : JsonlRun ι γ φ R) :
    s.closingPotential ≤ 4 * s.storage.queue.length + 8 := by
  have hpending : s.pendingPush ≤ 1 := by
    unfold pendingPush
    cases s.queueMutex with
    | none => exact Nat.zero_le 1
    | some i =>
        show (s.appenders i).pending ≤ 1
        cases s.appenders i <;> simp [AppendPc.pending]
  have hrank : s.flusher.rank ≤ 4 := by
    cases s.flusher <;> simp [FlusherPc.rank]
  unfold closingPotential
  omega

/-- The flusher can go on, or the one `append` that it waits for can. -/
theorem flusher_not_blocked
    (json : JsonText R)
    (hs : s.Sound)
    (hrunning : s.flusher ≠ .stopped) :
    (s.step json .flusher).isSome ∨
      ∃ i, s.queueMutex = some i ∧ ∀ nowNs, (s.step json (.append i nowNs)).isSome := by
  cases hmutex : s.queueMutex with
  | none =>
      left
      show (s.flusherStep json).isSome
      unfold flusherStep
      cases hpc : s.flusher with
      | stopped => exact absurd hpc hrunning
      | waiting =>
          simp only [hmutex, Option.isSome_none, Bool.false_eq_true, if_false]
          split <;> rfl
      | writing | committing | counting => rfl
  | some i =>
      right
      refine ⟨i, rfl, fun nowNs => ?_⟩
      have hholds := hs.locked i hmutex
      show (s.appendStep i nowNs).isSome
      unfold appendStep
      cases hpc : s.appenders i with
      | checkClosed | push =>
          dsimp only
          split <;> rfl
      | idle | checkPayload | lock | returned =>
          rw [hpc] at hholds
          cases hholds

/--
`close` comes to its end.  When `closed_` is set, the flusher makes at most four steps for
each queued event and eight more, whatever the other threads do; it waits for an `append`
only that can itself go on.  When it has stopped, the queue is empty, all accepted events
are committed, and the `close` that waits for it can go on.
-/
theorem close_finishes
    [Double R]
    (json : JsonText R)
    {config : JsonlAsyncStorageConfig} {file : Option Bytes}
    (hs : Reachable (Steps (step json)) (start (.create json config file)) s)
    (hclosed : s.storage.closed = true)
    {trace : List (JsonlRun ι γ φ R × JsonlAction ι γ φ R)}
    (hrun : Execution (Steps (step json)) s trace t) :
    Execution.total flusherSteps trace ≤ 4 * s.storage.queue.length + 8 ∧
      (t.flusher ≠ .stopped → (t.step json .flusher).isSome ∨
        ∃ i, t.queueMutex = some i ∧ ∀ nowNs, (t.step json (.append i nowNs)).isSome) ∧
      (t.flusher = .stopped → t.storage.queue = [] ∧
        t.storage.committedEvents = load json (file.getD []) ++
          stampFrom (offsetAfter (load json (file.getD []))) t.log ∧
        ∀ j, t.closers j = .joining → (t.step json (.close j)).isSome) := by
  have hrule := Execution.measure closingPotential flusherSteps (fun _ _ => True)
    (I := fun u => Inv json (.create json config file) u ∧ u.Sound ∧ u.storage.closed = true)
    ⟨inv_of_reachable hs, sound_of_reachable hs, hclosed⟩ ?_ ?_ hrun (fun _ _ => trivial)
  · obtain ⟨⟨hinv, hsound, -⟩, hrule⟩ := hrule
    refine ⟨(Nat.le_add_left _ _).trans (hrule.trans (closingPotential_le s)),
      flusher_not_blocked json hsound, fun hstop => ?_⟩
    obtain ⟨-, hqueue, -⟩ := hinv.stopped hstop
    have hsequence := hinv.sequence
    simp only [inFlight, hstop, hqueue, List.append_nil] at hsequence
    refine ⟨hqueue, hsequence, fun j hj => ?_⟩
    show (t.closeStep j).isSome
    rw [closeStep, hj]
    simp only [hstop]
    rfl
  · rintro u a v ⟨hinv, hsound, hu⟩ hstep -
    obtain ⟨hsound', hpays⟩ := step_progress hinv hsound hstep
    exact ⟨hinv.step hstep, hsound', (hpays hu).1⟩
  · rintro u a v ⟨hinv, hsound, hu⟩ hstep -
    exact ((step_progress hinv hsound hstep).2 hu).2

end Threads

end Progress

/-- One event is queued, the next has passed the test when `closed_` is set. -/
def appendAndClose : List (JsonlAction Bool Unit Unit ℚ) :=
  List.flatten
    [[.callAppend true btcTrade], List.replicate 4 (.append true 7),
      [.callAppend false btcTrade], List.replicate 3 (.append false 8),
      [.callClose (), .close ()]]

/-- The event is pushed, and the flusher writes both and stops. -/
def drainAndJoin : List (JsonlAction Bool Unit Unit ℚ) :=
  List.flatten [[.append false 8], List.replicate 5 .flusher, List.replicate 3 (.close ())]

theorem close_finishes_late_push :
    ∃ (s t : JsonlRun Bool Unit Unit ℚ)
      (trace : List (JsonlRun Bool Unit Unit ℚ × JsonlAction Bool Unit Unit ℚ)),
      s.storage.queue.length = 1 ∧ t.closers () = .returned true ∧
        t.storage.committedEvents.length = 2 ∧ Execution.total flusherSteps trace = 5 ∧
        Execution.total flusherSteps trace ≤ 4 * s.storage.queue.length + 8 := by
  have hview : ((runActions (step btcJson) (start (.create btcJson ⟨4, 2⟩ none))
      appendAndClose).bind (fun s => (runTrace (step btcJson) s drainAndJoin).map (fun p =>
        (s.storage.closed, s.storage.queue.length, p.2.closers (),
          p.2.storage.committedEvents.length, Execution.total flusherSteps p.1)))) =
      some (true, 1, .returned true, 2, 5) := by
    decide +kernel
  obtain ⟨s, hs, hview⟩ := Option.bind_eq_some_iff.mp hview
  obtain ⟨⟨trace, t⟩, hrun, hview⟩ := Option.map_eq_some_iff.mp hview
  simp only [Prod.mk.injEq] at hview
  obtain ⟨hclosed, hqueue, hreturned, hcommitted, htotal⟩ := hview
  exact ⟨s, t, trace, hqueue, hreturned, hcommitted, htotal,
    (close_finishes btcJson (Reachable.of_runActions _ Reachable.init hs) hclosed
      (Execution.of_runTrace drainAndJoin Execution.init hrun)).1⟩

end JsonlRun

end Storage
end CryptoHft
