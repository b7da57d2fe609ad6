import CryptoHft.Strategy.LiveOrderExecutorSink

/-!
# Surfacing failed appends

A storage may reject an append.  `append_storage_event` of `LiveOrderExecutorSink`
counts this and runs the storage failure callback that it is given, and the
callback of a strategy (`StrategyBase::submit_trade`) counts it for the strategy.

`submit_trade` moves the callback of an order into the response callback before it
appends the submission, so a rejected response is surfaced and a rejected
submission is not: `storage_failures_surfaced_iff`.
-/

namespace CryptoHft
namespace Strategy

open Lib Storage

section Strategies

variable {S φ : Type} [DecidableEq S]

/-- `record_storage_append_failure` of the strategy that a callback belongs to. -/
def recordStorageAppendFailure (strategyOf : φ → S) (failures : S → UInt64) (f : φ) :
    S → UInt64 :=
  Function.update failures (strategyOf f) (failures (strategyOf f) + 1)

/-- The counters `storage_append_failures_` of the strategies after some callbacks. -/
def strategyFailures (strategyOf : φ → S) (calls : List φ) : S → UInt64 :=
  calls.foldl (recordStorageAppendFailure strategyOf) (fun _ => 0)

variable [Fintype S]

theorem sum_recordStorageAppendFailure
    (strategyOf : φ → S)
    (failures : S → UInt64)
    (f : φ) :
    ∑ x, recordStorageAppendFailure strategyOf failures f x = ∑ x, failures x + 1 := by
  have hupdate := Finset.sum_update_of_mem (Finset.mem_univ (strategyOf f)) failures
    (failures (strategyOf f) + 1)
  have herase := Finset.add_sum_erase Finset.univ failures (Finset.mem_univ (strategyOf f))
  rw [recordStorageAppendFailure, hupdate, ← herase, Finset.sdiff_singleton_eq_erase, add_assoc,
    add_comm 1, add_assoc]

/-- The strategies together count every callback. -/
theorem sum_strategyFailures
    (strategyOf : φ → S)
    (calls : List φ) :
    ∑ x, strategyFailures strategyOf calls x = UInt64.ofNat calls.length := by
  induction calls using List.reverseRecOn with
  | nil =>
      simp [strategyFailures]
  | append_singleton calls f ih =>
      have hlast : strategyFailures strategyOf (calls ++ [f]) =
          recordStorageAppendFailure strategyOf (strategyFailures strategyOf calls) f := by
        simp [strategyFailures]
      rw [hlast, sum_recordStorageAppendFailure, ih, List.length_append, UInt64.ofNat_add]
      rfl

end Strategies

/-- The event that `submit_trade` appends. -/
def submissionEvent {R : Type} (trade : Trade R) (eventNs : Int64) : StorageEvent R :=
  ⟨0, eventNs, .tradeSubmitted, .trade trade⟩

/-- The event that the response callback appends. -/
def responseEvent {R : Type} (response : OrderResponse R) (eventNs : Int64) : StorageEvent R :=
  ⟨0, eventNs, .orderResponse, .orderResponse response⟩

namespace LiveOrderExecutorSink

variable {σ R φ : Type} [IStorage σ R]

/-- The storage, if there is one, does not take the event. -/
def rejects (storage : Option σ) (event : StorageEvent R) (now : Int64) : Bool :=
  match storage with
  | none => false
  | some storage => !(IStorage.append storage event now).1

/-- What `append_storage_event` does to the failures and the callbacks. -/
theorem failures_appendStorageEvent
    (s : LiveOrderExecutorSink σ φ)
    (event : StorageEvent R)
    (storageFailureCallback : Option φ)
    (now : Int64) :
    (s.appendStorageEvent event storageFailureCallback now).storageFailureCalls =
        s.storageFailureCalls ++
          (if rejects s.storage event now then storageFailureCallback.toList else []) ∧
      (s.appendStorageEvent event storageFailureCallback now).storageAppendFailures =
        s.storageAppendFailures + (if rejects s.storage event now then 1 else 0) := by
  rw [appendStorageEvent]
  cases hstorage : s.storage with
  | none =>
      simp [rejects]
  | some storage =>
      by_cases happended : (IStorage.append storage event now).1 = true
      · simp [rejects, happended]
      · simp [rejects, happended]

/-- A rejected submission is counted, and no callback runs. -/
theorem failures_recordSubmission
    (s : LiveOrderExecutorSink σ φ)
    (trade : Trade R)
    (eventNs now : Int64) :
    (s.recordSubmission trade eventNs now).storageFailureCalls = s.storageFailureCalls ∧
      (s.recordSubmission trade eventNs now).storageAppendFailures = s.storageAppendFailures +
        (if rejects s.storage (submissionEvent trade eventNs) now then 1 else 0) := by
  obtain ⟨hcalls, hcount⟩ :=
    s.failures_appendStorageEvent (submissionEvent trade eventNs) none now
  refine ⟨hcalls.trans ?_, hcount⟩
  simp

/-- A rejected response is counted, and the callback runs. -/
theorem failures_recordResponse
    (s : LiveOrderExecutorSink σ φ)
    (response : OrderResponse R)
    (f : φ)
    (eventNs now : Int64) :
    (s.recordResponse response (some f) eventNs now).storageFailureCalls =
        s.storageFailureCalls ++
          (if rejects s.storage (responseEvent response eventNs) now then [f] else []) ∧
      (s.recordResponse response (some f) eventNs now).storageAppendFailures =
        s.storageAppendFailures +
          (if rejects s.storage (responseEvent response eventNs) now then 1 else 0) :=
  s.failures_appendStorageEvent (responseEvent response eventNs) (some f) now

end LiveOrderExecutorSink

/-- The storage failure callback in the closure that `submit_fn_` was given. -/
def SubmitPc.storageFailureCallback {R φ : Type} : SubmitPc R φ → Option φ
  | .idle => none
  | .submitting _ storageFailureCallback => storageFailureCallback
  | .handedOver _ storageFailureCallback => storageFailureCallback
  | .returned _ storageFailureCallback _ => storageFailureCallback

/-- A sink over any storage, and the calls of `submit_trade` made on it. -/
structure FailureRun (ι σ R φ : Type) where
  sink : LiveOrderExecutorSink σ φ
  calls : ι → SubmitPc R φ
  /-- For each rejected append, the failure callback of the order concerned. -/
  rejected : List φ

inductive FailureAction (ι σ R φ : Type)
  | live (a : LiveAction ι R φ)
  /-- The other users of the storage, or its own threads, change it. -/
  | storageChanges (storage : σ)

namespace FailureRun

variable {ι σ R φ : Type}

def create (storage : Option σ) : FailureRun ι σ R φ where
  sink := .create storage
  calls _ := .idle
  rejected := []

section Steps

variable [DecidableEq ι] [IStorage σ R]

def setCall (s : FailureRun ι σ R φ) (i : ι) (pc : SubmitPc R φ) : FailureRun ι σ R φ :=
  { s with calls := Function.update s.calls i pc }

/-- Note the order `f` is of, if the storage rejects its event. -/
def note (s : FailureRun ι σ R φ) (event : StorageEvent R) (f : φ) (now : Int64) : List φ :=
  s.rejected ++ (if LiveOrderExecutorSink.rejects s.sink.storage event now then [f] else [])

def liveStep (s : FailureRun ι σ R φ) : LiveAction ι R φ → Option (FailureRun ι σ R φ)
  | .callSubmit i trade (some f) =>
      match s.calls i with
      | .idle => some (s.setCall i (.submitting trade (some f)))
      | _ => none
  -- orders without a storage failure callback are not considered
  | .callSubmit _ _ none => none
  | .submitFn i taken =>
      match s.calls i with
      | .submitting trade f =>
          if taken then some (s.setCall i (.handedOver trade f))
          else some (s.setCall i (.returned trade f false))
      | _ => none
  | .record i eventNs now =>
      match s.calls i with
      | .handedOver trade (some f) =>
          some { s.setCall i (.returned trade (some f) true) with
            sink := s.sink.recordSubmission trade eventNs now
            rejected := s.note (submissionEvent trade eventNs) f now }
      | _ => none
  | .respond i response eventNs now =>
      match (s.calls i).storageFailureCallback with
      | some f =>
          some { s with
            sink := s.sink.recordResponse response (some f) eventNs now
            rejected := s.note (responseEvent response eventNs) f now }
      | none => none

def step (s : FailureRun ι σ R φ) : FailureAction ι σ R φ → Option (FailureRun ι σ R φ)
  | .live a => s.liveStep a
  | .storageChanges storage =>
      some { s with sink := { s.sink with storage := s.sink.storage.map (fun _ => storage) } }

/-- The storage takes the submission of an order. -/
def SubmissionAccepted (s : FailureRun ι σ R φ) : FailureAction ι σ R φ → Prop
  | .live (.record i eventNs now) =>
      match s.calls i with
      | .handedOver trade _ =>
          LiveOrderExecutorSink.rejects s.sink.storage (submissionEvent trade eventNs) now = false
      | _ => True
  | _ => True

end Steps

/--
Every rejected append has run the failure callback of its order, once and in turn,
and the strategies together have counted what the sink has counted.
-/
structure Surfaced {S : Type} [DecidableEq S] [Fintype S] (strategyOf : φ → S)
    (s : FailureRun ι σ R φ) : Prop where
  calls : s.sink.storageFailureCalls = s.rejected
  counters : ∑ x, strategyFailures strategyOf s.sink.storageFailureCalls x =
    s.sink.storageAppendFailures

section Invariant

variable [DecidableEq ι] [IStorage σ R] {s t : FailureRun ι σ R φ}

/-- What a step does to the callbacks run, the rejected appends and the count. -/
inductive Effect (s : FailureRun ι σ R φ) (a : FailureAction ι σ R φ)
    (t : FailureRun ι σ R φ) : Prop
  | accepted
      (hcalls : t.sink.storageFailureCalls = s.sink.storageFailureCalls)
      (hrejected : t.rejected = s.rejected)
      (hcount : t.sink.storageAppendFailures = s.sink.storageAppendFailures)
      (hok : s.SubmissionAccepted a)
  | surfaced (f : φ)
      (hcalls : t.sink.storageFailureCalls = s.sink.storageFailureCalls ++ [f])
      (hrejected : t.rejected = s.rejected ++ [f])
      (hcount : t.sink.storageAppendFailures = s.sink.storageAppendFailures + 1)
      (hok : s.SubmissionAccepted a)
  | hidden (f : φ)
      (hcalls : t.sink.storageFailureCalls = s.sink.storageFailureCalls)
      (hrejected : t.rejected = s.rejected ++ [f])
      (hcount : t.sink.storageAppendFailures = s.sink.storageAppendFailures + 1)
      (hbad : ¬ s.SubmissionAccepted a)

/-- The submission of an order is accepted or hidden. -/
theorem effect_record
    {i : ι} {eventNs now : Int64}
    (h : s.liveStep (.record i eventNs now) = some t) :
    Effect s (.live (.record i eventNs now)) t := by
  simp only [liveStep] at h
  split at h
  · rename_i trade f hpc
    cases h
    obtain ⟨hcalls, hcount⟩ := s.sink.failures_recordSubmission trade eventNs now
    cases hrejects : LiveOrderExecutorSink.rejects s.sink.storage
        (submissionEvent trade eventNs) now with
    | false =>
        refine .accepted hcalls ?_ ?_ ?_
        · simp [note, hrejects]
        · simpa [hrejects] using hcount
        · simpa [SubmissionAccepted, hpc] using hrejects
    | true =>
        refine .hidden f hcalls ?_ ?_ ?_
        · simp [note, hrejects]
        · simpa [hrejects] using hcount
        · simpa [SubmissionAccepted, hpc] using hrejects
  · cases h

/-- A response is accepted or surfaced. -/
theorem effect_respond
    {i : ι} {response : OrderResponse R} {eventNs now : Int64}
    (h : s.liveStep (.respond i response eventNs now) = some t) :
    Effect s (.live (.respond i response eventNs now)) t := by
  simp only [liveStep] at h
  split at h
  · rename_i f hf
    cases h
    obtain ⟨hcalls, hcount⟩ := s.sink.failures_recordResponse response f eventNs now
    cases hrejects : LiveOrderExecutorSink.rejects s.sink.storage
        (responseEvent response eventNs) now with
    | false =>
        refine .accepted ?_ ?_ ?_ trivial
        · simpa [hrejects] using hcalls
        · simp [note, hrejects]
        · simpa [hrejects] using hcount
    | true =>
        refine .surfaced f ?_ ?_ ?_ trivial
        · simpa [hrejects] using hcalls
        · simp [note, hrejects]
        · simpa [hrejects] using hcount
  · cases h

theorem effect_of_step
    {a : FailureAction ι σ R φ}
    (h : s.step a = some t) :
    Effect s a t := by
  cases a with
  | storageChanges storage =>
      cases h
      exact .accepted rfl rfl rfl trivial
  | live a =>
      cases a with
      | callSubmit i trade f =>
          cases f with
          | none =>
              cases h
          | some f =>
              simp only [step, liveStep] at h
              split at h
              · cases h
                exact .accepted rfl rfl rfl trivial
              · cases h
      | submitFn i taken =>
          simp only [step, liveStep] at h
          split at h
          · split at h
            · cases h
              exact .accepted rfl rfl rfl trivial
            · cases h
              exact .accepted rfl rfl rfl trivial
          · cases h
      | record i eventNs now =>
          exact effect_record h
      | respond i response eventNs now =>
          exact effect_respond h

/-- The sink counts the rejected appends. -/
theorem storageAppendFailures_of_reachable
    {storage : Option σ}
    (hs : Reachable (Steps FailureRun.step) (create storage) s) :
    s.sink.storageAppendFailures = UInt64.ofNat s.rejected.length := by
  induction hs with
  | init =>
      rfl
  | tail _ ha ih =>
      cases effect_of_step ha with
      | accepted _ hrejected hcount =>
          rw [hrejected, hcount, ih]
      | surfaced f _ hrejected hcount | hidden f _ hrejected hcount =>
          rw [hrejected, hcount, ih, List.length_append, UInt64.ofNat_add]
          rfl

variable {S : Type} [DecidableEq S] [Fintype S] {strategyOf : φ → S}

/-- The counters agree once the callbacks do. -/
theorem surfaced_iff
    {storage : Option σ}
    (hs : Reachable (Steps FailureRun.step) (create storage) s) :
    s.Surfaced strategyOf ↔ s.sink.storageFailureCalls = s.rejected := by
  refine ⟨Surfaced.calls, fun hcalls => ⟨hcalls, ?_⟩⟩
  rw [sum_strategyFailures, hcalls, storageAppendFailures_of_reachable hs]

/-- A step leaves nothing hidden exactly if it appends no submission in vain. -/
theorem surfaced_step
    {storage : Option σ}
    (hs : Reachable (Steps FailureRun.step) (create storage) s)
    (h : s.Surfaced strategyOf)
    {a : FailureAction ι σ R φ}
    (ha : s.step a = some t) :
    t.Surfaced strategyOf ↔ s.SubmissionAccepted a := by
  rw [surfaced_iff (hs.tail ha)]
  cases effect_of_step ha with
  | accepted hcalls hrejected _ hok | surfaced f hcalls hrejected _ hok =>
      exact iff_of_true (by rw [hcalls, hrejected, h.calls]) hok
  | hidden f hcalls hrejected _ hbad =>
      refine iff_of_false ?_ hbad
      rw [hcalls, hrejected, h.calls]
      simp

/--
In every state of a run each rejected append has run the failure callback of its
order exactly once, and the counters of the strategies add up to the counter of the
sink, exactly if the storage takes the submission of every order.
-/
theorem storage_failures_surfaced_iff
    {storage : Option σ}
    {trace : List (FailureRun ι σ R φ × FailureAction ι σ R φ)}
    (hrun : Execution (Steps FailureRun.step) (create storage) trace s) :
    ((∀ p ∈ trace, p.1.Surfaced strategyOf) ∧ s.Surfaced strategyOf) ↔
      ∀ p ∈ trace, p.1.SubmissionAccepted p.2 := by
  have hinit : (create storage : FailureRun ι σ R φ).Surfaced strategyOf := by
    rw [surfaced_iff .init]
    rfl
  exact hrun.forall_states_iff hinit (fun _ _ _ hs h ha => surfaced_step hs h ha)

end Invariant

section FullStorage

/-- A storage with room for a number of events, as a queue that nobody drains. -/
structure StorageWithRoom where
  room : Nat

instance : IStorage StorageWithRoom ℚ where
  append storage _ _ :=
    if storage.room = 0 then (false, storage) else (true, ⟨storage.room - 1⟩)

instance (s : FailureRun Unit StorageWithRoom ℚ Bool)
    (a : FailureAction Unit StorageWithRoom ℚ Bool) :
    Decidable (s.SubmissionAccepted a) :=
  match a with
  | .live (.record i eventNs now) =>
      match h : s.calls i with
      | .handedOver trade _ =>
          decidable_of_iff (LiveOrderExecutorSink.rejects s.sink.storage
            (submissionEvent trade eventNs) now = false) (by simp [SubmissionAccepted, h])
      | .idle => isTrue (by simp [SubmissionAccepted, h])
      | .submitting _ _ => isTrue (by simp [SubmissionAccepted, h])
      | .returned _ _ _ => isTrue (by simp [SubmissionAccepted, h])
  | .live (.callSubmit _ _ _) => isTrue trivial
  | .live (.submitFn _ _) => isTrue trivial
  | .live (.respond _ _ _ _) => isTrue trivial
  | .storageChanges _ => isTrue trivial

/-- An order and its response. -/
def orderAndResponse : List (FailureAction Unit StorageWithRoom ℚ Bool) :=
  [.live (.callSubmit () LiveRun.marketOrder (some true)), .live (.submitFn () true),
    .live (.record () 1 1), .live (.respond () LiveRun.filledResponse 2 2)]

/-- The storage takes the submission and not the response. -/
theorem storage_failures_surfaced_response_rejected :
    ∃ (trace : List (FailureRun Unit StorageWithRoom ℚ Bool ×
          FailureAction Unit StorageWithRoom ℚ Bool))
        (s : FailureRun Unit StorageWithRoom ℚ Bool),
      Execution (Steps FailureRun.step) (create (some ⟨1⟩)) trace s ∧
        s.sink.storageAppendFailures = 1 ∧ s.sink.storageFailureCalls = [true] ∧
        ((∀ p ∈ trace, p.1.Surfaced id) ∧ s.Surfaced id) := by
  have hrun : (runActions (guardActions FailureRun.step SubmissionAccepted)
      (create (some ⟨1⟩) : FailureRun Unit StorageWithRoom ℚ Bool) orderAndResponse).map
        (fun s => (s.sink.storageAppendFailures, s.sink.storageFailureCalls)) =
      some (1, [true]) := by
    decide +kernel
  obtain ⟨trace, s, htrace, hok, hview⟩ :=
    Execution.exists_of_guardActions _ Execution.init (by simp) hrun
  obtain ⟨hcount, hcalls⟩ := Prod.mk.inj hview
  exact ⟨trace, s, htrace, hcount, hcalls, (storage_failures_surfaced_iff htrace).mpr hok⟩

/-- The storage takes nothing: the sink counts two failures, the strategy one. -/
theorem rejected_submission_not_surfaced :
    ∃ s : FailureRun Unit StorageWithRoom ℚ Bool,
      Reachable (Steps FailureRun.step) (create (some ⟨0⟩)) s ∧
        s.rejected = [true, true] ∧ s.sink.storageFailureCalls = [true] ∧
        s.sink.storageAppendFailures = 2 ∧
        ∑ x, strategyFailures id s.sink.storageFailureCalls x = 1 ∧ ¬ s.Surfaced id := by
  have hrun : (runActions FailureRun.step
      (create (some ⟨0⟩) : FailureRun Unit StorageWithRoom ℚ Bool) orderAndResponse).map
        (fun s => (s.rejected, s.sink.storageFailureCalls, s.sink.storageAppendFailures)) =
      some ([true, true], [true], 2) := by
    decide +kernel
  obtain ⟨s, hs, hview⟩ := Reachable.exists_of_runActions hrun
  simp only [Prod.mk.injEq] at hview
  obtain ⟨hrejected, hcalls, hcount⟩ := hview
  refine ⟨s, hs, hrejected, hcalls, hcount, ?_, ?_⟩
  · rw [sum_strategyFailures, hcalls]
    rfl
  · intro h
    have hsame := h.calls
    rw [hcalls, hrejected] at hsame
    exact absurd hsame (by decide)

end FullStorage

end FailureRun

end Strategy
end CryptoHft
