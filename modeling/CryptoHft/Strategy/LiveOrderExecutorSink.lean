import CryptoHft.Lib.Runs
import CryptoHft.Strategy.StorageReplayDriver

/-!
# The live order executor sink

`LiveOrderExecutorSink` of `include/strategy/live_order_executor_sink.hpp`.
`submit_trade` hands the order and a response callback to `submit_fn_`, and
appends the submission to the storage after `submit_fn_` has returned.  From the
moment `submit_fn_` has taken the order, the executor may run the callback on a
thread of its own; the callback appends the response.  So a response can be
logged before the submission, and `StorageReplayDriver` then cannot route it.

`live_log_causal_iff` says which schedules keep the log in order: those in which
no callback runs before `submit_trade` has appended.
-/

namespace CryptoHft
namespace Strategy

open Lib Storage StorageReplayDriver

structure LiveOrderExecutorSink (σ φ : Type) where
  storage : Option σ
  submittedEventsSeen : UInt64
  responseEventsSeen : UInt64
  storageAppendFailures : UInt64
  /-- The storage failure callbacks that were run. -/
  storageFailureCalls : List φ

namespace LiveOrderExecutorSink

variable {σ R φ : Type}

def create (storage : Option σ) : LiveOrderExecutorSink σ φ where
  storage := storage
  submittedEventsSeen := 0
  responseEventsSeen := 0
  storageAppendFailures := 0
  storageFailureCalls := []

variable [IStorage σ R]

/-- `append_storage_event`, with the clock reading the storage may take. -/
def appendStorageEvent (s : LiveOrderExecutorSink σ φ) (event : StorageEvent R)
    (storageFailureCallback : Option φ) (now : Int64) : LiveOrderExecutorSink σ φ :=
  match s.storage with
  | none => s
  | some storage =>
      let (appended, storage') := IStorage.append storage event now
      if appended then { s with storage := some storage' }
      else
        { s with
          storage := some storage'
          storageAppendFailures := s.storageAppendFailures + 1
          storageFailureCalls := s.storageFailureCalls ++ storageFailureCallback.toList }

/--
The end of `submit_trade`, after `submit_fn_` took the order.  The failure callback
was moved into the response callback, so none is left here.
-/
def recordSubmission (s : LiveOrderExecutorSink σ φ) (trade : Trade R) (eventNs now : Int64) :
    LiveOrderExecutorSink σ φ :=
  let s := s.appendStorageEvent ⟨0, eventNs, .tradeSubmitted, .trade trade⟩ none now
  { s with submittedEventsSeen := s.submittedEventsSeen + 1 }

/-- The callback given to `submit_fn_`, up to the callback of the strategy. -/
def recordResponse (s : LiveOrderExecutorSink σ φ) (response : OrderResponse R)
    (storageFailureCallback : Option φ) (eventNs now : Int64) : LiveOrderExecutorSink σ φ :=
  let s := s.appendStorageEvent ⟨0, eventNs, .orderResponse, .orderResponse response⟩
    storageFailureCallback now
  { s with responseEventsSeen := s.responseEventsSeen + 1 }

theorem storage_appendStorageEvent
    (s : LiveOrderExecutorSink σ φ) (event : StorageEvent R)
    (storageFailureCallback : Option φ) (now : Int64) :
    (s.appendStorageEvent event storageFailureCallback now).storage =
      appended s.storage event now := by
  rw [appendStorageEvent]
  cases hstorage : s.storage with
  | none =>
      exact hstorage
  | some storage =>
      dsimp only
      split
      · rfl
      · rfl

end LiveOrderExecutorSink

/-- The points of a call of `submit_trade`. -/
inductive SubmitPc (R φ : Type)
  | idle
  /-- Before `submit_fn_` has decided. -/
  | submitting (trade : Trade R) (storageFailureCallback : Option φ)
  /-- `submit_fn_` has taken the order. -/
  | handedOver (trade : Trade R) (storageFailureCallback : Option φ)
  | returned (trade : Trade R) (storageFailureCallback : Option φ) (result : Bool)

/-- The order whose callback the executor holds, once it has taken the order. -/
def SubmitPc.taken {R φ : Type} : SubmitPc R φ → Option (Trade R × Option φ)
  | .handedOver trade storageFailureCallback => some (trade, storageFailureCallback)
  | .returned trade storageFailureCallback true => some (trade, storageFailureCallback)
  | .returned _ _ false => none
  | .idle => none
  | .submitting _ _ => none

/-- The client order id of an order for which `submit_trade` has returned true. -/
def SubmitPc.recorded {R φ : Type} : SubmitPc R φ → Option UInt64
  | .returned trade _ true => some trade.clientOrderId
  | .returned _ _ false => none
  | .idle => none
  | .submitting _ _ => none
  | .handedOver _ _ => none

/-- A sink and the calls of `submit_trade` made on it. -/
structure LiveRun (ι R φ : Type) where
  sink : LiveOrderExecutorSink (InMemoryStorage R) φ
  calls : ι → SubmitPc R φ

inductive LiveAction (ι R φ : Type)
  | callSubmit (i : ι) (trade : Trade R) (storageFailureCallback : Option φ)
  | submitFn (i : ι) (taken : Bool)
  | record (i : ι) (eventNs now : Int64)
  /-- The executor runs the callback of call `i`. -/
  | respond (i : ι) (response : OrderResponse R) (eventNs now : Int64)

namespace LiveRun

section Steps

variable {ι R φ : Type}

def create : LiveRun ι R φ where
  sink := .create (some .create)
  calls _ := .idle

variable [DecidableEq ι]

def setCall (s : LiveRun ι R φ) (i : ι) (pc : SubmitPc R φ) : LiveRun ι R φ :=
  { s with calls := Function.update s.calls i pc }

def step (s : LiveRun ι R φ) : LiveAction ι R φ → Option (LiveRun ι R φ)
  | .callSubmit i trade storageFailureCallback =>
      match s.calls i with
      | .idle => some (s.setCall i (.submitting trade storageFailureCallback))
      | _ => none
  | .submitFn i taken =>
      match s.calls i with
      | .submitting trade storageFailureCallback =>
          if taken then some (s.setCall i (.handedOver trade storageFailureCallback))
          else some (s.setCall i (.returned trade storageFailureCallback false))
      | _ => none
  | .record i eventNs now =>
      match s.calls i with
      | .handedOver trade storageFailureCallback =>
          some { s.setCall i (.returned trade storageFailureCallback true) with
            sink := s.sink.recordSubmission trade eventNs now }
      | _ => none
  | .respond i response eventNs now =>
      match (s.calls i).taken with
      | some (trade, storageFailureCallback) =>
          -- the executor finds the callback by the client order id of the response
          if response.clientOrderId = trade.clientOrderId then
            some { s with
              sink := s.sink.recordResponse response storageFailureCallback eventNs now }
          else none
      | none => none

/-- `submit_trade` has returned true for an order with this client order id. -/
def Recorded (s : LiveRun ι R φ) (clientOrderId : UInt64) : Prop :=
  ∃ i, (s.calls i).recorded = some clientOrderId

/-- A callback runs only after `submit_trade` has returned for its order. -/
def AfterSubmit (s : LiveRun ι R φ) : LiveAction ι R φ → Prop
  | .respond _ response _ _ => s.Recorded response.clientOrderId
  | _ => True

instance [Fintype ι] (s : LiveRun ι R φ) (a : LiveAction ι R φ) : Decidable (s.AfterSubmit a) :=
  match a with
  | .respond _ response _ _ =>
      inferInstanceAs (Decidable (∃ i, (s.calls i).recorded = some response.clientOrderId))
  | .callSubmit _ _ _ => isTrue trivial
  | .submitFn _ _ => isTrue trivial
  | .record _ _ _ => isTrue trivial

/-- The log is causally ordered, and the driver finds the orders of all its responses. -/
def Causal (s : LiveRun ι R φ) : Prop :=
  ∃ store, s.sink.storage = some store ∧ CausallyOrdered store.events ∧
    (store.events.length < 2 ^ 64 → ∀ pageSize fuel, store.events.length < fuel →
      ∃ r, StorageReplayDriver.run store.replay fuel
          { ReplayRequest.all with maxEvents := pageSize } = some r ∧
        r.stats.unmatchedResponses = 0)

end Steps

section Invariant

variable {ι R φ : Type} {s t : LiveRun ι R φ}

/-- The submissions in the log are those of the calls that have returned true. -/
structure Inv (s : LiveRun ι R φ) : Prop where
  log : ∃ store r, s.sink.storage = some store ∧ Logged (some store) r ∧
    ∀ id, Submitted store.events id ↔ s.Recorded id

theorem inv_create : Inv (create : LiveRun ι R φ) := by
  refine ⟨.create, .initial, rfl, ⟨.create, rfl, rfl, InMemoryStorage.inv_create, rfl⟩, ?_⟩
  simp [InMemoryStorage.create, Submitted, Recorded, create, SubmitPc.recorded]

/-- The driver does its part on every log that is causally ordered. -/
theorem Inv.causal_iff
    (h : Inv s)
    {store : InMemoryStorage R}
    (hstore : s.sink.storage = some store) :
    s.Causal ↔ CausallyOrdered store.events := by
  constructor
  · rintro ⟨store', hstore', hcausal, -⟩
    rw [hstore, Option.some.injEq] at hstore'
    rw [hstore']
    exact hcausal
  · intro hcausal
    obtain ⟨store', r, hstore', hlogged, -⟩ := h.log
    rw [hstore, Option.some.injEq] at hstore'
    subst hstore'
    refine ⟨store, hstore, hcausal, ?_⟩
    intro hcount pageSize fuel hfuel
    obtain ⟨_, hsome, -, -, hreplayed⟩ := hlogged.replays
    cases hsome
    exact ⟨r, hlogged.run_eq hcount pageSize hfuel, (replayed_spec hreplayed).2 hcausal⟩

theorem causal_create : (create : LiveRun ι R φ).Causal := by
  refine (inv_create.causal_iff rfl).mpr ?_
  intro front event rest heq
  exact absurd heq.symm (by simp [InMemoryStorage.create])

variable [DecidableEq ι]

/-- What one step can do. -/
theorem step_cases
    {a : LiveAction ι R φ}
    (h : s.step a = some t) :
    (∃ i pc, t = s.setCall i pc ∧ (s.calls i).recorded = none ∧ pc.recorded = none ∧
        s.AfterSubmit a) ∨
      (∃ i trade f eventNs now, s.calls i = .handedOver trade f ∧ s.AfterSubmit a ∧
        t = { s.setCall i (.returned trade f true) with
          sink := s.sink.recordSubmission trade eventNs now }) ∨
      (∃ i response f eventNs now, a = .respond i response eventNs now ∧
        t = { s with sink := s.sink.recordResponse response f eventNs now }) := by
  cases a with
  | callSubmit i trade f =>
      simp only [step] at h
      split at h
      · rename_i hidle
        cases h
        exact .inl ⟨i, _, rfl, by rw [hidle]; rfl, rfl, trivial⟩
      · cases h
  | submitFn i taken =>
      simp only [step] at h
      split at h
      · rename_i trade f hpc
        split at h
        · cases h
          exact .inl ⟨i, _, rfl, by rw [hpc]; rfl, rfl, trivial⟩
        · cases h
          exact .inl ⟨i, _, rfl, by rw [hpc]; rfl, rfl, trivial⟩
      · cases h
  | record i eventNs now =>
      simp only [step] at h
      split at h
      · rename_i trade f hpc
        cases h
        exact .inr (.inl ⟨i, trade, f, eventNs, now, hpc, trivial, rfl⟩)
      · cases h
  | respond i response eventNs now =>
      simp only [step] at h
      split at h
      · split at h
        · cases h
          exact .inr (.inr ⟨i, response, _, eventNs, now, rfl, rfl⟩)
        · cases h
      · cases h

@[simp] theorem calls_setCall_self (i : ι) (pc : SubmitPc R φ) :
    (s.setCall i pc).calls i = pc := by
  simp [setCall]

theorem calls_setCall_of_ne
    {i j : ι}
    (h : j ≠ i)
    (pc : SubmitPc R φ) :
    (s.setCall i pc).calls j = s.calls j := by
  simp [setCall, h]

/-- The calls that have returned true, after one call moved on. -/
theorem recorded_setCall
    {i : ι}
    (hbefore : (s.calls i).recorded = none)
    (pc : SubmitPc R φ) (id : UInt64) :
    (s.setCall i pc).Recorded id ↔ s.Recorded id ∨ pc.recorded = some id := by
  constructor
  · rintro ⟨j, hrecorded⟩
    by_cases hj : j = i
    · subst hj
      rw [calls_setCall_self] at hrecorded
      exact .inr hrecorded
    · rw [calls_setCall_of_ne hj] at hrecorded
      exact .inl ⟨j, hrecorded⟩
  · rintro (⟨j, hrecorded⟩ | hrecorded)
    · have hj : j ≠ i := by
        rintro rfl
        rw [hbefore] at hrecorded
        cases hrecorded
      exact ⟨j, by rw [calls_setCall_of_ne hj, hrecorded]⟩
    · exact ⟨i, by rw [calls_setCall_self, hrecorded]⟩

theorem Inv.step
    (h : Inv s)
    {a : LiveAction ι R φ}
    (ha : s.step a = some t) :
    Inv t := by
  obtain ⟨store, r, hstore, hlogged, hsubmitted⟩ := h.log
  rcases step_cases ha with ⟨i, pc, rfl, hbefore, hafter, -⟩ |
    ⟨i, trade, f, eventNs, now, hpc, -, rfl⟩ | ⟨i, response, f, eventNs, now, -, rfl⟩
  · refine ⟨store, r, hstore, hlogged, ?_⟩
    intro id
    rw [hsubmitted, recorded_setCall hbefore]
    simp [hafter]
  · obtain ⟨store', r', hstore', hevents, hlogged'⟩ := hlogged.append_event
      ⟨0, eventNs, .tradeSubmitted, .trade trade⟩ rfl now
    refine ⟨store', r', ?_, hlogged', ?_⟩
    · simp only [LiveOrderExecutorSink.recordSubmission,
        LiveOrderExecutorSink.storage_appendStorageEvent, hstore, hstore']
    · intro id
      have hset := recorded_setCall (s := s) (i := i) (by rw [hpc]; rfl) (.returned trade f true) id
      rw [hevents, submitted_concat, hsubmitted]
      refine Iff.trans ?_ hset.symm
      simp [stamp, SubmitPc.recorded]
  · obtain ⟨store', r', hstore', hevents, hlogged'⟩ := hlogged.append_event
      ⟨0, eventNs, .orderResponse, .orderResponse response⟩ rfl now
    refine ⟨store', r', ?_, hlogged', ?_⟩
    · simp only [LiveOrderExecutorSink.recordResponse,
        LiveOrderExecutorSink.storage_appendStorageEvent, hstore, hstore']
    · intro id
      rw [hevents, submitted_concat, hsubmitted]
      simp [stamp, Recorded]

/-- A step keeps the log in order exactly if it runs no callback too early. -/
theorem Inv.causal_step
    (h : Inv s)
    (hcausal : s.Causal)
    {a : LiveAction ι R φ}
    (ha : s.step a = some t) :
    t.Causal ↔ s.AfterSubmit a := by
  have ht := h.step ha
  obtain ⟨store, r, hstore, hlogged, hsubmitted⟩ := h.log
  have hordered := (h.causal_iff hstore).mp hcausal
  rcases step_cases ha with ⟨i, pc, rfl, -, -, hafter⟩ |
    ⟨i, trade, f, eventNs, now, -, hafter, rfl⟩ | ⟨i, response, f, eventNs, now, rfl, rfl⟩
  · exact iff_of_true hcausal hafter
  · obtain ⟨store', -, hstore', hevents, -⟩ := hlogged.append_event
      ⟨0, eventNs, .tradeSubmitted, .trade trade⟩ rfl now
    rw [← hstore, ← LiveOrderExecutorSink.storage_appendStorageEvent s.sink _ none] at hstore'
    refine iff_of_true ((ht.causal_iff hstore').mpr ?_) hafter
    rw [hevents, causallyOrdered_concat]
    exact ⟨hordered, by simp [stamp]⟩
  · obtain ⟨store', -, hstore', hevents, -⟩ := hlogged.append_event
      ⟨0, eventNs, .orderResponse, .orderResponse response⟩ rfl now
    rw [← hstore, ← LiveOrderExecutorSink.storage_appendStorageEvent s.sink _ f] at hstore'
    rw [ht.causal_iff hstore', hevents, causallyOrdered_concat]
    simp only [stamp, StoragePayload.orderResponse.injEq, forall_eq', hsubmitted, AfterSubmit]
    exact ⟨And.right, fun hrecorded => ⟨hordered, hrecorded⟩⟩

theorem inv_of_reachable
    (hs : Reachable (Steps LiveRun.step) create s) :
    Inv s :=
  hs.invariant inv_create (fun _ _ _ h ha => h.step ha)

/--
The log of a live session is causally ordered, and the driver can route all its
responses, at every moment of a run exactly if each callback runs after
`submit_trade` has returned for its order.
-/
theorem live_log_causal_iff
    {trace : List (LiveRun ι R φ × LiveAction ι R φ)}
    (hrun : Execution (Steps LiveRun.step) create trace s) :
    ((∀ p ∈ trace, p.1.Causal) ∧ s.Causal) ↔ ∀ p ∈ trace, p.1.AfterSubmit p.2 :=
  hrun.forall_states_iff causal_create
    (fun _ _ _ hs hcausal ha => (inv_of_reachable hs).causal_step hcausal ha)

end Invariant

section Schedules

def marketOrder : Trade ℚ :=
  (Trade.createMarketOrder 41 0 9 (text "BTC_USDT") .buy 1).1

def filledResponse : OrderResponse ℚ :=
  { OrderResponse.empty with clientOrderId := 41, status := .filled }

/-- The executor answers the order after `submit_trade` has returned. -/
theorem live_log_causal_answered_late :
    ∃ (trace : List (LiveRun Unit ℚ Unit × LiveAction Unit ℚ Unit)) (s : LiveRun Unit ℚ Unit),
      Execution (Steps LiveRun.step) create trace s ∧ s.sink.responseEventsSeen = 1 ∧
        ((∀ p ∈ trace, p.1.Causal) ∧ s.Causal) := by
  have hrun : (runActions (guardActions LiveRun.step AfterSubmit) (create : LiveRun Unit ℚ Unit)
      [.callSubmit () marketOrder none, .submitFn () true, .record () 1 1,
        .respond () filledResponse 2 2]).map (fun s => s.sink.responseEventsSeen) = some 1 := by
    decide +kernel
  obtain ⟨trace, s, htrace, hok, hview⟩ :=
    Execution.exists_of_guardActions _ Execution.init (by simp) hrun
  exact ⟨trace, s, htrace, hview, (live_log_causal_iff htrace).mpr hok⟩

/-- The executor answers the order before `submit_trade` has appended the submission. -/
theorem response_logged_before_submission :
    ∃ s : LiveRun Unit ℚ Unit,
      Reachable (Steps LiveRun.step) create s ∧
        s.sink.storage.map (fun store => store.events.map StorageEvent.type) =
          some [.orderResponse, .tradeSubmitted] ∧
        (s.sink.storage.bind (fun store => StorageReplayDriver.run store.replay 3 .all)).map
          (fun r => r.stats.unmatchedResponses) = some 1 ∧
        ¬ s.Causal := by
  have hrun : (runActions LiveRun.step (create : LiveRun Unit ℚ Unit)
      [.callSubmit () marketOrder none, .submitFn () true, .respond () filledResponse 1 1,
        .record () 2 2]).map
        (fun s => (s.sink.storage.map (fun store => store.events.map StorageEvent.type),
          (s.sink.storage.bind (fun store => StorageReplayDriver.run store.replay 3 .all)).map
            (fun r => r.stats.unmatchedResponses))) =
      some (some [.orderResponse, .tradeSubmitted], some 1) := by
    decide +kernel
  obtain ⟨s, hs, hview⟩ := Reachable.exists_of_runActions hrun
  rw [Prod.mk.injEq] at hview
  refine ⟨s, hs, hview.1, hview.2, ?_⟩
  rintro ⟨store, hstore, -, hreplay⟩
  obtain ⟨htypes, hunmatched⟩ := hview
  rw [hstore] at htypes hunmatched
  have hlength : store.events.length = 2 := by
    have htypes' : store.events.map StorageEvent.type = [.orderResponse, .tradeSubmitted] :=
      Option.some.inj htypes
    rw [← List.length_map (f := StorageEvent.type), htypes']
    rfl
  obtain ⟨r, hr, hzero⟩ := hreplay (by rw [hlength]; decide) 0 3 (by rw [hlength]; decide)
  have hall : { ReplayRequest.all with maxEvents := 0 } = ReplayRequest.all := rfl
  rw [Option.bind_some, ← hall, hr, Option.map_some, hzero] at hunmatched
  exact absurd hunmatched (by decide)

end Schedules

end LiveRun

end Strategy
end CryptoHft
