import CryptoHft.Backtest.SimulatedExecutionSink
import CryptoHft.Lib.Runs

/-!
# Runs of the simulated execution sink

A run is a sequence of calls of the sink by its clients, where a client is the
code that owns the sink or a response callback.  The calls in progress form a
stack: a call that has done its locked part delivers its responses one by one,
and each delivery runs the callback of the order on top of it.  A call can be
made when nothing is in progress or when a callback is on top; between two
deliveries of one call the callbacks may therefore call any operation, which may
deliver, and so on.

`trades` lists the submitted orders and `published` the responses that were
published, in order; neither is read by a step.
-/

namespace CryptoHft
namespace Backtest

open Lib Storage

/-- A call or a callback in progress. -/
inductive Activation (R κ φ : Type)
  /-- Client code: a response callback is running. -/
  | client
  /-- `deliver_all`, with the deliveries that are left. -/
  | delivering (deliveries : List (ResponseDelivery R κ φ))

structure SinkRun (σ R κ φ : Type) where
  sink : SimulatedExecutionSink σ R κ φ
  stack : List (Activation R κ φ)
  trades : List (Trade R)
  published : List (ResponseDelivery R κ φ)

/-- The operations of the sink, with the clock readings they take. -/
inductive SinkCall (R κ φ : Type)
  | submitTrade (trade : Trade R) (responseCallback : Option κ)
      (storageFailureCallback : Option φ) (eventNs storageNs now : Int64)
  | cancelOrder (instrument : Bytes) (orderId clientOid : UInt64) (now : Nat → Int64)
  | cancelAllOrders (instrument : Bytes) (now : Nat → Int64)
  | onQuote (quote : QuoteUpdate R) (now : Nat → Int64)
  | onTrade (tradeEvent : TradeEvent R) (now : Nat → Int64)

inductive SinkAction (R κ φ : Type)
  | call (c : SinkCall R κ φ)
  /-- `publish_response` of the next delivery. -/
  | deliver (eventNs now : Int64)
  /-- The callback on top returns. -/
  | callbackReturns
  /-- The call on top has nothing left to deliver and returns. -/
  | callReturns

section Calls

variable {σ R κ φ : Type} [Field R] [LinearOrder R] [IStorage σ R]

/-- An operation up to its deliveries. -/
def SimulatedExecutionSink.call (s : SimulatedExecutionSink σ R κ φ) :
    SinkCall R κ φ → List (ResponseDelivery R κ φ) × SimulatedExecutionSink σ R κ φ
  | .submitTrade trade responseCallback storageFailureCallback eventNs storageNs now =>
      s.submitTrade trade responseCallback storageFailureCallback eventNs storageNs now
  | .cancelOrder instrument orderId clientOid now =>
      s.cancelOrder instrument orderId clientOid now
  | .cancelAllOrders instrument now => s.cancelAllOrders instrument now
  | .onQuote quote now => s.onQuote quote now
  | .onTrade tradeEvent now => s.onTrade tradeEvent now

/-- `publish_response` of a delivery up to the callback. -/
def SimulatedExecutionSink.publish (s : SimulatedExecutionSink σ R κ φ)
    (delivery : ResponseDelivery R κ φ) (eventNs now : Int64) :
    SimulatedExecutionSink σ R κ φ :=
  s.publishResponse delivery.response delivery.pending.storageFailureCallback eventNs now

/-- The order a call submits. -/
def SinkCall.trades : SinkCall R κ φ → List (Trade R)
  | .submitTrade trade _ _ _ _ _ => [trade]
  | _ => []

omit [Field R] [LinearOrder R] in
/-- A call is a submission, or it submits nothing. -/
theorem SinkCall.submits_or_trades_nil (c : SinkCall R κ φ) :
    (∃ trade responseCallback storageFailureCallback eventNs storageNs now,
      c = .submitTrade trade responseCallback storageFailureCallback eventNs storageNs now) ∨
    c.trades = [] := by
  cases c with
  | submitTrade =>
      exact .inl ⟨_, _, _, _, _, _, rfl⟩
  | cancelOrder | cancelAllOrders | onQuote | onTrade =>
      exact .inr rfl

omit [Field R] [LinearOrder R] in
/-- Publishing counts the response and touches the storage. -/
theorem SimulatedExecutionSink.publish_eq
    (s : SimulatedExecutionSink σ R κ φ)
    (delivery : ResponseDelivery R κ φ)
    (eventNs now : Int64) :
    ∃ failures calls, s.publish delivery eventNs now =
      { s with
        filled := s.filled + if delivery.response.status = .filled then 1 else 0
        canceled := s.canceled + if delivery.response.status = .canceled then 1 else 0
        rejected := s.rejected + if delivery.response.status = .rejected then 1 else 0
        storage := appended s.storage
          ⟨0, eventNs, .orderResponse, .orderResponse delivery.response⟩ now
        storageAppendFailures := failures
        storageFailureCalls := calls } := by
  simp only [publish, publishResponse]
  cases hstatus : delivery.response.status with
  | filled =>
      simpa using appendStorageEvent_eq _ _ _ _
  | canceled =>
      simpa using appendStorageEvent_eq _ _ _ _
  | rejected =>
      simpa using appendStorageEvent_eq _ _ _ _
  | new =>
      simpa using appendStorageEvent_eq _ _ _ _
  | partiallyFilled =>
      simpa using appendStorageEvent_eq _ _ _ _
  | expired =>
      simpa using appendStorageEvent_eq _ _ _ _

namespace SinkRun

def create (storage : Option σ) (config : SimulatedExecutionConfig R) : SinkRun σ R κ φ where
  sink := .create storage config
  stack := []
  trades := []
  published := []

/-- Client code is in control. -/
def clientTurn (s : SinkRun σ R κ φ) : Bool :=
  match s.stack with
  | [] => true
  | .client :: _ => true
  | .delivering _ :: _ => false

/-- A callback that exists is run on top of the call that delivers to it. -/
def callbackActivation (delivery : ResponseDelivery R κ φ) : List (Activation R κ φ) :=
  match delivery.pending.responseCallback with
  | some _ => [.client]
  | none => []

def step (s : SinkRun σ R κ φ) : SinkAction R κ φ → Option (SinkRun σ R κ φ)
  | .call c =>
      if s.clientTurn then
        let (deliveries, sink) := s.sink.call c
        some { s with
          sink := sink
          stack := .delivering deliveries :: s.stack
          trades := s.trades ++ c.trades }
      else none
  | .deliver eventNs now =>
      match s.stack with
      | .delivering (delivery :: rest) :: below =>
          some { s with
            sink := s.sink.publish delivery eventNs now
            stack := callbackActivation delivery ++ .delivering rest :: below
            published := s.published ++ [delivery] }
      | _ => none
  | .callbackReturns =>
      match s.stack with
      | .client :: below => some { s with stack := below }
      | _ => none
  | .callReturns =>
      match s.stack with
      | .delivering [] :: below => some { s with stack := below }
      | _ => none

/-- The deliveries that the calls in progress have not published yet. -/
def undelivered (s : SinkRun σ R κ φ) : List (ResponseDelivery R κ φ) :=
  s.stack.flatMap (fun activation =>
    match activation with
    | .client => []
    | .delivering deliveries => deliveries)

/-- All responses made so far. -/
def made (s : SinkRun σ R κ φ) : List (ResponseDelivery R κ φ) :=
  s.undelivered ++ s.published

end SinkRun

end Calls

namespace SinkRun

section Entering

variable {σ R κ φ : Type}

/-- The state after a call did its locked part. -/
def entered (s : SinkRun σ R κ φ)
    (result : List (ResponseDelivery R κ φ) × SimulatedExecutionSink σ R κ φ)
    (trades : List (Trade R)) : SinkRun σ R κ φ :=
  { s with
    sink := result.2
    stack := .delivering result.1 :: s.stack
    trades := s.trades ++ trades }

theorem made_entered
    (s : SinkRun σ R κ φ)
    (result : List (ResponseDelivery R κ φ) × SimulatedExecutionSink σ R κ φ)
    (trades : List (Trade R)) :
    (s.entered result trades).made = result.1 ++ s.made := by
  simp [entered, made, undelivered]

end Entering

section Steps

variable {σ R κ φ : Type} [Field R] [LinearOrder R] [IStorage σ R] {s t : SinkRun σ R κ φ}

theorem step_call
    {c : SinkCall R κ φ}
    (h : s.step (.call c) = some t) :
    s.clientTurn = true ∧ t = s.entered (s.sink.call c) c.trades := by
  simp only [step] at h
  split_ifs at h with hturn
  cases h
  exact ⟨hturn, rfl⟩

theorem step_deliver
    {eventNs now : Int64}
    (h : s.step (.deliver eventNs now) = some t) :
    ∃ delivery rest below, s.stack = .delivering (delivery :: rest) :: below ∧
      t = { s with
        sink := s.sink.publish delivery eventNs now
        stack := callbackActivation delivery ++ .delivering rest :: below
        published := s.published ++ [delivery] } := by
  simp only [step] at h
  split at h
  · rename_i delivery rest below hstack
    cases h
    exact ⟨delivery, rest, below, hstack, rfl⟩
  · cases h

/-- The two kinds of return leave the deliveries of the calls below. -/
theorem step_returns
    {a : SinkAction R κ φ}
    (ha : a = .callbackReturns ∨ a = .callReturns)
    (h : s.step a = some t) :
    ∃ stack, t = { s with stack := stack } ∧ t.made = s.made := by
  rcases ha with rfl | rfl
  · simp only [step] at h
    split at h
    · rename_i below hstack
      cases h
      exact ⟨below, rfl, by simp [made, undelivered, hstack]⟩
    · cases h
  · simp only [step] at h
    split at h
    · rename_i below hstack
      cases h
      exact ⟨below, rfl, by simp [made, undelivered, hstack]⟩
    · cases h

/-- Submitted orders stay on record. -/
theorem trades_isPrefix_of_step
    {a : SinkAction R κ φ}
    (h : s.step a = some t) :
    s.trades <+: t.trades := by
  cases a with
  | call c =>
      obtain ⟨-, rfl⟩ := step_call h
      exact List.prefix_append _ _
  | deliver eventNs now =>
      obtain ⟨delivery, rest, below, -, rfl⟩ := step_deliver h
      exact List.prefix_rfl
  | callbackReturns =>
      obtain ⟨stack, rfl, -⟩ := step_returns (.inl rfl) h
      exact List.prefix_rfl
  | callReturns =>
      obtain ⟨stack, rfl, -⟩ := step_returns (.inr rfl) h
      exact List.prefix_rfl

omit [Field R] [LinearOrder R] in
theorem made_perm_of_deliver
    {delivery : ResponseDelivery R κ φ} {rest : List (ResponseDelivery R κ φ)}
    {below : List (Activation R κ φ)}
    (hstack : s.stack = .delivering (delivery :: rest) :: below)
    (eventNs now : Int64) :
    List.Perm (made { s with
      sink := s.sink.publish delivery eventNs now
      stack := callbackActivation delivery ++ .delivering rest :: below
      published := s.published ++ [delivery] }) s.made := by
  have hcallback : (callbackActivation delivery).flatMap (fun activation =>
      match activation with
      | .client => []
      | .delivering deliveries => deliveries) = ([] : List (ResponseDelivery R κ φ)) := by
    cases hcase : delivery.pending.responseCallback <;> simp [callbackActivation, hcase]
  simp only [made, undelivered, hstack, List.flatMap_append, hcallback, List.flatMap_cons,
    List.nil_append, List.cons_append]
  rw [← List.append_assoc]
  exact (List.perm_append_singleton _ _)

end Steps

end SinkRun

section CompleteCalls

variable {σ R κ φ : Type} [Field R] [LinearOrder R] [IStorage σ R]

/-- `deliver_all` with callbacks that do not call the sink; readings by submission. -/
def SimulatedExecutionSink.deliverAll (clock : Nat → Int64 × Int64) :
    SimulatedExecutionSink σ R κ φ → List (ResponseDelivery R κ φ) →
      SimulatedExecutionSink σ R κ φ
  | s, [] => s
  | s, delivery :: rest =>
      let (eventNs, now) := clock delivery.pending.submission
      deliverAll clock (s.publish delivery eventNs now) rest

/-- A call with the clock readings of its deliveries. -/
structure Operation (R κ φ : Type) where
  call : SinkCall R κ φ
  clock : Nat → Int64 × Int64

/-- A whole call, whose callbacks do not call the sink. -/
def SimulatedExecutionSink.perform (s : SimulatedExecutionSink σ R κ φ)
    (operation : Operation R κ φ) :
    List (ResponseDelivery R κ φ) × SimulatedExecutionSink σ R κ φ :=
  let (deliveries, s') := s.call operation.call
  (deliveries, s'.deliverAll operation.clock deliveries)

/-- The responses of a sequence of whole calls. -/
def SimulatedExecutionSink.performAll :
    SimulatedExecutionSink σ R κ φ → List (Operation R κ φ) →
      List (ResponseDelivery R κ φ) × SimulatedExecutionSink σ R κ φ
  | s, [] => ([], s)
  | s, operation :: rest =>
      let (deliveries, s') := s.perform operation
      let (later, s'') := performAll s' rest
      (deliveries ++ later, s'')

namespace SinkRun

/-- The deliveries of a call, with callbacks that return at once. -/
theorem reachable_deliverAll
    (clock : Nat → Int64 × Int64)
    {s₀ : SinkRun σ R κ φ}
    (deliveries : List (ResponseDelivery R κ φ))
    {s : SinkRun σ R κ φ}
    {below : List (Activation R κ φ)}
    (hs : Reachable (Steps step) s₀ s)
    (hstack : s.stack = .delivering deliveries :: below) :
    Reachable (Steps step) s₀
      { s with
        sink := s.sink.deliverAll clock deliveries
        stack := below
        published := s.published ++ deliveries } := by
  induction deliveries generalizing s with
  | nil =>
      refine hs.tail (a := .callReturns) ?_
      simp [Steps, step, hstack, SimulatedExecutionSink.deliverAll]
  | cons delivery rest ih =>
      have hdeliver := hs.tail (a := .deliver (clock delivery.pending.submission).1
        (clock delivery.pending.submission).2) (t := { s with
          sink := s.sink.publish delivery (clock delivery.pending.submission).1
            (clock delivery.pending.submission).2
          stack := callbackActivation delivery ++ .delivering rest :: below
          published := s.published ++ [delivery] }) (by simp [Steps, step, hstack])
      have hreturned : Reachable (Steps step) s₀ { s with
          sink := s.sink.publish delivery (clock delivery.pending.submission).1
            (clock delivery.pending.submission).2
          stack := .delivering rest :: below
          published := s.published ++ [delivery] } := by
        cases hcallback : delivery.pending.responseCallback with
        | none =>
            simpa [callbackActivation, hcallback] using hdeliver
        | some callback =>
            refine hdeliver.tail (a := .callbackReturns) ?_
            simp [Steps, step, callbackActivation, hcallback]
      have hrest := ih hreturned rfl
      simpa [SimulatedExecutionSink.deliverAll, List.append_assoc] using hrest

/-- A sequence of whole calls is a run. -/
theorem reachable_performAll
    {s₀ : SinkRun σ R κ φ}
    (operations : List (Operation R κ φ))
    {s : SinkRun σ R κ φ}
    (hs : Reachable (Steps step) s₀ s)
    (hidle : s.stack = []) :
    ∃ t, Reachable (Steps step) s₀ t ∧ t.stack = [] ∧
      t.sink = (s.sink.performAll operations).2 ∧
      t.published = s.published ++ (s.sink.performAll operations).1 := by
  induction operations generalizing s with
  | nil =>
      exact ⟨s, hs, hidle, rfl, (List.append_nil _).symm⟩
  | cons operation rest ih =>
      have hcall := hs.tail (a := .call operation.call)
        (t := s.entered (s.sink.call operation.call) operation.call.trades)
        (by simp [Steps, step, clientTurn, hidle, entered])
      have hdelivered := reachable_deliverAll operation.clock _ hcall rfl
      obtain ⟨t, ht, hstack, hsink, hpublished⟩ := ih hdelivered hidle
      refine ⟨t, ht, hstack, hsink, ?_⟩
      rw [hpublished]
      simp [entered, SimulatedExecutionSink.performAll, SimulatedExecutionSink.perform]

end SinkRun

end CompleteCalls

end Backtest
end CryptoHft
