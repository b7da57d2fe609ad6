import CryptoHft.Backtest.SinkRun

/-!
# Tickers do not interfere in the simulated sink

All tickers share one list of resting orders, one id counter and the loops over
the list.  What an observer of one ticker sees of a sink is its configuration,
the stored quote of the ticker and the orders resting on it (`Agree`).  An
operation that names another ticker leaves the view alone; any other operation
acts on it as it would in a sink without the other tickers, where `tickerSweep`
is a loop seen through the view.  Ids and timestamps are not part of what is
observed.
-/

namespace CryptoHft
namespace Backtest

open Lib Storage SimulatedExecutionSink

section Observations

variable {R κ φ : Type}

/-- What is observed of a response. -/
structure Observation (R : Type) where
  clientOrderId : UInt64
  status : OrderStatus
  filledQuantity : R
  remainingQuantity : R
  avgPrice : R
  fee : R
deriving DecidableEq

def observe (response : OrderResponse R) : Observation R where
  clientOrderId := response.clientOrderId
  status := response.status
  filledQuantity := response.filledQuantity
  remainingQuantity := response.remainingQuantity
  avgPrice := response.avgPrice
  fee := response.fee

/-- The responses to orders on a ticker, as they are observed. -/
def observedOn (ticker : CString 16) (deliveries : List (ResponseDelivery R κ φ)) :
    List (Observation R) :=
  (deliveries.filter (fun delivery => delivery.pending.trade.ticker = ticker)).map
    (fun delivery => observe delivery.response)

/-- The orders of a list that are on a ticker. -/
def tradesOn (ticker : CString 16) (orders : List (PendingOrder R κ φ)) : List (Trade R) :=
  (orders.filter (fun order => order.trade.ticker = ticker)).map PendingOrder.trade

theorem tradesOn_cons
    (ticker : CString 16)
    (order : PendingOrder R κ φ)
    (rest : List (PendingOrder R κ φ)) :
    tradesOn ticker (order :: rest) =
      if order.trade.ticker = ticker then order.trade :: tradesOn ticker rest
      else tradesOn ticker rest := by
  by_cases hticker : order.trade.ticker = ticker
  · simp [tradesOn, hticker]
  · simp [tradesOn, hticker]

theorem observedOn_cons
    (ticker : CString 16)
    (delivery : ResponseDelivery R κ φ)
    (rest : List (ResponseDelivery R κ φ)) :
    observedOn ticker (delivery :: rest) =
      if delivery.pending.trade.ticker = ticker then
        observe delivery.response :: observedOn ticker rest
      else observedOn ticker rest := by
  by_cases hticker : delivery.pending.trade.ticker = ticker
  · simp [observedOn, hticker]
  · simp [observedOn, hticker]

theorem observedOn_append
    (ticker : CString 16)
    (deliveries later : List (ResponseDelivery R κ φ)) :
    observedOn ticker (deliveries ++ later) =
      observedOn ticker deliveries ++ observedOn ticker later := by
  simp [observedOn]

/-- The ticker a call names. -/
def SinkCall.names : SinkCall R κ φ → Option Bytes
  | .submitTrade trade _ _ _ _ _ => some trade.ticker.bytes
  | .cancelOrder instrument _ _ _ => some instrument
  | .cancelAllOrders instrument _ => if instrument = [] then none else some instrument
  | .onQuote quote _ => some quote.ticker.bytes
  | .onTrade tradeEvent _ => some tradeEvent.ticker.bytes

/-- The call names no ticker other than the given one. -/
def SinkCall.concerns (ticker : CString 16) (c : SinkCall R κ φ) : Bool :=
  c.names.all (fun name => name = ticker.bytes)

/-- Cancellations are by client id and name their instrument. -/
def SinkCall.cancelsByClientId : SinkCall R κ φ → Prop
  | .cancelOrder instrument orderId _ _ => instrument ≠ [] ∧ orderId = 0
  | _ => True

theorem observe_withId
    (response : OrderResponse R)
    (id : UInt64) :
    observe { response with exchangeOrderId := id } = observe response :=
  rfl

variable [Field R]

/-- The observation of the response to an order with an outcome. -/
def expected (config : SimulatedExecutionConfig R) (trade : Trade R) (status : OrderStatus)
    (fillPrice : R) : Observation R where
  clientOrderId := trade.clientOrderId
  status := status
  filledQuantity := if status = .filled then trade.quantity else 0
  remainingQuantity := if status = .filled then 0 else trade.quantity
  avgPrice := fillPrice
  fee := if status = .filled then feeOf config trade fillPrice else 0

theorem observe_makeResponse
    {σ : Type}
    (s : SimulatedExecutionSink σ R κ φ)
    (trade : Trade R)
    (outcome : Outcome R)
    (errorMessage : Bytes)
    (now : Int64) :
    observe (s.makeResponse trade outcome errorMessage now).1 =
      expected s.config trade outcome.status outcome.fillPrice := by
  obtain ⟨status, fillPrice, timestampNs⟩ := outcome
  cases status <;> rfl

end Observations

section TickerSweep

variable {σ R κ φ : Type} [Field R]

/-- A loop over the resting orders of one ticker. -/
def tickerSweep (config : SimulatedExecutionConfig R)
    (decision : Trade R → Option (OrderStatus × R)) (once : Bool) :
    List (Trade R) → List (Trade R) × List (Observation R)
  | [] => ([], [])
  | trade :: rest =>
      match decision trade with
      | none =>
          let (kept, observed) := tickerSweep config decision once rest
          (trade :: kept, observed)
      | some (status, fillPrice) =>
          if once then (rest, [expected config trade status fillPrice])
          else
            let (kept, observed) := tickerSweep config decision once rest
            (kept, expected config trade status fillPrice :: observed)

variable {ticker : CString 16} {outcome : PendingOrder R κ φ → Option (Outcome R)}
  (once : Bool) (now : Nat → Int64)

/-- A loop that has no outcome for the orders of a ticker leaves them alone. -/
theorem sweep_other_ticker
    (hother : ∀ order, order.trade.ticker = ticker → outcome order = none)
    (s : SimulatedExecutionSink σ R κ φ)
    (orders : List (PendingOrder R κ φ)) :
    tradesOn ticker (sweep outcome once now s orders).1 = tradesOn ticker orders ∧
      observedOn ticker (sweep outcome once now s orders).2.1 = [] := by
  induction orders generalizing s with
  | nil =>
      exact ⟨rfl, rfl⟩
  | cons order rest ih =>
      cases hresult : outcome order with
      | none =>
          obtain ⟨htrades, hobserved⟩ := ih s
          simp only [sweep, hresult, tradesOn_cons, htrades, hobserved, and_self]
      | some result =>
          have hticker : order.trade.ticker ≠ ticker := by
            intro hticker
            rw [hother order hticker] at hresult
            cases hresult
          cases once with
          | true =>
              simp [sweep, hresult, tradesOn_cons, observedOn, hticker]
          | false =>
              obtain ⟨htrades, hobserved⟩ := ih
                (s.makeResponse order.trade result [] (now order.submission)).2
              simp only [sweep, hresult, Bool.false_eq_true, if_false, tradesOn_cons,
                observedOn_cons, hticker, htrades, hobserved, and_self]

/-- A loop acts on the orders of a ticker as it would without the other tickers. -/
theorem sweep_on_ticker
    {config : SimulatedExecutionConfig R}
    {decision : Trade R → Option (OrderStatus × R)}
    (hdecision : ∀ order, order.trade.ticker = ticker →
      (outcome order).map (fun result => (result.status, result.fillPrice)) =
        decision order.trade)
    (hother : once = true → ∀ order, order.trade.ticker ≠ ticker → outcome order = none)
    (s : SimulatedExecutionSink σ R κ φ)
    (hconfig : s.config = config)
    (orders : List (PendingOrder R κ φ)) :
    (tradesOn ticker (sweep outcome once now s orders).1,
      observedOn ticker (sweep outcome once now s orders).2.1) =
        tickerSweep config decision once (tradesOn ticker orders) := by
  induction orders generalizing s with
  | nil =>
      rfl
  | cons order rest ih =>
      by_cases hticker : order.trade.ticker = ticker
      · have hdecided := hdecision order hticker
        cases hresult : outcome order with
        | none =>
            rw [hresult, Option.map_none] at hdecided
            have hrest := ih s hconfig
            simp only [sweep, hresult, tradesOn_cons, hticker, if_true, tickerSweep, ← hdecided,
              ← hrest]
        | some result =>
            rw [hresult, Option.map_some] at hdecided
            have hobserve := observe_makeResponse s order.trade result [] (now order.submission)
            cases once with
            | true =>
                simp [sweep, hresult, tradesOn_cons, observedOn, hticker, tickerSweep, ← hdecided,
                  observe_withId, hobserve, hconfig]
            | false =>
                have hrest := ih (s.makeResponse order.trade result [] (now order.submission)).2
                  (by rw [makeResponse_state]; exact hconfig)
                simp only [sweep, hresult, Bool.false_eq_true, if_false, tradesOn_cons,
                  observedOn_cons, hticker, if_true, tickerSweep, ← hdecided, ← hrest, observe_withId,
                  hobserve, hconfig]
      · cases hresult : outcome order with
        | none =>
            have hrest := ih s hconfig
            simp only [sweep, hresult, tradesOn_cons, hticker, if_false, ← hrest]
        | some result =>
            have honce : once = false := by
              cases once with
              | false =>
                  rfl
              | true =>
                  rw [hother rfl order hticker] at hresult
                  cases hresult
            subst honce
            have hrest := ih (s.makeResponse order.trade result [] (now order.submission)).2
              (by rw [makeResponse_state]; exact hconfig)
            simp only [sweep, hresult, Bool.false_eq_true, if_false, tradesOn_cons,
              observedOn_cons, hticker, ← hrest]

end TickerSweep

section Views

variable {σ R κ φ : Type}

/-- Two sinks look the same to an observer of a ticker. -/
structure Agree (ticker : CString 16) (s s' : SimulatedExecutionSink σ R κ φ) : Prop where
  config : s.config = s'.config
  quote : s.quotes ticker = s'.quotes ticker
  resting : tradesOn ticker s.restingOrders = tradesOn ticker s'.restingOrders

variable {ticker : CString 16} {s s' t t' : SimulatedExecutionSink σ R κ φ}

theorem Agree.of_eq
    (h : Agree ticker s s')
    (ht : Agree ticker t s)
    (ht' : Agree ticker t' s') :
    Agree ticker t t' :=
  ⟨ht.config.trans (h.config.trans ht'.config.symm),
    ht.quote.trans (h.quote.trans ht'.quote.symm),
    ht.resting.trans (h.resting.trans ht'.resting.symm)⟩

theorem agree_refl (ticker : CString 16) (s : SimulatedExecutionSink σ R κ φ) :
    Agree ticker s s :=
  ⟨rfl, rfl, rfl⟩

/-- Deliveries do not change the view. -/
theorem agree_deliverAll [IStorage σ R]
    (clock : Nat → Int64 × Int64)
    (deliveries : List (ResponseDelivery R κ φ))
    (s : SimulatedExecutionSink σ R κ φ) :
    Agree ticker (s.deliverAll clock deliveries) s := by
  induction deliveries generalizing s with
  | nil =>
      exact agree_refl ticker s
  | cons delivery rest ih =>
      obtain ⟨failures, calls, hsink⟩ := s.publish_eq delivery
        (clock delivery.pending.submission).1 (clock delivery.pending.submission).2
      simp only [deliverAll]
      rw [hsink]
      exact ⟨(ih _).config, (ih _).quote, (ih _).resting⟩

theorem agree_recordSubmission [IStorage σ R]
    (ticker : CString 16)
    (trade : Trade R)
    (storageFailureCallback : Option φ)
    (eventNs now : Int64)
    (s : SimulatedExecutionSink σ R κ φ) :
    Agree ticker (s.recordSubmission trade storageFailureCallback eventNs now) s := by
  obtain ⟨failures, calls, hsink⟩ :=
    s.recordSubmission_eq trade storageFailureCallback eventNs now
  rw [hsink]
  exact ⟨rfl, rfl, rfl⟩

variable [Field R]

/-- A loop whose decisions depend on the order only looks the same in both sinks. -/
theorem Agree.sweepResting
    (h : Agree ticker s s')
    {outcome : PendingOrder R κ φ → Option (Outcome R)}
    (decision : Trade R → Option (OrderStatus × R))
    (hdecision : ∀ order, order.trade.ticker = ticker →
      (outcome order).map (fun result => (result.status, result.fillPrice)) =
        decision order.trade)
    {once : Bool}
    (hother : once = true → ∀ order, order.trade.ticker ≠ ticker → outcome order = none)
    (now : Nat → Int64) :
    observedOn ticker (s.sweepResting outcome once now).1 =
        observedOn ticker (s'.sweepResting outcome once now).1 ∧
      Agree ticker (s.sweepResting outcome once now).2 (s'.sweepResting outcome once now).2 := by
  have hleft := sweep_on_ticker once now hdecision hother s h.config s.restingOrders
  have hright := sweep_on_ticker once now hdecision hother s' rfl s'.restingOrders
  rw [h.resting, ← hright, Prod.mk.injEq] at hleft
  have hstate := (s.sweepResting_swept outcome once now).state
  have hstate' := (s'.sweepResting_swept outcome once now).state
  refine ⟨hleft.2, ?_, ?_, hleft.1⟩
  · rw [hstate, hstate']
    exact h.config
  · rw [hstate, hstate']
    exact h.quote

/-- A loop without decisions about a ticker does not change the view. -/
theorem agree_sweepResting_other
    {outcome : PendingOrder R κ φ → Option (Outcome R)}
    (hother : ∀ order, order.trade.ticker = ticker → outcome order = none)
    (once : Bool)
    (now : Nat → Int64)
    (s : SimulatedExecutionSink σ R κ φ) :
    observedOn ticker (s.sweepResting outcome once now).1 = [] ∧
      Agree ticker (s.sweepResting outcome once now).2 s := by
  obtain ⟨htrades, hobserved⟩ := sweep_other_ticker once now hother s s.restingOrders
  have hstate := (s.sweepResting_swept outcome once now).state
  refine ⟨hobserved, ?_, ?_, htrades⟩
  · rw [hstate]
    rfl
  · rw [hstate]
    rfl

end Views

section Submissions

variable {σ R κ φ : Type} [LinearOrder R]
  {ticker : CString 16} {s s' : SimulatedExecutionSink σ R κ φ} {trade : Trade R}

theorem immediateFill_congr
    (hquote : s.quotes trade.ticker = s'.quotes trade.ticker) :
    s.immediateFill trade = s'.immediateFill trade := by
  simp only [immediateFill, hquote]

variable [Field R]

theorem validateOrder_congr
    (hconfig : s.config = s'.config)
    (hquote : s.quotes trade.ticker = s'.quotes trade.ticker) :
    s.validateOrder trade = s'.validateOrder trade := by
  simp only [validateOrder, hconfig, hquote]

/-- The locked part of a submission looks the same in both sinks. -/
theorem Agree.accept
    (h : Agree trade.ticker s s')
    (responseCallback : Option κ)
    (storageFailureCallback : Option φ)
    (n n' : Nat)
    (now : Int64) :
    observedOn trade.ticker (s.accept trade responseCallback storageFailureCallback n now).1 =
        observedOn trade.ticker
          (s'.accept trade responseCallback storageFailureCallback n' now).1 ∧
      Agree trade.ticker (s.accept trade responseCallback storageFailureCallback n now).2
        (s'.accept trade responseCallback storageFailureCallback n' now).2 := by
  have hvalid := validateOrder_congr h.config h.quote
  have hfill : s.immediateFill trade = s'.immediateFill trade := immediateFill_congr h.quote
  -- the two responses are made from the same outcome
  have hanswered : ∀ (outcome : Outcome R) (errorMessage : Bytes) (id id' : UInt64),
      observedOn trade.ticker
          [(⟨⟨trade, id, responseCallback, storageFailureCallback, n⟩,
            (s.makeResponse trade outcome errorMessage now).1⟩ : ResponseDelivery R κ φ)] =
        observedOn trade.ticker
          [(⟨⟨trade, id', responseCallback, storageFailureCallback, n'⟩,
            (s'.makeResponse trade outcome errorMessage now).1⟩ : ResponseDelivery R κ φ)] ∧
      Agree trade.ticker (s.makeResponse trade outcome errorMessage now).2
        (s'.makeResponse trade outcome errorMessage now).2 := by
    intro outcome errorMessage id id'
    constructor
    · simp [observedOn, observe_makeResponse, h.config]
    · rw [makeResponse_state, makeResponse_state]
      exact ⟨h.config, h.quote, h.resting⟩
  cases hcase : s'.validateOrder trade with
  | some rejection =>
      simp only [SimulatedExecutionSink.accept, hvalid, hcase]
      exact hanswered _ _ _ _
  | none =>
      cases hnow : s'.immediateFill trade with
      | some fill =>
          simp only [SimulatedExecutionSink.accept, hvalid, hcase, hfill, hnow]
          exact hanswered _ _ _ _
      | none =>
          simp only [SimulatedExecutionSink.accept, hvalid, hcase, hfill, hnow]
          refine ⟨trivial, h.config, h.quote, ?_⟩
          have hresting := congrArg (· ++ [trade]) h.resting
          simpa [tradesOn, drawId] using hresting

/-- A submission on another ticker does not change the view. -/
theorem agree_accept_other
    (hother : trade.ticker ≠ ticker)
    (responseCallback : Option κ)
    (storageFailureCallback : Option φ)
    (n : Nat)
    (now : Int64)
    (s : SimulatedExecutionSink σ R κ φ) :
    observedOn ticker (s.accept trade responseCallback storageFailureCallback n now).1 = [] ∧
      Agree ticker (s.accept trade responseCallback storageFailureCallback n now).2 s := by
  generalize hresult : s.accept trade responseCallback storageFailureCallback n now = result
  have haccepted := s.accept_accepted trade responseCallback storageFailureCallback n now
  rw [hresult] at haccepted
  obtain ⟨deliveries, t⟩ := result
  cases haccepted with
  | answered response outcome hanswers hid hresult =>
      exact ⟨by simp [observedOn, hother], rfl, rfl, rfl⟩
  | rests hvalid hfill =>
      exact ⟨rfl, rfl, rfl, by simp [tradesOn, hother]⟩

end Submissions

section Calls

variable {σ R κ φ : Type} [Field R] [LinearOrder R] [IStorage σ R]
  {ticker : CString 16} {s s' : SimulatedExecutionSink σ R κ φ} {c : SinkCall R κ φ}

/-- A call that names another ticker does not change the view. -/
theorem agree_call_other
    (hother : c.concerns ticker = false)
    (hcancel : c.cancelsByClientId)
    (s : SimulatedExecutionSink σ R κ φ) :
    observedOn ticker (s.call c).1 = [] ∧ Agree ticker (s.call c).2 s := by
  cases c with
  | submitTrade trade responseCallback storageFailureCallback eventNs storageNs now =>
      have hticker : trade.ticker ≠ ticker := by
        rintro rfl
        simp [SinkCall.concerns, SinkCall.names] at hother
      obtain ⟨hobserved, hagree⟩ := agree_accept_other hticker responseCallback
        storageFailureCallback s.submissions now
        (s.recordSubmission trade storageFailureCallback eventNs storageNs)
      have hrecorded := agree_recordSubmission ticker trade storageFailureCallback eventNs storageNs s
      exact ⟨hobserved, hrecorded.of_eq hagree (agree_refl ticker s)⟩
  | cancelOrder instrument orderId clientOid now =>
      refine agree_sweepResting_other ?_ true now s
      intro order horder
      have hname : instrument ≠ order.trade.ticker.bytes := by
        rintro rfl
        simp [SinkCall.concerns, SinkCall.names, horder] at hother
      simp [cancelOutcome, hcancel.1, hname]
  | cancelAllOrders instrument now =>
      refine agree_sweepResting_other ?_ false now s
      intro order horder
      by_cases hempty : instrument = []
      · simp [SinkCall.concerns, SinkCall.names, hempty] at hother
      · subst horder
        have hname : instrument ≠ order.trade.ticker.bytes := by
          rintro rfl
          simp [SinkCall.concerns, SinkCall.names, hempty] at hother
        simp [cancelAllOutcome, hempty, hname]
  | onQuote quote now =>
      have hticker : quote.ticker ≠ ticker := by
        rintro rfl
        simp [SinkCall.concerns, SinkCall.names] at hother
      have hnone : ∀ order : PendingOrder R κ φ, order.trade.ticker = ticker →
          quoteOutcome quote order = none := by
        intro order horder
        simp [quoteOutcome, horder, hticker]
      obtain ⟨hobserved, hagree⟩ := agree_sweepResting_other hnone false now
        { s with quotes := Function.update s.quotes quote.ticker (some quote) }
      refine ⟨hobserved, hagree.config, ?_, hagree.resting⟩
      rw [SimulatedExecutionSink.call, onQuote, hagree.quote]
      exact Function.update_of_ne (Ne.symm hticker) _ _
  | onTrade tradeEvent now =>
      have hticker : tradeEvent.ticker ≠ ticker := by
        rintro rfl
        simp [SinkCall.concerns, SinkCall.names] at hother
      refine agree_sweepResting_other ?_ false now s
      intro order horder
      simp [tradeOutcome, horder, hticker]

/-- A call that concerns the ticker acts alike on sinks that look the same. -/
theorem Agree.call
    (h : Agree ticker s s')
    (hconcerns : c.concerns ticker = true)
    (hcancel : c.cancelsByClientId) :
    observedOn ticker (s.call c).1 = observedOn ticker (s'.call c).1 ∧
      Agree ticker (s.call c).2 (s'.call c).2 := by
  cases c with
  | submitTrade trade responseCallback storageFailureCallback eventNs storageNs now =>
      obtain rfl : trade.ticker = ticker := by
        ext1
        simpa [SinkCall.concerns, SinkCall.names] using hconcerns
      exact (h.of_eq (agree_recordSubmission _ trade storageFailureCallback eventNs storageNs s)
        (agree_recordSubmission _ trade storageFailureCallback eventNs storageNs s')).accept
          responseCallback storageFailureCallback s.submissions s'.submissions now
  | cancelOrder instrument orderId clientOid now =>
      obtain rfl : instrument = ticker.bytes := by
        simpa [SinkCall.concerns, SinkCall.names] using hconcerns
      obtain ⟨hnonempty, rfl⟩ := hcancel
      refine h.sweepResting (fun trade => if clientOid ≠ 0 ∧ trade.clientOrderId = clientOid then
        some (.canceled, 0) else none) ?_ (fun _ order hother => ?_) now
      · rintro order rfl
        simp only [cancelOutcome, or_true, true_and, ne_eq, not_true_eq_false, false_and, or_false]
        split_ifs <;> rfl
      · have hname : ticker.bytes ≠ order.trade.ticker.bytes := by
          intro hname
          exact hother (CString.ext hname.symm)
        simp [cancelOutcome, hnonempty, hname]
  | cancelAllOrders instrument now =>
      refine h.sweepResting (fun _ => some (.canceled, 0)) ?_ (by simp) now
      rintro order rfl
      have hname : ¬ (instrument ≠ [] ∧ instrument ≠ order.trade.ticker.bytes) := by
        rintro ⟨hempty, hname⟩
        simp [SinkCall.concerns, SinkCall.names, hempty, hname] at hconcerns
      rw [cancelAllOutcome, if_neg hname]
      rfl
  | onQuote quote now =>
      obtain rfl : quote.ticker = ticker := by
        ext1
        simpa [SinkCall.concerns, SinkCall.names] using hconcerns
      have hstored : Agree quote.ticker
          { s with quotes := Function.update s.quotes quote.ticker (some quote) }
          { s' with quotes := Function.update s'.quotes quote.ticker (some quote) } :=
        ⟨h.config, by simp, h.resting⟩
      exact hstored.sweepResting
        (fun trade => (quoteOutcome quote (⟨trade, 0, none, none, 0⟩ : PendingOrder R κ φ)).map
          (fun result => (result.status, result.fillPrice)))
        (fun order _ => rfl) (by simp) now
  | onTrade tradeEvent now =>
      exact h.sweepResting
        (fun trade =>
          (tradeOutcome tradeEvent (⟨trade, 0, none, none, 0⟩ : PendingOrder R κ φ)).map
            (fun result => (result.status, result.fillPrice)))
        (fun order _ => rfl) (by simp) now

/-- Whole sequences, from sinks that look the same. -/
theorem Agree.performAll
    (h : Agree ticker s s')
    (operations : List (Operation R κ φ))
    (hcancel : ∀ operation ∈ operations, operation.call.cancelsByClientId) :
    observedOn ticker (s.performAll operations).1 =
      observedOn ticker (s'.performAll
        (operations.filter (fun operation => operation.call.concerns ticker))).1 := by
  induction operations generalizing s s' with
  | nil =>
      rfl
  | cons operation rest ih =>
      have hrest := fun other hother => hcancel other (List.mem_cons_of_mem _ hother)
      have hfirst := hcancel operation List.mem_cons_self
      cases hconcerns : operation.call.concerns ticker with
      | true =>
          obtain ⟨hobserved, hagree⟩ := h.call hconcerns hfirst
          have hlater := ih (hagree.of_eq
            (agree_deliverAll operation.clock (s.call operation.call).1 _)
            (agree_deliverAll operation.clock (s'.call operation.call).1 _)) hrest
          rw [List.filter_cons_of_pos (by simpa using hconcerns)]
          simp only [SimulatedExecutionSink.performAll, perform, observedOn_append, hobserved,
            hlater]
      | false =>
          obtain ⟨hobserved, hagree⟩ := agree_call_other hconcerns hfirst s
          have hlater := ih (h.of_eq
            (hagree.of_eq (agree_deliverAll operation.clock (s.call operation.call).1 _)
              (agree_refl ticker s)) (agree_refl ticker s')) hrest
          rw [List.filter_cons_of_neg (by simp [hconcerns])]
          simp only [SimulatedExecutionSink.performAll, perform, observedOn_append, hobserved,
            hlater, List.nil_append]

/--
The responses to the orders on a ticker are those of the run without the
operations that name another ticker.
-/
theorem ticker_noninterference
    (ticker : CString 16)
    (storage : Option σ)
    (config : SimulatedExecutionConfig R)
    (operations : List (Operation R κ φ))
    (hcancel : ∀ operation ∈ operations, operation.call.cancelsByClientId) :
    observedOn ticker ((create storage config).performAll operations).1 =
      observedOn ticker ((create storage config).performAll
        (operations.filter (fun operation => operation.call.concerns ticker))).1 :=
  (agree_refl ticker (create storage config)).performAll operations hcancel

end Calls

section TwoTickers

def limitBuy (id : UInt64) (ticker : String) (price : ℚ) : SinkCall ℚ Unit Unit :=
  .submitTrade (Trade.createLimitOrder id 0 1 (text ticker) .buy 2 price).1 none none 1 1 1

def quoteFor (ticker : String) (bid ask : ℚ) : SinkCall ℚ Unit Unit :=
  .onQuote ⟨.copyString (text ticker), bid, 1, ask, 1, 5⟩ (fun _ => 1)

/-- Orders on two tickers, whose quotes and cancellations interleave. -/
def twoTickers : List (Operation ℚ Unit Unit) :=
  [limitBuy 1 "ETH_USDT" 9, limitBuy 2 "BTC_USDT" 99, quoteFor "ETH_USDT" 7 8,
    limitBuy 3 "BTC_USDT" 98, .cancelOrder (text "ETH_USDT") 0 3 (fun _ => 1),
    quoteFor "BTC_USDT" 97 99, .cancelAllOrders [] (fun _ => 1)].map
      (fun c => ⟨c, fun _ => (1, 1)⟩)

theorem twoTickers_cancelsByClientId :
    ∀ operation ∈ twoTickers, operation.call.cancelsByClientId := by
  intro operation hoperation
  obtain ⟨c, hc, rfl⟩ := List.mem_map.mp hoperation
  simp only [List.mem_cons, List.not_mem_nil, or_false] at hc
  rcases hc with rfl | rfl | rfl | rfl | rfl | rfl | rfl
  · trivial
  · trivial
  · trivial
  · trivial
  · exact ⟨by decide, rfl⟩
  · trivial
  · trivial

theorem ticker_noninterference_two_tickers :
    observedOn (.copyString (text "BTC_USDT"))
        ((create none ⟨0, 0, true⟩ : SimulatedExecutionSink (InMemoryStorage ℚ) ℚ Unit Unit)
          |>.performAll twoTickers).1 =
      [⟨2, .filled, 2, 0, 99, 0⟩, ⟨3, .canceled, 0, 2, 0, 0⟩] := by
  rw [ticker_noninterference _ _ _ _ twoTickers_cancelsByClientId]
  decide +kernel

end TwoTickers

end Backtest
end CryptoHft
