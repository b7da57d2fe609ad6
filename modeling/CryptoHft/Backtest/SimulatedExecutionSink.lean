import CryptoHft.Storage.StorageTypes

/-!
# The simulated execution sink

`SimulatedExecutionSink` of `include/backtest/simulated_execution_sink.hpp`, in
exact arithmetic.  Orders that do not fill at once rest in `restingOrders` until
a quote or a trade of their ticker crosses them or they are canceled.

An operation changes the state under `mutex_` and leaves a list of deliveries;
these are published after the lock is released, one by one, and publishing runs
the callback of the order.  The locked part of every operation is a function
here, and so is the part of `publish_response` before the callback; how the two
interleave when callbacks call the sink again is a matter of the runs.

The four loops that take orders out of `restingOrders` are one loop, `sweep`,
with a decision about each order; `cancel_order` stops at the first order it
takes.  A clock reading is an argument: `now n` is the reading for the response
to submission `n`.  `submission` numbers the calls of `submit_trade` and `draws`
counts the ids drawn; neither is read by an operation.
-/

namespace CryptoHft
namespace Backtest

open Lib Storage

structure SimulatedExecutionConfig (R : Type) where
  makerFeeBps : R
  takerFeeBps : R
  rejectWithoutMarket : Bool

/-- A resting order, with the callbacks of its submission. -/
structure PendingOrder (R κ φ : Type) where
  trade : Trade R
  exchangeOrderId : UInt64
  responseCallback : Option κ
  storageFailureCallback : Option φ
  submission : Nat

structure ResponseDelivery (R κ φ : Type) where
  pending : PendingOrder R κ φ
  response : OrderResponse R

structure Fill (R : Type) where
  price : R
  timestampNs : Int64

structure SimulatedExecutionSink (σ R κ φ : Type) where
  storage : Option σ
  config : SimulatedExecutionConfig R
  quotes : CString 16 → Option (QuoteUpdate R)
  restingOrders : List (PendingOrder R κ φ)
  nextExchangeOrderId : UInt64
  grossNotional : R
  fees : R
  submitted : UInt64
  filled : UInt64
  canceled : UInt64
  rejected : UInt64
  storageAppendFailures : UInt64
  /-- The storage failure callbacks that were run. -/
  storageFailureCalls : List φ
  submissions : Nat
  draws : Nat

structure SimulatedExecutionStats (R : Type) where
  submitted : UInt64
  resting : UInt64
  filled : UInt64
  canceled : UInt64
  rejected : UInt64
  storageAppendFailures : UInt64
  grossNotional : R
  fees : R

/-- What a loop decides for a resting order: the response it gets. -/
structure Outcome (R : Type) where
  status : OrderStatus
  fillPrice : R
  timestampNs : Int64

section Decisions

variable {R κ φ : Type} [LinearOrder R]

/-- `trade_crosses_limit`. -/
def tradeCrossesLimit (tradeEvent : TradeEvent R) (order : Trade R) : Bool :=
  match order.side with
  | .buy => tradeEvent.price ≤ order.price
  | .sell => order.price ≤ tradeEvent.price

/-- The test of `fill_resting_orders_locked`. -/
def quoteOutcome (quote : QuoteUpdate R) (order : PendingOrder R κ φ) : Option (Outcome R) :=
  if quote.ticker ≠ order.trade.ticker ∨ order.trade.type ≠ .limit then none
  else
    let crossed : Bool :=
      if order.trade.side = .buy then quote.askPrice ≤ order.trade.price
      else order.trade.price ≤ quote.bidPrice
    if crossed = false then none
    else
      let fillPrice := if order.trade.side = .buy then quote.askPrice else quote.bidPrice
      some ⟨.filled, fillPrice, quote.timestampNs⟩

/-- The test of `on_trade`. -/
def tradeOutcome (tradeEvent : TradeEvent R) (order : PendingOrder R κ φ) :
    Option (Outcome R) :=
  if tradeEvent.ticker ≠ order.trade.ticker ∨ order.trade.type ≠ .limit ∨
      tradeCrossesLimit tradeEvent order.trade = false then none
  else some ⟨.filled, tradeEvent.price, tradeEvent.timestampNs⟩

variable [Zero R]

/-- The test of `cancel_order`. -/
def cancelOutcome (instrument : Bytes) (orderId clientOid : UInt64) (now : Nat → Int64)
    (order : PendingOrder R κ φ) : Option (Outcome R) :=
  let instrumentMatches := instrument = [] ∨ instrument = order.trade.ticker.bytes
  let idMatches := (clientOid ≠ 0 ∧ order.trade.clientOrderId = clientOid) ∨
    (orderId ≠ 0 ∧ order.exchangeOrderId = orderId)
  if instrumentMatches ∧ idMatches then some ⟨.canceled, 0, now order.submission⟩ else none

/-- The test of `cancel_all_orders`. -/
def cancelAllOutcome (instrument : Bytes) (now : Nat → Int64) (order : PendingOrder R κ φ) :
    Option (Outcome R) :=
  if instrument ≠ [] ∧ instrument ≠ order.trade.ticker.bytes then none
  else some ⟨.canceled, 0, now order.submission⟩

end Decisions

namespace SimulatedExecutionSink

section Operations

variable {σ R κ φ : Type} [Field R] [LinearOrder R]

/-- The constructor. -/
def create (storage : Option σ) (config : SimulatedExecutionConfig R) :
    SimulatedExecutionSink σ R κ φ where
  storage := storage
  config := config
  quotes := fun _ => none
  restingOrders := []
  nextExchangeOrderId := 1
  grossNotional := 0
  fees := 0
  submitted := 0
  filled := 0
  canceled := 0
  rejected := 0
  storageAppendFailures := 0
  storageFailureCalls := []
  submissions := 0
  draws := 0

/-- `validate_order_locked`: the reason of a rejection. -/
def validateOrder (s : SimulatedExecutionSink σ R κ φ) (trade : Trade R) : Option Bytes :=
  if trade.ticker.bytes = [] then some (text "missing ticker")
  else if trade.quantity ≤ 0 then some (text "quantity must be positive")
  else if trade.type = .limit ∧ trade.price ≤ 0 then some (text "limit price must be positive")
  else if trade.type ≠ .market ∧ trade.type ≠ .limit then
    some (text "simulator supports market and limit orders")
  else if trade.type = .market ∧ s.config.rejectWithoutMarket ∧ s.quotes trade.ticker = none then
    some (text "no quote available for market order")
  else none

/-- `immediate_fill_locked`. -/
def immediateFill (s : SimulatedExecutionSink σ R κ φ) (trade : Trade R) : Option (Fill R) :=
  match s.quotes trade.ticker with
  | none => none
  | some quote =>
      if trade.side = .buy then
        if trade.type = .market ∨ quote.askPrice ≤ trade.price then
          some ⟨quote.askPrice, quote.timestampNs⟩
        else none
      else if trade.type = .market ∨ trade.price ≤ quote.bidPrice then
        some ⟨quote.bidPrice, quote.timestampNs⟩
      else none

/-- `next_exchange_order_id_++`. -/
def drawId (s : SimulatedExecutionSink σ R κ φ) :
    UInt64 × SimulatedExecutionSink σ R κ φ :=
  (s.nextExchangeOrderId,
    { s with nextExchangeOrderId := s.nextExchangeOrderId + 1, draws := s.draws + 1 })

/-- The fee of a fill. -/
def feeOf (config : SimulatedExecutionConfig R) (trade : Trade R) (fillPrice : R) : R :=
  let feeRate := if trade.type = .market then config.takerFeeBps else config.makerFeeBps
  fillPrice * trade.quantity * feeRate / 10000

/-- `make_response_locked`: an id is drawn, and a fill is booked. -/
def makeResponse (s : SimulatedExecutionSink σ R κ φ) (trade : Trade R) (outcome : Outcome R)
    (errorMessage : Bytes) (now : Int64) :
    OrderResponse R × SimulatedExecutionSink σ R κ φ :=
  let (id, s) := s.drawId
  let response : OrderResponse R :=
    { OrderResponse.empty with
      clientOrderId := trade.clientOrderId
      exchangeOrderId := id
      status := outcome.status
      filledQuantity := if outcome.status = .filled then trade.quantity else 0
      remainingQuantity := if outcome.status = .filled then 0 else trade.quantity
      avgPrice := outcome.fillPrice
      exchangeTimestampNs := if 0 < outcome.timestampNs then outcome.timestampNs else now }
  match outcome.status with
  | .filled =>
      let fee := feeOf s.config trade outcome.fillPrice
      ({ response with fee := fee, feeCurrency := .copyString (text "QUOTE") },
        { s with
          grossNotional := s.grossNotional + outcome.fillPrice * trade.quantity
          fees := s.fees + fee })
  | .rejected =>
      ({ response with errorCode := -1, errorMessage := .copyString errorMessage }, s)
  | _ => (response, s)

/--
The loops over `resting_orders_`: an order with an outcome is taken out and gets
a response that carries the id it was given when it came to rest.
-/
def sweep (outcome : PendingOrder R κ φ → Option (Outcome R)) (once : Bool)
    (now : Nat → Int64) :
    SimulatedExecutionSink σ R κ φ → List (PendingOrder R κ φ) →
      List (PendingOrder R κ φ) × List (ResponseDelivery R κ φ) × SimulatedExecutionSink σ R κ φ
  | s, [] => ([], [], s)
  | s, order :: rest =>
      match outcome order with
      | none =>
          let (kept, deliveries, s') := sweep outcome once now s rest
          (order :: kept, deliveries, s')
      | some result =>
          let (response, s₁) := s.makeResponse order.trade result [] (now order.submission)
          let delivery : ResponseDelivery R κ φ :=
            ⟨order, { response with exchangeOrderId := order.exchangeOrderId }⟩
          if once then (rest, [delivery], s₁)
          else
            let (kept, deliveries, s') := sweep outcome once now s₁ rest
            (kept, delivery :: deliveries, s')

/-- The loop with its effect on `resting_orders_`. -/
def sweepResting (s : SimulatedExecutionSink σ R κ φ)
    (outcome : PendingOrder R κ φ → Option (Outcome R)) (once : Bool) (now : Nat → Int64) :
    List (ResponseDelivery R κ φ) × SimulatedExecutionSink σ R κ φ :=
  let (kept, deliveries, s') := sweep outcome once now s s.restingOrders
  (deliveries, { s' with restingOrders := kept })

/-- The locked part of `cancel_order`. -/
def cancelOrder (s : SimulatedExecutionSink σ R κ φ) (instrument : Bytes)
    (orderId clientOid : UInt64) (now : Nat → Int64) :
    List (ResponseDelivery R κ φ) × SimulatedExecutionSink σ R κ φ :=
  s.sweepResting (cancelOutcome instrument orderId clientOid now) true now

/-- The locked part of `cancel_all_orders`. -/
def cancelAllOrders (s : SimulatedExecutionSink σ R κ φ) (instrument : Bytes)
    (now : Nat → Int64) :
    List (ResponseDelivery R κ φ) × SimulatedExecutionSink σ R κ φ :=
  s.sweepResting (cancelAllOutcome instrument now) false now

/-- The locked part of `on_quote`. -/
def onQuote (s : SimulatedExecutionSink σ R κ φ) (quote : QuoteUpdate R)
    (now : Nat → Int64) :
    List (ResponseDelivery R κ φ) × SimulatedExecutionSink σ R κ φ :=
  { s with quotes := Function.update s.quotes quote.ticker (some quote) }.sweepResting
    (quoteOutcome quote) false now

/-- The locked part of `on_trade`. -/
def onTrade (s : SimulatedExecutionSink σ R κ φ) (tradeEvent : TradeEvent R)
    (now : Nat → Int64) :
    List (ResponseDelivery R κ φ) × SimulatedExecutionSink σ R κ φ :=
  s.sweepResting (tradeOutcome tradeEvent) false now

/-- `append_storage_event`, with the clock reading the storage may take. -/
def appendStorageEvent [IStorage σ R] (s : SimulatedExecutionSink σ R κ φ)
    (event : StorageEvent R) (storageFailureCallback : Option φ) (now : Int64) :
    SimulatedExecutionSink σ R κ φ :=
  match s.storage with
  | none => s
  | some storage =>
      let (appended, storage') := IStorage.append storage event now
      if appended then { s with storage := some storage' }
      else
        { s with
          storage := some storage'
          storageAppendFailures := s.storageAppendFailures + 1
          storageFailureCalls := s.storageFailureCalls ++ storageFailureCallback.toList }

/-- The part of `submit_trade` before the lock. -/
def recordSubmission [IStorage σ R] (s : SimulatedExecutionSink σ R κ φ) (trade : Trade R)
    (storageFailureCallback : Option φ) (eventNs now : Int64) :
    SimulatedExecutionSink σ R κ φ :=
  { s with submitted := s.submitted + 1, submissions := s.submissions + 1 }.appendStorageEvent
    ⟨0, eventNs, .tradeSubmitted, .trade trade⟩ storageFailureCallback now

/-- The locked part of `submit_trade`, for submission `n`. -/
def accept (s : SimulatedExecutionSink σ R κ φ) (trade : Trade R)
    (responseCallback : Option κ) (storageFailureCallback : Option φ) (n : Nat) (now : Int64) :
    List (ResponseDelivery R κ φ) × SimulatedExecutionSink σ R κ φ :=
  let deliver (outcome : Outcome R) (errorMessage : Bytes) :=
    let (response, s') := s.makeResponse trade outcome errorMessage now
    ([⟨⟨trade, response.exchangeOrderId, responseCallback, storageFailureCallback, n⟩, response⟩],
      s')
  match s.validateOrder trade with
  | some rejection => deliver ⟨.rejected, 0, 0⟩ rejection
  | none =>
      match s.immediateFill trade with
      | some fill => deliver ⟨.filled, fill.price, fill.timestampNs⟩ []
      | none =>
          let (id, s') := s.drawId
          ([], { s' with
            restingOrders := s'.restingOrders ++
              [⟨trade, id, responseCallback, storageFailureCallback, n⟩] })

/-- `submit_trade` up to the delivery of its response. -/
def submitTrade [IStorage σ R] (s : SimulatedExecutionSink σ R κ φ) (trade : Trade R)
    (responseCallback : Option κ) (storageFailureCallback : Option φ)
    (eventNs storageNs now : Int64) :
    List (ResponseDelivery R κ φ) × SimulatedExecutionSink σ R κ φ :=
  (s.recordSubmission trade storageFailureCallback eventNs storageNs).accept trade responseCallback
    storageFailureCallback s.submissions now

/-- `publish_response` up to the callback of the order. -/
def publishResponse [IStorage σ R] (s : SimulatedExecutionSink σ R κ φ)
    (response : OrderResponse R) (storageFailureCallback : Option φ) (eventNs now : Int64) :
    SimulatedExecutionSink σ R κ φ :=
  let counted :=
    match response.status with
    | .filled => { s with filled := s.filled + 1 }
    | .canceled => { s with canceled := s.canceled + 1 }
    | .rejected => { s with rejected := s.rejected + 1 }
    | _ => s
  counted.appendStorageEvent ⟨0, eventNs, .orderResponse, .orderResponse response⟩
    storageFailureCallback now

def stats (s : SimulatedExecutionSink σ R κ φ) : SimulatedExecutionStats R where
  submitted := s.submitted
  resting := UInt64.ofNat s.restingOrders.length
  filled := s.filled
  canceled := s.canceled
  rejected := s.rejected
  storageAppendFailures := s.storageAppendFailures
  grossNotional := s.grossNotional
  fees := s.fees

end Operations

section Responses

variable {σ R κ φ : Type} [Field R]

/-- What a response adds to the gross notional. -/
def notional (response : OrderResponse R) : R :=
  if response.status = .filled then response.avgPrice * response.filledQuantity else 0

/-- What a response adds to the fees. -/
def charged (response : OrderResponse R) : R :=
  if response.status = .filled then response.fee else 0

/-- The sink after a number of ids were drawn and responses were booked. -/
def booked (s : SimulatedExecutionSink σ R κ φ) (ids : Nat) (responses : List (OrderResponse R)) :
    SimulatedExecutionSink σ R κ φ :=
  { s with
    nextExchangeOrderId := s.nextExchangeOrderId + UInt64.ofNat ids
    draws := s.draws + ids
    grossNotional := s.grossNotional + (responses.map notional).sum
    fees := s.fees + (responses.map charged).sum }

theorem booked_booked
    (s : SimulatedExecutionSink σ R κ φ)
    (m n : Nat)
    (rs rs' : List (OrderResponse R)) :
    (s.booked m rs).booked n rs' = s.booked (m + n) (rs ++ rs') := by
  simp [booked, add_assoc, UInt64.ofNat_add]

/-- The fields of a response that the accounts are about. -/
structure Answers (response : OrderResponse R) (trade : Trade R) (outcome : Outcome R) :
    Prop where
  clientOrderId : response.clientOrderId = trade.clientOrderId
  status : response.status = outcome.status
  filledQuantity : response.filledQuantity =
    if outcome.status = .filled then trade.quantity else 0
  remainingQuantity : response.remainingQuantity =
    if outcome.status = .filled then 0 else trade.quantity
  avgPrice : response.avgPrice = outcome.fillPrice

theorem makeResponse_answers
    (s : SimulatedExecutionSink σ R κ φ)
    (trade : Trade R)
    (outcome : Outcome R)
    (errorMessage : Bytes)
    (now : Int64) :
    Answers (s.makeResponse trade outcome errorMessage now).1 trade outcome := by
  obtain ⟨status, fillPrice, timestampNs⟩ := outcome
  cases status <;> constructor <;> rfl

theorem makeResponse_exchangeOrderId
    (s : SimulatedExecutionSink σ R κ φ)
    (trade : Trade R)
    (outcome : Outcome R)
    (errorMessage : Bytes)
    (now : Int64) :
    (s.makeResponse trade outcome errorMessage now).1.exchangeOrderId =
      s.nextExchangeOrderId := by
  obtain ⟨status, fillPrice, timestampNs⟩ := outcome
  cases status <;> rfl

/-- Making a response draws one id and books the response. -/
theorem makeResponse_state
    (s : SimulatedExecutionSink σ R κ φ)
    (trade : Trade R)
    (outcome : Outcome R)
    (errorMessage : Bytes)
    (now : Int64) :
    (s.makeResponse trade outcome errorMessage now).2 =
      s.booked 1 [(s.makeResponse trade outcome errorMessage now).1] := by
  obtain ⟨status, fillPrice, timestampNs⟩ := outcome
  cases status <;>
    simp [makeResponse, drawId, booked, notional, charged, OrderResponse.empty]

end Responses

section Sweeps

variable {σ R κ φ : Type} [Field R]
variable (outcome : PendingOrder R κ φ → Option (Outcome R)) (once : Bool) (now : Nat → Int64)

/-- The orders of a list of deliveries. -/
def ordersOf (deliveries : List (ResponseDelivery R κ φ)) : List (PendingOrder R κ φ) :=
  deliveries.map ResponseDelivery.pending

def responsesOf (deliveries : List (ResponseDelivery R κ φ)) : List (OrderResponse R) :=
  deliveries.map ResponseDelivery.response

/-- The response of a delivery answers its order and carries its id. -/
structure Settles (delivery : ResponseDelivery R κ φ) (result : Outcome R) : Prop where
  answers : Answers delivery.response delivery.pending.trade result
  exchangeOrderId : delivery.response.exchangeOrderId = delivery.pending.exchangeOrderId

/-- Every order is either kept or delivered. -/
theorem sweep_perm
    (s : SimulatedExecutionSink σ R κ φ)
    (orders : List (PendingOrder R κ φ)) :
    ((sweep outcome once now s orders).1 ++
      ordersOf (sweep outcome once now s orders).2.1).Perm orders := by
  induction orders generalizing s with
  | nil =>
      simp [sweep, ordersOf]
  | cons order rest ih =>
      cases hresult : outcome order with
      | none =>
          simp only [sweep, hresult, List.cons_append]
          exact (ih s).cons order
      | some result =>
          cases once with
          | true =>
              simp only [sweep, hresult, if_true, ordersOf, List.map_cons, List.map_nil]
              exact List.perm_append_comm
          | false =>
              simp only [sweep, hresult, Bool.false_eq_true, if_false, ordersOf, List.map_cons]
              exact List.perm_middle.trans ((ih _).cons order)

/-- A loop books the responses it makes. -/
theorem sweep_state
    (s : SimulatedExecutionSink σ R κ φ)
    (orders : List (PendingOrder R κ φ)) :
    (sweep outcome once now s orders).2.2 =
      s.booked (sweep outcome once now s orders).2.1.length
        (responsesOf (sweep outcome once now s orders).2.1) := by
  induction orders generalizing s with
  | nil =>
      simp [sweep, booked, responsesOf]
  | cons order rest ih =>
      cases hresult : outcome order with
      | none =>
          simp only [sweep, hresult]
          exact ih s
      | some result =>
          have hmade := s.makeResponse_state order.trade result [] (now order.submission)
          cases once with
          | true =>
              simp only [sweep, hresult, if_true]
              exact hmade
          | false =>
              simp only [sweep, hresult, Bool.false_eq_true, if_false, ih, hmade,
                booked_booked, List.length_cons, Nat.add_comm 1]
              rfl

/-- Every delivery of a loop settles an order with the outcome decided for it. -/
theorem sweep_settles
    (s : SimulatedExecutionSink σ R κ φ)
    (orders : List (PendingOrder R κ φ)) :
    ∀ delivery ∈ (sweep outcome once now s orders).2.1,
      ∃ result, outcome delivery.pending = some result ∧ Settles delivery result := by
  induction orders generalizing s with
  | nil =>
      simp [sweep]
  | cons order rest ih =>
      cases hresult : outcome order with
      | none =>
          simp only [sweep, hresult]
          exact ih s
      | some result =>
          have hanswers := s.makeResponse_answers order.trade result [] (now order.submission)
          have hsettles : Settles
              ⟨order, { (s.makeResponse order.trade result [] (now order.submission)).1 with
                exchangeOrderId := order.exchangeOrderId }⟩ result :=
            ⟨⟨hanswers.clientOrderId, hanswers.status, hanswers.filledQuantity,
              hanswers.remainingQuantity, hanswers.avgPrice⟩, rfl⟩
          cases once with
          | true =>
              simp only [sweep, hresult, if_true, List.mem_singleton]
              rintro delivery rfl
              exact ⟨result, hresult, hsettles⟩
          | false =>
              simp only [sweep, hresult, Bool.false_eq_true, if_false, List.mem_cons]
              rintro delivery (rfl | hdelivery)
              · exact ⟨result, hresult, hsettles⟩
              · exact ih _ delivery hdelivery

/-- A loop that runs to the end keeps the orders without an outcome. -/
theorem sweep_kept
    (s : SimulatedExecutionSink σ R κ φ)
    (orders : List (PendingOrder R κ φ)) :
    (sweep outcome false now s orders).1 =
      orders.filter (fun order => (outcome order).isNone) := by
  induction orders generalizing s with
  | nil =>
      rfl
  | cons order rest ih =>
      cases hresult : outcome order with
      | none =>
          simp [sweep, hresult, ih]
      | some result =>
          simp [sweep, hresult, ih]

end Sweeps

section Effects

variable {σ R κ φ : Type} [Field R]

/-- What a loop over the resting orders has done. -/
structure Swept (outcome : PendingOrder R κ φ → Option (Outcome R))
    (s : SimulatedExecutionSink σ R κ φ) (deliveries : List (ResponseDelivery R κ φ))
    (t : SimulatedExecutionSink σ R κ φ) : Prop where
  perm : (t.restingOrders ++ ordersOf deliveries).Perm s.restingOrders
  state : t = { s.booked deliveries.length (responsesOf deliveries) with
    restingOrders := t.restingOrders }
  settles : ∀ delivery ∈ deliveries,
    ∃ result, outcome delivery.pending = some result ∧ Settles delivery result

theorem sweepResting_swept
    (s : SimulatedExecutionSink σ R κ φ)
    (outcome : PendingOrder R κ φ → Option (Outcome R))
    (once : Bool)
    (now : Nat → Int64) :
    Swept outcome s (s.sweepResting outcome once now).1
      (s.sweepResting outcome once now).2 where
  perm := sweep_perm outcome once now s s.restingOrders
  state := by
    simp only [sweepResting]
    rw [sweep_state]
  settles := sweep_settles outcome once now s s.restingOrders

/-- A loop that runs to the end leaves no order with an outcome. -/
theorem outcome_of_mem_sweepResting
    {s : SimulatedExecutionSink σ R κ φ}
    {outcome : PendingOrder R κ φ → Option (Outcome R)}
    {now : Nat → Int64}
    {order : PendingOrder R κ φ}
    (horder : order ∈ (s.sweepResting outcome false now).2.restingOrders) :
    outcome order = none := by
  simp only [sweepResting, sweep_kept] at horder
  simpa using (List.mem_filter.mp horder).2

variable [LinearOrder R]

/-- What the locked part of `submit_trade` has done. -/
inductive Accepted (s : SimulatedExecutionSink σ R κ φ) (trade : Trade R)
    (responseCallback : Option κ) (storageFailureCallback : Option φ) (n : Nat) :
    List (ResponseDelivery R κ φ) → SimulatedExecutionSink σ R κ φ → Prop
  | answered (response : OrderResponse R) (result : Outcome R)
      (hanswers : Answers response trade result)
      (hid : response.exchangeOrderId = s.nextExchangeOrderId)
      (hresult : result.status = .rejected ∨
        ∃ fill, s.immediateFill trade = some fill ∧
          result = ⟨.filled, fill.price, fill.timestampNs⟩) :
      Accepted s trade responseCallback storageFailureCallback n
        [⟨⟨trade, response.exchangeOrderId, responseCallback, storageFailureCallback, n⟩,
          response⟩]
        (s.booked 1 [response])
  | rests
      (hvalid : s.validateOrder trade = none)
      (hfill : s.immediateFill trade = none) :
      Accepted s trade responseCallback storageFailureCallback n []
        { s.booked 1 [] with
          restingOrders := s.restingOrders ++
            [⟨trade, s.nextExchangeOrderId, responseCallback, storageFailureCallback, n⟩] }

theorem accept_accepted
    (s : SimulatedExecutionSink σ R κ φ)
    (trade : Trade R)
    (responseCallback : Option κ)
    (storageFailureCallback : Option φ)
    (n : Nat)
    (now : Int64) :
    Accepted s trade responseCallback storageFailureCallback n
      (s.accept trade responseCallback storageFailureCallback n now).1
      (s.accept trade responseCallback storageFailureCallback n now).2 := by
  cases hvalid : s.validateOrder trade with
  | some rejection =>
      simp only [accept, hvalid, makeResponse_state]
      exact .answered _ _ (s.makeResponse_answers trade _ _ now)
        (s.makeResponse_exchangeOrderId trade _ _ now) (.inl rfl)
  | none =>
      cases hfill : s.immediateFill trade with
      | some fill =>
          simp only [accept, hvalid, hfill, makeResponse_state]
          exact .answered _ _ (s.makeResponse_answers trade _ _ now)
            (s.makeResponse_exchangeOrderId trade _ _ now) (.inr ⟨fill, hfill, rfl⟩)
      | none =>
          have hdraw : s.drawId = (s.nextExchangeOrderId, s.booked 1 []) := by
            simp [drawId, booked]
          simp only [accept, hvalid, hfill, hdraw]
          exact .rests hvalid hfill

end Effects

section Appending

variable {σ R κ φ : Type} [IStorage σ R]

/-- Appending to the storage touches the storage and the failure counts only. -/
theorem appendStorageEvent_eq
    (s : SimulatedExecutionSink σ R κ φ)
    (event : StorageEvent R)
    (storageFailureCallback : Option φ)
    (now : Int64) :
    ∃ failures calls,
      s.appendStorageEvent event storageFailureCallback now =
        { s with
          storage := appended s.storage event now
          storageAppendFailures := failures
          storageFailureCalls := calls } := by
  rw [appendStorageEvent]
  cases hstorage : s.storage with
  | none =>
      obtain ⟨storage⟩ := s
      cases hstorage
      exact ⟨_, _, rfl⟩
  | some storage =>
      dsimp only
      split
      · exact ⟨_, _, rfl⟩
      · exact ⟨_, _, rfl⟩

/-- The part of `submit_trade` before the lock counts the submission and logs it. -/
theorem recordSubmission_eq
    (s : SimulatedExecutionSink σ R κ φ)
    (trade : Trade R)
    (storageFailureCallback : Option φ)
    (eventNs now : Int64) :
    ∃ failures calls,
      s.recordSubmission trade storageFailureCallback eventNs now =
        { s with
          submitted := s.submitted + 1
          submissions := s.submissions + 1
          storage := appended s.storage ⟨0, eventNs, .tradeSubmitted, .trade trade⟩ now
          storageAppendFailures := failures
          storageFailureCalls := calls } :=
  appendStorageEvent_eq { s with submitted := s.submitted + 1, submissions := s.submissions + 1 }
    _ storageFailureCallback now

end Appending

end SimulatedExecutionSink

end Backtest
end CryptoHft
