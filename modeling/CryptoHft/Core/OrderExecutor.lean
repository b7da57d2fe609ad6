import CryptoHft.Exchange.ResponseParser
import CryptoHft.Lib.BoundedFifo

/-!
# `RateLimiter` and `OrderExecutor`

`include/core/order_executor.hpp`.  The trade queue is the bounded FIFO that
`MPSCTradeQueue` implements.  A pending order is an entry of `pendingOrders`
that holds the strategy's callback; a callback that has been moved out leaves an
empty entry behind.  Callbacks are values of a type `κ`, and an invocation is
recorded with the entry it was taken from.
-/

namespace CryptoHft
namespace Core

open Lib Exchange

/-- The first order of a process. -/
def firstOrder : Trade ℚ :=
  (Trade.createLimitOrder 0 0 1 (text "BTC_USDT") .buy 1 100 .gtc .default).1

structure RateLimiter where
  maxRequestsPerSecond : Nat
  maxRequestsPer100ms : Nat
  requestsThisSecond : Nat
  requestsThis100ms : Nat
  currentSecond : Int
  current100ms : Int
deriving DecidableEq

namespace RateLimiter

/-- The constructor. -/
def create (maxPerSecond maxPer100ms : Nat) : RateLimiter :=
  ⟨maxPerSecond, maxPer100ms, 0, 0, 0, 0⟩

/-- Start new windows for a clock reading in milliseconds. -/
def advance (limiter : RateLimiter) (ms : Int) : RateLimiter :=
  { limiter with
    currentSecond := ms.tdiv 1000
    requestsThisSecond :=
      if ms.tdiv 1000 ≠ limiter.currentSecond then 0 else limiter.requestsThisSecond
    current100ms := ms.tdiv 100
    requestsThis100ms :=
      if ms.tdiv 100 ≠ limiter.current100ms then 0 else limiter.requestsThis100ms }

/-- `try_acquire`. -/
def tryAcquire (limiter : RateLimiter) (ms : Int) : Bool × RateLimiter :=
  let l := limiter.advance ms
  if l.maxRequestsPerSecond ≤ l.requestsThisSecond ∨
      l.maxRequestsPer100ms ≤ l.requestsThis100ms then
    (false, l)
  else
    (true, { l with
      requestsThisSecond := l.requestsThisSecond + 1
      requestsThis100ms := l.requestsThis100ms + 1 })

end RateLimiter

structure OrderExecutor (κ R : Type) where
  tradeQueue : List (Trade R)
  rateLimiter : RateLimiter
  pendingOrders : UInt64 → Option (Option κ)
  running : Bool
  ordersSent : UInt64
  ordersFilled : UInt64
  ordersRejected : UInt64
  totalLatencyNs : Int64

/-- A call of a callback, with the pending entry it was taken from. -/
structure Invocation (κ R : Type) where
  entry : UInt64
  callback : κ
  response : OrderResponse R

namespace OrderExecutor

variable {κ R : Type}

/-- The capacity of `trade_queue_`. -/
def queueCapacity : Nat :=
  65536

/-- The constructor. -/
def create : OrderExecutor κ R where
  tradeQueue := []
  rateLimiter := .create 100 15
  pendingOrders _ := none
  running := false
  ordersSent := 0
  ordersFilled := 0
  ordersRejected := 0
  totalLatencyNs := 0

/-- The executor after `start`. -/
def start (e : OrderExecutor κ R) : OrderExecutor κ R :=
  { e with running := true }

/-- The registration of a callback in `submit_trade`. -/
def register (e : OrderExecutor κ R) (trade : Trade R) (callback : Option κ) :
    OrderExecutor κ R :=
  match callback with
  | none => e
  | some k =>
      { e with
        pendingOrders := Function.update e.pendingOrders trade.clientOrderId (some (some k)) }

/-- `trade_queue_.try_push`. -/
def tryPush (e : OrderExecutor κ R) (trade : Trade R) : Bool × OrderExecutor κ R :=
  let (pushed, queue) := BoundedFifo.tryPush queueCapacity e.tradeQueue trade
  (pushed, { e with tradeQueue := queue })

/-- `submit_trade`. -/
def submitTrade (e : OrderExecutor κ R) (trade : Trade R) (callback : Option κ) :
    Bool × OrderExecutor κ R :=
  if e.running then (e.register trade callback).tryPush trade else (false, e)

/-- The submissions that succeed. -/
theorem submitTrade_eq_true_iff
    (e : OrderExecutor κ R) (trade : Trade R) (callback : Option κ) :
    (e.submitTrade trade callback).1 = true ↔
      e.running = true ∧ e.tradeQueue.length < queueCapacity := by
  cases hrun : e.running with
  | false =>
      simp [submitTrade, hrun]
  | true =>
      have hqueue : (e.register trade callback).tradeQueue = e.tradeQueue := by
        cases callback with
        | none =>
            rfl
        | some k =>
            rfl
      by_cases hroom : e.tradeQueue.length < queueCapacity
      · simp [submitTrade, hrun, tryPush, hqueue, BoundedFifo.tryPush_of_lt hroom, hroom]
      · simp [submitTrade, hrun, tryPush, hqueue, BoundedFifo.tryPush_of_le (not_lt.mp hroom),
          hroom]

/-- A running executor registers the callback, whether it takes the trade or not. -/
theorem pendingOrders_submitTrade_some
    (e : OrderExecutor κ R) (trade : Trade R) (k : κ) :
    (e.submitTrade trade (some k)).2.pendingOrders =
      if e.running then
        Function.update e.pendingOrders trade.clientOrderId (some (some k))
      else e.pendingOrders := by
  cases hrun : e.running with
  | false =>
      simp [submitTrade, hrun]
  | true =>
      simp [submitTrade, hrun, tryPush, register]

theorem pendingOrders_submitTrade
    {e : OrderExecutor κ R} {trade : Trade R} {k : κ}
    (h : (e.submitTrade trade (some k)).1 = true) :
    (e.submitTrade trade (some k)).2.pendingOrders =
      Function.update e.pendingOrders trade.clientOrderId (some (some k)) := by
  rw [pendingOrders_submitTrade_some, if_pos ((submitTrade_eq_true_iff e trade _).mp h).1]

/-- A submission leaves the entries of all other orders alone. -/
theorem pendingOrders_submitTrade_of_ne
    {e : OrderExecutor κ R} {trade : Trade R} {c : UInt64}
    (hne : c ≠ trade.clientOrderId)
    (callback : Option κ) :
    (e.submitTrade trade callback).2.pendingOrders c = e.pendingOrders c := by
  cases hrun : e.running with
  | false =>
      simp [submitTrade, hrun]
  | true =>
      cases callback with
      | none =>
          simp [submitTrade, hrun, tryPush, register]
      | some k =>
          simp [submitTrade, hrun, tryPush, register, Function.update_of_ne hne]

section Messages

variable [Double R]

/-- The messages that `handle_message` takes as order responses. -/
def isOrderMessage (msg : Json R) : Except JsonError Bool :=
  match msg.find "method" with
  | none => .ok false
  | some value => do
      let method ← value.getString
      if method = text "private/create-order" ∨ method = text "private/cancel-order" then
        return true
      else
        isOrderUpdate msg

/-- The statistics of a response. -/
def countResponse (e : OrderExecutor κ R) (nowNs : Int64) (response : OrderResponse R) :
    OrderExecutor κ R :=
  { e with
    ordersFilled :=
      if response.status = .filled then e.ordersFilled + 1 else e.ordersFilled
    ordersRejected :=
      if response.status = .rejected then e.ordersRejected + 1 else e.ordersRejected
    totalLatencyNs :=
      if 0 < response.exchangeTimestampNs then
        e.totalLatencyNs + (nowNs - response.exchangeTimestampNs)
      else e.totalLatencyNs }

/-- The locked section: the callback is moved out, a terminal status erases the entry. -/
def takeCallback (e : OrderExecutor κ R) (response : OrderResponse R) :
    OrderExecutor κ R × Option (Invocation κ R) :=
  match e.pendingOrders response.clientOrderId with
  | none => (e, none)
  | some callback =>
      ({ e with
          pendingOrders := Function.update e.pendingOrders response.clientOrderId
            (if response.status.isTerminal then none else some none) },
        callback.map (fun k => ⟨response.clientOrderId, k, response⟩))

/-- The effect of a response on the entry of its order. -/
def entryAfter (entry : Option (Option κ)) (response : OrderResponse R) :
    Option (Option κ) :=
  match entry with
  | none => none
  | some _ => if response.status.isTerminal then none else some none

/-- `handle_message`: the new state and the invocation of a callback, if any. -/
def handleMessage (e : OrderExecutor κ R) (nowNs : Int64) (msg : Json R) :
    Except JsonError (OrderExecutor κ R × Option (Invocation κ R)) := do
  if ← isOrderMessage msg then
    let response ← parseOrderResponse msg
    return (e.countResponse nowNs response).takeCallback response
  else
    return (e, none)

/-- The call of `handle_message` in `on_read`, which catches what it throws. -/
def receive (e : OrderExecutor κ R) (nowNs : Int64) (msg : Json R) :
    OrderExecutor κ R × Option (Invocation κ R) :=
  match e.handleMessage nowNs msg with
  | .ok result => result
  | .error _ => (e, none)

/-- The response that a message is handled as, if it is one. -/
def orderResponseOf (msg : Json R) : Option (OrderResponse R) :=
  match isOrderMessage msg with
  | .ok true => (parseOrderResponse msg).toOption
  | _ => none

/-- A message about the order `c`: a response without error that carries `c`. -/
def About (msg : Json R) (c : UInt64) : Prop :=
  (orderResponseOf msg).isSome ∧ responseCode msg = .ok 0 ∧ Carries msg c

end Messages

section Spec

variable [Double R] {e : OrderExecutor κ R} {msg : Json R} {nowNs : Int64}
variable {response : OrderResponse R}

theorem parse_of_orderResponseOf
    (h : orderResponseOf msg = some response) :
    isOrderMessage msg = .ok true ∧ parseOrderResponse msg = .ok response := by
  unfold orderResponseOf at h
  split at h
  · rename_i hkind
    cases hparse : parseOrderResponse msg with
    | error _ =>
        simp [hparse, Except.toOption] at h
    | ok r =>
        simp only [hparse, Except.toOption, Option.some.injEq] at h
        exact ⟨hkind, by rw [h]⟩
  · cases h

/-- A message that is not an order response, or that throws, changes nothing. -/
theorem receive_of_none
    (h : orderResponseOf msg = none) :
    e.receive nowNs msg = (e, none) := by
  unfold orderResponseOf at h
  simp only [receive, handleMessage, bind, Except.bind, pure, Except.pure]
  cases hkind : isOrderMessage msg with
  | error _ =>
      rfl
  | ok b =>
      cases b with
      | false =>
          rfl
      | true =>
          cases hparse : parseOrderResponse msg with
          | error _ =>
              rfl
          | ok r =>
              simp [hkind, hparse, Except.toOption] at h

theorem receive_of_some
    (h : orderResponseOf msg = some response) :
    e.receive nowNs msg = (e.countResponse nowNs response).takeCallback response := by
  obtain ⟨hkind, hparse⟩ := parse_of_orderResponseOf h
  simp [receive, handleMessage, bind, Except.bind, pure, Except.pure, hkind, hparse]

/-- What a response does: to the entry of its order, and to no other. -/
theorem receive_response
    (e : OrderExecutor κ R) (nowNs : Int64)
    (h : orderResponseOf msg = some response) :
    (e.receive nowNs msg).1.pendingOrders =
        Function.update e.pendingOrders response.clientOrderId
          (entryAfter (e.pendingOrders response.clientOrderId) response) ∧
      (e.receive nowNs msg).2 =
        (e.pendingOrders response.clientOrderId).join.map
          (fun k => ⟨response.clientOrderId, k, response⟩) := by
  rw [receive_of_some h]
  cases hentry : e.pendingOrders response.clientOrderId with
  | none =>
      have hsame : Function.update e.pendingOrders response.clientOrderId none =
          e.pendingOrders := by
        rw [← hentry, Function.update_eq_self]
      simp [takeCallback, countResponse, hentry, entryAfter, hsame]
  | some callback =>
      simp [takeCallback, countResponse, hentry, entryAfter]

/-- A message about an order is handled as a response to that order. -/
theorem About.exists_response
    {c : UInt64}
    (h : About msg c) :
    ∃ response, orderResponseOf msg = some response ∧ response.clientOrderId = c := by
  obtain ⟨hsome, hcode, hcarries⟩ := h
  obtain ⟨response, hresponse⟩ := Option.isSome_iff_exists.mp hsome
  have hparse := (parse_of_orderResponseOf hresponse).2
  exact ⟨response, hresponse, clientOrderId_of_carries hparse hcode hcarries⟩

end Spec

end OrderExecutor

end Core
end CryptoHft
