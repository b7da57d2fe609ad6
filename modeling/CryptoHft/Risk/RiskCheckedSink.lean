import CryptoHft.Risk.RiskManager

/-!
# `RiskCheckedExecutionSink`

`include/risk/risk_manager.hpp`, lines 149-233.  The sink asks the risk manager
about an order, remembers the accepted ones by client order id and passes them
to the downstream sink with a callback of its own.  That callback looks the
order up, forgets it at a terminal status, and books the response.
-/

namespace CryptoHft
namespace Risk

open Lib

/-- Replacing one element of a list replaces its share of a sum. -/
theorem sum_map_set
    {α : Type} {f : α → ℚ} {xs : List α} {k : Nat} {x : α}
    (hk : xs[k]? = some x)
    (y : α) :
    ((xs.set k y).map f).sum = (xs.map f).sum - f x + f y := by
  obtain ⟨hlt, rfl⟩ := List.getElem?_eq_some_iff.mp hk
  rw [List.map_set, List.sum_set']
  simp [hlt]
  ring

structure RiskCheckedExecutionSink where
  riskManager : RiskManager
  submittedTrades : UInt64 → Option (Trade ℚ)
  rejected : UInt64

namespace RiskCheckedExecutionSink

/-- The constructor, over a fresh risk manager. -/
def create (limits : RiskLimits) : RiskCheckedExecutionSink where
  riskManager := .create limits
  submittedTrades _ := none
  rejected := 0

/-- The response that the caller of a refused `submit_trade` gets. -/
def refusal (trade : Trade ℚ) (decision : RiskDecision) : OrderResponse ℚ :=
  { OrderResponse.empty with
    clientOrderId := trade.clientOrderId
    status := .rejected
    errorCode := -100
    errorMessage := .copyString decision.reason }

/--
`submit_trade` up to the call of the downstream sink.  A refused order yields the
response for the caller; an accepted one yields `none` and goes downstream.
-/
def submitTrade (sink : RiskCheckedExecutionSink) (trade : Trade ℚ) :
    RiskCheckedExecutionSink × Option (OrderResponse ℚ) :=
  let decision := sink.riskManager.checkOrder trade
  if decision.accepted then
    ({ sink with
        submittedTrades :=
          Function.update sink.submittedTrades trade.clientOrderId (some trade) },
      none)
  else
    ({ sink with rejected := sink.rejected + 1 }, some (refusal trade decision))

/-- The callback given to the downstream sink. -/
def onResponse (sink : RiskCheckedExecutionSink) (response : OrderResponse ℚ) :
    RiskCheckedExecutionSink :=
  match sink.submittedTrades response.clientOrderId with
  | none => sink
  | some trade =>
      { sink with
        submittedTrades :=
          if response.status.isTerminal then
            Function.update sink.submittedTrades response.clientOrderId none
          else sink.submittedTrades
        riskManager := sink.riskManager.onFill trade response }

def updateQuote (sink : RiskCheckedExecutionSink) (quote : QuoteUpdate ℚ) :
    RiskCheckedExecutionSink :=
  { sink with riskManager := sink.riskManager.updateQuote quote }

/-- The net quantity of a ticker. -/
def netQuantity (sink : RiskCheckedExecutionSink) (ticker : Bytes) : ℚ :=
  (sink.riskManager.position ticker).netQuantity

section Spec

variable {sink : RiskCheckedExecutionSink} {trade : Trade ℚ}

theorem submitTrade_of_accepted
    (h : (sink.riskManager.checkOrder trade).accepted = true) :
    (sink.submitTrade trade).1 =
      { sink with
        submittedTrades :=
          Function.update sink.submittedTrades trade.clientOrderId (some trade) } := by
  simp [submitTrade, h]

theorem submitTrade_of_refused
    (h : ¬ (sink.riskManager.checkOrder trade).accepted = true) :
    (sink.submitTrade trade).1 = { sink with rejected := sink.rejected + 1 } := by
  simp [submitTrade, h]

@[simp] theorem netQuantity_submitTrade
    (sink : RiskCheckedExecutionSink) (trade : Trade ℚ) (ticker : Bytes) :
    (sink.submitTrade trade).1.netQuantity ticker = sink.netQuantity ticker := by
  by_cases h : (sink.riskManager.checkOrder trade).accepted = true
  · rw [submitTrade_of_accepted h]
    rfl
  · rw [submitTrade_of_refused h]
    rfl

/-- A response about an order that the sink does not know changes nothing. -/
theorem onResponse_of_unknown
    {response : OrderResponse ℚ}
    (h : sink.submittedTrades response.clientOrderId = none) :
    sink.onResponse response = sink := by
  simp [onResponse, h]

/-- What the callback books: the signed fill, for the ticker of the order. -/
theorem netQuantity_onResponse
    {response : OrderResponse ℚ}
    (h : sink.submittedTrades response.clientOrderId = some trade)
    (ticker : Bytes) :
    (sink.onResponse response).netQuantity ticker =
      sink.netQuantity ticker +
        if isFill response = true ∧ trade.ticker.bytes = ticker then
          signedQuantity trade.side response.filledQuantity
        else 0 := by
  simp only [onResponse, h, netQuantity]
  by_cases hfill : isFill response = true
  · by_cases hticker : trade.ticker.bytes = ticker
    · subst hticker
      rw [RiskManager.position_onFill_self _ hfill, Position.book_netQuantity]
      simp [hfill]
    · rw [RiskManager.position_onFill_of_ne _ response (Ne.symm hticker)]
      simp [hticker]
  · rw [RiskManager.onFill_of_not_fill _ trade (Bool.eq_false_iff.mpr hfill)]
    simp [hfill]

/-- The orders known after a response: a terminal one forgets its order. -/
theorem submittedTrades_onResponse
    (sink : RiskCheckedExecutionSink) (response : OrderResponse ℚ) :
    (sink.onResponse response).submittedTrades =
      if response.status.isTerminal then
        Function.update sink.submittedTrades response.clientOrderId none
      else sink.submittedTrades := by
  unfold onResponse
  cases hknown : sink.submittedTrades response.clientOrderId with
  | none =>
      have hsame : Function.update sink.submittedTrades response.clientOrderId none =
          sink.submittedTrades := by
        rw [← hknown, Function.update_eq_self]
      simp only [hsame, ite_self]
  | some trade =>
      rfl

end Spec

end RiskCheckedExecutionSink

end Risk
end CryptoHft
