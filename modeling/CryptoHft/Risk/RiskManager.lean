import CryptoHft.Types.Trade

/-!
# `RiskManager`

`include/risk/risk_manager.hpp`, lines 17-146, in exact rational arithmetic.
Positions and mid prices are keyed by the ticker text.  `check_order_locked`
tests an order against the limits and the filled position; `on_fill` books a
fill into the position of its ticker by the average-cost method.
-/

namespace CryptoHft
namespace Risk

open Lib

structure RiskLimits where
  maxOrderQuantity : ℚ
  maxOrderNotional : ℚ
  maxNetPositionAbs : ℚ
  allowMarketOrders : Bool
deriving DecidableEq

/-- The default limits: zero means no limit. -/
def RiskLimits.unlimited : RiskLimits where
  maxOrderQuantity := 0
  maxOrderNotional := 0
  maxNetPositionAbs := 0
  allowMarketOrders := true

structure Position where
  netQuantity : ℚ
  avgEntryPrice : ℚ
  realizedPnl : ℚ
deriving DecidableEq

/-- A flat position. -/
def Position.flat : Position :=
  ⟨0, 0, 0⟩

structure RiskDecision where
  accepted : Bool
  reason : Bytes
deriving DecidableEq

/-- `reject`. -/
def RiskDecision.reject (reason : Bytes) : RiskDecision :=
  ⟨false, reason⟩

/-- The value-initialized decision. -/
def RiskDecision.accept : RiskDecision :=
  ⟨true, []⟩

structure RiskManager where
  limits : RiskLimits
  positions : Bytes → Option Position
  midPrices : Bytes → Option ℚ

/-- The quantity with the sign of the side. -/
def signedQuantity (side : OrderSide) (quantity : ℚ) : ℚ :=
  match side with
  | .buy => quantity
  | .sell => -quantity

/-- The responses that `on_fill` books. -/
def isFill (response : OrderResponse ℚ) : Bool :=
  (response.status = .filled || response.status = .partiallyFilled) &&
    decide (0 < response.filledQuantity)

theorem filledQuantity_pos
    {response : OrderResponse ℚ}
    (h : isFill response = true) :
    0 < response.filledQuantity := by
  simp only [isFill, Bool.and_eq_true, decide_eq_true_eq] at h
  exact h.2

/-- The price a fill is booked at. -/
def fillPrice (trade : Trade ℚ) (response : OrderResponse ℚ) : ℚ :=
  if 0 < response.avgPrice then response.avgPrice else trade.price

/-- The locked section of `on_fill`: book a signed quantity at a price. -/
def Position.book (position : Position) (signedQty price : ℚ) : Position :=
  if position.netQuantity = 0 ∨
      (0 < position.netQuantity ∧ 0 < signedQty) ∨
      (position.netQuantity < 0 ∧ signedQty < 0) then
    let oldAbs := |position.netQuantity|
    let newAbs := oldAbs + |signedQty|
    { position with
      avgEntryPrice :=
        if 0 < newAbs then
          (position.avgEntryPrice * oldAbs + price * |signedQty|) / newAbs
        else 0
      netQuantity := position.netQuantity + signedQty }
  else
    let oldNet := position.netQuantity
    let closingQty := min |oldNet| |signedQty|
    let pnlSign : ℚ := if 0 < oldNet then 1 else -1
    let newNet := oldNet + signedQty
    { netQuantity := newNet
      realizedPnl :=
        position.realizedPnl + (price - position.avgEntryPrice) * closingQty * pnlSign
      avgEntryPrice :=
        if newNet = 0 then 0
        else if (0 < oldNet ∧ newNet < 0) ∨ (oldNet < 0 ∧ 0 < newNet) then price
        else position.avgEntryPrice }

theorem Position.book_netQuantity (position : Position) (s p : ℚ) :
    (position.book s p).netQuantity = position.netQuantity + s := by
  unfold Position.book
  split <;> rfl

namespace RiskManager

/-- The constructor. -/
def create (limits : RiskLimits) : RiskManager where
  limits := limits
  positions _ := none
  midPrices _ := none

def setLimits (rm : RiskManager) (limits : RiskLimits) : RiskManager :=
  { rm with limits := limits }

def updateQuote (rm : RiskManager) (quote : QuoteUpdate ℚ) : RiskManager :=
  { rm with
    midPrices := Function.update rm.midPrices quote.ticker.bytes
      (some ((quote.bidPrice + quote.askPrice) / 2)) }

/-- `position`: the stored position, or a flat one. -/
def position (rm : RiskManager) (ticker : Bytes) : Position :=
  (rm.positions ticker).getD .flat

def orderRiskPriceLocked (rm : RiskManager) (trade : Trade ℚ) : ℚ :=
  if 0 < trade.price then trade.price
  else (rm.midPrices trade.ticker.bytes).getD 0

/-- `check_order_locked`. -/
def checkOrder (rm : RiskManager) (trade : Trade ℚ) : RiskDecision :=
  if trade.quantity ≤ 0 then
    .reject (text "quantity must be positive")
  else if rm.limits.allowMarketOrders = false ∧ trade.type = .market then
    .reject (text "market orders disabled")
  else if 0 < rm.limits.maxOrderQuantity ∧ rm.limits.maxOrderQuantity < trade.quantity then
    .reject (text "order quantity exceeds limit")
  else if 0 < rm.limits.maxOrderNotional ∧
      rm.limits.maxOrderNotional < rm.orderRiskPriceLocked trade * trade.quantity then
    .reject (text "order notional exceeds limit")
  else if 0 < rm.limits.maxNetPositionAbs ∧
      rm.limits.maxNetPositionAbs <
        |(rm.position trade.ticker.bytes).netQuantity +
          signedQuantity trade.side trade.quantity| then
    .reject (text "net position exceeds limit")
  else
    .accept

theorem quantity_pos_of_accepted
    {rm : RiskManager} {trade : Trade ℚ}
    (h : (rm.checkOrder trade).accepted = true) :
    0 < trade.quantity := by
  by_contra hle
  simp [checkOrder, not_lt.mp hle, RiskDecision.reject] at h

/-- `on_fill`. -/
def onFill (rm : RiskManager) (trade : Trade ℚ) (response : OrderResponse ℚ) :
    RiskManager :=
  if isFill response then
    { rm with
      positions := Function.update rm.positions trade.ticker.bytes
        (some ((rm.position trade.ticker.bytes).book
          (signedQuantity trade.side response.filledQuantity)
          (fillPrice trade response))) }
  else
    rm

/-- The calls that change a risk manager. -/
inductive Call
  | setLimits (limits : RiskLimits)
  | updateQuote (quote : QuoteUpdate ℚ)
  | onFill (trade : Trade ℚ) (response : OrderResponse ℚ)

/-- One call. -/
def apply (rm : RiskManager) : Call → RiskManager
  | .setLimits limits => rm.setLimits limits
  | .updateQuote quote => rm.updateQuote quote
  | .onFill trade response => rm.onFill trade response

/-- A sequence of calls. -/
def run (rm : RiskManager) (calls : List Call) : RiskManager :=
  calls.foldl apply rm

section Frame

variable (rm : RiskManager)

@[simp] theorem position_setLimits (limits : RiskLimits) (ticker : Bytes) :
    (rm.setLimits limits).position ticker = rm.position ticker := by
  rfl

@[simp] theorem position_updateQuote (quote : QuoteUpdate ℚ) (ticker : Bytes) :
    (rm.updateQuote quote).position ticker = rm.position ticker := by
  rfl

theorem onFill_of_not_fill
    (trade : Trade ℚ) {response : OrderResponse ℚ}
    (h : isFill response = false) :
    rm.onFill trade response = rm := by
  simp [onFill, h]

/-- A fill books into the position of its own ticker. -/
theorem position_onFill_self
    {trade : Trade ℚ} {response : OrderResponse ℚ}
    (h : isFill response = true) :
    (rm.onFill trade response).position trade.ticker.bytes =
      (rm.position trade.ticker.bytes).book
        (signedQuantity trade.side response.filledQuantity)
        (fillPrice trade response) := by
  simp [onFill, h, position]

/-- A call of `on_fill` leaves the positions of all other tickers alone. -/
theorem position_onFill_of_ne
    {trade : Trade ℚ} {ticker : Bytes} (response : OrderResponse ℚ)
    (h : ticker ≠ trade.ticker.bytes) :
    (rm.onFill trade response).position ticker = rm.position ticker := by
  unfold onFill
  split
  · simp [position, Function.update_of_ne h]
  · rfl

end Frame

end RiskManager

end Risk
end CryptoHft
