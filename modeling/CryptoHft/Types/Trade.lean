import CryptoHft.Lib.CString

/-!
# Orders, responses and market events

`include/types/trade.hpp`.  The records carry the fields of the source; the
numbers that are `double` there have a type parameter `R` here, so that the
components that are analysed in exact arithmetic take `R := ℚ`.  Identifiers,
timestamps and priorities keep their machine width.

The order factories draw the client order id from a process-wide counter; the
counter is passed in and out, and the clock reading is an argument.
-/

namespace CryptoHft

open Lib

section Buffers

-- the sizes of the character buffers of the records below

instance neZero_ticker : NeZero 16 :=
  ⟨by decide⟩

instance neZero_feeCurrency : NeZero 8 :=
  ⟨by decide⟩

instance neZero_errorMessage : NeZero 128 :=
  ⟨by decide⟩

end Buffers

inductive OrderSide
  | buy
  | sell
deriving DecidableEq, Repr

inductive OrderType
  | limit
  | market
  | stopLoss
  | stopLimit
  | takeProfit
  | takeProfitLimit
deriving DecidableEq, Repr

inductive TimeInForce
  | gtc
  | ioc
  | fok
  | gtd
deriving DecidableEq, Repr

inductive ExecType
  | postOnly
  | default
deriving DecidableEq, Repr

inductive OrderStatus
  | new
  | filled
  | partiallyFilled
  | canceled
  | rejected
  | expired
deriving DecidableEq, Repr

/-- The statuses after which an order gets no further update. -/
def OrderStatus.isTerminal : OrderStatus → Bool
  | .filled => true
  | .canceled => true
  | .rejected => true
  | .expired => true
  | .new => false
  | .partiallyFilled => false

structure Trade (R : Type) where
  clientOrderId : UInt64
  strategyId : UInt32
  ticker : CString 16
  side : OrderSide
  type : OrderType
  timeInForce : TimeInForce
  execType : ExecType
  quantity : R
  price : R
  triggerPrice : R
  timestampNs : Int64
  priority : UInt8
deriving DecidableEq

structure OrderResponse (R : Type) where
  clientOrderId : UInt64
  exchangeOrderId : UInt64
  status : OrderStatus
  filledQuantity : R
  remainingQuantity : R
  avgPrice : R
  fee : R
  feeCurrency : CString 8
  exchangeTimestampNs : Int64
  errorCode : Int32
  errorMessage : CString 128
deriving DecidableEq

structure TradeEvent (R : Type) where
  ticker : CString 16
  price : R
  quantity : R
  isBuyerMaker : Bool
  timestampNs : Int64
  tradeId : UInt64
deriving DecidableEq

structure QuoteUpdate (R : Type) where
  ticker : CString 16
  bidPrice : R
  bidSize : R
  askPrice : R
  askSize : R
  timestampNs : Int64
deriving DecidableEq

section Construction

variable {R : Type} [Zero R]

/-- The default constructor of `OrderResponse`. -/
def OrderResponse.empty : OrderResponse R where
  clientOrderId := 0
  exchangeOrderId := 0
  status := .new
  filledQuantity := 0
  remainingQuantity := 0
  avgPrice := 0
  fee := 0
  feeCurrency := .empty
  exchangeTimestampNs := 0
  errorCode := 0
  errorMessage := .empty

namespace Trade

/-- `create_limit_order`: a new order and the advanced counter. -/
def createLimitOrder (orderIdCounter : UInt64) (now : Int64) (strategyId : UInt32)
    (ticker : Bytes) (side : OrderSide) (quantity price : R)
    (tif : TimeInForce := .gtc) (exec : ExecType := .default) :
    Trade R × UInt64 :=
  ({ clientOrderId := orderIdCounter
     strategyId := strategyId
     ticker := .copyString ticker
     side := side
     type := .limit
     timeInForce := tif
     execType := exec
     quantity := quantity
     price := price
     triggerPrice := 0
     timestampNs := now
     priority := 128 },
    orderIdCounter + 1)

/-- `create_market_order`. -/
def createMarketOrder (orderIdCounter : UInt64) (now : Int64) (strategyId : UInt32)
    (ticker : Bytes) (side : OrderSide) (quantity : R) :
    Trade R × UInt64 :=
  let (t, next) := createLimitOrder orderIdCounter now strategyId ticker side quantity 0
  ({ t with type := .market, timeInForce := .ioc, priority := 0 }, next)

/-- `create_stop_order`. -/
def createStopOrder (orderIdCounter : UInt64) (now : Int64) (strategyId : UInt32)
    (ticker : Bytes) (side : OrderSide) (quantity triggerPrice : R)
    (limitPrice : Option R) :
    Trade R × UInt64 :=
  let (t, next) := createLimitOrder orderIdCounter now strategyId ticker side quantity
    (limitPrice.getD 0)
  ({ t with
      type := if limitPrice.isSome then .stopLimit else .stopLoss
      triggerPrice := triggerPrice
      priority := 64 }, next)

end Trade

end Construction

end CryptoHft
