import CryptoHft.Lib.OrderedMap
import CryptoHft.Types.Trade

/-!
# The order book of one instrument

`OrderBook` of `include/orderbook/order_book.hpp`.  The two sides are ordered
maps from price to quantity, bids with the comparator `greater` and asks with
`less`.  A call brings a list of levels for each side; a level with a positive
quantity sets its price, one without removes it, and levels without a positive
price are skipped.  `applySnapshot` starts from empty sides.

`after` is the book a history of calls leaves behind.
-/

namespace CryptoHft
namespace Orderbook

open Lib

structure BookLevel (R : Type) where
  price : R
  quantity : R
deriving DecidableEq

structure BookSnapshot (R : Type) where
  ticker : Bytes
  bids : List (BookLevel R)
  asks : List (BookLevel R)
  timestampNs : Int64
  sequence : UInt64
deriving DecidableEq

structure OrderBook (R : Type) [LinearOrder R] where
  ticker : Bytes
  bids : OrderedMap R R (· > ·)
  asks : OrderedMap R R (· < ·)
  timestampNs : Int64
  sequence : UInt64

section Ladder

variable {R : Type} [LinearOrder R] [Zero R]
variable {lt : R → R → Prop} [DecidableRel lt] [IsStrictTotalOrder R lt]

/-- `upsert_bid` and `upsert_ask`: one level of a side with the comparator `lt`. -/
def upsert (side : OrderedMap R R lt) (level : BookLevel R) : OrderedMap R R lt :=
  if level.price ≤ 0 then side
  else if level.quantity ≤ 0 then side.erase level.price
  else side.insert level.price level.quantity

end Ladder

namespace OrderBook

section Operations

variable {R : Type} [LinearOrder R] [Zero R]

/-- The constructor. -/
def create (ticker : Bytes) : OrderBook R where
  ticker := ticker
  bids := .empty
  asks := .empty
  timestampNs := 0
  sequence := 0

def upsertBid (bids : OrderedMap R R (· > ·)) (level : BookLevel R) :
    OrderedMap R R (· > ·) :=
  upsert bids level

def upsertAsk (asks : OrderedMap R R (· < ·)) (level : BookLevel R) :
    OrderedMap R R (· < ·) :=
  upsert asks level

def applySnapshot (book : OrderBook R) (bids asks : List (BookLevel R))
    (timestampNs : Int64) (sequence : UInt64 := 0) : OrderBook R :=
  { book with
    bids := bids.foldl upsertBid .empty
    asks := asks.foldl upsertAsk .empty
    timestampNs := timestampNs
    sequence := sequence }

def applyDelta (book : OrderBook R) (bids asks : List (BookLevel R))
    (timestampNs : Int64) (sequence : UInt64 := 0) : OrderBook R :=
  { book with
    bids := bids.foldl upsertBid book.bids
    asks := asks.foldl upsertAsk book.asks
    timestampNs := timestampNs
    sequence := sequence }

def bestQuote (book : OrderBook R) : Option (QuoteUpdate R) :=
  match book.bids.entries, book.asks.entries with
  | bid :: _, ask :: _ =>
      some
        { ticker := .copyString book.ticker
          bidPrice := bid.1
          bidSize := bid.2
          askPrice := ask.1
          askSize := ask.2
          timestampNs := book.timestampNs }
  | _, _ => none

/-- The loop that copies the levels of a side, up to a depth. -/
def copyLevels (depth : Nat) : Nat → List (R × R) → List (BookLevel R)
  | _, [] => []
  | count, (price, quantity) :: rest =>
      if depth ≤ count then []
      else ⟨price, quantity⟩ :: copyLevels depth (count + 1) rest

/-- `snapshot`: all levels, or the first `depth` of each side. -/
def snapshot (book : OrderBook R) (depth : Nat) : BookSnapshot R :=
  let bidDepth :=
    if depth = 0 then book.bids.entries.length else min depth book.bids.entries.length
  let askDepth :=
    if depth = 0 then book.asks.entries.length else min depth book.asks.entries.length
  { ticker := book.ticker
    bids := copyLevels bidDepth 0 book.bids.entries
    asks := copyLevels askDepth 0 book.asks.entries
    timestampNs := book.timestampNs
    sequence := book.sequence }

end Operations

end OrderBook

/-- The arguments of a call that changes the book. -/
structure BookUpdate (R : Type) where
  bids : List (BookLevel R)
  asks : List (BookLevel R)
  timestampNs : Int64
  sequence : UInt64

inductive BookCall (R : Type)
  | snapshot (update : BookUpdate R)
  | delta (update : BookUpdate R)

namespace BookCall

variable {R : Type}

def update : BookCall R → BookUpdate R
  | snapshot u => u
  | delta u => u

def isSnapshot : BookCall R → Bool
  | snapshot _ => true
  | delta _ => false

end BookCall

namespace OrderBook

section Histories

variable {R : Type} [LinearOrder R] [Zero R]

def apply (book : OrderBook R) : BookCall R → OrderBook R
  | .snapshot u => book.applySnapshot u.bids u.asks u.timestampNs u.sequence
  | .delta u => book.applyDelta u.bids u.asks u.timestampNs u.sequence

/-- The book after a history of calls, oldest first. -/
def after (ticker : Bytes) (history : List (BookCall R)) : OrderBook R :=
  history.foldl apply (create ticker)

end Histories

end OrderBook

section Tickers

variable {R : Type} [LinearOrder R] [Zero R]

theorem ticker_apply
    (book : OrderBook R)
    (call : BookCall R) :
    (book.apply call).ticker = book.ticker := by
  cases call with
  | snapshot u =>
      rfl
  | delta u =>
      rfl

theorem ticker_after
    (ticker : Bytes)
    (calls : List (BookCall R)) :
    (OrderBook.after ticker calls).ticker = ticker := by
  induction calls using List.reverseRecOn with
  | nil =>
      rfl
  | append_singleton calls call ih =>
      rw [OrderBook.after, List.foldl_append]
      exact (ticker_apply _ call).trans ih

end Tickers

end Orderbook
end CryptoHft
