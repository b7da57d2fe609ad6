import CryptoHft.Exchange.ResponseParser

/-!
# `CryptoComMarketDataClient`

`src/exchange/market_data_client.cpp`: from a text message of the market data feed
to the events that are passed to `on_trade_` and `on_quote_`.  A field of the wrong
type can end a handler with an exception; what has been passed on before stays
passed on, so the outcome is a list of events and an exception, if there was one.

A trade message can hold many trades.  `tradedItems` are the items that become
trades: those that pass the checks, up to the first that throws.  `feedOf` is what
a message is for, and `processDecoded_eq` what is done with each kind.
-/

namespace CryptoHft
namespace Exchange

open Lib

inductive MarketEvent (R : Type)
  | trade (tradeEvent : TradeEvent R)
  | quote (quoteUpdate : QuoteUpdate R)

def MarketEvent.ticker {R : Type} : MarketEvent R → CString 16
  | .trade tradeEvent => tradeEvent.ticker
  | .quote quoteUpdate => quoteUpdate.ticker

/-- What a handler did. -/
structure Emitted (R : Type) where
  events : List (MarketEvent R)
  thrown : Option JsonError

namespace CryptoComMarketDataClient

variable {R : Type}

/-- `as_u64`. -/
def asU64 : Json R → UInt64 :=
  jsonToU64

/-- The field `result` of a message, if it is an object. -/
def resultObject (decoded : Json R) : Option (Json R) :=
  match decoded.find "result" with
  | some (.object fields) => some (.object fields)
  | _ => none

/-- `value("data", json::array())`, if it is an array. -/
def dataItems (result : Json R) : Option (List (Json R)) :=
  match result.find "data" with
  | some (.array items) => some items
  | some _ => none
  | none => some []

/-- The time of an item of a trade message. -/
def itemTime (item : Json R) : UInt64 :=
  match item.find "tn" with
  | some time => asU64 time
  | none => ((item.find "t").map asU64).getD 0

/-- The time of a book. -/
def bookTime (book : Json R) : UInt64 :=
  match book.find "t" with
  | some time => asU64 time
  | none => ((book.find "tt").map asU64).getD 0

/-- The first level of one side of a book: its price and its size. -/
def bestLevel (book : Json R) (side : String) : Option (Json R × Json R) :=
  match book.find side with
  | some (.array (.array (price :: size :: _) :: _)) => some (price, size)
  | _ => none

/-- What a message is for. -/
inductive Feed (R : Type)
  | ignored
  | throws
  | trades (fallbackTicker : Bytes) (items : List (Json R))
  | book (ticker : Bytes) (result : Json R)

def feedOf (decoded : Json R) : Feed R :=
  match resultObject decoded with
  | none => .ignored
  | some result =>
      match result.valueString "channel" [] with
      | .error _ => .throws
      | .ok channel =>
          if channel = text "trade" then
            match result.valueString "instrument_name" [] with
            | .error _ => .throws
            | .ok fallbackTicker =>
                match dataItems result with
                | some items => .trades fallbackTicker items
                | none => .ignored
          else if channel = text "book" then
            match result.valueString "instrument_name" [] with
            | .error _ => .throws
            | .ok ticker => .book ticker result
          else .ignored

/-- The fields that a quote is made of. -/
structure BestLevels (R : Type) where
  book : Json R
  bidPrice : Json R
  bidSize : Json R
  askPrice : Json R
  askSize : Json R

/-- The best levels of the first book of a message that names its instrument. -/
def bestLevels (ticker : Bytes) (result : Json R) : Option (BestLevels R) :=
  if ticker.isEmpty then none
  else
    match dataItems result with
    | some (book :: _) =>
        match bestLevel book "bids", bestLevel book "asks" with
        | some (bidPrice, bidSize), some (askPrice, askSize) =>
            some ⟨book, bidPrice, bidSize, askPrice, askSize⟩
        | _, _ => none
    | _ => none

variable [Double R]

/-- `as_double`. -/
def asDouble : Json R → R :=
  jsonToDouble

/-- One turn of the loop of `handle_trade_result`. -/
def tradeOfItem (fallbackTicker : Bytes) (item : Json R) :
    Except JsonError (Option (TradeEvent R)) := do
  let ticker ← item.valueString "i" fallbackTicker
  let price := ((item.find "p").map asDouble).getD 0
  let quantity := ((item.find "q").map asDouble).getD 0
  if ticker.isEmpty ∨ Double.isNonPositive price ∨ Double.isNonPositive quantity then
    return none
  else
    let side ← item.valueString "s" []
    return some {
      ticker := .copyString ticker
      price := price
      quantity := quantity
      isBuyerMaker := decide (side = text "SELL")
      timestampNs := exchangeTimeToNs (itemTime item)
      tradeId := ((item.find "d").map asU64).getD 0 }

/-- The loop of `handle_trade_result`. -/
def emitTrades (fallbackTicker : Bytes) : List (Json R) → Emitted R
  | [] => ⟨[], none⟩
  | item :: rest =>
      match tradeOfItem fallbackTicker item with
      | .error e => ⟨[], some e⟩
      | .ok none => emitTrades fallbackTicker rest
      | .ok (some trade) =>
          let after := emitTrades fallbackTicker rest
          ⟨.trade trade :: after.events, after.thrown⟩

/-- `handle_trade_result`. -/
def handleTradeResult (result : Json R) : Emitted R :=
  match result.valueString "instrument_name" [] with
  | .error e => ⟨[], some e⟩
  | .ok fallbackTicker =>
      match dataItems result with
      | some items => emitTrades fallbackTicker items
      | none => ⟨[], none⟩

/-- The quote that `handle_book_result` makes of the first book of a message. -/
def quoteOfBook (ticker : Bytes) (result : Json R) : Option (QuoteUpdate R) :=
  if ticker.isEmpty then none
  else
    match dataItems result with
    | some (book :: _) =>
        match bestLevel book "bids", bestLevel book "asks" with
        | some (bidPrice, bidSize), some (askPrice, askSize) =>
            some {
              ticker := .copyString ticker
              bidPrice := asDouble bidPrice
              bidSize := asDouble bidSize
              askPrice := asDouble askPrice
              askSize := asDouble askSize
              timestampNs := exchangeTimeToNs (bookTime book) }
        | _, _ => none
    | _ => none

/-- `handle_book_result`. -/
def handleBookResult (result : Json R) : Emitted R :=
  match result.valueString "instrument_name" [] with
  | .error e => ⟨[], some e⟩
  | .ok ticker => ⟨(quoteOfBook ticker result).toList.map .quote, none⟩

/-- `process_text_message`, from the decoded message on. -/
def processDecoded (decoded : Json R) : Emitted R :=
  match resultObject decoded with
  | none => ⟨[], none⟩
  | some result =>
      match result.valueString "channel" [] with
      | .error e => ⟨[], some e⟩
      | .ok channel =>
          if channel = text "trade" then handleTradeResult result
          else if channel = text "book" then handleBookResult result
          else ⟨[], none⟩

/-- `process_text_message`; `parse` is the parser of the JSON library. -/
def processTextMessage (parse : Bytes → Option (Json R)) (message : Bytes) : Emitted R :=
  match parse message with
  | none => ⟨[], none⟩
  | some decoded => processDecoded decoded

section Items

/-- The items of a trade message that become trades. -/
def tradedItems (fallbackTicker : Bytes) : List (Json R) → List (Json R)
  | [] => []
  | item :: rest =>
      match tradeOfItem fallbackTicker item with
      | .error _ => []
      | .ok none => tradedItems fallbackTicker rest
      | .ok (some _) => item :: tradedItems fallbackTicker rest

/-- The instrument that an item names. -/
def instrument (fallbackTicker : Bytes) (item : Json R) : Bytes :=
  ((item.valueString "i" fallbackTicker).toOption).getD []

theorem ticker_tradeOfItem
    {fallbackTicker : Bytes} {item : Json R} {trade : TradeEvent R}
    (h : tradeOfItem fallbackTicker item = .ok (some trade)) :
    trade.ticker = .copyString (instrument fallbackTicker item) := by
  simp only [tradeOfItem, bind, Except.bind, pure, Except.pure] at h
  split at h
  · cases h
  · rename_i ticker hticker
    split at h
    · cases h
    · split at h
      · cases h
      · cases h
        rw [instrument, hticker]
        rfl

/-- The tickers of the trades are those of the traded items. -/
theorem tickers_emitTrades
    (fallbackTicker : Bytes)
    (items : List (Json R)) :
    (emitTrades fallbackTicker items).events.map MarketEvent.ticker =
      (tradedItems fallbackTicker items).map (fun item =>
        .copyString (instrument fallbackTicker item)) := by
  induction items with
  | nil =>
      rfl
  | cons item rest ih =>
      rw [emitTrades, tradedItems]
      cases hitem : tradeOfItem fallbackTicker item with
      | error e =>
          rfl
      | ok result =>
          cases result with
          | none =>
              exact ih
          | some trade =>
              simp only [List.map_cons, ih, MarketEvent.ticker, ticker_tradeOfItem hitem]

theorem tradedItems_subset
    (fallbackTicker : Bytes)
    (items : List (Json R)) :
    tradedItems fallbackTicker items ⊆ items := by
  induction items with
  | nil =>
      simp [tradedItems]
  | cons item rest ih =>
      rw [tradedItems]
      split
      · simp
      · exact List.subset_cons_of_subset item ih
      · exact List.cons_subset_cons item ih

end Items

section Feed

theorem quoteOfBook_eq
    (ticker : Bytes)
    (result : Json R) :
    quoteOfBook ticker result = (bestLevels ticker result).map (fun levels =>
      { ticker := .copyString ticker
        bidPrice := asDouble levels.bidPrice
        bidSize := asDouble levels.bidSize
        askPrice := asDouble levels.askPrice
        askSize := asDouble levels.askSize
        timestampNs := exchangeTimeToNs (bookTime levels.book) }) := by
  rw [quoteOfBook, bestLevels]
  split_ifs
  · rfl
  · split
    · split <;> rfl
    · rfl

/-- What is emitted for a message of each kind. -/
def emitFeed : Feed R → Emitted R
  | .ignored => ⟨[], none⟩
  | .throws => ⟨[], some .typeError⟩
  | .trades fallbackTicker items => emitTrades fallbackTicker items
  | .book ticker result => ⟨(quoteOfBook ticker result).toList.map .quote, none⟩

theorem processDecoded_eq
    (decoded : Json R) :
    processDecoded decoded = emitFeed (feedOf decoded) := by
  rw [processDecoded, feedOf]
  cases resultObject decoded with
  | none =>
      rfl
  | some result =>
      cases hchannel : result.valueString "channel" [] with
      | error e =>
          simp only [hchannel, emitFeed]
      | ok channel =>
          simp only [hchannel]
          split_ifs
          · rw [handleTradeResult]
            cases result.valueString "instrument_name" [] with
            | error e => rfl
            | ok fallbackTicker => cases dataItems result <;> rfl
          · rw [handleBookResult]
            cases result.valueString "instrument_name" [] <;> rfl
          · rfl

end Feed

end CryptoComMarketDataClient

end Exchange
end CryptoHft
