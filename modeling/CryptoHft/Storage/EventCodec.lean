import CryptoHft.Lib.Json
import CryptoHft.Storage.StorageTypes

/-!
# The JSON codec of storage events

`src/storage/jsonl_async_storage.cpp`, lines 20-418: how a storage event becomes a
JSON object and how it is read back.  Enumerations are written as texts; reading
goes through a table of the accepted texts, and everything that throws in the
source makes the decoder return nothing.

`storageEventFromJson_toJson` is the round trip, for every event whose payload is
of the kind its type says.
-/

namespace CryptoHft
namespace Storage

open Lib

/-- Look a text up in a table. -/
def fromTable {α : Type} (table : List (String × α)) (s : Bytes) : Option α :=
  (table.find? (fun entry => text entry.1 = s)).map Prod.snd

section Enumerations

def sideToString : OrderSide → String
  | .buy => "BUY"
  | .sell => "SELL"

def sideFromString : Bytes → Option OrderSide :=
  fromTable [("BUY", .buy), ("SELL", .sell)]

def orderTypeToString : OrderType → String
  | .limit => "LIMIT"
  | .market => "MARKET"
  | .stopLoss => "STOP_LOSS"
  | .stopLimit => "STOP_LIMIT"
  | .takeProfit => "TAKE_PROFIT"
  | .takeProfitLimit => "TAKE_PROFIT_LIMIT"

def orderTypeFromString : Bytes → Option OrderType :=
  fromTable
    [("LIMIT", .limit), ("MARKET", .market), ("STOP_LOSS", .stopLoss),
      ("STOP_LIMIT", .stopLimit), ("TAKE_PROFIT", .takeProfit),
      ("TAKE_PROFIT_LIMIT", .takeProfitLimit)]

def tifToString : TimeInForce → String
  | .gtc => "GTC"
  | .ioc => "IOC"
  | .fok => "FOK"
  | .gtd => "GTD"

def tifFromString : Bytes → Option TimeInForce :=
  fromTable [("GTC", .gtc), ("IOC", .ioc), ("FOK", .fok), ("GTD", .gtd)]

def execTypeToString : ExecType → String
  | .postOnly => "POST_ONLY"
  | .default => "DEFAULT"

def execTypeFromString : Bytes → Option ExecType :=
  fromTable [("POST_ONLY", .postOnly), ("DEFAULT", .default)]

def statusToString : OrderStatus → String
  | .new => "NEW"
  | .filled => "FILLED"
  | .partiallyFilled => "PARTIALLY_FILLED"
  | .canceled => "CANCELED"
  | .rejected => "REJECTED"
  | .expired => "EXPIRED"

def statusFromString : Bytes → Option OrderStatus :=
  fromTable
    [("NEW", .new), ("FILLED", .filled), ("PARTIALLY_FILLED", .partiallyFilled),
      ("CANCELED", .canceled), ("CANCELLED", .canceled), ("REJECTED", .rejected),
      ("EXPIRED", .expired)]

def eventTypeToString : StorageEventType → String
  | .tradeSubmitted => "trade_submitted"
  | .orderResponse => "order_response"
  | .marketTrade => "market_trade"
  | .quoteUpdate => "quote_update"

def storageEventTypeFromString : Bytes → Option StorageEventType :=
  fromTable
    [("trade_submitted", .tradeSubmitted), ("order_response", .orderResponse),
      ("market_trade", .marketTrade), ("quote_update", .quoteUpdate)]

end Enumerations

section Codec

variable {R : Type}

/-- A text literal as a JSON value. -/
def literal (s : String) : Json R :=
  .string (text s)

def tradeToJson (trade : Trade R) : Json R :=
  .object
    [("client_order_id", .ofUInt64 trade.clientOrderId),
      ("strategy_id", .ofUInt64 trade.strategyId.toUInt64),
      ("ticker", .string trade.ticker.bytes),
      ("side", literal (sideToString trade.side)),
      ("type", literal (orderTypeToString trade.type)),
      ("time_in_force", literal (tifToString trade.timeInForce)),
      ("exec_type", literal (execTypeToString trade.execType)),
      ("quantity", .float trade.quantity),
      ("price", .float trade.price),
      ("trigger_price", .float trade.triggerPrice),
      ("timestamp_ns", .ofInt64 trade.timestampNs),
      ("priority", .ofUInt64 trade.priority.toUInt64)]

def responseToJson (response : OrderResponse R) : Json R :=
  .object
    [("client_order_id", .ofUInt64 response.clientOrderId),
      ("exchange_order_id", .ofUInt64 response.exchangeOrderId),
      ("status", literal (statusToString response.status)),
      ("filled_quantity", .float response.filledQuantity),
      ("remaining_quantity", .float response.remainingQuantity),
      ("avg_price", .float response.avgPrice),
      ("fee", .float response.fee),
      ("fee_currency", .string response.feeCurrency.bytes),
      ("exchange_timestamp_ns", .ofInt64 response.exchangeTimestampNs),
      ("error_code", .ofInt64 response.errorCode.toInt64),
      ("error_message", .string response.errorMessage.bytes)]

def tradeEventToJson (tradeEvent : TradeEvent R) : Json R :=
  .object
    [("ticker", .string tradeEvent.ticker.bytes),
      ("price", .float tradeEvent.price),
      ("quantity", .float tradeEvent.quantity),
      ("is_buyer_maker", .bool tradeEvent.isBuyerMaker),
      ("timestamp_ns", .ofInt64 tradeEvent.timestampNs),
      ("trade_id", .ofUInt64 tradeEvent.tradeId)]

def quoteToJson (quote : QuoteUpdate R) : Json R :=
  .object
    [("ticker", .string quote.ticker.bytes),
      ("bid_price", .float quote.bidPrice),
      ("bid_size", .float quote.bidSize),
      ("ask_price", .float quote.askPrice),
      ("ask_size", .float quote.askSize),
      ("timestamp_ns", .ofInt64 quote.timestampNs)]

/-- The payload of an event; the source takes the alternative that the type names. -/
def payloadToJson : StoragePayload R → Json R
  | .trade trade => tradeToJson trade
  | .orderResponse response => responseToJson response
  | .tradeEvent tradeEvent => tradeEventToJson tradeEvent
  | .quoteUpdate quote => quoteToJson quote

/-- `storage_event_to_json`. -/
def storageEventToJson (event : StorageEvent R) : Json R :=
  .object
    ([("schema_version", .ofUInt64 1),
      ("offset", .ofUInt64 event.offset),
      ("ingest_ts_ns", .ofInt64 event.ingestTsNs),
      ("event_type", literal (eventTypeToString event.type)),
      ("payload", payloadToJson event.payload)] ++
      (eventTicker event).toList.map (fun ticker => ("ticker", .string ticker)))

/-- A text of the payload that names a value of an enumeration. -/
def enumField {α : Type} (j : Json R) (key : String) (fromString : Bytes → Option α) :
    Option α :=
  (j.field key Json.getString).bind fromString

/-- A text of the payload, copied into a buffer. -/
def bufferField {n : Nat} [NeZero n] (j : Json R) (key : String) : Option (CString n) :=
  (j.field key Json.getString).map CString.copyString

variable [Double R]

def tradeFromJson (j : Json R) : Option (Trade R) := do
  let side ← enumField j "side" sideFromString
  let type ← enumField j "type" orderTypeFromString
  let tif ← enumField j "time_in_force" tifFromString
  let exec ← enumField j "exec_type" execTypeFromString
  return {
    clientOrderId := ← j.field "client_order_id" Json.getUInt64
    strategyId := ← j.field "strategy_id" Json.getUInt32
    ticker := ← bufferField j "ticker"
    side := side
    type := type
    timeInForce := tif
    execType := exec
    quantity := ← j.field "quantity" Json.getDouble
    price := ← j.field "price" Json.getDouble
    triggerPrice := ← j.field "trigger_price" Json.getDouble
    timestampNs := ← j.field "timestamp_ns" Json.getInt64
    priority := ← j.field "priority" Json.getUInt8 }

def responseFromJson (j : Json R) : Option (OrderResponse R) := do
  let status ← enumField j "status" statusFromString
  return {
    clientOrderId := ← j.field "client_order_id" Json.getUInt64
    exchangeOrderId := ← j.field "exchange_order_id" Json.getUInt64
    status := status
    filledQuantity := ← j.field "filled_quantity" Json.getDouble
    remainingQuantity := ← j.field "remaining_quantity" Json.getDouble
    avgPrice := ← j.field "avg_price" Json.getDouble
    fee := ← j.field "fee" Json.getDouble
    feeCurrency := ← bufferField j "fee_currency"
    exchangeTimestampNs := ← j.field "exchange_timestamp_ns" Json.getInt64
    errorCode := ← j.field "error_code" Json.getInt32
    errorMessage := ← bufferField j "error_message" }

def tradeEventFromJson (j : Json R) : Option (TradeEvent R) := do
  return {
    ticker := ← bufferField j "ticker"
    price := ← j.field "price" Json.getDouble
    quantity := ← j.field "quantity" Json.getDouble
    isBuyerMaker := ← j.field "is_buyer_maker" Json.getBool
    timestampNs := ← j.field "timestamp_ns" Json.getInt64
    tradeId := ← j.field "trade_id" Json.getUInt64 }

def quoteFromJson (j : Json R) : Option (QuoteUpdate R) := do
  return {
    ticker := ← bufferField j "ticker"
    bidPrice := ← j.field "bid_price" Json.getDouble
    bidSize := ← j.field "bid_size" Json.getDouble
    askPrice := ← j.field "ask_price" Json.getDouble
    askSize := ← j.field "ask_size" Json.getDouble
    timestampNs := ← j.field "timestamp_ns" Json.getInt64 }

def payloadFromJson (j : Json R) : StorageEventType → Option (StoragePayload R)
  | .tradeSubmitted => (tradeFromJson j).map .trade
  | .orderResponse => (responseFromJson j).map .orderResponse
  | .marketTrade => (tradeEventFromJson j).map .tradeEvent
  | .quoteUpdate => (quoteFromJson j).map .quoteUpdate

/-- `storage_event_from_json`. -/
def storageEventFromJson (j : Json R) : Option (StorageEvent R) := do
  let type ← enumField j "event_type" storageEventTypeFromString
  let offset ← j.field "offset" Json.getUInt64
  let ingestTsNs ← j.field "ingest_ts_ns" Json.getInt64
  let payload ← payloadFromJson (← j.find "payload") type
  return ⟨offset, ingestTsNs, type, payload⟩

end Codec

section RoundTrip

@[simp] theorem sideFromString_toString (side : OrderSide) :
    sideFromString (text (sideToString side)) = some side := by
  cases side <;> decide

@[simp] theorem orderTypeFromString_toString (type : OrderType) :
    orderTypeFromString (text (orderTypeToString type)) = some type := by
  cases type <;> decide

@[simp] theorem tifFromString_toString (tif : TimeInForce) :
    tifFromString (text (tifToString tif)) = some tif := by
  cases tif <;> decide

@[simp] theorem execTypeFromString_toString (exec : ExecType) :
    execTypeFromString (text (execTypeToString exec)) = some exec := by
  cases exec <;> decide

@[simp] theorem statusFromString_toString (status : OrderStatus) :
    statusFromString (text (statusToString status)) = some status := by
  cases status <;> decide

@[simp] theorem storageEventTypeFromString_toString (type : StorageEventType) :
    storageEventTypeFromString (text (eventTypeToString type)) = some type := by
  cases type <;> decide

variable {R : Type}

theorem getString_string (s : Bytes) :
    (Json.string s : Json R).getString = .ok s := by
  rfl

theorem enumField_of_find
    {α : Type} {j : Json R} {key : String} {fromString : Bytes → Option α} {s : Bytes} {x : α}
    (hfind : j.find key = some (.string s))
    (hread : fromString s = some x) :
    enumField j key fromString = some x := by
  simp [enumField, Json.field_of_find hfind (getString_string s), hread]

theorem bufferField_of_find
    {n : Nat} [NeZero n] {j : Json R} {key : String} {buffer : CString n}
    (hfind : j.find key = some (.string buffer.bytes)) :
    bufferField j key = some buffer := by
  simp [bufferField, Json.field_of_find hfind (getString_string buffer.bytes)]

variable [Double R]

theorem getDouble_float (x : R) :
    (Json.float x).getDouble = .ok x := by
  rfl

theorem tradeFromJson_toJson (trade : Trade R) :
    tradeFromJson (tradeToJson trade) = some trade := by
  have hquantity : (tradeToJson trade).field "quantity" Json.getDouble =
      some trade.quantity := Json.field_of_find rfl (getDouble_float _)
  have hprice : (tradeToJson trade).field "price" Json.getDouble =
      some trade.price := Json.field_of_find rfl (getDouble_float _)
  have htrigger : (tradeToJson trade).field "trigger_price" Json.getDouble =
      some trade.triggerPrice := Json.field_of_find rfl (getDouble_float _)
  rw [tradeFromJson,
    enumField_of_find rfl (sideFromString_toString trade.side),
    enumField_of_find rfl (orderTypeFromString_toString trade.type),
    enumField_of_find rfl (tifFromString_toString trade.timeInForce),
    enumField_of_find rfl (execTypeFromString_toString trade.execType),
    Json.field_of_find rfl (Json.getUInt64_ofUInt64 trade.clientOrderId),
    Json.field_of_find rfl (Json.getUInt32_ofUInt64 trade.strategyId),
    bufferField_of_find rfl, hquantity, hprice, htrigger,
    Json.field_of_find rfl (Json.getInt64_ofInt64 trade.timestampNs),
    Json.field_of_find rfl (Json.getUInt8_ofUInt64 trade.priority)]
  rfl

theorem responseFromJson_toJson (response : OrderResponse R) :
    responseFromJson (responseToJson response) = some response := by
  have hclient : (responseToJson response).field "client_order_id" Json.getUInt64 =
      some response.clientOrderId := Json.field_of_find rfl (Json.getUInt64_ofUInt64 _)
  have hexchange : (responseToJson response).field "exchange_order_id" Json.getUInt64 =
      some response.exchangeOrderId := Json.field_of_find rfl (Json.getUInt64_ofUInt64 _)
  have hfilled : (responseToJson response).field "filled_quantity" Json.getDouble =
      some response.filledQuantity := Json.field_of_find rfl (getDouble_float _)
  have hremaining : (responseToJson response).field "remaining_quantity" Json.getDouble =
      some response.remainingQuantity := Json.field_of_find rfl (getDouble_float _)
  have havg : (responseToJson response).field "avg_price" Json.getDouble =
      some response.avgPrice := Json.field_of_find rfl (getDouble_float _)
  have hfee : (responseToJson response).field "fee" Json.getDouble =
      some response.fee := Json.field_of_find rfl (getDouble_float _)
  have hcurrency : bufferField (responseToJson response) "fee_currency" =
      some response.feeCurrency := bufferField_of_find rfl
  have hmessage : bufferField (responseToJson response) "error_message" =
      some response.errorMessage := bufferField_of_find rfl
  rw [responseFromJson,
    enumField_of_find rfl (statusFromString_toString response.status),
    hclient, hexchange, hfilled, hremaining, havg, hfee, hcurrency,
    Json.field_of_find rfl (Json.getInt64_ofInt64 response.exchangeTimestampNs),
    Json.field_of_find rfl (Json.getInt32_ofInt64 response.errorCode), hmessage]
  rfl

theorem tradeEventFromJson_toJson (tradeEvent : TradeEvent R) :
    tradeEventFromJson (tradeEventToJson tradeEvent) = some tradeEvent := by
  have hprice : (tradeEventToJson tradeEvent).field "price" Json.getDouble =
      some tradeEvent.price := Json.field_of_find rfl (getDouble_float _)
  have hquantity : (tradeEventToJson tradeEvent).field "quantity" Json.getDouble =
      some tradeEvent.quantity := Json.field_of_find rfl (getDouble_float _)
  have hmaker : (tradeEventToJson tradeEvent).field "is_buyer_maker" Json.getBool =
      some tradeEvent.isBuyerMaker := Json.field_of_find rfl rfl
  rw [tradeEventFromJson, bufferField_of_find rfl, hprice, hquantity, hmaker,
    Json.field_of_find rfl (Json.getInt64_ofInt64 tradeEvent.timestampNs),
    Json.field_of_find rfl (Json.getUInt64_ofUInt64 tradeEvent.tradeId)]
  rfl

theorem quoteFromJson_toJson (quote : QuoteUpdate R) :
    quoteFromJson (quoteToJson quote) = some quote := by
  have hbid : (quoteToJson quote).field "bid_price" Json.getDouble =
      some quote.bidPrice := Json.field_of_find rfl (getDouble_float _)
  have hbidSize : (quoteToJson quote).field "bid_size" Json.getDouble =
      some quote.bidSize := Json.field_of_find rfl (getDouble_float _)
  have hask : (quoteToJson quote).field "ask_price" Json.getDouble =
      some quote.askPrice := Json.field_of_find rfl (getDouble_float _)
  have haskSize : (quoteToJson quote).field "ask_size" Json.getDouble =
      some quote.askSize := Json.field_of_find rfl (getDouble_float _)
  rw [quoteFromJson, bufferField_of_find rfl, hbid, hbidSize, hask, haskSize,
    Json.field_of_find rfl (Json.getInt64_ofInt64 quote.timestampNs)]
  rfl

theorem payloadFromJson_toJson
    {event : StorageEvent R}
    (h : payloadMatchesType event = true) :
    payloadFromJson (payloadToJson event.payload) event.type = some event.payload := by
  obtain ⟨offset, ts, type, payload⟩ := event
  cases payload with
  | trade trade =>
      cases type with
      | tradeSubmitted =>
          simp [payloadFromJson, payloadToJson, tradeFromJson_toJson]
      | orderResponse | marketTrade | quoteUpdate =>
          cases h
  | orderResponse response =>
      cases type with
      | orderResponse =>
          simp [payloadFromJson, payloadToJson, responseFromJson_toJson]
      | tradeSubmitted | marketTrade | quoteUpdate =>
          cases h
  | tradeEvent tradeEvent =>
      cases type with
      | marketTrade =>
          simp [payloadFromJson, payloadToJson, tradeEventFromJson_toJson]
      | tradeSubmitted | orderResponse | quoteUpdate =>
          cases h
  | quoteUpdate quote =>
      cases type with
      | quoteUpdate =>
          simp [payloadFromJson, payloadToJson, quoteFromJson_toJson]
      | tradeSubmitted | orderResponse | marketTrade =>
          cases h

/-- Encoding an event and decoding it gives the event back. -/
theorem storageEventFromJson_toJson
    {event : StorageEvent R}
    (h : payloadMatchesType event = true) :
    storageEventFromJson (storageEventToJson event) = some event := by
  have hpayload : (storageEventToJson event).find "payload" =
      some (payloadToJson event.payload) := rfl
  rw [storageEventFromJson,
    enumField_of_find rfl (storageEventTypeFromString_toString event.type),
    Json.field_of_find rfl (Json.getUInt64_ofUInt64 event.offset),
    Json.field_of_find rfl (Json.getInt64_ofInt64 event.ingestTsNs), hpayload]
  simp [payloadFromJson_toJson h]

/-- A decoded event has the payload that its type names. -/
theorem payloadMatchesType_of_fromJson
    {j : Json R} {event : StorageEvent R}
    (h : storageEventFromJson j = some event) :
    payloadMatchesType event = true := by
  simp only [storageEventFromJson, Option.bind_eq_bind, Option.bind_eq_some_iff, Option.pure_def,
    Option.some.injEq] at h
  obtain ⟨type, -, offset, -, ingestTsNs, -, value, -, payload, hpayload, rfl⟩ := h
  cases type with
  | tradeSubmitted | orderResponse | marketTrade | quoteUpdate =>
      obtain ⟨x, -, rfl⟩ := Option.map_eq_some_iff.mp hpayload
      rfl

/--
Every event with a payload of its type is encoded and decoded to itself, and so is
every event that the decoder yields, from whatever value.
-/
theorem event_codec_round_trips (R : Type) [Double R] :
    (∀ event : StorageEvent R, payloadMatchesType event = true →
      storageEventFromJson (storageEventToJson event) = some event) ∧
    ∀ (j : Json R) (event : StorageEvent R), storageEventFromJson j = some event →
      storageEventFromJson (storageEventToJson event) = some event := by
  constructor
  · intro event h
    exact storageEventFromJson_toJson h
  · intro j event h
    exact storageEventFromJson_toJson (payloadMatchesType_of_fromJson h)

end RoundTrip

section Sample

/-- A response with an alias status, a long currency, a zero byte and extra fields. -/
def aliasedResponse : Json ℚ :=
  .object
    [("note", .null), ("offset", .ofUInt64 7), ("ingest_ts_ns", .ofInt64 5),
      ("event_type", literal "order_response"),
      ("payload", .object
        [("client_order_id", .ofUInt64 41), ("exchange_order_id", .ofUInt64 9),
          ("status", literal "CANCELLED"), ("filled_quantity", .float (1 / 2)),
          ("remaining_quantity", .ofUInt64 1), ("avg_price", .ofUInt64 100), ("fee", .float 0),
          ("fee_currency", literal "LONG_CURRENCY"), ("exchange_timestamp_ns", .ofInt64 4),
          ("error_code", .ofInt64 0), ("error_message", .string [111, 107, 0, 33]),
          ("venue", literal "test")])]

theorem event_codec_round_trips_aliased :
    ∃ (event : StorageEvent ℚ) (response : OrderResponse ℚ),
      storageEventFromJson aliasedResponse = some event ∧
        event.payload = .orderResponse response ∧ response.status = .canceled ∧
        response.feeCurrency.bytes = text "LONG_CU" ∧
        response.errorMessage.bytes = text "ok" ∧
        storageEventFromJson (storageEventToJson event) = some event := by
  have hdecoded : storageEventFromJson aliasedResponse = some
      ⟨7, 5, .orderResponse, .orderResponse
        ⟨41, 9, .canceled, 1 / 2, 1, 100, 0, .copyString (text "LONG_CU"), 4, 0,
          .copyString (text "ok")⟩⟩ := by
    decide +kernel
  exact ⟨_, _, hdecoded, rfl, rfl, by decide +kernel, by decide +kernel,
    (event_codec_round_trips ℚ).2 _ _ hdecoded⟩

end Sample

end Storage
end CryptoHft
