import CryptoHft.Exchange.MarketDataClient

/-!
# The times of events

`exchange_time_to_ns` takes milli-, micro- or nanoseconds, told apart by their
magnitude, to nanoseconds in a signed 64-bit number.  The multiplication never
leaves 64 bits, but its result may not fit in 63: `InRange` are the times whose
nanoseconds do.  The largest milliseconds are those of the year 2262; a text with a
minus sign, which `std::stoull` reads modulo `2 ^ 64`, is another way out of the
range, while a negative number is read as zero.

`eventTimes` are the times that a market data message gives its events, and
`updateTime` is the field from which an order response takes its time.
-/

namespace CryptoHft
namespace Exchange

open Lib

/-- The nanoseconds of an exchange time, as an exact integer. -/
def scaledTime (raw : Nat) : Nat :=
  if raw ≤ 10000000000000 then raw * 1000000
  else if raw ≤ 10000000000000000 then raw * 1000
  else raw

/-- The exchange times whose nanoseconds an `int64_t` holds. -/
def InRange (raw : Nat) : Prop :=
  raw ≤ 9223372036854 ∨
    (10000000000000 < raw ∧ raw ≤ 9223372036854775) ∨
    (10000000000000000 < raw ∧ raw < 2 ^ 63)

structure ExactTime (timestampNs : Int64) (raw : Nat) : Prop where
  nonneg : 0 ≤ timestampNs.toInt
  exact : timestampNs.toInt = scaledTime raw

section Conversion

/-- The cast to `int64_t` keeps the numbers below `2 ^ 63` and makes the others negative. -/
theorem toInt_toInt64
    (x : UInt64) :
    x.toInt64.toInt = if x.toNat < 2 ^ 63 then (x.toNat : Int) else x.toNat - 2 ^ 64 := by
  show x.toBitVec.toInt = _
  rw [BitVec.toInt_eq_toNat_cond, UInt64.toNat_toBitVec]
  split_ifs <;> omega

theorem exactTime_toInt64_iff
    {x : UInt64} {raw : Nat}
    (hx : x.toNat = scaledTime raw) :
    ExactTime x.toInt64 raw ↔ scaledTime raw < 2 ^ 63 := by
  have hlt := x.toNat_lt
  have hint := toInt_toInt64 x
  constructor
  · rintro ⟨hnonneg, -⟩
    by_contra hge
    rw [if_neg (by omega)] at hint
    omega
  · intro hfits
    rw [if_pos (by omega)] at hint
    exact ⟨by omega, by omega⟩

theorem scaledTime_lt_iff
    (raw : Nat) :
    scaledTime raw < 2 ^ 63 ↔ InRange raw := by
  rw [scaledTime, InRange]
  split_ifs <;> omega

theorem exactTime_iff
    (rawTime : UInt64) :
    ExactTime (exchangeTimeToNs rawTime) rawTime.toNat ↔ InRange rawTime.toNat := by
  rw [← scaledTime_lt_iff]
  have hlt := rawTime.toNat_lt
  rw [exchangeTimeToNs]
  split_ifs with hzero hnano hmicro
  · subst hzero
    exact iff_of_true ⟨by decide, by decide⟩ (by decide)
  · refine exactTime_toInt64_iff ?_
    have : 10000000000000000 < rawTime.toNat := hnano
    rw [scaledTime, if_neg (by omega), if_neg (by omega)]
  · refine exactTime_toInt64_iff ?_
    have hle : ¬ 10000000000000000 < rawTime.toNat := hnano
    have : 10000000000000 < rawTime.toNat := hmicro
    rw [scaledTime, if_neg (by omega), if_pos (by omega), UInt64.toNat_mul]
    exact Nat.mod_eq_of_lt (by simp; omega)
  · refine exactTime_toInt64_iff ?_
    have : ¬ 10000000000000 < rawTime.toNat := hmicro
    rw [scaledTime, if_pos (by omega), UInt64.toNat_mul]
    exact Nat.mod_eq_of_lt (by simp; omega)

end Conversion

section Fields

variable {R : Type}

/-- The 64-bit number that a time is read as. -/
def rawValue : Json R → Nat
  | .integer i => i.val.toNat
  | .string s =>
      match scanInteger s with
      | none => 0
      | some (negative, n) =>
          if 2 ^ 64 ≤ n then 0
          else if negative then (2 ^ 64 - n) % 2 ^ 64
          else n
  | _ => 0

/-- The number of a field that may be absent. -/
def rawField (field : Option (Json R)) : Nat :=
  (field.map rawValue).getD 0

theorem toNat_jsonToU64
    (value : Json R) :
    (jsonToU64 value).toNat = rawValue value := by
  cases value with
  | null | bool | float | array | object =>
      rfl
  | integer i =>
      have hupper := i.upper
      simp only [jsonToU64, rawValue]
      split_ifs
      · rw [UInt64.toNat_ofNat']
        omega
      · rw [UInt64.toNat_zero]
        omega
  | string s =>
      simp only [jsonToU64, stoull, rawValue]
      cases scanInteger s with
      | none =>
          rfl
      | some scanned =>
          obtain ⟨negative, n⟩ := scanned
          by_cases hlt : n < 2 ^ 64
          · simp only [if_pos hlt, if_neg (Nat.not_le.mpr hlt), Option.getD_some]
            have hn : (UInt64.ofNat n).toNat = n := by
              rw [UInt64.toNat_ofNat']
              exact Nat.mod_eq_of_lt hlt
            cases negative with
            | true =>
                rw [if_pos rfl, if_pos rfl, UInt64.toNat_neg, hn]
                rfl
            | false => rw [if_neg (by simp), if_neg (by simp), hn]
          · simp only [if_neg hlt, if_pos (Nat.not_lt.mp hlt)]
            rfl

/-- The time of an item: `tn`, or `t`. -/
def itemTimeField (item : Json R) : Option (Json R) :=
  (item.find "tn").or (item.find "t")

/-- The time of a book: `t`, or `tt`. -/
def bookTimeField (book : Json R) : Option (Json R) :=
  (book.find "t").or (book.find "tt")

variable [Double R]

/-- The field that a response takes its time from, if this is `update_time`. -/
def updateTime (response : Json R) : Option (Json R) :=
  match responseCode response, orderPayload response with
  | .ok code, some res =>
      if code ≠ 0 ∨ (res.find "transaction_time_ns").isSome ∨
          (res.find "update_time_ns").isSome then none
      else res.find "update_time"
  | _, _ => none

open CryptoComMarketDataClient

/-- The times that a message gives its events, in order. -/
def eventTimes : Feed R → List Nat
  | .trades fallbackTicker items =>
      (tradedItems fallbackTicker items).map (fun item => rawField (itemTimeField item))
  | .book ticker result =>
      (bestLevels ticker result).toList.map (fun levels => rawField (bookTimeField levels.book))
  | _ => []

def messageTimes (parse : Bytes → Option (Json R)) (message : Bytes) : List Nat :=
  match parse message with
  | none => []
  | some decoded => eventTimes (feedOf decoded)

end Fields

def MarketEvent.timestampNs {R : Type} : MarketEvent R → Int64
  | .trade tradeEvent => tradeEvent.timestampNs
  | .quote quoteUpdate => quoteUpdate.timestampNs

section Events

open CryptoComMarketDataClient

variable {R : Type} [Double R]

omit [Double R] in
theorem toNat_itemTime
    (item : Json R) :
    (itemTime item).toNat = rawField (itemTimeField item) := by
  rw [itemTime, itemTimeField, rawField]
  cases item.find "tn" with
  | some time => exact toNat_jsonToU64 time
  | none =>
      cases item.find "t" with
      | some time => exact toNat_jsonToU64 time
      | none => rfl

omit [Double R] in
theorem toNat_bookTime
    (book : Json R) :
    (bookTime book).toNat = rawField (bookTimeField book) := by
  rw [bookTime, bookTimeField, rawField]
  cases book.find "t" with
  | some time => exact toNat_jsonToU64 time
  | none =>
      cases book.find "tt" with
      | some time => exact toNat_jsonToU64 time
      | none => rfl

theorem timestampNs_tradeOfItem
    {fallbackTicker : Bytes} {item : Json R} {trade : TradeEvent R}
    (h : tradeOfItem fallbackTicker item = .ok (some trade)) :
    trade.timestampNs = exchangeTimeToNs (itemTime item) := by
  simp only [tradeOfItem, bind, Except.bind, pure, Except.pure] at h
  split at h
  · cases h
  · split at h
    · cases h
    · split at h
      · cases h
      · cases h
        rfl

/-- The trades of a message have the times of its traded items, each exact or not. -/
theorem exactTime_emitTrades_iff
    (fallbackTicker : Bytes)
    (items : List (Json R)) :
    List.Forall₂ ExactTime
        ((emitTrades fallbackTicker items).events.map MarketEvent.timestampNs)
        ((tradedItems fallbackTicker items).map (fun item => rawField (itemTimeField item))) ↔
      ∀ raw ∈ (tradedItems fallbackTicker items).map (fun item => rawField (itemTimeField item)),
        InRange raw := by
  induction items with
  | nil =>
      simp [emitTrades, tradedItems]
  | cons item rest ih =>
      rw [emitTrades, tradedItems]
      cases hitem : tradeOfItem fallbackTicker item with
      | error e =>
          simp
      | ok result =>
          cases result with
          | none =>
              exact ih
          | some trade =>
              simp only [List.map_cons, List.forall₂_cons, List.forall_mem_cons]
              rw [ih, MarketEvent.timestampNs, timestampNs_tradeOfItem hitem, ← toNat_itemTime,
                exactTime_iff]

theorem exactTime_emitFeed_iff
    (feed : Feed R) :
    List.Forall₂ ExactTime ((emitFeed feed).events.map MarketEvent.timestampNs)
        (eventTimes feed) ↔
      ∀ raw ∈ eventTimes feed, InRange raw := by
  cases feed with
  | ignored | throws =>
      simp [emitFeed, eventTimes]
  | trades fallbackTicker items =>
      exact exactTime_emitTrades_iff fallbackTicker items
  | book ticker result =>
      rw [emitFeed, quoteOfBook_eq, eventTimes]
      cases bestLevels ticker result with
      | none =>
          simp
      | some levels =>
          simp [MarketEvent.timestampNs, ← toNat_bookTime, exactTime_iff]

theorem exactTime_processTextMessage_iff
    (parse : Bytes → Option (Json R))
    (message : Bytes) :
    List.Forall₂ ExactTime
        ((processTextMessage parse message).events.map MarketEvent.timestampNs)
        (messageTimes parse message) ↔
      ∀ raw ∈ messageTimes parse message, InRange raw := by
  rw [processTextMessage, messageTimes]
  cases parse message with
  | none =>
      simp
  | some decoded =>
      simp only [processDecoded_eq]
      exact exactTime_emitFeed_iff (feedOf decoded)

/-- A response that takes its time from `update_time`. -/
theorem exchangeTimestampNs_eq
    {response time : Json R} {result : OrderResponse R}
    (h : parseOrderResponse response = .ok result)
    (htime : updateTime response = some time) :
    result.exchangeTimestampNs = exchangeTimeToNs (jsonToU64 time) := by
  rw [updateTime] at htime
  split at htime
  · rename_i code res hcode hpayload
    split_ifs at htime with hother
    simp only [not_or, not_not, Bool.not_eq_true, Option.isSome_eq_false_iff,
      Option.isNone_iff_eq_none] at hother
    obtain ⟨hzero, htransaction, hupdate⟩ := hother
    rcases parseOrderResponse_eq_ok h with
      ⟨code', hcode', hne, -⟩ | ⟨-, res', hpayload', hparse⟩ | ⟨-, hnone, -⟩
    · rw [hcode, Except.ok.injEq] at hcode'
      exact absurd (hcode'.symm.trans hzero) hne
    · rw [hpayload, Option.some.injEq] at hpayload'
      subst hpayload'
      rw [exchangeTimestampNs_parsePayload hparse]
      simp only [exchangeTimestampNs, htransaction, hupdate, htime]
    · rw [hpayload] at hnone
      cases hnone
  · cases htime

/--
The timestamps of the events of a message and of order responses are exact, and not
negative, exactly if the exchange times are in the range.
-/
theorem timestamps_exact_iff
    (parse : Bytes → Option (Json R)) :
    (∀ message, List.Forall₂ ExactTime
        ((processTextMessage parse message).events.map MarketEvent.timestampNs)
        (messageTimes parse message) ↔
      ∀ raw ∈ messageTimes parse message, InRange raw) ∧
      ∀ response result time, parseOrderResponse response = .ok result →
        updateTime (R := R) response = some time →
          (ExactTime result.exchangeTimestampNs (rawValue time) ↔ InRange (rawValue time)) := by
  refine ⟨exactTime_processTextMessage_iff parse, ?_⟩
  intro response result time hparse htime
  rw [exchangeTimestampNs_eq hparse htime, ← toNat_jsonToU64, exactTime_iff]

end Events

section Signed

open CryptoComMarketDataClient

/-- A message with one trade, at the given time. -/
def timedMessage (time : String) : Json ℚ :=
  .object
    [("result", .object
      [("channel", .string (text "trade")),
        ("data", .array
          [.object
            [("i", .string (text "BTC_USDT")),
              ("p", .string (text "100")),
              ("q", .string (text "1")),
              ("t", .string (text time))]])])]

/-- Its text. -/
def timedMessageText (time : String) : Bytes :=
  text "\x7b\"result\":\x7b\"channel\":\"trade\",\"data\":[\x7b\"i\":\"BTC_USDT\"," ++
    text "\"p\":\"100\",\"q\":\"1\",\"t\":\"" ++ text time ++ text "\"\x7d]\x7d\x7d"

/-- A parser that knows one such message. -/
def parseTimedMessage (time : String) (message : Bytes) : Option (Json ℚ) :=
  if message = timedMessageText time then some (timedMessage time) else none

/-- An order response with an update time. -/
def timedResponse (time : String) : Json ℚ :=
  .object [("result", .object [("update_time", .string (text time))])]

theorem timestamps_exact_in_milliseconds :
    (processTextMessage (parseTimedMessage "1700000000000")
        (timedMessageText "1700000000000")).events.map MarketEvent.timestampNs =
          [1700000000000000000] ∧
      List.Forall₂ ExactTime
        ((processTextMessage (parseTimedMessage "1700000000000")
          (timedMessageText "1700000000000")).events.map MarketEvent.timestampNs)
        (messageTimes (parseTimedMessage "1700000000000") (timedMessageText "1700000000000")) ∧
      ∃ result, parseOrderResponse (timedResponse "1700000000000") = .ok result ∧
        ExactTime result.exchangeTimestampNs 1700000000000 := by
  obtain ⟨hmessage, hresponse⟩ := timestamps_exact_iff (parseTimedMessage "1700000000000")
  have hraw : messageTimes (parseTimedMessage "1700000000000")
      (timedMessageText "1700000000000") = [1700000000000] := by
    decide +kernel
  refine ⟨by decide +kernel, (hmessage _).mpr ?_, ?_⟩
  · rw [hraw]
    intro raw hmem
    rw [List.mem_singleton.mp hmem, InRange]
    omega
  · cases hparse : parseOrderResponse (timedResponse "1700000000000") with
    | error e =>
        cases hparse
    | ok result =>
        refine ⟨result, rfl, (hresponse _ result (.string (text "1700000000000")) hparse rfl).mpr ?_⟩
        have hvalue : rawValue (.string (text "1700000000000") : Json ℚ) = 1700000000000 := by
          decide +kernel
        rw [hvalue, InRange]
        omega

/-- A time of `-1` comes out negative, in events and in responses. -/
theorem negative_text_time_wraps :
    (processTextMessage (parseTimedMessage "-1") (timedMessageText "-1")).events.map
        MarketEvent.timestampNs = [-1] ∧
      (∃ result, parseOrderResponse (timedResponse "-1") = .ok result ∧
        result.exchangeTimestampNs = -1) ∧
      ¬ List.Forall₂ ExactTime
        ((processTextMessage (parseTimedMessage "-1") (timedMessageText "-1")).events.map
          MarketEvent.timestampNs)
        (messageTimes (parseTimedMessage "-1") (timedMessageText "-1")) := by
  have htimes : (processTextMessage (parseTimedMessage "-1") (timedMessageText "-1")).events.map
      MarketEvent.timestampNs = [-1] := by
    decide +kernel
  have hraw : messageTimes (parseTimedMessage "-1") (timedMessageText "-1") =
      [18446744073709551615] := by
    decide +kernel
  refine ⟨htimes, ⟨_, rfl, by decide +kernel⟩, ?_⟩
  rw [htimes, hraw]
  intro h
  cases h with
  | cons hexact _ => exact absurd hexact.nonneg (by decide)

end Signed

end Exchange
end CryptoHft
