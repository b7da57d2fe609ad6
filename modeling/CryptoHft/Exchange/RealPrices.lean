import CryptoHft.Exchange.LocalParsing

/-!
# The prices that messages bring in

`as_double` takes what it cannot read as zero, and `std::stod` reads infinities and
`nan`.  A trade is dropped if its price or its quantity is not above zero, so only the
special values pass; the prices of a quote are not checked at all.

`realField` are the fields that become finite numbers above zero, `specialField` those
that become an infinity or `nan`, and `FieldsReal` says which fields a message may have
for its events to be real.
-/

namespace CryptoHft
namespace Exchange

open Lib

/-- The event has finite prices, and a finite quantity, above zero. -/
def RealEvent : MarketEvent Binary64 → Prop
  | .trade tradeEvent => tradeEvent.price.isReal = true ∧ tradeEvent.quantity.isReal = true
  | .quote quoteUpdate => quoteUpdate.bidPrice.isReal = true ∧ quoteUpdate.askPrice.isReal = true

/-- A positive integer, or a real number, or the text of one. -/
def realField : Json Binary64 → Bool
  | .integer i => decide (0 < i.val)
  | .float x => x.isReal
  | .string s => ((Binary64.stod s).map Binary64.isReal).getD false
  | _ => false

/-- The value is an infinity or `nan`, or a text of one. -/
def specialField : Json Binary64 → Bool
  | .float x => x.value.isNone
  | .string s => ((Binary64.stod s).map (fun x => x.value.isNone)).getD false
  | _ => false

namespace CryptoComMarketDataClient

/-- The fields that the prices and quantities of a message are read from. -/
def FieldsReal (decoded : Json Binary64) : Prop :=
  match feedOf decoded with
  | .trades fallbackTicker items =>
      ∀ item ∈ tradedItems fallbackTicker items,
        (∀ p, item.find "p" = some p → specialField p = false) ∧
          ∀ q, item.find "q" = some q → specialField q = false
  | .book ticker result =>
      ∀ levels, bestLevels ticker result = some levels →
        realField levels.bidPrice = true ∧ realField levels.askPrice = true
  | _ => True

section Fields

theorem isReal_asDouble
    (value : Json Binary64) :
    (asDouble value).isReal = realField value := by
  have hzero : (0 : Binary64).isReal = false := by decide
  cases value with
  | null | bool | array | object =>
      exact hzero
  | float x =>
      rfl
  | integer i =>
      have habs : |i.val| ≤ 2 ^ 64 := by
        have hlower := i.lower
        have hupper := i.upper
        rw [abs_le]
        omega
      rw [realField, Bool.eq_iff_iff, decide_eq_true_iff]
      exact Binary64.isReal_ofInt_iff habs
  | string s =>
      show ((Binary64.stod s).getD 0).isReal = _
      rw [realField]
      cases Binary64.stod s with
      | none => exact hzero
      | some x => rfl

theorem isNone_value_asDouble
    (value : Json Binary64) :
    (asDouble value).value.isNone = specialField value := by
  cases value with
  | null | bool | array | object | float =>
      rfl
  | integer i =>
      have habs : |i.val| ≤ 2 ^ 64 := by
        have hlower := i.lower
        have hupper := i.upper
        rw [abs_le]
        omega
      obtain ⟨magnitude, heq, -⟩ := Binary64.ofInt_eq_finite habs
      show (Binary64.ofInt i.val).value.isNone = false
      rw [heq]
      rfl
  | string s =>
      show ((Binary64.stod s).getD 0).value.isNone = _
      rw [specialField]
      cases Binary64.stod s <;> rfl

/-- What passes the check is real, or special. -/
theorem isReal_iff_of_isNonPositive
    {x : Binary64}
    (h : x.isNonPositive = false) :
    x.isReal = true ↔ x.value.isNone = false := by
  rcases (Binary64.isNonPositive_eq_false_iff x).mp h with hpositive | ⟨negative, rfl⟩
  · rcases (Binary64.isPositive_iff x).mp hpositive with hreal | rfl
    · cases x with
      | finite negative magnitude => exact iff_of_true hreal rfl
      | nan | infinity => cases hreal
    · simp [Binary64.isReal, Binary64.value]
  · simp [Binary64.isReal, Binary64.value]

theorem isReal_elementNumber_iff
    {item : Json Binary64} {key : String}
    (h : (elementNumber item key).isNonPositive = false) :
    (elementNumber item key).isReal = true ↔
      ∀ value, item.find key = some value → specialField value = false := by
  rw [isReal_iff_of_isNonPositive h, elementNumber]
  cases hfind : item.find key with
  | none => simp; rfl
  | some value => simp [isNone_value_asDouble]

/-- A trade has the numbers of its element, and they have passed the checks. -/
theorem numbers_of_tradeOfItem
    {fallbackTicker : Bytes} {item : Json Binary64} {trade : TradeEvent Binary64}
    (h : tradeOfItem fallbackTicker item = .ok (some trade)) :
    trade.price = elementNumber item "p" ∧ trade.quantity = elementNumber item "q" ∧
      (elementNumber item "p").isNonPositive = false ∧
      (elementNumber item "q").isNonPositive = false := by
  by_cases hfields : item.isObject = true ∧ item.textOrAbsent "i" = true
  · rw [tradeOfItem_eq hfields.1 hfields.2] at h
    split_ifs at h with hpasses hside
    · cases h
      simp only [passesChecks, Bool.and_eq_true, Bool.not_eq_true'] at hpasses
      exact ⟨rfl, rfl, hpasses.1.2, hpasses.2⟩
    · cases h
  · rw [tradeOfItem_eq_error hfields] at h
    cases h

/-- The trades of a message are real exactly if no traded item has a special value. -/
theorem realEvent_emitTrades_iff
    (fallbackTicker : Bytes)
    (items : List (Json Binary64)) :
    (∀ event ∈ (emitTrades fallbackTicker items).events, RealEvent event) ↔
      ∀ item ∈ tradedItems fallbackTicker items,
        (∀ p, item.find "p" = some p → specialField p = false) ∧
          ∀ q, item.find "q" = some q → specialField q = false := by
  induction items with
  | nil =>
      simp [emitTrades, tradedItems]
  | cons item rest ih =>
      rw [emitTrades, tradedItems]
      cases hitem : tradeOfItem fallbackTicker item with
      | error e =>
          simp
      | ok result =>
          cases result with
          | none =>
              exact ih
          | some trade =>
              obtain ⟨hprice, hquantity, hp, hq⟩ := numbers_of_tradeOfItem hitem
              simp only [List.forall_mem_cons]
              rw [ih, RealEvent, hprice, hquantity, isReal_elementNumber_iff hp,
                isReal_elementNumber_iff hq]

theorem realEvent_emitFeed_iff
    (decoded : Json Binary64) :
    (∀ event ∈ (emitFeed (feedOf decoded)).events, RealEvent event) ↔ FieldsReal decoded := by
  rw [FieldsReal]
  cases feedOf decoded with
  | ignored | throws =>
      simp [emitFeed]
  | trades fallbackTicker items =>
      exact realEvent_emitTrades_iff fallbackTicker items
  | book ticker result =>
      simp only [emitFeed, quoteOfBook_eq]
      cases bestLevels ticker result with
      | none => simp
      | some levels => simp [RealEvent, isReal_asDouble]

/-- The events of a message are real exactly if its fields are. -/
theorem realEvent_processTextMessage_iff
    (parse : Bytes → Option (Json Binary64))
    (message : Bytes) :
    (∀ event ∈ (processTextMessage parse message).events, RealEvent event) ↔
      ∀ decoded, parse message = some decoded → FieldsReal decoded := by
  rw [processTextMessage]
  cases parse message with
  | none =>
      simp
  | some decoded =>
      simp only [processDecoded_eq, Option.some.injEq, forall_eq']
      exact realEvent_emitFeed_iff decoded

end Fields

end CryptoComMarketDataClient

end Exchange
end CryptoHft
