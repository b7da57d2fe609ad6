import CryptoHft.Exchange.MarketDataClient
import CryptoHft.Lib.Binary64

/-!
# What a bad field does to a market data message

A trade message should give one event for each of its well-formed elements,
whatever the other elements are, and no message should throw.  `wellFormed` and
`eventOf` say which elements these are, and what event each is.

Numbers are read by `as_u64` and `as_double`, which take a value of another type as
zero.  Texts are read by `value(key, default)`, which throws on it: for `channel` and
`instrument_name`, and for the `i` of an element and, if the element passes the
checks, its `s`.  The trades of the elements before are out by then, and those of the
elements after are lost.  The checks are also passed by a price or a quantity that is
not a number.  `FieldsOk` excludes just these.
-/

namespace CryptoHft
namespace Exchange

open Lib

namespace CryptoComMarketDataClient

/-- The number of an element; zero if it is not there. -/
def elementNumber (item : Json Binary64) (key : String) : Binary64 :=
  ((item.find key).map asDouble).getD 0

section Elements

variable (fallbackTicker : Bytes) (item : Json Binary64)

/-- The instrument of an element: its `i`, or else that of the message. -/
def elementInstrument : Bytes :=
  match item.find "i" with
  | some (.string s) => s
  | some _ => []
  | none => fallbackTicker

/-- An object with an instrument and a positive price and quantity. -/
def wellFormed : Bool :=
  item.isObject && !(elementInstrument fallbackTicker item).isEmpty &&
    (elementNumber item "p").isPositive && (elementNumber item "q").isPositive

/-- The event of an element. -/
def eventOf : TradeEvent Binary64 where
  ticker := .copyString (elementInstrument fallbackTicker item)
  price := elementNumber item "p"
  quantity := elementNumber item "q"
  isBuyerMaker :=
    match item.find "s" with
    | some (.string s) => decide (s = text "SELL")
    | _ => false
  timestampNs := exchangeTimeToNs (itemTime item)
  tradeId := ((item.find "d").map asU64).getD 0

/-- The checks of `handle_trade_result`. -/
def passesChecks : Bool :=
  !(elementInstrument fallbackTicker item).isEmpty &&
    !(elementNumber item "p").isNonPositive && !(elementNumber item "q").isNonPositive

def isNan : Binary64 → Bool
  | .nan _ => true
  | _ => false

/-- The element is handled as it should be. -/
structure ElementOk : Prop where
  object : item.isObject = true
  instrument : item.textOrAbsent "i" = true
  side : passesChecks fallbackTicker item = true → item.textOrAbsent "s" = true
  numbers : passesChecks fallbackTicker item = true →
    isNan (elementNumber item "p") = false ∧ isNan (elementNumber item "q") = false

end Elements

/-- The `result` of a message that is an object, with the text of its `channel`. -/
def resultOf (decoded : Json Binary64) (channel : String) : Option (Json Binary64) :=
  (resultObject decoded).filter (fun result =>
    match result.find "channel" with
    | some (.string s) => decide (s = text channel)
    | _ => false)

/-- The instrument of a message. -/
def messageInstrument (result : Json Binary64) : Bytes :=
  match result.find "instrument_name" with
  | some (.string s) => s
  | _ => []

/-- The elements of `result.data`. -/
def elements (result : Json Binary64) : List (Json Binary64) :=
  (dataItems result).getD []

/-- No field of a message makes it throw, or gives an event for a value that is not a number. -/
structure FieldsOk (decoded : Json Binary64) : Prop where
  channel : ∀ result, resultObject decoded = some result → result.textOrAbsent "channel" = true
  tradeInstrument : ∀ result, resultOf decoded "trade" = some result →
    result.textOrAbsent "instrument_name" = true
  bookInstrument : ∀ result, resultOf decoded "book" = some result →
    result.textOrAbsent "instrument_name" = true
  elements : ∀ result, resultOf decoded "trade" = some result →
    ∀ item ∈ elements result, ElementOk (messageInstrument result) item

/-- A message is handled without an exception, and each well-formed element gives its event. -/
structure ParsesLocally (parse : Bytes → Option (Json Binary64)) (message : Bytes) : Prop where
  returns : (processTextMessage parse message).thrown = none
  trades : ∀ decoded result, parse message = some decoded →
    resultOf decoded "trade" = some result →
      (processTextMessage parse message).events =
        ((elements result).filter (wellFormed (messageInstrument result))).map (fun item =>
          .trade (eventOf (messageInstrument result) item))

section Element

variable {fallbackTicker : Bytes} {item : Json Binary64}

theorem passesChecks_iff_wellFormed
    (hobject : item.isObject = true) :
    wellFormed fallbackTicker item = true ↔ passesChecks fallbackTicker item = true ∧
      isNan (elementNumber item "p") = false ∧ isNan (elementNumber item "q") = false := by
  have hnumber : ∀ x : Binary64, x.isPositive = true ↔
      x.isNonPositive = false ∧ isNan x = false := by
    intro x
    rw [Binary64.isNonPositive_eq_false_iff]
    cases x <;> simp [isNan, Binary64.isPositive]
  simp only [wellFormed, passesChecks, hobject, Bool.true_and, Bool.and_eq_true, hnumber,
    Bool.not_eq_true']
  tauto

theorem wellFormed_passesChecks
    (h : wellFormed fallbackTicker item = true) :
    passesChecks fallbackTicker item = true := by
  have hobject : item.isObject = true := by
    simp only [wellFormed, Bool.and_eq_true] at h
    exact h.1.1.1
  exact ((passesChecks_iff_wellFormed hobject).mp h).1

theorem valueString_instrument
    (hobject : item.isObject = true)
    (hinstrument : item.textOrAbsent "i" = true) :
    item.valueString "i" fallbackTicker = .ok (elementInstrument fallbackTicker item) := by
  rw [Json.valueString_of_textOrAbsent hobject hinstrument, elementInstrument]
  rw [Json.textOrAbsent] at hinstrument
  cases hfind : item.find "i" with
  | none =>
      rfl
  | some value =>
      rw [hfind] at hinstrument
      cases value with
      | string s => rfl
      | null | bool | integer | float | array | object => cases hinstrument

theorem valueString_side
    (fallbackTicker : Bytes)
    (hobject : item.isObject = true)
    (hside : item.textOrAbsent "s" = true) :
    ∃ side, item.valueString "s" [] = .ok side ∧
      decide (side = text "SELL") = (eventOf fallbackTicker item).isBuyerMaker := by
  refine ⟨_, Json.valueString_of_textOrAbsent hobject hside [], ?_⟩
  rw [Json.textOrAbsent] at hside
  simp only [eventOf]
  cases hfind : item.find "s" with
  | none =>
      decide +kernel
  | some value =>
      rw [hfind] at hside
      cases value with
      | string s => rfl
      | null | bool | integer | float | array | object => cases hside

/-- One turn of the loop, by the fields of the element. -/
theorem tradeOfItem_eq
    (hobject : item.isObject = true)
    (hinstrument : item.textOrAbsent "i" = true) :
    tradeOfItem fallbackTicker item =
      if passesChecks fallbackTicker item = true then
        if item.textOrAbsent "s" = true then .ok (some (eventOf fallbackTicker item))
        else .error .typeError
      else .ok none := by
  have hchecks : passesChecks fallbackTicker item = true ↔
      ¬ ((elementInstrument fallbackTicker item).isEmpty = true ∨
        Double.isNonPositive (elementNumber item "p") = true ∨
        Double.isNonPositive (elementNumber item "q") = true) := by
    rw [passesChecks]
    simp only [Bool.and_eq_true, Bool.not_eq_true', not_or, Bool.not_eq_true, and_assoc]
    rfl
  rw [elementNumber, elementNumber] at hchecks
  simp only [tradeOfItem, valueString_instrument hobject hinstrument, bind, Except.bind, pure,
    Except.pure]
  by_cases hpasses : passesChecks fallbackTicker item = true
  · rw [if_pos hpasses, if_neg (hchecks.mp hpasses)]
    by_cases hside : item.textOrAbsent "s" = true
    · obtain ⟨side, hvalue, hbuyer⟩ := valueString_side fallbackTicker hobject hside
      rw [if_pos hside]
      simp only [hvalue, hbuyer]
      rfl
    · rw [if_neg hside, Json.valueString_eq_error (fun h => hside h.2)]
  · rw [if_neg hpasses, if_pos (not_not.mp (fun h => hpasses (hchecks.mpr h)))]

theorem tradeOfItem_eq_error
    (h : ¬ (item.isObject = true ∧ item.textOrAbsent "i" = true)) :
    tradeOfItem fallbackTicker item = .error .typeError := by
  simp only [tradeOfItem, Json.valueString_eq_error h, bind, Except.bind]

end Element

section Elements

variable {fallbackTicker : Bytes}

/-- The element does not throw. -/
def Returns (fallbackTicker : Bytes) (item : Json Binary64) : Prop :=
  item.isObject = true ∧ item.textOrAbsent "i" = true ∧
    (passesChecks fallbackTicker item = true → item.textOrAbsent "s" = true)

/-- The loop ends without an exception exactly if no element throws. -/
theorem thrown_emitTrades_iff
    (items : List (Json Binary64)) :
    (emitTrades fallbackTicker items).thrown = none ↔
      ∀ item ∈ items, Returns fallbackTicker item := by
  induction items with
  | nil =>
      simp [emitTrades]
  | cons item rest ih =>
      rw [emitTrades, List.forall_mem_cons, ← ih, Returns]
      by_cases hfields : item.isObject = true ∧ item.textOrAbsent "i" = true
      · rw [tradeOfItem_eq hfields.1 hfields.2]
        split_ifs with hpasses hside <;> simp [*]
      · rw [tradeOfItem_eq_error hfields]
        simp only [reduceCtorEq, false_iff]
        tauto

/-- It emits the events of the elements that pass the checks. -/
theorem events_emitTrades
    {items : List (Json Binary64)}
    (h : ∀ item ∈ items, Returns fallbackTicker item) :
    (emitTrades fallbackTicker items).events =
      (items.filter (passesChecks fallbackTicker)).map (fun item =>
        .trade (eventOf fallbackTicker item)) := by
  induction items with
  | nil =>
      rfl
  | cons item rest ih =>
      rw [List.forall_mem_cons] at h
      obtain ⟨⟨hobject, hinstrument, hside⟩, hrest⟩ := h
      rw [emitTrades, tradeOfItem_eq hobject hinstrument, List.filter_cons]
      by_cases hpasses : passesChecks fallbackTicker item = true
      · rw [if_pos hpasses, if_pos hpasses, if_pos (hside hpasses)]
        simp [ih hrest]
      · rw [if_neg hpasses, if_neg hpasses]
        exact ih hrest

/-- As many events as there are well-formed elements, if only these pass the checks. -/
theorem passesChecks_wellFormed_of_events
    {items : List (Json Binary64)}
    (h : (items.filter (passesChecks fallbackTicker)).length =
      (items.filter (wellFormed fallbackTicker)).length) :
    ∀ item ∈ items, passesChecks fallbackTicker item = true →
      wellFormed fallbackTicker item = true := by
  have hsublist : List.Sublist (items.filter (wellFormed fallbackTicker))
      (items.filter (passesChecks fallbackTicker)) :=
    List.monotone_filter_right items (fun item hitem => wellFormed_passesChecks hitem)
  have heq := hsublist.eq_of_length h.symm
  intro item hmem hpasses
  have hin : item ∈ items.filter (wellFormed fallbackTicker) := by
    rw [heq]
    exact List.mem_filter.mpr ⟨hmem, hpasses⟩
  exact (List.mem_filter.mp hin).2

theorem emitTrades_iff
    (items : List (Json Binary64)) :
    ((emitTrades fallbackTicker items).thrown = none ∧
        (emitTrades fallbackTicker items).events =
          (items.filter (wellFormed fallbackTicker)).map (fun item =>
            .trade (eventOf fallbackTicker item))) ↔
      ∀ item ∈ items, ElementOk fallbackTicker item := by
  rw [thrown_emitTrades_iff]
  constructor
  · rintro ⟨hreturns, hevents⟩ item hmem
    obtain ⟨hobject, hinstrument, hside⟩ := hreturns item hmem
    refine ⟨hobject, hinstrument, hside, ?_⟩
    intro hpasses
    rw [events_emitTrades hreturns] at hevents
    have hlength := congrArg List.length hevents
    rw [List.length_map, List.length_map] at hlength
    have hwell := passesChecks_wellFormed_of_events hlength item hmem hpasses
    exact ((passesChecks_iff_wellFormed hobject).mp hwell).2
  · intro h
    have hreturns : ∀ item ∈ items, Returns fallbackTicker item :=
      fun item hmem => ⟨(h item hmem).object, (h item hmem).instrument, (h item hmem).side⟩
    refine ⟨hreturns, ?_⟩
    rw [events_emitTrades hreturns, List.filter_congr]
    intro item hmem
    have hok := h item hmem
    rw [Bool.eq_iff_iff, passesChecks_iff_wellFormed hok.object]
    exact ⟨fun hpasses => ⟨hpasses, hok.numbers hpasses⟩, fun hwell => hwell.1⟩

end Elements

section Messages

variable {decoded result : Json Binary64} {channel : Bytes}

theorem isObject_resultObject
    (h : resultObject decoded = some result) :
    result.isObject = true := by
  rw [resultObject] at h
  split at h
  · cases h
    rfl
  · cases h

theorem resultObject_of_resultOf
    {name : String}
    (h : resultOf decoded name = some result) :
    resultObject decoded = some result :=
  (Option.filter_eq_some_iff.mp h).1

/-- The channel that is read, against the channel that the message has. -/
theorem resultOf_iff
    (hresult : resultObject decoded = some result)
    (hchannel : result.valueString "channel" [] = .ok channel)
    (name : String)
    (hname : text name ≠ []) :
    resultOf decoded name = some result ↔ channel = text name := by
  rw [resultOf, hresult, Option.filter_eq_some_iff]
  simp only [true_and]
  cases result with
  | object fields =>
      simp only [Json.valueString, Json.find] at hchannel ⊢
      cases hlookup : fields.lookup "channel" with
      | none =>
          rw [hlookup, Except.ok.injEq] at hchannel
          simp [← hchannel, hname.symm]
      | some value =>
          rw [hlookup] at hchannel
          rw [Json.getString_eq_ok hchannel]
          simp
  | null | bool | integer | float | string | array =>
      cases hchannel

theorem valueString_messageInstrument
    (hobject : result.isObject = true)
    (htext : result.textOrAbsent "instrument_name" = true) :
    result.valueString "instrument_name" [] = .ok (messageInstrument result) := by
  rw [Json.valueString_of_textOrAbsent hobject htext, messageInstrument]
  cases result.find "instrument_name" with
  | none => rfl
  | some value => cases value <;> rfl

/-- The condition on the fields, for a message whose channel is read. -/
theorem fieldsOk_iff
    (hresult : resultObject decoded = some result)
    (hchannel : result.valueString "channel" [] = .ok channel) :
    FieldsOk decoded ↔
      (channel = text "trade" → result.textOrAbsent "instrument_name" = true ∧
        ∀ item ∈ elements result, ElementOk (messageInstrument result) item) ∧
      (channel = text "book" → result.textOrAbsent "instrument_name" = true) := by
  have htrade := resultOf_iff hresult hchannel "trade" (by decide +kernel)
  have hbook := resultOf_iff hresult hchannel "book" (by decide +kernel)
  have hsame : ∀ {name r}, resultOf decoded name = some r → r = result := by
    intro name r hr
    rw [resultObject_of_resultOf hr, Option.some.injEq] at hresult
    exact hresult
  constructor
  · intro h
    refine ⟨fun heq => ?_, fun heq => h.bookInstrument result (hbook.mpr heq)⟩
    exact ⟨h.tradeInstrument result (htrade.mpr heq), h.elements result (htrade.mpr heq)⟩
  · rintro ⟨htrades, hbooks⟩
    refine ⟨?_, ?_, ?_, ?_⟩
    · intro r hr
      rw [hresult, Option.some.injEq] at hr
      subst hr
      by_contra hnot
      rw [Json.valueString_eq_error (fun h => hnot h.2)] at hchannel
      cases hchannel
    · intro r hr
      obtain rfl := hsame hr
      exact (htrades (htrade.mp hr)).1
    · intro r hr
      obtain rfl := hsame hr
      exact hbooks (hbook.mp hr)
    · intro r hr
      obtain rfl := hsame hr
      exact (htrades (htrade.mp hr)).2

theorem handleTradeResult_iff
    (hobject : result.isObject = true) :
    ((handleTradeResult result).thrown = none ∧
        (handleTradeResult result).events =
          ((elements result).filter (wellFormed (messageInstrument result))).map (fun item =>
            .trade (eventOf (messageInstrument result) item))) ↔
      result.textOrAbsent "instrument_name" = true ∧
        ∀ item ∈ elements result, ElementOk (messageInstrument result) item := by
  by_cases htext : result.textOrAbsent "instrument_name" = true
  · rw [handleTradeResult, valueString_messageInstrument hobject htext, elements]
    cases dataItems result with
    | none => simp [htext]
    | some items => simp [htext, emitTrades_iff]
  · rw [handleTradeResult, Json.valueString_eq_error (fun h => htext h.2)]
    simp [htext]

theorem handleBookResult_iff
    (hobject : result.isObject = true) :
    (handleBookResult result).thrown = none ↔ result.textOrAbsent "instrument_name" = true := by
  by_cases htext : result.textOrAbsent "instrument_name" = true
  · rw [handleBookResult, valueString_messageInstrument hobject htext]
    simp [htext]
  · rw [handleBookResult, Json.valueString_eq_error (fun h => htext h.2)]
    simp [htext]

/-- A message is handled as it should be exactly if its fields are as expected. -/
theorem processDecoded_iff
    (decoded : Json Binary64) :
    ((processDecoded decoded).thrown = none ∧
        ∀ result, resultOf decoded "trade" = some result →
          (processDecoded decoded).events =
            ((elements result).filter (wellFormed (messageInstrument result))).map (fun item =>
              .trade (eventOf (messageInstrument result) item))) ↔
      FieldsOk decoded := by
  cases hresult : resultObject decoded with
  | none =>
      have hnone : ∀ name result, resultOf decoded name ≠ some result := by
        intro name result h
        rw [resultObject_of_resultOf h] at hresult
        cases hresult
      refine iff_of_true ⟨?_, fun result h => absurd h (hnone _ _)⟩ ⟨?_, ?_, ?_, ?_⟩
      · rw [processDecoded, hresult]
      · intro result h
        rw [hresult] at h
        cases h
      · exact fun result h => absurd h (hnone _ _)
      · exact fun result h => absurd h (hnone _ _)
      · exact fun result h => absurd h (hnone _ _)
  | some result =>
      have hobject := isObject_resultObject hresult
      cases hchannel : result.valueString "channel" [] with
      | error e =>
          have hthrown : (processDecoded decoded).thrown = some e := by
            simp only [processDecoded, hresult, hchannel]
          refine iff_of_false (fun h => ?_) (fun h => ?_)
          · rw [hthrown] at h
            cases h.1
          · rw [Json.valueString_of_textOrAbsent hobject (h.channel result hresult)] at hchannel
            cases hchannel
      | ok channel =>
          rw [fieldsOk_iff hresult hchannel]
          have htrade := resultOf_iff hresult hchannel "trade" (by decide +kernel)
          have hprocess : processDecoded decoded =
              if channel = text "trade" then handleTradeResult result
              else if channel = text "book" then handleBookResult result
              else ⟨[], none⟩ := by
            simp only [processDecoded, hresult, hchannel]
          by_cases hkind : channel = text "trade"
          · have hbook : channel ≠ text "book" := by
              rw [hkind]
              decide +kernel
            have honly : ∀ r, resultOf decoded "trade" = some r ↔ r = result := by
              intro r
              rw [htrade.mpr hkind, Option.some.injEq, eq_comm]
            rw [hprocess, if_pos hkind]
            simp only [honly, forall_eq, hkind, true_implies, handleTradeResult_iff hobject]
            rw [← hkind]
            simp only [hbook, false_implies, and_true]
          · have hnone : ∀ r, resultOf decoded "trade" ≠ some r := by
              intro r hr
              have hsame := (resultObject_of_resultOf hr).symm.trans hresult
              rw [Option.some.injEq] at hsame
              subst hsame
              exact hkind (htrade.mp hr)
            rw [hprocess, if_neg hkind]
            simp only [hnone, false_implies, implies_true, and_true, hkind, true_and]
            split_ifs with hbook
            · rw [handleBookResult_iff hobject]
              simp [hbook]
            · simp [hbook]

/--
A message is handled without an exception, and each well-formed element of a trade
message gives its event, exactly if the fields of the message are as expected.
-/
theorem parses_locally_iff
    (parse : Bytes → Option (Json Binary64))
    (message : Bytes) :
    ParsesLocally parse message ↔ ∀ decoded, parse message = some decoded → FieldsOk decoded := by
  cases hparse : parse message with
  | none =>
      refine iff_of_true ⟨?_, ?_⟩ (fun decoded h => by cases h)
      · rw [processTextMessage, hparse]
      · intro decoded result h
        rw [hparse] at h
        cases h
  | some decoded =>
      have hprocess : processTextMessage parse message = processDecoded decoded := by
        rw [processTextMessage, hparse]
      simp only [Option.some.injEq, forall_eq']
      rw [← processDecoded_iff]
      constructor
      · intro h
        exact ⟨hprocess ▸ h.returns, fun result hr => hprocess ▸ h.trades decoded result hparse hr⟩
      · rintro ⟨hreturns, htrades⟩
        refine ⟨hprocess ▸ hreturns, ?_⟩
        intro decoded' result hparse' hr
        rw [hparse, Option.some.injEq] at hparse'
        subst hparse'
        rw [hprocess]
        exact htrades result hr

end Messages

section NumberAsInstrument

/-- An element with an instrument, a price and a quantity. -/
def pricedElement (instrument : Json Binary64) : Json Binary64 :=
  .object
    [("i", instrument),
      ("p", .ofUInt64 100),
      ("q", .ofUInt64 1)]

/-- A trade message whose first element has a number as its instrument. -/
def numberAsInstrument : Json Binary64 :=
  .object
    [("result", .object
      [("channel", .string (text "trade")),
        ("data", .array
          [pricedElement (.ofUInt64 7),
            pricedElement (.string (text "BTC_USDT"))])])]

/-- Its text. -/
def numberAsInstrumentText : Bytes :=
  text "\x7b\"result\":\x7b\"channel\":\"trade\",\"data\":[" ++
    text "\x7b\"i\":7,\"p\":100,\"q\":1\x7d," ++
    text "\x7b\"i\":\"BTC_USDT\",\"p\":100,\"q\":1\x7d]\x7d\x7d"

/-- A parser that knows this message. -/
def parseNumberAsInstrument (message : Bytes) : Option (Json Binary64) :=
  if message = numberAsInstrumentText then some numberAsInstrument else none

theorem wellFormed_pricedElement :
    wellFormed [] (pricedElement (.string (text "BTC_USDT"))) = true := by
  have hprice : (Binary64.ofInt 100).isPositive = true :=
    (Binary64.isPositive_iff _).mpr (.inl ((Binary64.isReal_ofInt_iff (by norm_num)).mpr (by norm_num)))
  have hquantity : (Binary64.ofInt 1).isPositive = true :=
    (Binary64.isPositive_iff _).mpr (.inl ((Binary64.isReal_ofInt_iff (by norm_num)).mpr (by norm_num)))
  have hp : elementNumber (pricedElement (.string (text "BTC_USDT"))) "p" = Binary64.ofInt 100 := rfl
  have hq : elementNumber (pricedElement (.string (text "BTC_USDT"))) "q" = Binary64.ofInt 1 := rfl
  have hinstrument :
      elementInstrument [] (pricedElement (.string (text "BTC_USDT"))) = text "BTC_USDT" := rfl
  rw [wellFormed, hp, hq, hinstrument, hprice, hquantity]
  decide +kernel

/-- The first element throws, and the well-formed one after it is lost. -/
theorem number_as_instrument_throws :
    processTextMessage parseNumberAsInstrument numberAsInstrumentText = ⟨[], some .typeError⟩ ∧
      wellFormed [] (pricedElement (.string (text "BTC_USDT"))) = true ∧
      ¬ ParsesLocally parseNumberAsInstrument numberAsInstrumentText := by
  have hthrows : processTextMessage parseNumberAsInstrument numberAsInstrumentText =
      ⟨[], some .typeError⟩ := by
    have hparse : parseNumberAsInstrument numberAsInstrumentText = some numberAsInstrument :=
      if_pos rfl
    rw [processTextMessage, hparse]
    rfl
  refine ⟨hthrows, wellFormed_pricedElement, ?_⟩
  intro h
  have hreturns := h.returns
  rw [hthrows] at hreturns
  cases hreturns

end NumberAsInstrument

end CryptoComMarketDataClient

end Exchange
end CryptoHft
