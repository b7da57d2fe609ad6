import CryptoHft.Exchange.MarketDataClient
import CryptoHft.Lib.JsonMembers
import CryptoHft.Lib.Utf8
import CryptoHft.Storage.EventCodec

/-!
# Texts on their way from the exchange to the storage

The JSON library accepts valid UTF-8 only when it parses, and throws in `dump` when
a string is not valid UTF-8; in `write_batch` this ends the flusher thread.  Between
the two, texts are copied into buffers of 8, 16 and 128 bytes, byte by byte.

The copy into a ticker is terminated, and may end within a character.  The copies into the two
texts of an order response are not terminated when the text is too long: `to_string` then reads
on behind them, at a byte that nobody has written.

`parsed_text_persists_iff`: everything made of a message can be persisted exactly if
no ticker is cut within a character and the texts of the response leave room for a
terminator.
-/

namespace CryptoHft
namespace Exchange

open Lib Storage

section Codec

variable {R : Type}

/-- The texts in a payload. -/
def payloadTexts : StoragePayload R → List Bytes
  | .trade trade => [trade.ticker.bytes]
  | .orderResponse response => [response.feeCurrency.bytes, response.errorMessage.bytes]
  | .tradeEvent tradeEvent => [tradeEvent.ticker.bytes]
  | .quoteUpdate quote => [quote.ticker.bytes]

/-- Apart from these texts the JSON of a payload has literals only. -/
theorem validUtf8_payloadToJson
    (payload : StoragePayload R) :
    (payloadToJson payload).ValidUtf8 ↔ ∀ s ∈ payloadTexts payload, ValidUtf8 s := by
  cases payload with
  | trade | orderResponse | tradeEvent | quoteUpdate =>
      simp [payloadToJson, tradeToJson, responseToJson, tradeEventToJson, quoteToJson, payloadTexts,
        Json.ValidUtf8, Json.strings, Json.fieldStrings, literal, validUtf8_text, Json.ofUInt64,
        Json.ofInt64]

theorem eventTicker_mem
    {event : StorageEvent R} {ticker : Bytes}
    (h : eventTicker event = some ticker) :
    ticker ∈ payloadTexts event.payload := by
  simp only [eventTicker] at h
  split at h
  · rename_i heq
    simp_all [payloadTexts]
  · rename_i heq
    simp_all [payloadTexts]
  · rename_i heq
    simp_all [payloadTexts]
  · cases h

/-- `dump` takes the JSON of an event exactly if the texts of its payload are valid. -/
theorem validUtf8_storageEventToJson
    (event : StorageEvent R) :
    (storageEventToJson event).ValidUtf8 ↔ ∀ s ∈ payloadTexts event.payload, ValidUtf8 s := by
  rw [← validUtf8_payloadToJson]
  cases hticker : eventTicker event with
  | none =>
      simp [storageEventToJson, hticker, Json.ValidUtf8, Json.strings, Json.fieldStrings, literal,
        validUtf8_text, Json.ofUInt64, Json.ofInt64]
  | some ticker =>
      have hvalid : (payloadToJson event.payload).ValidUtf8 → ValidUtf8 ticker := fun h =>
        (validUtf8_payloadToJson event.payload).mp h ticker (eventTicker_mem hticker)
      simp only [Json.ValidUtf8] at hvalid
      simpa [storageEventToJson, hticker, Json.ValidUtf8, Json.strings, Json.fieldStrings, literal,
        validUtf8_text, Json.ofUInt64, Json.ofInt64, or_imp, forall_and] using hvalid

/--
`storage_event_to_json` of a stored response, with what `to_string` reads of its two buffers.
-/
def readResponseToJson (event : StorageEvent R) (response : OrderResponse R)
    (feeCurrency errorMessage : Bytes) : Json R :=
  (storageEventToJson event).setField "payload"
    (((responseToJson response).setField "fee_currency" (.string feeCurrency)).setField
      "error_message" (.string errorMessage))

/-- Terminated buffers are read as the event has them. -/
theorem readResponseToJson_bytes
    {event : StorageEvent R} {response : OrderResponse R}
    (h : event.payload = .orderResponse response) :
    readResponseToJson event response response.feeCurrency.bytes response.errorMessage.bytes =
      storageEventToJson event := by
  have hticker : eventTicker event = none := by
    rw [eventTicker, h]
    cases event.type <;> rfl
  simp [readResponseToJson, storageEventToJson, responseToJson, payloadToJson, h, hticker,
    Json.setField]

end Codec

section Texts

variable {R : Type} [Double R]

open CryptoComMarketDataClient

/-- The instruments of the trades of a trade message. -/
def tradeTexts (result : Json R) : List Bytes :=
  match result.valueString "instrument_name" [] with
  | .error _ => []
  | .ok fallbackTicker =>
      match dataItems result with
      | some items => (tradedItems fallbackTicker items).map (instrument fallbackTicker)
      | none => []

/-- The instrument of a book message, if it becomes a quote. -/
def bookTexts (result : Json R) : List Bytes :=
  match result.valueString "instrument_name" [] with
  | .error _ => []
  | .ok ticker => if (quoteOfBook ticker result).isSome then [ticker] else []

/-- The instruments of the events that a decoded message is made into. -/
def tickerTexts (decoded : Json R) : List Bytes :=
  match resultObject decoded with
  | none => []
  | some result =>
      match result.valueString "channel" [] with
      | .error _ => []
      | .ok channel =>
          if channel = text "trade" then tradeTexts result
          else if channel = text "book" then bookTexts result
          else []

/-- The text of a field, if it is there and a text. -/
def fieldText (field : Option (Json R)) : Bytes :=
  (field.bind (fun value => value.getString.toOption)).getD []

/-- The fee currency that an order response is given. -/
def feeText (decoded : Json R) : Bytes :=
  match responseCode decoded, orderPayload decoded with
  | .ok 0, some res =>
      fieldText ((res.find "fee_currency").orElse (fun _ => res.find "fee_instrument_name"))
  | _, _ => []

/-- The error message that an order response is given. -/
def errorText (decoded : Json R) : Bytes :=
  match responseCode decoded with
  | .ok code => if code ≠ 0 then fieldText (decoded.find "message") else []
  | .error _ => []

omit [Double R] in
theorem optionalText_eq_ok
    {n : Nat} [NeZero n] {field : Option (Json R)} {s : CString n}
    (h : optionalText field = .ok s) :
    s = .copyString (fieldText field) := by
  cases field with
  | none =>
      simp only [optionalText, Except.ok.injEq] at h
      subst h
      ext1
      simp [CString.empty, CString.copyString, fieldText]
  | some value =>
      simp only [optionalText, bind, Except.bind, pure, Except.pure] at h
      cases hstring : value.getString with
      | error e =>
          rw [hstring] at h
          cases h
      | ok text =>
          rw [hstring] at h
          cases h
          simp [fieldText, hstring, Except.toOption]

/-- The texts of an order response are copies of texts of the message. -/
theorem texts_parseOrderResponse
    {decoded : Json R} {response : OrderResponse R}
    (h : parseOrderResponse decoded = .ok response) :
    response.feeCurrency = .copyString (feeText decoded) ∧
      response.errorMessage = .copyString (errorText decoded) := by
  have hempty : ∀ {n : Nat} [NeZero n], (CString.empty : CString n) = .copyString [] := by
    intro n _
    ext1
    simp [CString.empty, CString.copyString]
  rcases parseOrderResponse_eq_ok h with
    ⟨code, hcode, hne, herror⟩ | ⟨hcode, res, hpayload, hparse⟩ | ⟨hcode, hnone, rfl⟩
  · simp only [errorResponse, bind, Except.bind, pure, Except.pure] at herror
    split at herror
    · cases herror
    · rename_i message hmessage
      cases herror
      have hfee : feeText decoded = [] := by
        rw [feeText, hcode]
        split
        · rename_i heq _
          exact absurd (Except.ok.inj heq) hne
        · rfl
      rw [hfee, errorText, hcode]
      simp only [hne, ne_eq, not_false_eq_true, if_true]
      exact ⟨hempty, optionalText_eq_ok hmessage⟩
  · simp only [parsePayload, bind, Except.bind, pure, Except.pure] at hparse
    split at hparse
    · cases hparse
    · rename_i fee hfee
      split at hparse
      · cases hparse
      · cases hparse
        rw [feeText, errorText, hcode, hpayload]
        exact ⟨optionalText_eq_ok hfee, hempty⟩
  · rw [feeText, errorText, hcode, hnone]
    exact ⟨hempty, hempty⟩

theorem ticker_quoteOfBook
    {ticker : Bytes} {result : Json R} {quote : QuoteUpdate R}
    (h : quoteOfBook ticker result = some quote) :
    quote.ticker = .copyString ticker := by
  simp only [quoteOfBook] at h
  split at h
  · cases h
  · split at h
    · split at h
      · cases h
        rfl
      · cases h
    · cases h

theorem tickers_handleTradeResult
    (result : Json R) :
    (handleTradeResult result).events.map MarketEvent.ticker =
      (tradeTexts result).map CString.copyString := by
  rw [handleTradeResult, tradeTexts]
  cases result.valueString "instrument_name" [] with
  | error e =>
      rfl
  | ok fallbackTicker =>
      cases dataItems result with
      | none =>
          rfl
      | some items =>
          dsimp only
          rw [tickers_emitTrades, List.map_map]
          rfl

theorem tickers_handleBookResult
    (result : Json R) :
    (handleBookResult result).events.map MarketEvent.ticker =
      (bookTexts result).map CString.copyString := by
  rw [handleBookResult, bookTexts]
  cases result.valueString "instrument_name" [] with
  | error e =>
      rfl
  | ok ticker =>
      cases hquote : quoteOfBook ticker result with
      | none =>
          simp [hquote]
      | some quote =>
          simp [hquote, MarketEvent.ticker, ticker_quoteOfBook hquote]

/-- The tickers of the emitted events are copies of texts of the message. -/
theorem tickers_processDecoded
    (decoded : Json R) :
    (processDecoded decoded).events.map MarketEvent.ticker =
      (tickerTexts decoded).map CString.copyString := by
  rw [processDecoded, tickerTexts]
  cases resultObject decoded with
  | none =>
      rfl
  | some result =>
      dsimp only
      cases result.valueString "channel" [] with
      | error e =>
          rfl
      | ok channel =>
          dsimp only
          split_ifs
          · exact tickers_handleTradeResult result
          · exact tickers_handleBookResult result
          · rfl

end Texts

section Validity

variable {R : Type}

open CryptoComMarketDataClient

theorem validUtf8_resultObject
    {decoded result : Json R}
    (h : decoded.ValidUtf8)
    (hresult : resultObject decoded = some result) :
    result.ValidUtf8 := by
  simp only [resultObject] at hresult
  split at hresult
  · rename_i fields hfind
    cases hresult
    exact h.find hfind
  · cases hresult

theorem validUtf8_dataItems
    {result : Json R} {items : List (Json R)}
    (h : result.ValidUtf8)
    (hitems : dataItems result = some items)
    {item : Json R}
    (hitem : item ∈ items) :
    item.ValidUtf8 := by
  simp only [dataItems] at hitems
  split at hitems
  · rename_i items' hfind
    cases hitems
    exact (h.find hfind).item hitem
  · cases hitems
  · cases hitems
    simp at hitem

theorem validUtf8_instrument
    {fallbackTicker : Bytes} {item : Json R}
    (hfallback : ValidUtf8 fallbackTicker)
    (h : item.ValidUtf8) :
    ValidUtf8 (instrument fallbackTicker item) := by
  rw [instrument]
  cases hvalue : item.valueString "i" fallbackTicker with
  | error e =>
      exact validUtf8_nil
  | ok ticker =>
      exact h.valueString hfallback hvalue

theorem validUtf8_fieldText
    {field : Option (Json R)}
    (h : ∀ value, field = some value → value.ValidUtf8) :
    ValidUtf8 (fieldText field) := by
  cases field with
  | none =>
      exact validUtf8_nil
  | some value =>
      cases hstring : value.getString with
      | error e =>
          simpa [fieldText, hstring, Except.toOption] using validUtf8_nil
      | ok s =>
          have hs := (h value rfl).getString hstring
          simpa [fieldText, hstring, Except.toOption] using hs

theorem validUtf8_firstData
    {result item : Json R}
    (h : result.ValidUtf8)
    (hitem : firstData result = some item) :
    item.ValidUtf8 := by
  simp only [firstData] at hitem
  split at hitem
  · rename_i first rest hfind
    split at hitem
    · cases hitem
      exact (h.find hfind).item (by simp)
    · cases hitem
  · cases hitem

theorem validUtf8_orderPayload
    {decoded res : Json R}
    (h : decoded.ValidUtf8)
    (hpayload : orderPayload decoded = some res) :
    res.ValidUtf8 := by
  simp only [orderPayload] at hpayload
  split at hpayload
  · cases hpayload
  · rename_i result hfind
    have hresult := h.find hfind
    split at hpayload
    · rename_i item hitem
      cases hpayload
      exact validUtf8_firstData hresult hitem
    · split at hpayload
      · cases hpayload
        exact hresult
      · split at hpayload
        · cases hpayload
          exact hresult.item (by simp)
        · cases hpayload
      · cases hpayload

variable [Double R]

theorem validUtf8_tickerTexts
    {decoded : Json R}
    (h : decoded.ValidUtf8)
    {s : Bytes}
    (hs : s ∈ tickerTexts decoded) :
    ValidUtf8 s := by
  simp only [tickerTexts] at hs
  split at hs
  · simp at hs
  · rename_i result hresult
    have hvalid := validUtf8_resultObject h hresult
    have hname : ∀ {ticker : Bytes}, result.valueString "instrument_name" [] = .ok ticker →
        ValidUtf8 ticker := hvalid.valueString validUtf8_nil
    split at hs
    · simp at hs
    · split_ifs at hs
      · simp only [tradeTexts] at hs
        split at hs
        · simp at hs
        · rename_i fallbackTicker hfallback
          split at hs
          · rename_i items hitems
            obtain ⟨item, hitem, rfl⟩ := List.mem_map.mp hs
            exact validUtf8_instrument (hname hfallback)
              (validUtf8_dataItems hvalid hitems (tradedItems_subset _ _ hitem))
          · simp at hs
      · simp only [bookTexts] at hs
        split at hs
        · simp at hs
        · rename_i ticker hticker
          split_ifs at hs
          · rw [List.mem_singleton.mp hs]
            exact hname hticker
          · simp at hs
      · simp at hs

theorem validUtf8_feeText
    {decoded : Json R}
    (h : decoded.ValidUtf8) :
    ValidUtf8 (feeText decoded) := by
  rw [feeText]
  split
  · rename_i res _ hpayload
    have hres := validUtf8_orderPayload h hpayload
    refine validUtf8_fieldText ?_
    intro value hvalue
    cases hfee : res.find "fee_currency" with
    | some fee =>
        rw [hfee] at hvalue
        cases hvalue
        exact hres.find hfee
    | none =>
        rw [hfee] at hvalue
        exact hres.find hvalue
  · exact validUtf8_nil

theorem validUtf8_errorText
    {decoded : Json R}
    (h : decoded.ValidUtf8) :
    ValidUtf8 (errorText decoded) := by
  rw [errorText]
  split
  · split_ifs
    · exact validUtf8_fieldText (fun value hvalue => h.find hvalue)
    · exact validUtf8_nil
  · exact validUtf8_nil

end Validity

/-- The payload under which an event is stored. -/
def MarketEvent.payload {R : Type} : MarketEvent R → StoragePayload R
  | .trade tradeEvent => .tradeEvent tradeEvent
  | .quote quoteUpdate => .quoteUpdate quoteUpdate

section Persistence

variable {R : Type} [Double R]
variable {parse : Bytes → Option (Json R)} {dumpThrows : Json R → Bool}

open CryptoComMarketDataClient

/-- `storage_event_to_json(event).dump()` does not throw on events with this payload. -/
def Dumps (dumpThrows : Json R → Bool) (payload : StoragePayload R) : Prop :=
  ∀ event : StorageEvent R, event.payload = payload →
    dumpThrows (storageEventToJson event) = false

/--
A response as `parse_order_response` returns it has valid texts and can be written, whatever the
memory holds behind its two texts.
-/
structure ResponsePersists (dumpThrows : Json R → Bool) (response : OrderResponse R) : Prop where
  feeCurrency : ∀ behind, ValidUtf8 (response.feeCurrency.readUnterminated behind)
  errorMessage : ∀ behind, ValidUtf8 (response.errorMessage.readUnterminated behind)
  dumps : ∀ event : StorageEvent R, event.payload = .orderResponse response →
    ∀ behindFee behindMessage,
      dumpThrows (readResponseToJson event response
        (response.feeCurrency.readUnterminated behindFee)
        (response.errorMessage.readUnterminated behindMessage)) = false

/-- Everything that a message is made into has valid texts and can be written. -/
structure Persists (parse : Bytes → Option (Json R)) (dumpThrows : Json R → Bool)
    (message : Bytes) : Prop where
  events : ∀ event ∈ (processTextMessage parse message).events,
    ValidUtf8 event.ticker.bytes ∧ Dumps dumpThrows event.payload
  responses : ∀ decoded response, parse message = some decoded →
    parseOrderResponse decoded = .ok response → ResponsePersists dumpThrows response

/--
No ticker of a message is cut within a character, and the texts of its response are shorter than
what `strncpy` may write.
-/
structure TextsFit (decoded : Json R) : Prop where
  tickers : ∀ s ∈ tickerTexts decoded, CutsNoCharacter 16 s
  response : (∃ response, parseOrderResponse decoded = .ok response) →
    CString.LeavesTerminator 8 (feeText decoded) ∧
      CString.LeavesTerminator 128 (errorText decoded)

omit [Double R] in
theorem dumps_iff
    (hdump : ∀ j : Json R, dumpThrows j = true ↔ ¬ j.ValidUtf8)
    (payload : StoragePayload R) :
    Dumps dumpThrows payload ↔ ∀ s ∈ payloadTexts payload, ValidUtf8 s := by
  have hdumps : ∀ event : StorageEvent R, dumpThrows (storageEventToJson event) = false ↔
      ∀ s ∈ payloadTexts event.payload, ValidUtf8 s := by
    intro event
    rw [← validUtf8_storageEventToJson, ← Bool.not_eq_true, hdump, not_not]
  constructor
  · intro h
    exact (hdumps ⟨0, 0, .quoteUpdate, payload⟩).mp (h _ rfl)
  · rintro h event rfl
    exact (hdumps event).mpr h

omit [Double R] in
/-- A market event has one text. -/
theorem persists_event_iff
    (hdump : ∀ j : Json R, dumpThrows j = true ↔ ¬ j.ValidUtf8)
    (event : MarketEvent R) :
    (ValidUtf8 event.ticker.bytes ∧ Dumps dumpThrows event.payload) ↔
      ValidUtf8 event.ticker.bytes := by
  rw [dumps_iff hdump, and_iff_left_iff_imp]
  intro h
  cases event with
  | trade | quote =>
      simpa [MarketEvent.payload, payloadTexts, MarketEvent.ticker] using h

/-- The events that a message is made into have valid tickers exactly if none is cut. -/
theorem validUtf8_tickers_iff
    {decoded : Json R}
    (h : decoded.ValidUtf8) :
    (∀ event ∈ (processDecoded decoded).events, ValidUtf8 event.ticker.bytes) ↔
      ∀ s ∈ tickerTexts decoded, CutsNoCharacter 16 s := by
  have htickers := tickers_processDecoded decoded
  calc (∀ event ∈ (processDecoded decoded).events, ValidUtf8 event.ticker.bytes)
      ↔ ∀ ticker ∈ (processDecoded decoded).events.map MarketEvent.ticker,
          ValidUtf8 ticker.bytes := by simp
    _ ↔ ∀ s ∈ tickerTexts decoded, ValidUtf8 (CString.copyString s : CString 16).bytes := by
          rw [htickers]
          simp
    _ ↔ ∀ s ∈ tickerTexts decoded, CutsNoCharacter 16 s :=
          forall₂_congr (fun s hs => validUtf8_copyString_iff (validUtf8_tickerTexts h hs))

omit [Double R] in
/-- Texts that leave room for a terminator are read as they were copied. -/
theorem responsePersists_of_leavesTerminator
    (hdump : ∀ j : Json R, dumpThrows j = true ↔ ¬ j.ValidUtf8)
    {response : OrderResponse R}
    (hfee : response.feeCurrency.bytes.length < 8 - 1)
    (herror : response.errorMessage.bytes.length < 128 - 1)
    (hfeeValid : ValidUtf8 response.feeCurrency.bytes)
    (herrorValid : ValidUtf8 response.errorMessage.bytes) :
    ResponsePersists dumpThrows response := by
  have hfeeRead : ∀ behind,
      response.feeCurrency.readUnterminated behind = response.feeCurrency.bytes :=
    fun behind => if_pos hfee
  have herrorRead : ∀ behind,
      response.errorMessage.readUnterminated behind = response.errorMessage.bytes :=
    fun behind => if_pos herror
  refine ⟨?_, ?_, ?_⟩
  · intro behind
    rw [hfeeRead]
    exact hfeeValid
  · intro behind
    rw [herrorRead]
    exact herrorValid
  · intro event hpayload behindFee behindMessage
    rw [hfeeRead, herrorRead, readResponseToJson_bytes hpayload]
    refine (dumps_iff hdump (.orderResponse response)).mpr ?_ event hpayload
    simpa [payloadTexts] using ⟨hfeeValid, herrorValid⟩

/-- The response of a message persists exactly if its texts leave room for a terminator. -/
theorem responsePersists_iff
    (hdump : ∀ j : Json R, dumpThrows j = true ↔ ¬ j.ValidUtf8)
    {decoded : Json R} {response : OrderResponse R}
    (h : decoded.ValidUtf8)
    (hparsed : parseOrderResponse decoded = .ok response) :
    ResponsePersists dumpThrows response ↔
      CString.LeavesTerminator 8 (feeText decoded) ∧
        CString.LeavesTerminator 128 (errorText decoded) := by
  obtain ⟨hfee, herror⟩ := texts_parseOrderResponse hparsed
  have hfeeIff := validUtf8_readUnterminated_iff (n := 8) (validUtf8_feeText h)
  have herrorIff := validUtf8_readUnterminated_iff (n := 128) (validUtf8_errorText h)
  rw [← hfee] at hfeeIff
  rw [← herror] at herrorIff
  constructor
  · intro hpersists
    exact ⟨hfeeIff.mp hpersists.feeCurrency, herrorIff.mp hpersists.errorMessage⟩
  · rintro ⟨hfeeFits, herrorFits⟩
    have hfeeShort := CString.length_copyString_lt_iff.mpr hfeeFits
    have herrorShort := CString.length_copyString_lt_iff.mpr herrorFits
    rw [← hfee] at hfeeShort
    rw [← herror] at herrorShort
    have hfeeValid := hfeeIff.mpr hfeeFits []
    have herrorValid := herrorIff.mpr herrorFits []
    rw [CString.readUnterminated, if_pos hfeeShort] at hfeeValid
    rw [CString.readUnterminated, if_pos herrorShort] at herrorValid
    exact responsePersists_of_leavesTerminator hdump hfeeShort herrorShort hfeeValid herrorValid

/--
Every trade, quote and order response that a message is made into has valid texts,
and can be written by the flusher, exactly if no ticker is cut within a character and the
texts of the response leave room for a terminator.
-/
theorem parsed_text_persists_iff
    (hparse : ∀ message decoded, parse message = some decoded → decoded.ValidUtf8)
    (hdump : ∀ j : Json R, dumpThrows j = true ↔ ¬ j.ValidUtf8)
    {message : Bytes} {decoded : Json R}
    (hmessage : parse message = some decoded) :
    Persists parse dumpThrows message ↔ TextsFit decoded := by
  have hvalid := hparse message decoded hmessage
  have hevents : (processTextMessage parse message).events = (processDecoded decoded).events := by
    rw [processTextMessage, hmessage]
  constructor
  · intro h
    refine ⟨(validUtf8_tickers_iff hvalid).mp ?_, ?_⟩
    · intro event hevent
      exact (h.events event (by rw [hevents]; exact hevent)).1
    · rintro ⟨response, hparsed⟩
      exact (responsePersists_iff hdump hvalid hparsed).mp
        (h.responses decoded response hmessage hparsed)
  · intro h
    refine ⟨?_, ?_⟩
    · intro event hevent
      rw [hevents] at hevent
      exact (persists_event_iff hdump event).mpr
        ((validUtf8_tickers_iff hvalid).mpr h.tickers event hevent)
    · intro decoded' response hmessage' hparsed
      rw [hmessage, Option.some.injEq] at hmessage'
      subst hmessage'
      exact (responsePersists_iff hdump hvalid hparsed).mpr (h.response ⟨response, hparsed⟩)

end Persistence

section Euro

open CryptoComMarketDataClient

/-- A message with one trade of an instrument. -/
def tradeMessage (instrument : String) : Json ℚ :=
  .object
    [("result", .object
      [("channel", .string (text "trade")),
        ("data", .array
          [.object
            [("i", .string (text instrument)),
              ("p", .string (text "100")),
              ("q", .string (text "1")),
              ("s", .string (text "BUY"))]])])]

/-- Its text. -/
def tradeMessageText (instrument : String) : Bytes :=
  text "\x7b\"result\":\x7b\"channel\":\"trade\",\"data\":[\x7b\"i\":\"" ++ text instrument ++
    text "\",\"p\":\"100\",\"q\":\"1\",\"s\":\"BUY\"\x7d]\x7d\x7d"

/-- A parser that knows one such message. -/
def parseTradeMessage (instrument : String) (message : Bytes) : Option (Json ℚ) :=
  if message = tradeMessageText instrument then some (tradeMessage instrument) else none

theorem validUtf8_parseTradeMessage
    (instrument : String)
    (message : Bytes)
    (decoded : Json ℚ)
    (h : parseTradeMessage instrument message = some decoded) :
    decoded.ValidUtf8 := by
  simp only [parseTradeMessage, Option.ite_none_right_eq_some, Option.some.injEq] at h
  rw [← h.2]
  simp [tradeMessage, Json.ValidUtf8, Json.strings, Json.fieldStrings, Json.itemStrings,
    validUtf8_text]

/-- An instrument of 15 bytes fits. -/
theorem parsed_text_persists_fifteen_bytes :
    (processTextMessage (parseTradeMessage "BTC_USDT_PERP_1")
        (tradeMessageText "BTC_USDT_PERP_1")).events.length = 1 ∧
      Persists (parseTradeMessage "BTC_USDT_PERP_1") (fun j => decide (¬ j.ValidUtf8))
        (tradeMessageText "BTC_USDT_PERP_1") := by
  refine ⟨by decide +kernel, ?_⟩
  have hmessage : parseTradeMessage "BTC_USDT_PERP_1" (tradeMessageText "BTC_USDT_PERP_1") =
      some (tradeMessage "BTC_USDT_PERP_1") := by
    simp [parseTradeMessage]
  refine (parsed_text_persists_iff (validUtf8_parseTradeMessage "BTC_USDT_PERP_1")
    (by simp) hmessage).mpr ?_
  have htickers : tickerTexts (tradeMessage "BTC_USDT_PERP_1") = [text "BTC_USDT_PERP_1"] := by
    decide +kernel
  have hfee : feeText (tradeMessage "BTC_USDT_PERP_1") = [] := by
    decide +kernel
  have herror : errorText (tradeMessage "BTC_USDT_PERP_1") = [] := by
    decide +kernel
  refine ⟨?_, fun _ => ?_⟩
  · rw [htickers]
    decide +kernel
  · rw [hfee, herror]
    decide +kernel

/-- The sign of an instrument of 17 bytes is cut after its first byte. -/
theorem cut_character_cannot_be_persisted :
    (tradeMessage "BTC_USDT_PERP_€").ValidUtf8 ∧
      (processTextMessage (parseTradeMessage "BTC_USDT_PERP_€")
          (tradeMessageText "BTC_USDT_PERP_€")).events.map (fun event => event.ticker.bytes) =
        [text "BTC_USDT_PERP_" ++ [0xE2]] ∧
      ¬ Persists (parseTradeMessage "BTC_USDT_PERP_€") (fun j => decide (¬ j.ValidUtf8))
        (tradeMessageText "BTC_USDT_PERP_€") := by
  have hmessage : parseTradeMessage "BTC_USDT_PERP_€" (tradeMessageText "BTC_USDT_PERP_€") =
      some (tradeMessage "BTC_USDT_PERP_€") := by
    simp [parseTradeMessage]
  have hvalid := validUtf8_parseTradeMessage _ _ _ hmessage
  refine ⟨hvalid, by decide +kernel, ?_⟩
  intro h
  have htickers : tickerTexts (tradeMessage "BTC_USDT_PERP_€") = [text "BTC_USDT_PERP_€"] := by
    decide +kernel
  have hfits := (validUtf8_tickers_iff hvalid).mp (fun event hevent => (h.events event (by
    rw [processTextMessage, hmessage]
    exact hevent)).1)
  have hcut : ¬ CutsNoCharacter 16 (text "BTC_USDT_PERP_€") := by
    decide +kernel
  exact hcut (hfits _ (by simp [htickers]))

end Euro

end Exchange
end CryptoHft
