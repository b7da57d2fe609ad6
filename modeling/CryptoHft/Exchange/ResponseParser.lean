import CryptoHft.Lib.Json
import CryptoHft.Types.Trade

/-!
# `CryptoComResponseParser`

`include/exchange/crypto_com_api.hpp`, lines 303-508: from a JSON message of the
exchange to an `OrderResponse`.  The order payload is the first element of
`result.data`, or `result` itself, or its first element.  Every field has its
default when the payload does not carry it, and numbers may come as texts.

`Carries m c` says that the order payload of a message has exactly `c` as its
client order id; such a message is read as one about the order `c`
(`clientOrderId_of_carries`).
-/

namespace CryptoHft
namespace Exchange

open Lib

section Payload

variable {R : Type}

/-- `json_to_u64`: a value that cannot be read becomes zero. -/
def jsonToU64 : Json R → UInt64
  | .integer i => if 0 < i.val then UInt64.ofNat i.val.toNat else 0
  | .string s => (stoull s).getD 0
  | _ => 0

/-- `json_to_i64`. -/
def jsonToI64 : Json R → Int64
  | .integer i => Int64.ofInt i.val
  | .string s => (stoll s).getD 0
  | _ => 0

/-- A value that is exactly the number `c`, or its decimal text. -/
def IsClientOid (oid : Json R) (c : UInt64) : Prop :=
  match oid with
  | .integer i => i.val = c.toNat
  | .string s => s = decimal c.toNat
  | _ => False

/-- An exact client order id is read as itself. -/
theorem jsonToU64_of_isClientOid
    {oid : Json R} {c : UInt64}
    (h : IsClientOid oid c) :
    jsonToU64 oid = c := by
  cases oid with
  | integer i =>
      have hval : i.val = c.toNat := h
      simp only [jsonToU64, hval]
      split
      · simp
      · rename_i hle
        have hzero : c.toNat = 0 := by omega
        rw [← UInt64.toNat_inj, hzero]
        rfl
  | string s =>
      have htext : s = decimal c.toNat := h
      simp [jsonToU64, htext, stoull_decimal]
  | null | bool | float | array | object =>
      exact h.elim

instance decidableIsClientOid (oid : Json R) (c : UInt64) :
    Decidable (IsClientOid oid c) :=
  match oid with
  | .integer i => inferInstanceAs (Decidable (i.val = c.toNat))
  | .string s => inferInstanceAs (Decidable (s = decimal c.toNat))
  | .null => isFalse id
  | .bool _ => isFalse id
  | .float _ => isFalse id
  | .array _ => isFalse id
  | .object _ => isFalse id

/-- `result.data` as a non-empty array that starts with an object. -/
def firstData (result : Json R) : Option (Json R) :=
  match result.find "data" with
  | some (.array (item :: _)) => if item.isObject then some item else none
  | _ => none

/-- `order_payload`. -/
def orderPayload (response : Json R) : Option (Json R) :=
  match response.find "result" with
  | none => none
  | some result =>
      match firstData result with
      | some item => some item
      | none =>
          match result with
          | .object _ => some result
          | .array (item :: _) => if item.isObject then some item else none
          | _ => none

/-- The order payload has exactly `c` as its client order id. -/
def Carries (msg : Json R) (c : UInt64) : Prop :=
  ∃ res oid, orderPayload msg = some res ∧ res.find "client_oid" = some oid ∧
    IsClientOid oid c

theorem carries_iff
    {msg res oid : Json R} {c : UInt64}
    (hpayload : orderPayload msg = some res)
    (hoid : res.find "client_oid" = some oid) :
    Carries msg c ↔ IsClientOid oid c := by
  constructor
  · rintro ⟨res', oid', hpayload', hoid', hc⟩
    rw [hpayload, Option.some.injEq] at hpayload'
    subst hpayload'
    rw [hoid, Option.some.injEq] at hoid'
    subst hoid'
    exact hc
  · intro hc
    exact ⟨res, oid, hpayload, hoid, hc⟩

theorem not_carries
    {msg : Json R} {c : UInt64}
    (hno : ∀ res, orderPayload msg = some res → res.find "client_oid" = none) :
    ¬ Carries msg c := by
  rintro ⟨res, oid, hpayload, hoid, -⟩
  rw [hno res hpayload] at hoid
  cases hoid

instance decidableCarries (msg : Json R) (c : UInt64) : Decidable (Carries msg c) :=
  match hpayload : orderPayload msg with
  | none => isFalse (not_carries (by simp [hpayload]))
  | some res =>
      match hoid : res.find "client_oid" with
      | none => isFalse (not_carries (by simp [hpayload, hoid]))
      | some _ => decidable_of_iff _ (carries_iff hpayload hoid).symm

end Payload

section Parser

variable {R : Type} [Double R]

/-- `json_to_double`. -/
def jsonToDouble : Json R → R
  | .integer i => Double.ofInt i.val
  | .float x => x
  | .string s => (Double.read s).getD 0
  | _ => 0

/-- `exchange_time_to_ns`: milli-, micro- or nanoseconds by magnitude. -/
def exchangeTimeToNs (rawTime : UInt64) : Int64 :=
  if rawTime = 0 then 0
  else if 10000000000000000 < rawTime then rawTime.toInt64
  else if 10000000000000 < rawTime then (rawTime * 1000).toInt64
  else (rawTime * 1000000).toInt64

def parseStatus (status : Bytes) : OrderStatus :=
  if status = text "NEW" ∨ status = text "PENDING" ∨ status = text "ACTIVE" then .new
  else if status = text "FILLED" then .filled
  else if status = text "PARTIALLY_FILLED" then .partiallyFilled
  else if status = text "CANCELED" ∨ status = text "CANCELLED" then .canceled
  else if status = text "REJECTED" then .rejected
  else if status = text "EXPIRED" then .expired
  else .new

/-- `result_channel`. -/
def resultChannel (msg : Json R) : Except JsonError Bytes :=
  match msg.find "result" with
  | some (.object fields) =>
      match fields.lookup "channel" with
      | some channel => channel.getString
      | none => .ok []
  | _ => .ok []

/-- `is_order_update`. -/
def isOrderUpdate (msg : Json R) : Except JsonError Bool := do
  let channel ← resultChannel msg
  return hasSubstring channel (text "user.order") ||
    hasSubstring channel (text "user.advanced.order")

/--
A text field, copied into a buffer by `strncpy` with one byte less than the buffer has.  Nobody
writes the last byte: the constructor of `OrderResponse` clears the first one only.  A text that
takes all the other bytes is left without a terminator, and a reader of the buffer sees
`CString.readUnterminated`.
-/
def optionalText {n : Nat} [NeZero n] (field : Option (Json R)) :
    Except JsonError (CString n) :=
  match field with
  | some value => do
      let s ← value.getString
      return .copyString s
  | none => .ok .empty

section Fields

variable (res : Json R)

def filledQuantity : R :=
  ((res.find "cumulative_quantity").map jsonToDouble).getD 0

/-- `remaining_quantity`, or what `quantity` leaves, but not less than zero. -/
def remainingQuantity : R :=
  match res.find "remaining_quantity" with
  | some remaining => jsonToDouble remaining
  | none =>
      match res.find "quantity" with
      | some quantity =>
          if Double.isPositive (jsonToDouble quantity - filledQuantity res) then
            jsonToDouble quantity - filledQuantity res
          else 0
      | none => 0

def feeCurrency : Except JsonError (CString 8) :=
  optionalText
    ((res.find "fee_currency").orElse (fun _ => res.find "fee_instrument_name"))

def exchangeTimestampNs : Int64 :=
  match res.find "transaction_time_ns" with
  | some time => jsonToI64 time
  | none =>
      match res.find "update_time_ns" with
      | some time => jsonToI64 time
      | none =>
          match res.find "update_time" with
          | some time => exchangeTimeToNs (jsonToU64 time)
          | none => 0

/-- A new order that has executed something counts as partially filled. -/
def payloadStatus : Except JsonError OrderStatus :=
  match res.find "status" with
  | some status => do
      let s ← status.getString
      return if parseStatus s = .new ∧ Double.isPositive (filledQuantity res) then
        .partiallyFilled
      else parseStatus s
  | none => .ok .new

/-- The response that an order payload describes. -/
def parsePayload : Except JsonError (OrderResponse R) := do
  let fee ← feeCurrency res
  let status ← payloadStatus res
  return {
    clientOrderId := ((res.find "client_oid").map jsonToU64).getD 0
    exchangeOrderId := ((res.find "order_id").map jsonToU64).getD 0
    status := status
    filledQuantity := filledQuantity res
    remainingQuantity := remainingQuantity res
    avgPrice := ((res.find "avg_price").map jsonToDouble).getD 0
    fee := ((res.find "cumulative_fee").map jsonToDouble).getD 0
    feeCurrency := fee
    exchangeTimestampNs := exchangeTimestampNs res
    errorCode := ((res.find "reason").map (fun r => (jsonToI64 r).toInt32)).getD 0
    errorMessage := .empty }

end Fields

/-- The error reply of a nonzero code. -/
def errorResponse (response : Json R) (code : Int32) : Except JsonError (OrderResponse R) := do
  let message ← optionalText (response.find "message")
  return { OrderResponse.empty with
    status := .rejected
    errorCode := code
    errorMessage := message }

/-- The code of a message; zero when it has none. -/
def responseCode (response : Json R) : Except JsonError Int32 :=
  match response.find "code" with
  | some code => code.getInt32
  | none => .ok 0

/-- `parse_order_response`. -/
def parseOrderResponse (response : Json R) : Except JsonError (OrderResponse R) := do
  let code ← responseCode response
  if code ≠ 0 then
    errorResponse response code
  else
    match orderPayload response with
    | some res => parsePayload res
    | none => return .empty

/-- The status texts after which an order gets no further update. -/
def isTerminalText (status : Bytes) : Bool :=
  (parseStatus status).isTerminal

/-- A `user.order` update of the exchange. -/
def userOrderUpdate (clientOid status cumulativeQuantity : Bytes) : Json R :=
  .object
    [("method", .string (text "subscribe")),
      ("code", .integer ⟨0, by decide, by decide⟩),
      ("result", .object
        [("channel", .string (text "user.order")),
          ("data", .array
            [.object
              [("client_oid", .string clientOid),
                ("status", .string status),
                ("cumulative_quantity", .string cumulativeQuantity),
                ("avg_price", .string (text "100"))]])])]

section Spec

variable {msg res : Json R} {response : OrderResponse R} {c : UInt64}

theorem parsePayload_eq_ok
    (h : parsePayload res = .ok response) :
    response.clientOrderId = ((res.find "client_oid").map jsonToU64).getD 0 ∧
      response.filledQuantity = filledQuantity res ∧
      payloadStatus res = .ok response.status := by
  simp only [parsePayload, bind, Except.bind, pure, Except.pure] at h
  split at h
  · cases h
  · split at h
    · cases h
    · rename_i status hstatus
      cases h
      exact ⟨rfl, rfl, hstatus⟩

theorem exchangeTimestampNs_parsePayload
    (h : parsePayload res = .ok response) :
    response.exchangeTimestampNs = exchangeTimestampNs res := by
  simp only [parsePayload, bind, Except.bind, pure, Except.pure] at h
  split at h
  · cases h
  · split at h
    · cases h
    · cases h
      rfl

/-- The status of a payload is terminal exactly if its status text is. -/
theorem isTerminal_payloadStatus
    {status : OrderStatus}
    (h : payloadStatus res = .ok status) :
    status.isTerminal = true ↔
      ∃ s, res.find "status" = some (.string s) ∧ isTerminalText s = true := by
  cases hfind : res.find "status" with
  | none =>
      simp only [payloadStatus, hfind, Except.ok.injEq] at h
      simp [← h, OrderStatus.isTerminal]
  | some value =>
      simp only [payloadStatus, hfind, bind, Except.bind, pure, Except.pure] at h
      cases hstring : value.getString with
      | error _ =>
          simp [hstring] at h
      | ok s =>
          simp only [hstring, Except.ok.injEq] at h
          rw [Json.getString_eq_ok hstring, ← h]
          split
          · rename_i hnew
            simp [isTerminalText, hnew.1, OrderStatus.isTerminal]
          · simp [isTerminalText]

theorem errorResponse_eq_ok
    {code : Int32}
    (h : errorResponse msg code = .ok response) :
    response.clientOrderId = 0 ∧ response.filledQuantity = 0 ∧
      response.status = .rejected := by
  simp only [errorResponse, bind, Except.bind, pure, Except.pure] at h
  split at h
  · cases h
  · cases h
    exact ⟨rfl, rfl, rfl⟩

/-- The three ways to an order response. -/
theorem parseOrderResponse_eq_ok
    (h : parseOrderResponse msg = .ok response) :
    (∃ code, responseCode msg = .ok code ∧ code ≠ 0 ∧
        errorResponse msg code = .ok response) ∨
      (responseCode msg = .ok 0 ∧ ∃ res, orderPayload msg = some res ∧
        parsePayload res = .ok response) ∨
      (responseCode msg = .ok 0 ∧ orderPayload msg = none ∧ response = .empty) := by
  simp only [parseOrderResponse, bind, Except.bind, pure, Except.pure] at h
  cases hcode : responseCode msg with
  | error e =>
      simp [hcode] at h
  | ok code =>
      simp only [hcode] at h
      by_cases hzero : code = 0
      · subst hzero
        simp only [ne_eq, not_true_eq_false, if_false] at h
        cases hpayload : orderPayload msg with
        | none =>
            simp only [hpayload, Except.ok.injEq] at h
            exact Or.inr (Or.inr ⟨rfl, rfl, h.symm⟩)
        | some res =>
            simp only [hpayload] at h
            exact Or.inr (Or.inl ⟨rfl, res, rfl, h⟩)
      · rw [if_pos hzero] at h
        exact Or.inl ⟨code, rfl, hzero, h⟩

/-- A message that carries `c`, and no error code, is about the order `c`. -/
theorem clientOrderId_of_carries
    (h : parseOrderResponse msg = .ok response)
    (hcode : responseCode msg = .ok 0)
    (hcarries : Carries msg c) :
    response.clientOrderId = c := by
  obtain ⟨res, oid, hpayload, hoid, hc⟩ := hcarries
  rcases parseOrderResponse_eq_ok h with
    ⟨code, hcode', hne, -⟩ | ⟨-, res', hpayload', hparse⟩ | ⟨-, hnone, -⟩
  · rw [hcode, Except.ok.injEq] at hcode'
    exact absurd hcode'.symm hne
  · rw [hpayload, Option.some.injEq] at hpayload'
    subst hpayload'
    rw [(parsePayload_eq_ok hparse).1, hoid]
    exact jsonToU64_of_isClientOid hc
  · rw [hpayload] at hnone
    cases hnone

end Spec

end Parser

end Exchange
end CryptoHft
