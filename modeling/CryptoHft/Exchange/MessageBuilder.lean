import CryptoHft.Lib.Json

/-!
# `CryptoComMessageBuilder`

The cancel request of `include/exchange/crypto_com_api.hpp` and the signature of
`include/exchange/auth_handler.hpp`.  The keyed hash and the text form of JSON
values belong to other libraries and are fields of `AuthHandler`; clock readings
are arguments.

An order is named in a cancel request by its client order id, unless this id is
zero, which stands for no id: then the request names an exchange order id.
-/

namespace CryptoHft
namespace Exchange

open Lib

structure AuthHandler (R : Type) where
  apiKey : Bytes
  /-- HMAC-SHA256 under the secret key, in hexadecimal. -/
  hmacSha256 : Bytes → Bytes
  dump : Json R → Bytes

namespace AuthHandler

variable {R : Type} (auth : AuthHandler R)

def scalarToString : Json R → Bytes
  | .string s => s
  | .null => text "null"
  | .bool b => if b then text "true" else text "false"
  | value => auth.dump value

/-- `append_parameter_string`, with the number of levels that are left of three. -/
def appendParameterString : Nat → Json R → Bytes
  | 0, value => auth.scalarToString value
  | levels + 1, .array items => items.flatMap (appendParameterString levels)
  | levels + 1, .object fields =>
      ((fields.map Prod.fst).dedup.insertionSort (· ≤ ·)).flatMap (fun key =>
        text key ++ ((fields.lookup key).map (appendParameterString levels)).getD [])
  | _ + 1, value => auth.scalarToString value

def parameterString : Json R → Bytes
  | .null => []
  | params => auth.appendParameterString 3 params

def sign (method : Bytes) (id : UInt64) (params : Json R) (nonce : UInt64) : Bytes :=
  auth.hmacSha256 (method ++ decimal id.toNat ++ auth.apiKey ++ auth.parameterString params ++
    decimal nonce.toNat)

end AuthHandler

structure CryptoComMessageBuilder (R : Type) where
  auth : AuthHandler R
  requestId : UInt64

namespace CryptoComMessageBuilder

variable {R : Type}

/-- The constructor. -/
def create (auth : AuthHandler R) : CryptoComMessageBuilder R :=
  ⟨auth, 1⟩

/-- `next_id`. -/
def nextId (builder : CryptoComMessageBuilder R) : UInt64 × CryptoComMessageBuilder R :=
  (builder.requestId, { builder with requestId := builder.requestId + 1 })

/-- The parameters of a cancel request. -/
def cancelParams (instrumentName : Bytes) (orderId clientOid : UInt64) : Json R :=
  let named : String × Json R :=
    if clientOid ≠ 0 then ("client_oid", .string (decimal clientOid.toNat))
    else ("order_id", .string (decimal orderId.toNat))
  .object [("instrument_name", .string instrumentName), named]

/-- `build_cancel_order`, at the time `nonce` in milliseconds. -/
def buildCancelOrder (builder : CryptoComMessageBuilder R) (nonce : UInt64)
    (instrumentName : Bytes) (orderId clientOid : UInt64) :
    Json R × CryptoComMessageBuilder R :=
  let (id, builder') := builder.nextId
  let method := text "private/cancel-order"
  let params := cancelParams instrumentName orderId clientOid
  (.object
    [("id", .ofUInt64 id),
      ("method", .string method),
      ("params", params),
      ("sig", .string (builder.auth.sign method id params nonce)),
      ("nonce", .ofUInt64 nonce)],
    builder')

/-- A request that names an order by its client order id, as the text of the number. -/
def NamesClientOid (msg : Json R) (clientOid : UInt64) : Prop :=
  ∃ params, msg.find "params" = some params ∧
    params.find "client_oid" = some (.string (decimal clientOid.toNat))

theorem params_buildCancelOrder
    (builder : CryptoComMessageBuilder R)
    (nonce : UInt64)
    (instrumentName : Bytes)
    (orderId clientOid : UInt64) :
    (builder.buildCancelOrder nonce instrumentName orderId clientOid).1.find "params" =
      some (cancelParams instrumentName orderId clientOid) :=
  rfl

/-- The client order id zero is taken for none. -/
theorem namesClientOid_iff
    (builder : CryptoComMessageBuilder R)
    (nonce : UInt64)
    (instrumentName : Bytes)
    (orderId clientOid : UInt64) :
    NamesClientOid (builder.buildCancelOrder nonce instrumentName orderId clientOid).1 clientOid ↔
      clientOid ≠ 0 := by
  constructor
  · rintro ⟨params, hparams, hnamed⟩ hzero
    rw [params_buildCancelOrder, Option.some.injEq] at hparams
    subst hparams hzero
    simp [cancelParams, Json.find, List.lookup] at hnamed
  · intro hid
    refine ⟨_, params_buildCancelOrder builder nonce instrumentName orderId clientOid, ?_⟩
    simp [cancelParams, hid, Json.find, List.lookup]

end CryptoComMessageBuilder

end Exchange
end CryptoHft
