import CryptoHft.Exchange.CreateOrder
import CryptoHft.Lib.JsonMembers
import CryptoHft.Lib.Runs

/-!
# What the exchange verifies

All requests of `CryptoComMessageBuilder`, with the signatures of `AuthHandler`.  The
exchange reads the members of a message, which have no order, puts the parameter string
together again and compares the keyed hash with the signature.  Every message verifies,
and the ids of the requests count up from one; a heartbeat response is not signed and
takes no id.

Values below the third level of the parameters are signed in the text form of the JSON
library, which has the members of an object in the order of their keys (`DumpSorts`).
-/

namespace CryptoHft
namespace Exchange

open Lib

namespace AuthHandler

variable {R : Type} (auth : AuthHandler R)

/-- `sign` of a parameter string. -/
def signText (method : Bytes) (id : UInt64) (paramsString : Bytes) (nonce : UInt64) : Bytes :=
  auth.hmacSha256 (method ++ decimal id.toNat ++ auth.apiKey ++ paramsString ++
    decimal nonce.toNat)

/-- The text form of a value does not depend on the order of members. -/
def DumpSorts : Prop :=
  ∀ v w : Json R, Json.Same v w → auth.dump v = auth.dump w

variable {auth}

/-- At each level the keys are sorted. -/
theorem DumpSorts.appendParameterString
    (hdump : auth.DumpSorts) :
    ∀ (levels : Nat) {v w : Json R}, Json.Same v w →
      auth.appendParameterString levels v = auth.appendParameterString levels w := by
  intro levels
  induction levels with
  | zero =>
      intro v w h
      cases h with
      | refl => rfl
      | array hlength h => exact hdump _ _ (.array hlength h)
      | object hkeys h => exact hdump _ _ (.object hkeys h)
  | succ levels ih =>
      intro v w h
      cases h with
      | refl => rfl
      | array hlength h =>
          exact Json.flatMap_congr_of_same hlength fun i v w hv hw => ih (h i v w hv hw)
      | object hkeys h =>
          refine Json.sortedKeys_flatMap_congr
            (f := fun key value =>
              text key ++ (value.map (auth.appendParameterString levels)).getD []) hkeys ?_
          intro key v w hv hw
          show text key ++ auth.appendParameterString levels v =
            text key ++ auth.appendParameterString levels w
          rw [ih (h key v w hv hw)]

theorem DumpSorts.parameterString
    (hdump : auth.DumpSorts)
    {v w : Json R}
    (h : Json.Same v w) :
    auth.parameterString v = auth.parameterString w := by
  cases h with
  | refl => rfl
  | array hlength h => exact hdump.appendParameterString 3 (.array hlength h)
  | object hkeys h => exact hdump.appendParameterString 3 (.object hkeys h)

end AuthHandler

namespace CryptoComMessageBuilder

variable (builder : CryptoComMessageBuilder Binary64)

/-- The request that the builders send, with the parameter string that they sign. -/
def signedRequest (nonce : UInt64) (method : Bytes) (params : Json Binary64)
    (paramsString : Bytes) : Json Binary64 × CryptoComMessageBuilder Binary64 :=
  let (id, builder') := builder.nextId
  (.object
    [("id", .ofUInt64 id),
      ("method", .string method),
      ("params", params),
      ("sig", .string (builder.auth.signText method id paramsString nonce)),
      ("nonce", .ofUInt64 nonce)],
    builder')

/-- `build_auth_request`. -/
def buildAuthRequest (nonce : UInt64) : Json Binary64 × CryptoComMessageBuilder Binary64 :=
  let (id, builder') := builder.nextId
  let method := text "public/auth"
  (.object
    [("id", .ofUInt64 id),
      ("method", .string method),
      ("api_key", .string builder.auth.apiKey),
      ("sig", .string (builder.auth.signText method id [] nonce)),
      ("nonce", .ofUInt64 nonce)],
    builder')

/-- The parameters of a request for one instrument, or for all of them. -/
def instrumentParams (instrumentName : Bytes) : List (String × Json Binary64) :=
  memberIf (instrumentName ≠ []) "instrument_name" (.string instrumentName)

/-- The parameter string of a request that may have no parameters. -/
def instrumentString (instrumentName : Bytes) : Bytes :=
  if (instrumentParams instrumentName).isEmpty then []
  else builder.auth.parameterString (.object (instrumentParams instrumentName))

/-- `build_cancel_all_orders`. -/
def buildCancelAllOrders (nonce : UInt64) (instrumentName : Bytes) :
    Json Binary64 × CryptoComMessageBuilder Binary64 :=
  builder.signedRequest nonce (text "private/cancel-all-orders")
    (.object (instrumentParams instrumentName)) (builder.instrumentString instrumentName)

/-- `build_get_open_orders`. -/
def buildGetOpenOrders (nonce : UInt64) (instrumentName : Bytes) :
    Json Binary64 × CryptoComMessageBuilder Binary64 :=
  builder.signedRequest nonce (text "private/get-open-orders")
    (.object (instrumentParams instrumentName)) (builder.instrumentString instrumentName)

/-- The parameters of a subscription to a channel of the user. -/
def channelParams (channel instrumentName : Bytes) : Json Binary64 :=
  .object [("channels", .array [.string
    (if instrumentName = [] then channel else channel ++ text "." ++ instrumentName)])]

/-- `build_subscribe_user_order`. -/
def buildSubscribeUserOrder (nonce : UInt64) (instrumentName : Bytes) :
    Json Binary64 × CryptoComMessageBuilder Binary64 :=
  let params := channelParams (text "user.order") instrumentName
  builder.signedRequest nonce (text "subscribe") params (builder.auth.parameterString params)

/-- `build_subscribe_user_trade`. -/
def buildSubscribeUserTrade (nonce : UInt64) (instrumentName : Bytes) :
    Json Binary64 × CryptoComMessageBuilder Binary64 :=
  let params := channelParams (text "user.trade") instrumentName
  builder.signedRequest nonce (text "subscribe") params (builder.auth.parameterString params)

/-- `build_heartbeat_response`. -/
def buildHeartbeatResponse (requestId : UInt64) : Json Binary64 :=
  .object [("id", .ofUInt64 requestId), ("method", .string (text "public/respond-heartbeat"))]

/-- The calls of the builder, with the clock readings they get. -/
inductive Request
  | auth (nonce : UInt64)
  | createOrder (nonce : UInt64) (trade : Trade Binary64)
  | cancelOrder (nonce : UInt64) (instrumentName : Bytes) (orderId clientOid : UInt64)
  | cancelAllOrders (nonce : UInt64) (instrumentName : Bytes)
  | getOpenOrders (nonce : UInt64) (instrumentName : Bytes)
  | subscribeUserOrder (nonce : UInt64) (instrumentName : Bytes)
  | subscribeUserTrade (nonce : UInt64) (instrumentName : Bytes)
  | heartbeatResponse (requestId : UInt64)

def Request.isSigned : Request → Bool
  | .heartbeatResponse _ => false
  | _ => true

def build : Request → Json Binary64 × CryptoComMessageBuilder Binary64
  | .auth nonce => builder.buildAuthRequest nonce
  | .createOrder nonce trade => builder.buildCreateOrder nonce trade
  | .cancelOrder nonce instrumentName orderId clientOid =>
      builder.buildCancelOrder nonce instrumentName orderId clientOid
  | .cancelAllOrders nonce instrumentName => builder.buildCancelAllOrders nonce instrumentName
  | .getOpenOrders nonce instrumentName => builder.buildGetOpenOrders nonce instrumentName
  | .subscribeUserOrder nonce instrumentName =>
      builder.buildSubscribeUserOrder nonce instrumentName
  | .subscribeUserTrade nonce instrumentName =>
      builder.buildSubscribeUserTrade nonce instrumentName
  | .heartbeatResponse requestId => (buildHeartbeatResponse requestId, builder)

/-- The exchange accepts the signature of a message that has the id. -/
def Verifies (auth : AuthHandler Binary64) (id : UInt64) (msg : Json Binary64) : Prop :=
  ∃ method nonce,
    msg.find "id" = some (.ofUInt64 id) ∧
    msg.find "method" = some (.string method) ∧
    msg.find "nonce" = some (.ofUInt64 nonce) ∧
    msg.find "sig" = some (.string (auth.signText method id
      (((msg.find "params").map auth.parameterString).getD []) nonce))

theorem Verifies.of_same
    {auth : AuthHandler Binary64} {id : UInt64} {msg msg' : Json Binary64}
    (h : Verifies auth id msg)
    (hdump : auth.DumpSorts)
    (hsame : Json.Same msg msg') :
    Verifies auth id msg' := by
  obtain ⟨method, nonce, hid, hmethod, hnonce, hsig⟩ := h
  refine ⟨method, nonce, hsame.find_integer hid, hsame.find_string hmethod,
    hsame.find_integer hnonce, ?_⟩
  rw [hsame.find_string hsig]
  rcases hsame.find "params" with ⟨hnone, hnone'⟩ | ⟨x, y, hx, hy, hxy⟩
  · rw [hnone, hnone']
  · rw [hx, hy]
    simp only [Option.map_some, Option.getD_some, hdump.parameterString hxy]

theorem verifies_signedRequest
    (nonce : UInt64) (method : Bytes) {params : Json Binary64} {paramsString : Bytes}
    (h : paramsString = builder.auth.parameterString params) :
    Verifies builder.auth builder.requestId
      (builder.signedRequest nonce method params paramsString).1 :=
  ⟨method, nonce, rfl, rfl, rfl, by rw [h]; rfl⟩

/-- No parameters are signed as the empty text. -/
theorem instrumentString_eq (instrumentName : Bytes) :
    builder.instrumentString instrumentName =
      builder.auth.parameterString (.object (instrumentParams instrumentName)) := by
  unfold instrumentString
  by_cases hname : instrumentName = []
  · subst hname
    rfl
  · rw [if_neg]
    simp [instrumentParams, memberIf, hname]

theorem verifies_build
    (request : Request)
    (h : request.isSigned = true) :
    Verifies builder.auth builder.requestId (builder.build request).1 ∧
      (builder.build request).2 = { builder with requestId := builder.requestId + 1 } := by
  cases request with
  | auth nonce =>
      exact ⟨⟨text "public/auth", nonce, rfl, rfl, rfl, rfl⟩, rfl⟩
  | createOrder nonce trade =>
      exact ⟨builder.verifies_signedRequest nonce _ rfl, rfl⟩
  | cancelOrder nonce instrumentName orderId clientOid =>
      exact ⟨builder.verifies_signedRequest nonce _ rfl, rfl⟩
  | cancelAllOrders nonce instrumentName | getOpenOrders nonce instrumentName =>
      exact ⟨builder.verifies_signedRequest nonce _ (builder.instrumentString_eq _), rfl⟩
  | subscribeUserOrder nonce instrumentName | subscribeUserTrade nonce instrumentName =>
      exact ⟨builder.verifies_signedRequest nonce _ rfl, rfl⟩
  | heartbeatResponse requestId =>
      cases h

/-- What the message of a request is, when `n` ids have been taken before. -/
def MessageOf (auth : AuthHandler Binary64) (first : UInt64) (n : Nat) (msg : Json Binary64) :
    Request → Prop
  | .heartbeatResponse requestId => msg = buildHeartbeatResponse requestId
  | _ => Verifies auth (first + UInt64.ofNat n) msg

/-- The messages of a sequence of calls. -/
def messagesOf (requests : List Request) : List (Json Binary64) :=
  (runCalls build builder requests).1

theorem messageOf_of_isSigned
    {auth : AuthHandler Binary64} {first : UInt64} {n : Nat} {msg : Json Binary64}
    {request : Request}
    (h : request.isSigned = true) :
    MessageOf auth first n msg request ↔ Verifies auth (first + UInt64.ofNat n) msg := by
  cases request with
  | heartbeatResponse => cases h
  | _ => exact Iff.rfl

theorem messageOf_messagesOf
    (requests : List Request)
    (i : Nat)
    {request : Request} {msg : Json Binary64}
    (hrequest : requests[i]? = some request)
    (hmsg : (builder.messagesOf requests)[i]? = some msg) :
    MessageOf builder.auth builder.requestId ((requests.take i).countP Request.isSigned) msg
      request := by
  induction requests generalizing builder i with
  | nil =>
      cases hrequest
  | cons first rest ih =>
      cases i with
      | zero =>
          cases hrequest
          cases hmsg
          by_cases hsigned : request.isSigned = true
          · rw [messageOf_of_isSigned hsigned, List.take_zero, List.countP_nil]
            rw [show UInt64.ofNat 0 = 0 from rfl, UInt64.add_zero]
            exact (builder.verifies_build request hsigned).1
          · cases request with
            | heartbeatResponse requestId => rfl
            | _ => exact absurd rfl hsigned
      | succ i =>
          have hrest := ih (builder.build first).2 i hrequest hmsg
          rw [List.take_succ_cons, List.countP_cons]
          by_cases hsigned : first.isSigned = true
          · rw [(builder.verifies_build first hsigned).2] at hrest
            rw [if_pos hsigned]
            cases request with
            | heartbeatResponse requestId => exact hrest
            | _ =>
                rw [messageOf_of_isSigned rfl] at hrest ⊢
                rwa [Nat.add_comm, UInt64.ofNat_add, ← UInt64.add_assoc]
          · have hsame : (builder.build first).2 = builder := by
              cases first with
              | heartbeatResponse requestId => rfl
              | _ => exact absurd rfl hsigned
            rw [hsame] at hrest
            rwa [if_neg hsigned]

/-- Of two signed requests the later one has the greater number. -/
theorem countP_take_lt
    {requests : List Request} {i j : Nat} {request : Request}
    (hrequest : requests[i]? = some request)
    (hsigned : request.isSigned = true)
    (hlt : i < j) :
    (requests.take i).countP Request.isSigned < (requests.take j).countP Request.isSigned := by
  have hnext : (requests.take (i + 1)).countP Request.isSigned =
      (requests.take i).countP Request.isSigned + 1 := by
    rw [List.take_add_one, List.countP_append, hrequest]
    simp [hsigned]
  have hle : (requests.take (i + 1)).countP Request.isSigned ≤
      (requests.take j).countP Request.isSigned :=
    (List.take_sublist_take_left hlt).countP_le
  omega

theorem eq_of_id_eq
    {n m : Nat}
    (hn : n < 2 ^ 64)
    (hm : m < 2 ^ 64)
    (h : (Json.ofUInt64 (1 + UInt64.ofNat n) : Json Binary64) =
      .ofUInt64 (1 + UInt64.ofNat m)) :
    n = m := by
  have hval := congrArg (fun value => (value.getUInt64 : Except JsonError UInt64)) h
  simp only [Json.getUInt64_ofUInt64, Except.ok.injEq] at hval
  have hnat := congrArg UInt64.toNat ((UInt64.add_right_inj 1).mp hval)
  rwa [UInt64.toNat_ofNat_of_lt' hn, UInt64.toNat_ofNat_of_lt' hm] at hnat

/--
Every message verifies with its members in any order, under an id that counts the signed
requests from one; a heartbeat is answered under its own id.  No id is used twice in
`2 ^ 64` calls.
-/
theorem requests_verify
    (auth : AuthHandler Binary64)
    (hdump : auth.DumpSorts)
    (requests : List Request) :
    (∀ i request msg, requests[i]? = some request →
      ((create auth).messagesOf requests)[i]? = some msg →
      (request.isSigned = true → ∀ msg', Json.Same msg msg' →
        Verifies auth (1 + UInt64.ofNat ((requests.take i).countP Request.isSigned)) msg') ∧
      ∀ requestId, request = .heartbeatResponse requestId →
        msg = buildHeartbeatResponse requestId) ∧
    (requests.length ≤ 2 ^ 64 → ∀ (i j : Nat) (x y : Request) (msg msg' : Json Binary64), i < j →
      requests[i]? = some x → x.isSigned = true →
      requests[j]? = some y → y.isSigned = true →
      ((create auth).messagesOf requests)[i]? = some msg →
      ((create auth).messagesOf requests)[j]? = some msg' →
      msg.find "id" ≠ msg'.find "id") := by
  have hverifies : ∀ i request msg, requests[i]? = some request → request.isSigned = true →
      ((create auth).messagesOf requests)[i]? = some msg →
      Verifies auth (1 + UInt64.ofNat ((requests.take i).countP Request.isSigned)) msg := by
    intro i request msg hrequest hsigned hmsg
    exact (messageOf_of_isSigned hsigned).mp
      ((create auth).messageOf_messagesOf requests i hrequest hmsg)
  refine ⟨fun i request msg hrequest hmsg => ⟨?_, ?_⟩, ?_⟩
  · intro hsigned msg' hsame
    exact (hverifies i request msg hrequest hsigned hmsg).of_same hdump hsame
  · rintro requestId rfl
    exact (create auth).messageOf_messagesOf requests i hrequest hmsg
  · intro hlength i j x y msg msg' hlt hx hxs hy hys hmsg hmsg' hsame
    obtain ⟨-, -, hid, -⟩ := hverifies i x msg hx hxs hmsg
    obtain ⟨-, -, hid', -⟩ := hverifies j y msg' hy hys hmsg'
    rw [hid, hid', Option.some.injEq] at hsame
    have hlater := countP_take_lt hx hxs hlt
    have hj := (List.getElem?_eq_some_iff.mp hy).1
    have hcount : (requests.take j).countP Request.isSigned ≤ j :=
      List.countP_le_length.trans (List.length_take_le j requests)
    exact absurd (eq_of_id_eq (by omega) (by omega) hsame) (Nat.ne_of_lt hlater)

/-- The hashes of two payloads under the secret key `secret`. -/
def secretHmac (payload : Bytes) : Bytes :=
  if payload = text "public/auth1key1700000000000" then
    text "91413641dce53684a494ccf014ab4d70f2d0e601abfdfd9b26afaa949c4f137a"
  else if payload = text "private/cancel-all-orders2keyinstrument_nameBTC_USDT1700000000001" then
    text "1efa74e58102bcfbfd19646a47395aa0a6e53fdaf877d57a30528db23969b661"
  else []

def secretAuth : AuthHandler Binary64 where
  apiKey := text "key"
  hmacSha256 := secretHmac
  dump _ := []

/-- The second signed request of a session, with its members from the last to the first. -/
def reversedCancelAll : Json Binary64 :=
  .object
    [("nonce", .ofUInt64 1700000000001),
      ("sig", .string
        (text "1efa74e58102bcfbfd19646a47395aa0a6e53fdaf877d57a30528db23969b661")),
      ("params", .object [("instrument_name", .string (text "BTC_USDT"))]),
      ("method", .string (text "private/cancel-all-orders")),
      ("id", .ofUInt64 2)]

theorem requests_verify_after_heartbeat :
    Verifies secretAuth 2 reversedCancelAll := by
  have hmessage : ((create secretAuth).messagesOf
      [.auth 1700000000000, .heartbeatResponse 42,
        .cancelAllOrders 1700000000001 (text "BTC_USDT")])[2]? =
      some (.object
        [("id", .ofUInt64 2), ("method", .string (text "private/cancel-all-orders")),
          ("params", .object [("instrument_name", .string (text "BTC_USDT"))]),
          ("sig", .string
            (text "1efa74e58102bcfbfd19646a47395aa0a6e53fdaf877d57a30528db23969b661")),
          ("nonce", .ofUInt64 1700000000001)]) := by
    have hsig : secretAuth.signText (text "private/cancel-all-orders") 2
        ((create secretAuth).instrumentString (text "BTC_USDT")) 1700000000001 =
        text "1efa74e58102bcfbfd19646a47395aa0a6e53fdaf877d57a30528db23969b661" := by
      decide +kernel
    rw [← hsig]
    rfl
  refine ((requests_verify secretAuth (fun _ _ _ => rfl) _).1 2 _ _ rfl hmessage).1 rfl _ ?_
  exact Json.Same.of_perm (by decide) (List.reverse_perm _).symm

end CryptoComMessageBuilder

end Exchange
end CryptoHft
