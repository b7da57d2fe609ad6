import CryptoHft.Exchange.MarketDataSession
import CryptoHft.Exchange.SignedRequests

/-!
# Answers to heartbeats

Both clients answer a heartbeat of the exchange under the id that it came with.  The
client of the user feed reads the id as a `uint64_t`; the market data client reads it with
the default value `0`, which makes it an `int`, and keeps its low 32 bits only.  The ids of
the exchange are times in milliseconds.
-/

namespace CryptoHft
namespace Exchange

open Lib

namespace CryptoComResponseParser

/-- `is_heartbeat`. -/
def isHeartbeat (msg : Json Binary64) : Prop :=
  msg.find "method" = some (.string (text "public/heartbeat"))

/-- `get_heartbeat_id`. -/
def getHeartbeatId (msg : Json Binary64) : Except JsonError UInt64 :=
  match msg.find "id" with
  | some value => value.getUInt64
  | none => .ok 0

end CryptoComResponseParser

open CryptoComResponseParser CryptoComMarketDataClient

/-- What the client of the user feed sends for a heartbeat, if the id can be read. -/
def userReply (msg : Json Binary64) : Option (Json Binary64) :=
  (getHeartbeatId msg).toOption.map CryptoComMessageBuilder.buildHeartbeatResponse

section Replies

variable {parse : Bytes → Option (Json Binary64)} {message : Bytes} {msg : Json Binary64}

theorem valueString_of_isHeartbeat
    (hheartbeat : isHeartbeat msg) :
    msg.valueString "method" [] = .ok (text "public/heartbeat") := by
  cases msg with
  | object fields =>
      have hlookup : fields.lookup "method" = some (.string (text "public/heartbeat")) :=
        hheartbeat
      simp only [Json.valueString, hlookup, Json.getString]
  | null | bool | integer | float | string | array =>
      cases hheartbeat

theorem reply_of_isHeartbeat
    (hparse : parse message = some msg)
    (hheartbeat : isHeartbeat msg) :
    (handleMessage parse message).reply = (heartbeatId msg).toOption.map respondHeartbeat := by
  unfold handleMessage
  rw [hparse]
  simp only [valueString_of_isHeartbeat hheartbeat, if_true]
  cases heartbeatId msg <;> rfl

theorem toNat_ofInt
    {i : JsonInt} :
    ((UInt64.ofInt i.val).toNat : Int) = i.val % 2 ^ 64 := by
  have hlower := Int.emod_nonneg i.val (show (2 : Int) ^ 64 ≠ 0 by decide)
  have hupper := Int.emod_lt_of_pos i.val (show (0 : Int) < 2 ^ 64 by decide)
  rw [UInt64.ofInt, UInt64.toNat_ofNat', Nat.mod_eq_of_lt (by omega)]
  omega

end Replies

/--
For a heartbeat with an integer as its id the two clients send the same reply exactly if
the id is neither negative nor beyond 31 bits.
-/
theorem heartbeat_replies_agree_iff
    (parse : Bytes → Option (Json Binary64))
    (message : Bytes)
    {msg : Json Binary64} {i : JsonInt}
    (hparse : parse message = some msg)
    (hheartbeat : isHeartbeat msg)
    (hid : msg.find "id" = some (.integer i)) :
    (handleMessage parse message).reply = userReply msg ↔ 0 ≤ i.val ∧ i.val < 2 ^ 31 := by
  have hmarket : heartbeatId msg = .ok (Int32.ofInt i.val) := by
    simp only [heartbeatId, hid]
    rfl
  have huser : getHeartbeatId msg = .ok (UInt64.ofInt i.val) := by
    simp only [getHeartbeatId, hid]
    rfl
  have hreplies : (handleMessage parse message).reply = userReply msg ↔
      (Int32.ofInt i.val).toInt = (UInt64.ofInt i.val).toNat := by
    rw [reply_of_isHeartbeat hparse hheartbeat, userReply, hmarket, huser]
    show some (respondHeartbeat (Int32.ofInt i.val)) =
      some (CryptoComMessageBuilder.buildHeartbeatResponse (UInt64.ofInt i.val)) ↔ _
    rw [Option.some.injEq, respondHeartbeat, CryptoComMessageBuilder.buildHeartbeatResponse]
    simp only [Json.ofInt64, Json.ofUInt64, JsonInt.ofInt64, JsonInt.ofUInt64, Json.object.injEq,
      List.cons.injEq, Prod.mk.injEq, Json.integer.injEq, JsonInt.mk.injEq, and_true, true_and,
      Int32.toInt_toInt64]
  have hlow : (Int32.ofInt i.val).toInt = i.val.bmod (2 ^ 32) := Int32.toInt_ofInt
  have hlower := i.lower
  have hupper := i.upper
  rw [hreplies, toNat_ofInt, hlow]
  constructor
  · intro heq
    have hsmall := Int.bmod_lt (x := i.val) (m := 2 ^ 32) (by decide)
    omega
  · rintro ⟨hnonneg, hsmall⟩
    rw [Int.bmod_eq_of_le (by omega) (by omega)]
    omega

/-- A heartbeat, and its text. -/
def heartbeatOf (id : UInt64) : Json Binary64 :=
  .object [("id", .ofUInt64 id), ("method", .string (text "public/heartbeat"))]

def heartbeatText (id : UInt64) : Bytes :=
  text "\x7b\"id\":" ++ decimal id.toNat ++ text ",\"method\":\"public/heartbeat\"\x7d"

/-- What the JSON library makes of the texts of two heartbeats. -/
def parseHeartbeats (message : Bytes) : Option (Json Binary64) :=
  if message = heartbeatText 5 then some (heartbeatOf 5)
  else if message = heartbeatText 1587523073344 then some (heartbeatOf 1587523073344)
  else none

theorem heartbeat_replies_agree_iff_in_milliseconds :
    (handleMessage parseHeartbeats (heartbeatText 5)).reply = userReply (heartbeatOf 5) ∧
      (handleMessage parseHeartbeats (heartbeatText 1587523073344)).reply ≠
        userReply (heartbeatOf 1587523073344) := by
  have hparse : parseHeartbeats (heartbeatText 1587523073344) =
      some (heartbeatOf 1587523073344) := by
    have hother : heartbeatText 1587523073344 ≠ heartbeatText 5 := by decide +kernel
    rw [parseHeartbeats, if_neg hother, if_pos rfl]
  constructor
  · exact (heartbeat_replies_agree_iff parseHeartbeats _ (if_pos rfl) rfl rfl).mpr (by decide)
  · intro heq
    exact absurd ((heartbeat_replies_agree_iff parseHeartbeats _ hparse rfl rfl).mp heq)
      (by decide)

end Exchange
end CryptoHft
