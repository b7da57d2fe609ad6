import CryptoHft.Ipc.CommandServer

/-!
# The Python client and the command protocol end to end

`HftClient` of `python/hft_client.py` against the server of `CommandServer`.  The
client sends the encoded request with `sendall`, collects what it receives until
a piece has a newline, and decodes the first line.

The two JSON libraries are parameters.  `SameJson` is what is assumed of them for
one value: what one side writes is one line, and the other side reads the same
value from it.  `command_round_trip` needs it for the request and the response of
the exchange only.
-/

namespace CryptoHft
namespace Ipc

open Lib

/-- What the client uses of its JSON library, with the encoding to and from bytes. -/
structure PythonJson (R : Type) where
  /-- `json.dumps(payload, separators=(",", ":")).encode("utf-8")`. -/
  dumps : Json R → Bytes
  /-- `json.loads(line.decode("utf-8"))`, with no value for an exception. -/
  loads : Bytes → Option (Json R)

/-- The methods of the client, with their arguments. -/
inductive HftRequest
  | ping
  | subscribe (tickers : List String)
  | snapshot (ticker : String)
deriving DecidableEq

/-- What the methods of the client raise. -/
inductive ClientError (R : Type)
  | valueError
  | decodeError
  | attributeError
  /-- `RuntimeError`, with the error of the response. -/
  | runtimeError (error : Json R)

namespace HftClient

section Client

variable {R : Type}

def stringJson (s : String) : Json R :=
  .string (text s)

/-- The payload of a request. -/
def payload : HftRequest → Json R
  | .ping => .object [("cmd", stringJson "ping")]
  | .subscribe tickers =>
      .object [("cmd", stringJson "subscribe"), ("tickers", .array (tickers.map stringJson))]
  | .snapshot ticker => .object [("cmd", stringJson "snapshot"), ("ticker", stringJson ticker)]

/-- The bytes given to `sendall`. -/
def message (json : PythonJson R) (payload : Json R) : Bytes :=
  json.dumps payload ++ text "\n"

/-- The receiving loop: the pieces up to the first one that has a newline. -/
def receive : List Bytes → List Bytes
  | [] => []
  | c :: rest => if c = [] then [] else if 10 ∈ c then [c] else c :: receive rest

variable [Zero R] [DecidableEq R]

/-- The truth value of a decoded value. -/
def truthy : Json R → Bool
  | .null => false
  | .bool b => b
  | .integer i => i.val ≠ 0
  | .float x => x ≠ 0
  | .string s => s ≠ []
  | .array items => !items.isEmpty
  | .object fields => !fields.isEmpty

/-- The end of `_request`, on the decoded response. -/
def result (response : Json R) : Except (ClientError R) (Json R) :=
  match response with
  | .object _ =>
      if truthy ((response.find "ok").getD (.bool false)) then
        .ok ((response.find "result").getD (.object []))
      else
        .error (.runtimeError ((response.find "error").getD (stringJson "unknown server error")))
  | _ => .error .attributeError

/-- `_request` after `sendall`, over the pieces that `recv` returns. -/
def response (json : PythonJson R) (recvs : List Bytes) : Except (ClientError R) (Json R) :=
  match json.loads (firstLine (receive recvs).flatten) with
  | none => .error .decodeError
  | some value => result value

/-- The method of a request: what it sends, and what it makes of what it receives. -/
def call (json : PythonJson R) (request : HftRequest) :
    Except (ClientError R) (Bytes × (List Bytes → Except (ClientError R) (Json R))) :=
  if request = .subscribe [] then .error .valueError
  else .ok (message json (payload request), response json)

end Client

end HftClient

section RoundTrip

variable {R : Type}

/-- The libraries agree on a value that one side writes and the other reads. -/
structure SameJson (write : Json R → Bytes) (read : Bytes → Option (Json R)) (value : Json R) :
    Prop where
  reads : read (write value) = some value
  oneLine : 10 ∉ write value

/-- Both callbacks are set. -/
structure BothCallbacks (R : Type) where
  subscribe : List Bytes → Json R
  snapshot : Bytes → Json R

namespace BothCallbacks

def toServer (callbacks : BothCallbacks R) : ServerCallbacks R :=
  ⟨some callbacks.subscribe, some callbacks.snapshot⟩

/-- The one call that a request is for; none for a ping. -/
def due : HftRequest → List CallbackCall
  | .ping => []
  | .subscribe tickers => [.subscribe (tickers.map text)]
  | .snapshot ticker => [.snapshot (text ticker)]

/-- The value that the callback of a request produces; `pong` for a ping. -/
def answer (callbacks : BothCallbacks R) : HftRequest → Json R
  | .ping => .object [("pong", .bool true)]
  | .subscribe tickers => callbacks.subscribe (tickers.map text)
  | .snapshot ticker => callbacks.snapshot (text ticker)

end BothCallbacks

open HftClient BothCallbacks

theorem text_newline : text "\n" = [10] := by
  decide

/-- The tickers of a list of texts. -/
theorem filterMap_stringOf_stringJson
    (tickers : List String) :
    (tickers.map (stringJson (R := R))).filterMap stringOf = tickers.map text := by
  induction tickers with
  | nil =>
      rfl
  | cons ticker tickers ih =>
      simp only [List.map_cons, List.filterMap_cons, stringJson, stringOf]
      exact congrArg (text ticker :: ·) ih

/-- What the server does with the request of a client. -/
theorem handleClient_payload
    {py : PythonJson R} {nl : NlohmannJson R} {request : HftRequest} {reads : List Bytes}
    (callbacks : BothCallbacks R)
    (hissued : request ≠ .subscribe [])
    (hrequest : SameJson py.dumps nl.parse (payload request))
    (hsize : (message py (payload request)).length ≤ 65536)
    (hreads : Arrives 1024 (message py (payload request)) reads) :
    handleClient nl callbacks.toServer reads =
      .ok ⟨due request, makeOkResponse nl (callbacks.answer request)⟩ := by
  rw [message, text_newline] at hsize hreads
  cases request with
  | ping =>
      exact handleClient_eq callbacks.toServer (text "ping") hreads hrequest.oneLine hsize
        hrequest.reads rfl (by decide) (.inl (by decide))
  | subscribe tickers =>
      have htickers : commandTickers (payload (R := R) (.subscribe tickers)) =
          tickers.map text := by
        simp only [commandTickers, payload, Json.find, List.lookup]
        exact filterMap_stringOf_stringJson tickers
      have hne : tickers.map text ≠ [] := by
        intro hnil
        exact hissued (congrArg HftRequest.subscribe (List.map_eq_nil_iff.mp hnil))
      refine (handleClient_eq callbacks.toServer (text "subscribe") hreads hrequest.oneLine hsize
        hrequest.reads rfl (by decide) (.inr ?_)).trans ?_
      · exact htickers ▸ hne
      · rw [show commandTickers (.object _) = tickers.map text from htickers]
        rfl
  | snapshot ticker =>
      exact handleClient_eq callbacks.toServer (text "snapshot") hreads hrequest.oneLine hsize
        hrequest.reads rfl (by decide) (.inr (by simp [commandTickers, Json.find, List.lookup,
          stringJson, stringOf]))

/-- The client collects a whole line, however it arrives; `before` is what it has already. -/
theorem flatten_receive
    {body : Bytes} {chunks : List Bytes}
    (before : Bytes)
    (hjoined : before ++ chunks.flatten = body ++ [10])
    (hbody : 10 ∉ body)
    (hpieces : ∀ c ∈ chunks, c ≠ []) :
    (receive chunks).flatten = chunks.flatten := by
  induction chunks generalizing before with
  | nil =>
      rfl
  | cons c rest ih =>
      have hc : c ≠ [] := hpieces c (by simp)
      rw [List.flatten_cons, ← List.append_assoc] at hjoined
      by_cases hmem : 10 ∈ c
      · have hrest : rest.flatten = [] :=
          eq_nil_of_separator hjoined hbody (by simp [hmem])
        rw [receive, if_neg hc, if_pos hmem]
        simp [hrest]
      · rw [receive, if_neg hc, if_neg hmem, List.flatten_cons,
          ih (before ++ c) hjoined (fun d hd => hpieces d (by simp [hd])), List.flatten_cons]

variable [Zero R] [DecidableEq R]

/-- What the client makes of a response without error. -/
theorem response_okResponse
    {py : PythonJson R} {nl : NlohmannJson R} {value : Json R} {recvs : List Bytes}
    (hresponse : SameJson nl.dump py.loads (okResponse value))
    (hrecvs : Arrives 4096 (makeOkResponse nl value) recvs) :
    response py recvs = .ok value := by
  have hjoined := hrecvs.joined
  rw [makeOkResponse, text_newline] at hjoined
  have hreceived : (receive recvs).flatten = nl.dump (okResponse value) ++ [10] := by
    rw [flatten_receive [] hjoined hresponse.oneLine (fun c hc => (hrecvs.pieces c hc).1),
      hjoined]
  simp only [response, hreceived, firstLine_append hresponse.oneLine, hresponse.reads]
  rfl

/--
For every request of the client and every way in which it and its response are cut
on the way: the server calls the callback of the request once and no other, with
the tickers of the request in their order, and the client returns the value that
the callback produced.
-/
theorem command_round_trip
    (py : PythonJson R) (nl : NlohmannJson R)
    (callbacks : BothCallbacks R) (request : HftRequest)
    {sent : Bytes} {returns : List Bytes → Except (ClientError R) (Json R)}
    (hcall : HftClient.call py request = .ok (sent, returns))
    (hsize : sent.length ≤ 65536)
    (hrequest : SameJson py.dumps nl.parse (payload request))
    (hresponse : SameJson nl.dump py.loads (okResponse (callbacks.answer request)))
    {reads : List Bytes}
    (hreads : Arrives 1024 sent reads) :
    ∃ handled, handleClient nl callbacks.toServer reads = .ok handled ∧
      handled.calls = due request ∧
      ∀ writes, TakesAll handled.response writes →
        ∀ recvs, Arrives 4096 (writeResponse handled.response writes) recvs →
          returns recvs = .ok (callbacks.answer request) := by
  rw [HftClient.call] at hcall
  split at hcall
  · cases hcall
  · rename_i hissued
    cases hcall
    refine ⟨_, handleClient_payload callbacks hissued hrequest hsize hreads, rfl, ?_⟩
    intro writes hwrites recvs hrecvs
    rw [writeResponse_eq hwrites] at hrecvs
    exact response_okResponse hresponse hrecvs

end RoundTrip

section Snapshot

open HftClient

/-- The client's library, on a snapshot request and on the response below. -/
def pythonJson : PythonJson ℚ where
  dumps
    | .object [("cmd", .string cmd), ("ticker", .string ticker)] =>
        text "\x7b\"cmd\":\"" ++ cmd ++ text "\",\"ticker\":\"" ++ ticker ++ text "\"\x7d"
    | _ => []
  loads line :=
    if line = text "\x7b\"ok\":true,\"result\":\x7b\"ticker\":\"BTC_USDT\"\x7d\x7d" then
      some (okResponse (.object [("ticker", stringJson "BTC_USDT")]))
    else none

/-- The server's library, on the same request and response. -/
def nlohmannJson : NlohmannJson ℚ where
  parse line :=
    if line = text "\x7b\"cmd\":\"snapshot\",\"ticker\":\"BTC_USDT\"\x7d" then
      some (payload (.snapshot "BTC_USDT"))
    else none
  dump
    | .object [("ok", .bool true), ("result", .object [("ticker", .string ticker)])] =>
        text "\x7b\"ok\":true,\"result\":\x7b\"ticker\":\"" ++ ticker ++ text "\"\x7d\x7d"
    | _ => []

/-- Callbacks that give back what they were asked for. -/
def echo : BothCallbacks ℚ where
  subscribe tickers := .object [("tickers", .array (tickers.map .string))]
  snapshot ticker := .object [("ticker", .string ticker)]

theorem command_round_trip_snapshot :
    ∃ handled, handleClient nlohmannJson echo.toServer
        [(message pythonJson (payload (.snapshot "BTC_USDT"))).take 7,
          (message pythonJson (payload (.snapshot "BTC_USDT"))).drop 7] = .ok handled ∧
      handled.calls = [.snapshot (text "BTC_USDT")] ∧
      ∀ writes, TakesAll handled.response writes →
        ∀ recvs, Arrives 4096 (writeResponse handled.response writes) recvs →
          response pythonJson recvs =
            .ok (.object [("ticker", stringJson "BTC_USDT")]) := by
  refine command_round_trip pythonJson nlohmannJson echo (.snapshot "BTC_USDT") rfl
    (by decide +kernel) ⟨by rfl, by decide +kernel⟩ ⟨by rfl, by decide +kernel⟩ ⟨?_, ?_⟩
  · simp only [List.flatten_cons, List.flatten_nil, List.append_nil]
    exact List.take_append_drop 7 _
  · decide +kernel

end Snapshot

end Ipc
end CryptoHft
