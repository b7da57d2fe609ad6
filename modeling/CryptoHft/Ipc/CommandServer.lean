import CryptoHft.Lib.Json
import CryptoHft.Lib.Lines

/-!
# The command server

`include/ipc/client_protocol.hpp` and the request handling of
`include/ipc/unix_domain_server.hpp`.  A client sends one JSON object on a line
and gets one JSON object on a line back.  `handleClient` reads the request in the
pieces in which it arrives, looks up the command, calls at most one callback and
makes the response; `writeResponse` writes it in the pieces that `write` takes.

The JSON library is a parameter.  What it parses is an object whose keys are in
the order of their texts, and objects are written here in that order.
-/

namespace CryptoHft
namespace Ipc

open Lib

/-- What the server uses of its JSON library. -/
structure NlohmannJson (R : Type) where
  /-- `json::parse(line, nullptr, false)`, with no value for a discarded one. -/
  parse : Bytes → Option (Json R)
  dump : Json R → Bytes

inductive CommandType
  | subscribe
  | snapshot
  | ping
  | unknown
deriving DecidableEq

structure ClientCommand where
  type : CommandType
  tickers : List Bytes
deriving DecidableEq

/-- `command_type_from_string`. -/
def commandTypeFromString (value : Bytes) : CommandType :=
  if value = text "subscribe" then .subscribe
  else if value = text "snapshot" then .snapshot
  else if value = text "ping" then .ping
  else .unknown

section Protocol

variable {R : Type}

/-- `decoded.value("cmd", "")`, which throws if the value is not a text. -/
def commandName (decoded : Json R) : Except JsonError Bytes :=
  match decoded.find "cmd" with
  | some value => value.getString
  | none => .ok []

/-- The text of a JSON text. -/
def stringOf : Json R → Option Bytes
  | .string s => some s
  | _ => none

/-- The value of `ticker`, then the texts among the elements of `tickers`. -/
def commandTickers (decoded : Json R) : List Bytes :=
  ((decoded.find "ticker").bind stringOf).toList ++
    match decoded.find "tickers" with
    | some (.array items) => items.filterMap stringOf
    | _ => []

/-- `parse_command_line`: a command, or the text of an error. -/
def parseCommandLine (json : NlohmannJson R) (line : Bytes) :
    Except JsonError (Except Bytes ClientCommand) :=
  match json.parse line with
  | some (.object fields) => do
      let decoded : Json R := .object fields
      let type := commandTypeFromString (← commandName decoded)
      if type = .unknown then
        return .error (text "unknown command")
      else if (type = .subscribe ∨ type = .snapshot) ∧ commandTickers decoded = [] then
        return .error (text "ticker is required")
      else
        return .ok ⟨type, commandTickers decoded⟩
  | _ => .ok (.error (text "invalid JSON object"))

/-- The object of `make_ok_response`. -/
def okResponse (result : Json R) : Json R :=
  .object [("ok", .bool true), ("result", result)]

/-- The object of `make_error_response`. -/
def errorResponse (message : Bytes) : Json R :=
  .object [("error", .string message), ("ok", .bool false)]

def makeOkResponse (json : NlohmannJson R) (result : Json R) : Bytes :=
  json.dump (okResponse result) ++ text "\n"

def makeErrorResponse (json : NlohmannJson R) (message : Bytes) : Bytes :=
  json.dump (errorResponse message) ++ text "\n"

end Protocol

/-- `subscribe_callback_` and `snapshot_callback_`, when they are set. -/
structure ServerCallbacks (R : Type) where
  subscribe : Option (List Bytes → Json R)
  snapshot : Option (Bytes → Json R)

/-- A call of a callback, with its argument. -/
inductive CallbackCall
  | subscribe (tickers : List Bytes)
  | snapshot (ticker : Bytes)
deriving DecidableEq

/-- What `handle_client` did: the callbacks it called, and the response it wrote. -/
structure Handled where
  calls : List CallbackCall
  response : Bytes
deriving DecidableEq

section Server

variable {R : Type}

/-- The largest request, in bytes. -/
def maxRequest : Nat :=
  64 * 1024

/--
The reading loop of `handle_client`, over the pieces that `read` returns; an empty
one, or none, is the end of the stream.  There is no line if it became too large.
-/
def readRequest (line : Bytes) : List Bytes → Option Bytes
  | [] => some line
  | c :: rest =>
      if 10 ∈ line then some line
      else if c = [] then some line
      else if maxRequest < (line ++ c).length then none
      else readRequest (line ++ c) rest

/-- The `switch` over the type of a command. -/
def dispatch (json : NlohmannJson R) (callbacks : ServerCallbacks R) (command : ClientCommand) :
    Handled :=
  match command.type with
  | .ping => ⟨[], makeOkResponse json (.object [("pong", .bool true)])⟩
  | .subscribe =>
      match callbacks.subscribe with
      | none => ⟨[], makeErrorResponse json (text "subscribe unavailable")⟩
      | some callback =>
          ⟨[.subscribe command.tickers], makeOkResponse json (callback command.tickers)⟩
  | .snapshot =>
      match callbacks.snapshot with
      | none => ⟨[], makeErrorResponse json (text "snapshot unavailable")⟩
      | some callback =>
          -- `front`: a snapshot command has a ticker
          let ticker := command.tickers.headD []
          ⟨[.snapshot ticker], makeOkResponse json (callback ticker)⟩
  | .unknown => ⟨[], makeErrorResponse json (text "unknown command")⟩

/-- `handle_client`, up to the writing of the response. -/
def handleClient (json : NlohmannJson R) (callbacks : ServerCallbacks R) (reads : List Bytes) :
    Except JsonError Handled :=
  match readRequest [] reads with
  | none => .ok ⟨[], makeErrorResponse json (text "request too large")⟩
  | some line => do
      match ← parseCommandLine json (firstLine line) with
      | .error error => return ⟨[], makeErrorResponse json error⟩
      | .ok command => return dispatch json callbacks command

/-- `write_response`: the bytes that have gone out, for the numbers that `write` returns. -/
def writeResponse (data : Bytes) : List Nat → Bytes
  | [] => []
  | n :: rest =>
      if data = [] then []
      else if n = 0 then []
      else data.take n ++ writeResponse (data.drop n) rest

/-- The calls of `write` take something each, and in the end everything. -/
structure TakesAll (data : Bytes) (writes : List Nat) : Prop where
  positive : ∀ n ∈ writes, 0 < n
  enough : data.length ≤ writes.sum

theorem writeResponse_eq
    {data : Bytes} {writes : List Nat}
    (h : TakesAll data writes) :
    writeResponse data writes = data := by
  induction writes generalizing data with
  | nil =>
      have hlength : data.length = 0 := by
        simpa using h.enough
      rw [List.length_eq_zero_iff.mp hlength]
      rfl
  | cons n rest ih =>
      by_cases hdata : data = []
      · simp [writeResponse, hdata]
      · have hn : n ≠ 0 := (h.positive n (by simp)).ne'
        have hrest : TakesAll (data.drop n) rest := by
          refine ⟨fun m hm => h.positive m (by simp [hm]), ?_⟩
          have henough := h.enough
          rw [List.sum_cons] at henough
          rw [List.length_drop]
          omega
        rw [writeResponse, if_neg hdata, if_neg hn, ih hrest, List.take_append_drop]

/-- The loop reads a whole line that is not too large, however it arrives. -/
theorem readRequest_eq
    {line body : Bytes} {chunks : List Bytes}
    (hjoined : line ++ chunks.flatten = body ++ [10])
    (hbody : 10 ∉ body)
    (hpieces : ∀ c ∈ chunks, c ≠ [])
    (hsize : (body ++ [10]).length ≤ maxRequest) :
    readRequest line chunks = some (body ++ [10]) := by
  induction chunks generalizing line with
  | nil =>
      rw [← hjoined]
      simp [readRequest]
  | cons c rest ih =>
      have hc : c ≠ [] := hpieces c (by simp)
      rw [List.flatten_cons] at hjoined
      have hline : 10 ∉ line := by
        intro hmem
        have hnil := eq_nil_of_separator hjoined hbody hmem
        exact hc (List.append_eq_nil_iff.mp hnil).1
      rw [← List.append_assoc] at hjoined
      have hroom : ¬ maxRequest < (line ++ c).length := by
        have hlength := congrArg List.length hjoined
        rw [List.length_append] at hlength
        omega
      rw [readRequest, if_neg hline, if_neg hc, if_neg hroom]
      exact ih hjoined (fun d hd => hpieces d (by simp [hd]))

/-- What the server does with a line that parses to an object of a known command. -/
theorem handleClient_eq
    {json : NlohmannJson R} {body : Bytes} {reads : List Bytes}
    {fields : List (String × Json R)}
    (callbacks : ServerCallbacks R) (name : Bytes)
    (harrives : Arrives 1024 (body ++ [10]) reads)
    (hbody : 10 ∉ body)
    (hsize : (body ++ [10]).length ≤ maxRequest)
    (hparse : json.parse body = some (.object fields))
    (hname : commandName (.object fields) = .ok name)
    (hknown : commandTypeFromString name ≠ .unknown)
    (htickers : commandTypeFromString name = .ping ∨ commandTickers (.object fields) ≠ []) :
    handleClient json callbacks reads =
      .ok (dispatch json callbacks
        ⟨commandTypeFromString name, commandTickers (.object fields)⟩) := by
  have hread : readRequest [] reads = some (body ++ [10]) :=
    readRequest_eq (by simpa using harrives.joined) hbody (fun c hc => (harrives.pieces c hc).1)
      hsize
  have hcheck : ¬ ((commandTypeFromString name = .subscribe ∨
      commandTypeFromString name = .snapshot) ∧ commandTickers (.object fields) = []) := by
    rintro ⟨htype, hnil⟩
    rcases htickers with hping | hne
    · rw [hping] at htype
      simp at htype
    · exact hne hnil
  simp only [handleClient, hread, firstLine_append hbody, parseCommandLine, hparse, hname, bind,
    Except.bind, pure, Except.pure, if_neg hknown, if_neg hcheck]

end Server

end Ipc
end CryptoHft
