import CryptoHft.Ipc.CommandServer

/-!
# The requests that the command server accepts

`Request` is the grammar of the protocol, over the fields of the decoded object:
the command is the text of `cmd`, and the tickers are the texts among the value of
`ticker` and the elements of `tickers`.

`parse_command_line` follows it and tolerates a `ticker` or `tickers` of another
type, but reads `cmd` by `value("cmd", "")`, which throws if `cmd` is there and is
not a text.  Nothing catches the exception, and `accept_loop` runs on a thread of
its own.
-/

namespace CryptoHft
namespace Ipc

open Lib

variable {R : Type}

/-- The elements of `tickers`. -/
def tickerItems (fields : List (String × Json R)) : List (Json R) :=
  match fields.lookup "tickers" with
  | some (.array items) => items
  | _ => []

/-- The grammar of a request. -/
structure Request (fields : List (String × Json R)) (command : ClientCommand) : Prop where
  cmd : ∃ name, fields.lookup "cmd" = some (.string name) ∧
    ((name = text "subscribe" ∧ command.type = .subscribe) ∨
      (name = text "snapshot" ∧ command.type = .snapshot) ∨
      (name = text "ping" ∧ command.type = .ping))
  tickers : command.tickers.map .string =
    (fields.lookup "ticker").toList.filter Json.isString ++ (tickerItems fields).filter Json.isString
  required : command.type = .subscribe ∨ command.type = .snapshot → command.tickers ≠ []

/-- If a decoded request is an object with a `cmd`, then this is a text. -/
def CmdIsText : Option (Json R) → Bool
  | some (.object fields) => (Json.object fields).textOrAbsent "cmd"
  | _ => true

/-- `parse_command_line` accepts exactly the grammar on this line, and does not throw. -/
structure AcceptsGrammar (json : NlohmannJson R) (line : Bytes) : Prop where
  returns : ∃ result, parseCommandLine json line = .ok result
  accepts : ∀ command, parseCommandLine json line = .ok (.ok command) ↔
    ∃ fields, json.parse line = some (.object fields) ∧ Request fields command
  refuses : (∃ error, parseCommandLine json line = .ok (.error error) ∧ error ≠ []) ↔
    ¬ ∃ fields command, json.parse line = some (.object fields) ∧ Request fields command
  /-- `tickers.front()` is read on a list that has an element. -/
  front : ∀ command, parseCommandLine json line = .ok (.ok command) →
    command.type = .snapshot → command.tickers ≠ []

/--
`accept_loop`, over what the clients send; a failed `accept` is no client.  What can end the
thread here is an exception of `parse_command_line`.  Exceptions of the callbacks and the signal
that `write_response` meets when a client closes early are outside the model.
-/
def acceptLoop (json : NlohmannJson R) (callbacks : ServerCallbacks R) :
    List (Option (List Bytes)) → Except JsonError (List Handled)
  | [] => .ok []
  | none :: clients => acceptLoop json callbacks clients
  | some reads :: clients => do
      let handled ← handleClient json callbacks reads
      return handled :: (← acceptLoop json callbacks clients)

section Texts

theorem map_stringOf
    (items : List (Json R)) :
    (items.filterMap stringOf).map .string = items.filter Json.isString := by
  induction items with
  | nil =>
      rfl
  | cons item items ih =>
      cases item <;> simp [List.filterMap_cons, List.filter_cons, stringOf, Json.isString, ih]

theorem commandTickers_object
    (fields : List (String × Json R)) :
    commandTickers (.object fields) =
      (fields.lookup "ticker").toList.filterMap stringOf ++
        (tickerItems fields).filterMap stringOf := by
  simp only [commandTickers, Json.find, tickerItems]
  congr 1
  · cases fields.lookup "ticker" with
    | none => rfl
    | some value => cases hvalue : stringOf value <;> simp [hvalue]
  · cases fields.lookup "tickers" with
    | none => rfl
    | some value => cases value <;> rfl

/-- The tickers of a command are the texts of the request, in order. -/
theorem map_commandTickers
    (fields : List (String × Json R)) :
    (commandTickers (.object fields)).map .string =
      (fields.lookup "ticker").toList.filter Json.isString ++
        (tickerItems fields).filter Json.isString := by
  rw [commandTickers_object, List.map_append, map_stringOf, map_stringOf]

theorem commandTickers_eq_of_map
    {fields : List (String × Json R)} {tickers : List Bytes}
    (h : tickers.map .string =
      (fields.lookup "ticker").toList.filter Json.isString ++
        (tickerItems fields).filter Json.isString) :
    tickers = commandTickers (.object fields) := by
  rw [← map_commandTickers] at h
  exact List.map_injective_iff.mpr (fun a b hab => by cases hab; rfl) h

theorem commandTypeFromString_cases
    (name : Bytes) :
    (name = text "subscribe" ∧ commandTypeFromString name = .subscribe) ∨
      (name = text "snapshot" ∧ commandTypeFromString name = .snapshot) ∨
      (name = text "ping" ∧ commandTypeFromString name = .ping) ∨
      (name ≠ text "subscribe" ∧ name ≠ text "snapshot" ∧ name ≠ text "ping" ∧
        commandTypeFromString name = .unknown) := by
  rw [commandTypeFromString]
  split
  · exact .inl ⟨‹_›, rfl⟩
  · split
    · exact .inr (.inl ⟨‹_›, rfl⟩)
    · split
      · exact .inr (.inr (.inl ⟨‹_›, rfl⟩))
      · exact .inr (.inr (.inr ⟨‹_›, ‹_›, ‹_›, rfl⟩))

end Texts

section Parsing

variable {json : NlohmannJson R} {line : Bytes} {fields : List (String × Json R)}

theorem parseCommandLine_of_not_object
    (h : ∀ fields, json.parse line ≠ some (.object fields)) :
    parseCommandLine json line = .ok (.error (text "invalid JSON object")) := by
  rw [parseCommandLine]
  split
  · exact absurd ‹_› (h _)
  · rfl

theorem parseCommandLine_of_name
    (hparse : json.parse line = some (.object fields))
    {name : Bytes}
    (hname : commandName (.object fields) = .ok name) :
    parseCommandLine json line =
      .ok (if commandTypeFromString name = .unknown then .error (text "unknown command")
        else if (commandTypeFromString name = .subscribe ∨
            commandTypeFromString name = .snapshot) ∧ commandTickers (.object fields) = [] then
          .error (text "ticker is required")
        else .ok ⟨commandTypeFromString name, commandTickers (.object fields)⟩) := by
  simp only [parseCommandLine, hparse, hname, bind, Except.bind, pure, Except.pure]
  split
  · rfl
  · split <;> rfl

/-- The exception of `value("cmd", "")` leaves `parse_command_line`. -/
theorem parseCommandLine_of_throw
    (hparse : json.parse line = some (.object fields))
    {e : JsonError}
    (hname : commandName (.object fields) = .error e) :
    parseCommandLine json line = .error e := by
  simp only [parseCommandLine, hparse, hname, bind, Except.bind]

/-- A `cmd` that is a text, or is not there, gives a name. -/
theorem exists_commandName_iff :
    (∃ name, commandName (.object fields) = .ok name) ↔
      CmdIsText (some (.object fields)) = true := by
  simp only [commandName, CmdIsText, Json.textOrAbsent, Json.find]
  cases fields.lookup "cmd" with
  | none => simp
  | some value => cases value <;> simp [Json.getString, Json.isString]

/-- The name of the command, when the grammar has one. -/
theorem Request.commandName
    {command : ClientCommand}
    (h : Request fields command) :
    ∃ name, Ipc.commandName (.object fields) = .ok name ∧
      commandTypeFromString name = command.type ∧ command.type ≠ .unknown := by
  obtain ⟨name, hcmd, hname⟩ := h.cmd
  refine ⟨name, by simp [Ipc.commandName, Json.find, hcmd, Json.getString], ?_⟩
  rcases hname with ⟨rfl, htype⟩ | ⟨rfl, htype⟩ | ⟨rfl, htype⟩ <;> rw [htype] <;>
    exact ⟨by decide +kernel, by simp⟩

/-- A known command with the tickers it needs is a request of the grammar. -/
theorem request_of_commandName
    {name : Bytes}
    (hname : commandName (.object fields) = .ok name)
    (hknown : commandTypeFromString name ≠ .unknown)
    (htickers : commandTypeFromString name = .subscribe ∨
      commandTypeFromString name = .snapshot → commandTickers (.object fields) ≠ []) :
    Request fields ⟨commandTypeFromString name, commandTickers (.object fields)⟩ := by
  refine ⟨?_, map_commandTickers fields, htickers⟩
  have hcmd : fields.lookup "cmd" = some (.string name) := by
    simp only [commandName, Json.find] at hname
    cases hlookup : fields.lookup "cmd" with
    | none =>
        rw [hlookup, Except.ok.injEq] at hname
        rw [← hname] at hknown
        exact absurd (by decide +kernel) hknown
    | some value =>
        rw [hlookup] at hname
        rw [Json.getString_eq_ok hname]
  refine ⟨name, hcmd, ?_⟩
  rcases commandTypeFromString_cases name with h | h | h | h
  · exact .inl h
  · exact .inr (.inl h)
  · exact .inr (.inr h)
  · exact absurd h.2.2.2 hknown

/-- A command is returned exactly for a request of the grammar. -/
theorem parseCommandLine_eq_command_iff
    (command : ClientCommand) :
    parseCommandLine json line = .ok (.ok command) ↔
      ∃ fields, json.parse line = some (.object fields) ∧ Request fields command := by
  constructor
  · intro hresult
    by_cases hobject : ∃ fields, json.parse line = some (.object fields)
    · obtain ⟨fields, hparse⟩ := hobject
      refine ⟨fields, hparse, ?_⟩
      cases hname : commandName (.object fields) with
      | error e =>
          rw [parseCommandLine_of_throw hparse hname] at hresult
          cases hresult
      | ok name =>
          rw [parseCommandLine_of_name hparse hname, Except.ok.injEq] at hresult
          split at hresult
          · cases hresult
          · rename_i hknown
            split at hresult
            · cases hresult
            · rename_i htickers
              cases hresult
              exact request_of_commandName hname hknown (fun htype hnil => htickers ⟨htype, hnil⟩)
    · rw [parseCommandLine_of_not_object (fun fields hparse => hobject ⟨fields, hparse⟩)] at hresult
      cases hresult
  · rintro ⟨fields, hparse, hrequest⟩
    obtain ⟨name, hname, htype, hknown⟩ := hrequest.commandName
    have htickers := commandTickers_eq_of_map hrequest.tickers
    rw [parseCommandLine_of_name hparse hname, htype, if_neg hknown, ← htickers,
      if_neg (fun h => hrequest.required h.1 h.2)]

/-- It does not throw exactly if `cmd` is a text where it is there. -/
theorem parseCommandLine_returns_iff :
    (∃ result, parseCommandLine json line = .ok result) ↔
      CmdIsText (json.parse line) = true := by
  by_cases hobject : ∃ fields, json.parse line = some (.object fields)
  · obtain ⟨fields, hparse⟩ := hobject
    rw [hparse, ← exists_commandName_iff]
    constructor
    · rintro ⟨result, hresult⟩
      cases hname : commandName (.object fields) with
      | error e =>
          rw [parseCommandLine_of_throw hparse hname] at hresult
          cases hresult
      | ok name =>
          exact ⟨name, rfl⟩
    · rintro ⟨name, hname⟩
      exact ⟨_, parseCommandLine_of_name hparse hname⟩
  · have hnot : ∀ fields, json.parse line ≠ some (.object fields) :=
      fun fields hparse => hobject ⟨fields, hparse⟩
    refine iff_of_true ⟨_, parseCommandLine_of_not_object hnot⟩ ?_
    rw [CmdIsText]
    exact hnot

/-- The texts of the errors are not empty. -/
theorem error_ne_nil
    {error : Bytes}
    (h : parseCommandLine json line = .ok (.error error)) :
    error ≠ [] := by
  by_cases hobject : ∃ fields, json.parse line = some (.object fields)
  · obtain ⟨fields, hparse⟩ := hobject
    cases hname : commandName (.object fields) with
    | error e =>
        rw [parseCommandLine_of_throw hparse hname] at h
        cases h
    | ok name =>
        rw [parseCommandLine_of_name hparse hname, Except.ok.injEq] at h
        split at h
        · cases h
          decide +kernel
        · split at h
          · cases h
            decide +kernel
          · cases h
  · rw [parseCommandLine_of_not_object (fun fields hparse => hobject ⟨fields, hparse⟩)] at h
    cases h
    decide +kernel

theorem acceptsGrammar_iff
    (json : NlohmannJson R)
    (line : Bytes) :
    AcceptsGrammar json line ↔ CmdIsText (json.parse line) = true := by
  refine ⟨fun h => parseCommandLine_returns_iff.mp h.returns, ?_⟩
  intro hcmd
  obtain ⟨result, hresult⟩ := parseCommandLine_returns_iff.mpr hcmd
  refine ⟨⟨result, hresult⟩, parseCommandLine_eq_command_iff, ?_, ?_⟩
  · constructor
    · rintro ⟨error, herror, -⟩ ⟨fields, command, hparse, hrequest⟩
      have hcommand := (parseCommandLine_eq_command_iff command).mpr ⟨fields, hparse, hrequest⟩
      rw [herror] at hcommand
      cases hcommand
    · intro hnone
      cases result with
      | error error =>
          exact ⟨error, hresult, error_ne_nil hresult⟩
      | ok command =>
          obtain ⟨fields, hparse, hrequest⟩ := (parseCommandLine_eq_command_iff command).mp hresult
          exact absurd ⟨fields, command, hparse, hrequest⟩ hnone
  · intro command hcommand htype
    obtain ⟨fields, -, hrequest⟩ := (parseCommandLine_eq_command_iff command).mp hcommand
    exact hrequest.required (.inr htype)

end Parsing

section Server

/-- The line of a client, when it is not too large, has a `cmd` that is a text. -/
def RequestOk (json : NlohmannJson R) (reads : List Bytes) : Prop :=
  ∀ line, readRequest [] reads = some line → CmdIsText (json.parse (firstLine line)) = true

theorem handleClient_returns_iff
    (json : NlohmannJson R)
    (callbacks : ServerCallbacks R)
    (reads : List Bytes) :
    (∃ handled, handleClient json callbacks reads = .ok handled) ↔ RequestOk json reads := by
  rw [RequestOk, handleClient]
  cases hread : readRequest [] reads with
  | none =>
      simp
  | some line =>
      simp only [Option.some.injEq, forall_eq', ← parseCommandLine_returns_iff, bind, Except.bind,
        pure, Except.pure]
      cases parseCommandLine json (firstLine line) with
      | error e => simp
      | ok result => cases result <;> simp

theorem acceptLoop_returns_iff
    (json : NlohmannJson R)
    (callbacks : ServerCallbacks R)
    (clients : List (Option (List Bytes))) :
    (∃ handled, acceptLoop json callbacks clients = .ok handled) ↔
      ∀ reads, some reads ∈ clients → RequestOk json reads := by
  induction clients with
  | nil =>
      simp [acceptLoop]
  | cons client clients ih =>
      cases client with
      | none =>
          simpa [acceptLoop] using ih
      | some reads =>
          simp only [List.mem_cons, Option.some.injEq, forall_eq_or_imp]
          rw [← ih, ← handleClient_returns_iff json callbacks]
          simp only [acceptLoop, bind, Except.bind, pure, Except.pure]
          cases handleClient json callbacks reads with
          | error e => simp
          | ok handled => cases acceptLoop json callbacks clients <;> simp

/--
`parse_command_line` follows its grammar, and no request ends the accept thread by an
exception, as long as no request has a `cmd` that is not a text.  Callbacks that throw and
failing writes of the responses are outside the model.
-/
theorem commands_accepted_iff
    (json : NlohmannJson R) :
    (∀ line, AcceptsGrammar json line ↔ CmdIsText (json.parse line) = true) ∧
      ∀ callbacks clients, (∃ handled, acceptLoop json callbacks clients = .ok handled) ↔
        ∀ reads, some reads ∈ clients → RequestOk json reads :=
  ⟨acceptsGrammar_iff json, acceptLoop_returns_iff json⟩

end Server

section NumberAsCommand

/-- The library, on the request below. -/
def numberAsCommandJson : NlohmannJson ℚ where
  parse line :=
    if line = text "\x7b\"cmd\":1\x7d" then
      some (.object [("cmd", .integer ⟨1, by decide, by decide⟩)])
    else none
  dump _ := []

theorem number_as_command_ends_thread :
    ¬ AcceptsGrammar numberAsCommandJson (text "\x7b\"cmd\":1\x7d") ∧
      acceptLoop numberAsCommandJson ⟨none, none⟩ [some [text "\x7b\"cmd\":1\x7d\n"]] =
        .error .typeError := by
  constructor
  · rw [acceptsGrammar_iff]
    decide +kernel
  · rfl

end NumberAsCommand

end Ipc
end CryptoHft
