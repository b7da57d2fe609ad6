import CryptoHft.Storage.JsonlLossless

/-!
# Restarts: the file and the in-memory store agree

A file is the product of sessions: the storage is opened on it, its threads run
in any schedule, and the first call of `close` returns.  `Sessions` is the
relation between such a file and the events that all its sessions accepted.  The
file then holds one line for each of these events, stamped with consecutive
offsets from 0 on, and opening it once more recovers exactly this list, which is
also what an `InMemoryStorage` holds that received the same events.

What is used of the JSON library is collected in `RoundTrips`.
-/

namespace CryptoHft
namespace Storage

open Lib

/-- What the storage relies on to read an event back. -/
structure RoundTrips {R : Type} (json : JsonText R) (event : StorageEvent R) : Prop where
  parse_record : json.parse (record json event) = some (storageEventToJson event)
  noNewline : 10 ∉ record json event
  nonempty : record json event ≠ []

section Stamped

variable {R : Type}

theorem payloadMatchesType_of_mem_stampFrom
    {offset : UInt64} {log : List (StorageEvent R × Int64)}
    (h : ∀ e ∈ log, payloadMatchesType e.1 = true) :
    ∀ event ∈ stampFrom offset log, payloadMatchesType event = true := by
  induction log generalizing offset with
  | nil =>
      simp [stampFrom]
  | cons e rest ih =>
      intro event hevent
      rcases List.mem_cons.mp hevent with rfl | hevent
      · exact h e (by simp)
      · exact ih (fun q hq => h q (by simp [hq])) event hevent

/-- The offset after a list that is stamped from 0 on. -/
theorem offsetAfter_stampFrom (log : List (StorageEvent R × Int64)) :
    offsetAfter (stampFrom 0 log) = UInt64.ofNat log.length := by
  rcases List.eq_nil_or_concat log with rfl | ⟨front, e, rfl⟩
  · rfl
  · rw [List.concat_eq_append, stampFrom_append, List.length_append, UInt64.ofNat_add]
    simp [offsetAfter, stampFrom, stamp]

theorem sortByOffset_of_increasing
    {events : List (StorageEvent R)}
    (h : Increasing events) :
    sortByOffset events = events :=
  List.Pairwise.insertionSort_eq (h.imp UInt64.le_of_lt)

/-- What an in-memory store holds after it received a typed log. -/
theorem foldl_append_events
    {log : List (StorageEvent R × Int64)}
    (h : ∀ e ∈ log, payloadMatchesType e.1 = true)
    (s : InMemoryStorage R)
    (hopen : s.closed = false) :
    (log.foldl (fun s e => (s.append e.1 e.2).2) s).events =
      s.events ++ stampFrom s.nextOffset log := by
  induction log generalizing s with
  | nil =>
      simp [stampFrom]
  | cons e rest ih =>
      rw [List.foldl_cons, InMemoryStorage.append_of_open hopen (h e (by simp))]
      refine (ih (fun q hq => h q (by simp [hq])) _ ?_).trans ?_
      · exact hopen
      · simp [stampFrom]

theorem received_events
    {log : List (StorageEvent R × Int64)}
    (h : ∀ e ∈ log, payloadMatchesType e.1 = true) :
    (InMemoryStorage.received log).events = stampFrom 0 log := by
  rw [InMemoryStorage.received, foldl_append_events h _ rfl]
  rfl

end Stamped

section Reading

variable {R : Type} {json : JsonText R}

theorem flatMap_line (events : List (StorageEvent R)) :
    events.flatMap (line json) = framed (events.map (record json)) := by
  rw [framed, List.flatMap_map]
  rfl

variable [Double R]

theorem decodeLine_record
    {event : StorageEvent R}
    (hjson : RoundTrips json event)
    (htype : payloadMatchesType event = true) :
    decodeLine json (record json event) = some event := by
  rw [decodeLine, hjson.parse_record, Option.bind_some, storageEventFromJson_toJson htype]

theorem filterMap_decodeLine
    {events : List (StorageEvent R)}
    (hjson : ∀ event ∈ events, RoundTrips json event)
    (htype : ∀ event ∈ events, payloadMatchesType event = true) :
    (events.map (record json)).filterMap (decodeLine json) = events := by
  induction events with
  | nil =>
      rfl
  | cons event events ih =>
      have ih' := ih (fun e he => hjson e (by simp [he])) (fun e he => htype e (by simp [he]))
      rw [List.map_cons, List.filterMap_cons_some
        (decodeLine_record (hjson event (by simp)) (htype event (by simp))), ih']

/-- Scanning the records of some events, and what follows their lines. -/
theorem scan_records_append
    {events : List (StorageEvent R)}
    (hnewline : ∀ event ∈ events, 10 ∉ record json event)
    (rest : Bytes) :
    scan json (events.flatMap (line json) ++ rest) =
      ((events.map (record json)).filter (fun s => !s.isEmpty)).filterMap (decodeLine json) ++
        scan json rest := by
  have hsplit : ∀ r ∈ events.map (record json), 10 ∉ r := by
    intro r hr
    obtain ⟨event, hevent, rfl⟩ := List.mem_map.mp hr
    exact hnewline event hevent
  rw [flatMap_line, scan, fileLines, splitLines_framed hsplit, List.filter_append,
    List.filterMap_append]
  rfl

/-- The lines of some events are scanned apart from what follows them. -/
theorem scan_append
    {events : List (StorageEvent R)}
    (hnewline : ∀ event ∈ events, 10 ∉ record json event)
    (rest : Bytes) :
    scan json (events.flatMap (line json) ++ rest) =
      scan json (events.flatMap (line json)) ++ scan json rest := by
  have hlines := scan_records_append hnewline []
  rw [List.append_nil, show scan json [] = [] from rfl, List.append_nil] at hlines
  rw [scan_records_append hnewline, hlines]

/-- Scanning the lines of some events, and what follows them. -/
theorem scan_lines_append
    {events : List (StorageEvent R)}
    (hjson : ∀ event ∈ events, RoundTrips json event)
    (htype : ∀ event ∈ events, payloadMatchesType event = true)
    (rest : Bytes) :
    scan json (events.flatMap (line json) ++ rest) = events ++ scan json rest := by
  have hfilter : (events.map (record json)).filter (fun s => !s.isEmpty) =
      events.map (record json) := by
    rw [List.filter_eq_self]
    intro r hr
    obtain ⟨event, hevent, rfl⟩ := List.mem_map.mp hr
    simpa using (hjson event hevent).nonempty
  rw [scan_records_append (fun event hevent => (hjson event hevent).noNewline), hfilter,
    filterMap_decodeLine hjson htype]

theorem scan_lines
    {events : List (StorageEvent R)}
    (hjson : ∀ event ∈ events, RoundTrips json event)
    (htype : ∀ event ∈ events, payloadMatchesType event = true) :
    scan json (events.flatMap (line json)) = events := by
  have h := scan_lines_append hjson htype []
  simpa [scan, fileLines, splitLines] using h

/-- Opening a file of consecutive events recovers them. -/
theorem load_lines
    {log : List (StorageEvent R × Int64)}
    (hjson : ∀ event ∈ stampFrom 0 log, RoundTrips json event)
    (htype : ∀ e ∈ log, payloadMatchesType e.1 = true)
    (hcount : log.length ≤ 2 ^ 64) :
    load json ((stampFrom 0 log).flatMap (line json)) = stampFrom 0 log := by
  rw [load, scan_lines hjson (payloadMatchesType_of_mem_stampFrom htype)]
  exact sortByOffset_of_increasing (stampFrom_increasing (by simpa using hcount)).1

end Reading

section Sessions

variable {ι γ φ R : Type} [DecidableEq ι] [DecidableEq γ] [DecidableEq φ] [Double R]

/--
The files that sessions leave behind, with the events that the sessions accepted
and the clock readings they got.  Before the first session there is no file.
-/
inductive Sessions (ι γ φ : Type) [DecidableEq ι] [DecidableEq γ] [DecidableEq φ]
    (json : JsonText R) : Option Bytes → List (StorageEvent R × Int64) → Prop
  | absent : Sessions ι γ φ json none []
  | session
      {file : Option Bytes} {log : List (StorageEvent R × Int64)}
      {config : JsonlAsyncStorageConfig} {s : JsonlRun ι γ φ R} {j : γ}
      (hfile : Sessions ι γ φ json file log)
      (hs : Reachable (Steps (JsonlRun.step json)) (.start (.create json config file)) s)
      (hclosed : s.closers j = .returned true) :
      Sessions ι γ φ json (some s.storage.output) (log ++ s.log)

variable {json : JsonText R} {file : Option Bytes} {log : List (StorageEvent R × Int64)}

theorem Sessions.typed
    (h : Sessions ι γ φ json file log) :
    ∀ e ∈ log, payloadMatchesType e.1 = true := by
  induction h with
  | absent =>
      simp
  | session hfile hs hclosed ih =>
      intro e he
      rcases List.mem_append.mp he with he | he
      · exact ih e he
      · exact (JsonlRun.typed_of_reachable hs).log e he

/-- A file holds one line for each accepted event, in the order of acceptance. -/
theorem Sessions.file_eq
    (h : Sessions ι γ φ json file log)
    (hcount : log.length < 2 ^ 64)
    (hjson : ∀ event ∈ stampFrom 0 log, RoundTrips json event) :
    file.getD [] = (stampFrom 0 log).flatMap (line json) := by
  induction h with
  | absent =>
      rfl
  | @session file log config s j hfile hs hclosed ih =>
      rw [List.length_append] at hcount
      rw [stampFrom_append] at hjson ⊢
      have hjson' : ∀ event ∈ stampFrom 0 log, RoundTrips json event :=
        fun event hevent => hjson event (List.mem_append_left _ hevent)
      have hfile' := ih (by omega) hjson'
      have hload : load json (file.getD []) = stampFrom 0 log := by
        rw [hfile']
        exact load_lines hjson' hfile.typed (by omega)
      have houtput := ((JsonlRun.inv_of_reachable hs).closed hclosed).2
      simp only [JsonlAsyncStorage.create, hload, offsetAfter_stampFrom] at houtput
      simp only [Option.getD_some, houtput, hfile', List.flatMap_append, UInt64.zero_add]

theorem Sessions.load_eq
    (h : Sessions ι γ φ json file log)
    (hcount : log.length < 2 ^ 64)
    (hjson : ∀ event ∈ stampFrom 0 log, RoundTrips json event) :
    load json (file.getD []) = stampFrom 0 log := by
  rw [h.file_eq hcount hjson]
  exact load_lines hjson h.typed (by omega)

/-- Replay after a reopen is replay of an in-memory store with the accepted events. -/
theorem replay_after_restart_eq_in_memory
    (h : Sessions ι γ φ json file log)
    (hcount : log.length < 2 ^ 64)
    (hjson : ∀ event ∈ stampFrom 0 log, RoundTrips json event)
    (config : JsonlAsyncStorageConfig) (request : ReplayRequest) :
    (JsonlAsyncStorage.create json config file).replay request =
      (InMemoryStorage.received log).replay request := by
  have hcommitted : (JsonlAsyncStorage.create json config file).committedEvents =
      stampFrom 0 log := h.load_eq hcount hjson
  rw [JsonlAsyncStorage.replay, InMemoryStorage.replay, hcommitted, received_events h.typed]

end Sessions

theorem roundTrips_btcTrade :
    ∀ offset ∈ ([0, 1, 2, 3] : List UInt64),
      RoundTrips btcJson { btcTrade with offset := offset } := by
  -- evaluated over the list: the type of offsets is finite, but too large to enumerate
  have hall : ([0, 1, 2, 3] : List UInt64).all (fun offset =>
      ([0, 1, 2, 3] : List UInt64).find? (fun k => btcTradeText k = btcTradeText offset) =
          some offset ∧
        10 ∉ btcTradeText offset ∧ btcTradeText offset ≠ []) = true := by
    decide +kernel
  intro offset hoffset
  obtain ⟨hparse, hnewline, hne⟩ := of_decide_eq_true (List.all_eq_true.mp hall offset hoffset)
  have hfield : (storageEventToJson { btcTrade with offset := offset }).field "offset"
      Json.getUInt64 = some offset := Json.field_of_find rfl (Json.getUInt64_ofUInt64 offset)
  have hrecord : record btcJson { btcTrade with offset := offset } = btcTradeText offset := by
    simp only [record, btcJson, hfield, Option.map_some, Option.getD_some]
  constructor
  · rw [hrecord]
    simp only [btcJson, hparse, Option.map_some]
  · rw [hrecord]
    exact hnewline
  · rw [hrecord]
    exact hne

/-- A session that accepts one trade, on no file. -/
theorem exists_first_session :
    ∃ s : JsonlRun Unit Unit Unit ℚ,
      Reachable (Steps (JsonlRun.step btcJson)) (.start (.create btcJson ⟨4, 2⟩ none)) s ∧
        s.closers () = .returned true ∧ s.log = [(btcTrade, 7)] ∧
        s.storage.output = btcTradeText 0 ++ [10] := by
  have hrun : (runActions (JsonlRun.step btcJson) (.start (.create btcJson ⟨4, 2⟩ none))
      (appendTrade ++ flushBatch ++ closeStorage)).map
        (fun s => (s.closers (), s.log, s.storage.output)) =
      some (.returned true, [(btcTrade, 7)], btcTradeText 0 ++ [10]) := by
    decide +kernel
  obtain ⟨s, hs, hview⟩ := Reachable.exists_of_runActions hrun
  simp only [Prod.mk.injEq] at hview
  exact ⟨s, hs, hview⟩

/-- A session that accepts one trade, on the file of the first one. -/
theorem exists_second_session :
    ∃ s : JsonlRun Unit Unit Unit ℚ,
      Reachable (Steps (JsonlRun.step btcJson))
          (.start (.create btcJson ⟨4, 2⟩ (some (btcTradeText 0 ++ [10])))) s ∧
        s.closers () = .returned true ∧ s.log = [(btcTrade, 7)] := by
  have hrun : (runActions (JsonlRun.step btcJson)
      (.start (.create btcJson ⟨4, 2⟩ (some (btcTradeText 0 ++ [10]))))
      (appendTrade ++ flushBatch ++ closeStorage)).map (fun s => (s.closers (), s.log)) =
      some (.returned true, [(btcTrade, 7)]) := by
    decide +kernel
  obtain ⟨s, hs, hview⟩ := Reachable.exists_of_runActions hrun
  simp only [Prod.mk.injEq] at hview
  exact ⟨s, hs, hview⟩

theorem roundTrips_two_trades :
    ∀ event ∈ stampFrom 0 [(btcTrade, 7), (btcTrade, 7)], RoundTrips btcJson event := by
  have hstamped : stampFrom 0 [(btcTrade, 7), (btcTrade, 7)] =
      [{ btcTrade with offset := 0 }, { btcTrade with offset := 1 }] := by
    decide +kernel
  intro event hevent
  rw [hstamped] at hevent
  simp only [List.mem_cons, List.not_mem_nil, or_false] at hevent
  rcases hevent with rfl | rfl
  · exact roundTrips_btcTrade 0 (by decide)
  · exact roundTrips_btcTrade 1 (by decide)

theorem replay_after_two_sessions :
    ∃ (file : Bytes) (log : List (StorageEvent ℚ × Int64)),
      Sessions Unit Unit Unit btcJson (some file) log ∧ log = [(btcTrade, 7), (btcTrade, 7)] ∧
        ∀ config request,
          (JsonlAsyncStorage.create btcJson config (some file)).replay request =
            (InMemoryStorage.received log).replay request := by
  obtain ⟨s, hs, hsclosed, hslog, hsoutput⟩ := exists_first_session
  obtain ⟨t, ht, htclosed, htlog⟩ := exists_second_session
  rw [← hsoutput] at ht
  have hsessions := (Sessions.absent.session hs hsclosed).session ht htclosed
  rw [hslog, htlog] at hsessions
  refine ⟨_, _, hsessions, rfl, ?_⟩
  intro config request
  exact replay_after_restart_eq_in_memory hsessions (by decide) roundTrips_two_trades config request

end Storage
end CryptoHft
