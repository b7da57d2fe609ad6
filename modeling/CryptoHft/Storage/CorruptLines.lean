import CryptoHft.Lib.Binary64
import CryptoHft.Storage.Restart

/-!
# Corrupt lines

What `load_existing_file` makes of a file with lines that it cannot read.  Such a
line is counted and skipped, an empty one is only skipped, and neither has a part
in what is loaded from the other lines.

`Written` is the relation between the files that the storage writes, in any number
of runs and up to any moment of the last one, and the events whose lines they
hold.

Lines of the storage itself need not decode: JSON has no infinite numbers, so an event
with one is written with `null` in its place (`infinite_price_is_error`).
-/

namespace CryptoHft
namespace Storage

open Lib

section Files

variable {ι γ φ R : Type} [DecidableEq ι] [DecidableEq γ] [DecidableEq φ] [Double R]

/--
A file as runs of the storage leave it.  A run adds the lines of the events that
it has committed, and those of the batch it is about to commit.
-/
inductive Written (ι γ φ : Type) [DecidableEq ι] [DecidableEq γ] [DecidableEq φ]
    (json : JsonText R) : Option Bytes → List (StorageEvent R) → Prop
  | absent : Written ι γ φ json none []
  | run
      {file : Option Bytes} {events : List (StorageEvent R)}
      {config : JsonlAsyncStorageConfig} {s : JsonlRun ι γ φ R}
      (hfile : Written ι γ φ json file events)
      (hs : Reachable (Steps (JsonlRun.step json)) (.start (.create json config file)) s) :
      Written ι γ φ json (some s.storage.output)
        (events ++ s.lineEvents (.create json config file))

variable {json : JsonText R} {file : Option Bytes} {events : List (StorageEvent R)}

theorem Written.file_eq
    (h : Written ι γ φ json file events) :
    file.getD [] = events.flatMap (line json) := by
  induction h with
  | absent =>
      rfl
  | run hfile hs ih =>
      rw [List.flatMap_append, ← ih]
      exact (JsonlRun.inv_of_reachable hs).output_eq

/-- The storage writes events that have a payload of their type. -/
theorem Written.typed
    (h : Written ι γ φ json file events) :
    ∀ event ∈ events, payloadMatchesType event = true := by
  induction h with
  | absent =>
      simp
  | run hfile hs ih =>
      intro event hevent
      rcases List.mem_append.mp hevent with hevent | hevent
      · exact ih event hevent
      · have hstamped := (JsonlRun.inv_of_reachable hs).lineEvents_isPrefix.subset hevent
        exact payloadMatchesType_of_mem_stampFrom (JsonlRun.typed_of_reachable hs).log event hstamped

theorem JsonlRun.lineEvents_of_closed
    {config : JsonlAsyncStorageConfig} {s : JsonlRun ι γ φ R} {j : γ}
    (hs : Reachable (Steps (JsonlRun.step json)) (.start (.create json config file)) s)
    (hclosed : s.closers j = .returned true) :
    s.lineEvents (.create json config file) =
      stampFrom (offsetAfter (load json (file.getD []))) s.log := by
  have hinv := JsonlRun.inv_of_reachable hs
  refine hinv.lineEvents_isPrefix.eq_of_length_le ?_
  rw [JsonlRun.lineEvents, (hinv.closed hclosed).1, List.drop_left, List.length_append]
  exact Nat.le_add_right _ _

/-- The sessions of a file have written it. -/
theorem Sessions.written
    {log : List (StorageEvent R × Int64)}
    (h : Sessions ι γ φ json file log)
    (hcount : log.length < 2 ^ 64)
    (hjson : ∀ event ∈ stampFrom 0 log, RoundTrips json event) :
    Written ι γ φ json file (stampFrom 0 log) := by
  induction h with
  | absent =>
      exact .absent
  | @session file log config s j hfile hs hclosed ih =>
      rw [List.length_append] at hcount
      rw [stampFrom_append] at hjson ⊢
      have hjson' : ∀ event ∈ stampFrom 0 log, RoundTrips json event :=
        fun event hevent => hjson event (List.mem_append_left _ hevent)
      have hwritten := (ih (by omega) hjson').run hs
      rwa [JsonlRun.lineEvents_of_closed hs hclosed, hfile.load_eq (by omega) hjson',
        offsetAfter_stampFrom, ← UInt64.zero_add (UInt64.ofNat log.length)] at hwritten

end Files

section Loading

variable {R : Type} [Double R] {json : JsonText R} {records extra altered : List Bytes}

/-- Lines that do not decode change neither the events loaded nor their order. -/
theorem filterMap_decodeLine_inserted
    (h : Inserted records extra altered)
    (hextra : ∀ x ∈ extra, x = [] ∨ decodeLine json x = none) :
    (altered.filter (fun s => !s.isEmpty)).filterMap (decodeLine json) =
      (records.filter (fun s => !s.isEmpty)).filterMap (decodeLine json) := by
  induction h with
  | nil =>
      rfl
  | keep r h ih =>
      simp only [List.filter_cons]
      split_ifs
      · rw [List.filterMap_cons, List.filterMap_cons, ih hextra]
      · exact ih hextra
  | insert x h ih =>
      have ih' := ih (fun y hy => hextra y (by simp [hy]))
      rcases hextra x (by simp) with rfl | hx
      · exact ih'
      · simp only [List.filter_cons]
        split_ifs
        · rw [List.filterMap_cons_none hx, ih']
        · exact ih'

/-- The lines that do not decode: those of the file, and the inserted ones. -/
theorem countP_decodeLine_inserted
    (h : Inserted records extra altered)
    (hextra : ∀ x ∈ extra, x = [] ∨ decodeLine json x = none) :
    (altered.filter (fun s => !s.isEmpty)).countP (fun s => (decodeLine json s).isNone) =
      (records.filter (fun s => !s.isEmpty)).countP (fun s => (decodeLine json s).isNone) +
        extra.countP (fun s => !s.isEmpty) := by
  induction h with
  | nil =>
      rfl
  | keep r h ih =>
      simp only [List.filter_cons]
      split_ifs
      · rw [List.countP_cons, List.countP_cons, ih hextra]
        omega
      · exact ih hextra
  | insert x h ih =>
      have ih' := ih (fun y hy => hextra y (by simp [hy]))
      rw [List.countP_cons]
      rcases hextra x (by simp) with rfl | hx
      · exact ih'
      · simp only [List.filter_cons]
        split_ifs
        · rw [List.countP_cons_of_pos (by simp [hx]), ih']
          omega
        · exact ih'

end Loading

section Offsets

variable {R : Type} {json : JsonText R}

/-- The line of an event is one line, which is read back as the event or does not decode. -/
structure ReadsOrFails [Double R] (json : JsonText R) (event : StorageEvent R) : Prop where
  noNewline : 10 ∉ record json event
  reads : RoundTrips json event ∨ decodeLine json (record json event) = none

theorem RoundTrips.readsOrFails
    [Double R] {event : StorageEvent R}
    (h : RoundTrips json event) :
    ReadsOrFails json event :=
  ⟨h.noNewline, .inl h⟩

theorem offset_lt_of_mem_stampFrom
    {offset : UInt64} {log : List (StorageEvent R × Int64)} {event : StorageEvent R}
    (h : event ∈ stampFrom offset log) :
    event.offset.toNat < offset.toNat + log.length := by
  obtain ⟨k, hk, rfl⟩ := List.mem_iff_getElem.mp h
  rw [length_stampFrom] at hk
  obtain ⟨event, hevent, hoffset⟩ := exists_offset_stampFrom offset hk
  rw [List.getElem?_eq_getElem (by rwa [length_stampFrom]), Option.some.injEq] at hevent
  rw [hevent, hoffset, UInt64.toNat_add, UInt64.toNat_ofNat']
  calc (offset.toNat + k % 2 ^ 64) % 2 ^ 64
      ≤ offset.toNat + k % 2 ^ 64 := Nat.mod_le _ _
    _ ≤ offset.toNat + k := Nat.add_le_add_left (Nat.mod_le _ _) _
    _ < offset.toNat + log.length := Nat.add_lt_add_left hk _

theorem offsetAfter_le
    {events : List (StorageEvent R)} {n : Nat}
    (h : ∀ event ∈ events, event.offset.toNat < n) :
    (offsetAfter events).toNat ≤ n := by
  cases hlast : events.getLast? with
  | none =>
      simp [offsetAfter, hlast]
  | some last =>
      have hlt := h last (List.mem_of_getLast? hlast)
      have hle : (last.offset + 1).toNat ≤ last.offset.toNat + 1 := by
        rw [UInt64.toNat_add]
        exact Nat.mod_le _ _
      simp only [offsetAfter, hlast, Option.map_some, Option.getD_some]
      omega

/-- New events after those of a list with small, increasing offsets. -/
theorem increasing_append_stampFrom
    {loaded : List (StorageEvent R)} {log : List (StorageEvent R × Int64)} {n : Nat}
    (hincreasing : Increasing loaded)
    (hlt : ∀ event ∈ loaded, event.offset.toNat < n)
    (hcount : n + log.length ≤ 2 ^ 64) :
    Increasing (loaded ++ stampFrom (offsetAfter loaded) log) := by
  have hfit : OffsetsFit loaded log.length :=
    ⟨by omega, fun event hevent => by have := hlt event hevent; omega⟩
  obtain ⟨hnew, habove⟩ := hfit.increasing (hincreasing.imp UInt64.le_of_lt)
  exact List.pairwise_append.mpr ⟨hincreasing, hnew, habove⟩

variable [Double R]

/-- Of the lines of some events, those that decode are read back. -/
theorem scan_lines_sublist
    {events : List (StorageEvent R)}
    (hread : ∀ event ∈ events, ReadsOrFails json event)
    (htype : ∀ event ∈ events, payloadMatchesType event = true) :
    (scan json (events.flatMap (line json))).Sublist events := by
  induction events with
  | nil =>
      exact List.Sublist.slnil
  | cons event events ih =>
      have hevent := hread event (by simp)
      have ih' := ih (fun e he => hread e (by simp [he])) (fun e he => htype e (by simp [he]))
      have hnewline : ∀ e ∈ [event], 10 ∉ record json e := by
        simpa using hevent.noNewline
      have hscan : scan json ((event :: events).flatMap (line json)) =
          ([record json event].filter (fun s => !s.isEmpty)).filterMap (decodeLine json) ++
            scan json (events.flatMap (line json)) := by
        have happend := scan_records_append hnewline (events.flatMap (line json))
        rwa [List.map_singleton, List.flatMap_singleton] at happend
      rw [hscan]
      rcases hevent.reads with hreads | hfails
      · have hdecode := decodeLine_record hreads (htype event (by simp))
        have hne : record json event ≠ [] := hreads.nonempty
        simpa [hne, hdecode] using ih'
      · refine List.Sublist.cons event ?_
        rw [List.filterMap_eq_nil_iff.mpr, List.nil_append]
        · exact ih'
        · intro r hr
          rw [List.mem_singleton.mp (List.mem_of_mem_filter hr)]
          exact hfails

variable {ι γ φ : Type} [DecidableEq ι] [DecidableEq γ] [DecidableEq φ]
variable {file : Option Bytes} {events : List (StorageEvent R)}

/--
The events of a file that the storage has written have increasing offsets, below the number
of its lines, also where lines do not decode: a later run counts on from the last event that
it has read.
-/
theorem Written.increasing_scan
    (h : Written ι γ φ json file events)
    (hcount : events.length ≤ 2 ^ 64)
    (hread : ∀ event ∈ events, ReadsOrFails json event) :
    Increasing (scan json (file.getD [])) ∧
      ∀ event ∈ scan json (file.getD []), event.offset.toNat < events.length := by
  induction h with
  | absent =>
      exact ⟨List.Pairwise.nil, by simp [scan, fileLines, splitLines]⟩
  | @run file events config s hfile hs ih =>
      have hfile' := hfile.run hs
      rw [List.length_append] at hcount ⊢
      obtain ⟨hincreasing, hlt⟩ := ih (by omega)
        (fun event hevent => hread event (List.mem_append_left _ hevent))
      have hload : load json (file.getD []) = scan json (file.getD []) :=
        sortByOffset_of_increasing hincreasing
      -- the new lines are those of the first accepted events
      have hnew : s.lineEvents (.create json config file) =
          stampFrom (offsetAfter (scan json (file.getD [])))
            (s.log.take (s.lineEvents (.create json config file)).length) := by
        rw [← take_stampFrom, ← hload]
        exact List.prefix_iff_eq_take.mp (JsonlRun.inv_of_reachable hs).lineEvents_isPrefix
      have htyped := hfile'.typed
      have hlines := hfile'.file_eq
      generalize s.lineEvents (.create json config file) = new at *
      generalize s.log.take new.length = log at hnew
      have hlength : log.length = new.length := by
        rw [hnew, length_stampFrom]
      have hscan : scan json s.storage.output =
          scan json (file.getD []) ++ scan json (new.flatMap (line json)) := by
        rw [Option.getD_some, List.flatMap_append, ← hfile.file_eq] at hlines
        rw [hlines, hfile.file_eq]
        exact scan_append (fun e he => (hread e (List.mem_append_left _ he)).noNewline) _
      have hsub : (scan json (new.flatMap (line json))).Sublist new :=
        scan_lines_sublist (fun e he => hread e (List.mem_append_right _ he))
          (fun e he => htyped e (List.mem_append_right _ he))
      have hall := increasing_append_stampFrom hincreasing hlt (hlength ▸ hcount)
      rw [← hnew] at hall
      rw [Option.getD_some, hscan]
      refine ⟨hall.sublist (hsub.append_left _), ?_⟩
      intro event hevent
      rcases List.mem_append.mp hevent with hevent | hevent
      · exact Nat.lt_add_right _ (hlt event hevent)
      · have hmem := hsub.subset hevent
        rw [hnew] at hmem
        have hstamped := offset_lt_of_mem_stampFrom hmem
        have hafter := offsetAfter_le hlt
        omega

/-- What a later run commits continues the increasing offsets. -/
theorem Written.increasing
    {config : JsonlAsyncStorageConfig} {s : JsonlRun ι γ φ R} {n : Nat}
    (h : Written ι γ φ json file events)
    (hread : ∀ event ∈ events, ReadsOrFails json event)
    (hs : Reachable (Steps (JsonlRun.step json)) (.start (.create json config file)) s)
    (hcount : s.storage.committedEvents.length ≤ n)
    (hbound : events.length + (n - (load json (file.getD [])).length) < 2 ^ 64) :
    Increasing s.storage.committedEvents := by
  obtain ⟨hincreasing, hlt⟩ := h.increasing_scan (by omega) hread
  have hload : load json (file.getD []) = scan json (file.getD []) :=
    sortByOffset_of_increasing hincreasing
  obtain ⟨session, hcommitted, hsession, -⟩ := (JsonlRun.inv_of_reachable hs).exists_session
  simp only [JsonlAsyncStorage.create] at hcommitted hsession
  have hnew : session = stampFrom (offsetAfter (load json (file.getD [])))
      (s.log.take session.length) := by
    rw [← take_stampFrom]
    exact List.prefix_iff_eq_take.mp ⟨_, hsession⟩
  generalize s.log.take session.length = log at hnew
  rw [hcommitted, List.length_append, hnew, length_stampFrom] at hcount
  rw [hload] at hcommitted hnew hcount hbound
  rw [hcommitted, hnew]
  exact increasing_append_stampFrom hincreasing hlt (by omega)

end Offsets

section Opening

variable {ι γ φ R : Type} [DecidableEq ι] [DecidableEq γ] [DecidableEq φ] [Double R]
variable {json : JsonText R} {file : Bytes} {events : List (StorageEvent R)}

/-- A file that the storage has written consists of whole lines. -/
theorem Written.framed_splitLines
    (h : Written ι γ φ json (some file) events) :
    framed (splitLines [] file) = file := by
  have hfile : file = framed (events.map (record json)) := by
    rw [← flatMap_line]
    exact h.file_eq
  have hends : EndsLine file := by
    have hframed := (endsLine_framed_append (List.not_mem_nil (a := 10))
      (events.map (record json))).mpr rfl
    rwa [List.append_nil, ← hfile] at hframed
  exact hends.framed_splitLines

/-- All lines of such a file decode if the JSON library carries its events. -/
theorem Written.countP_eq_zero
    (h : Written ι γ φ json (some file) events)
    (hjson : ∀ event ∈ events, RoundTrips json event) :
    (fileLines file).countP (fun s => (decodeLine json s).isNone) = 0 := by
  have hnewline : ∀ r ∈ events.map (record json), 10 ∉ r := by
    intro r hr
    obtain ⟨event, hevent, rfl⟩ := List.mem_map.mp hr
    exact (hjson event hevent).noNewline
  have hsplit : splitLines [] file = events.map (record json) := by
    have hframed := splitLines_framed hnewline []
    rw [← flatMap_line, ← h.file_eq] at hframed
    simpa [splitLines] using hframed
  rw [List.countP_eq_zero]
  intro r hr
  rw [fileLines, hsplit] at hr
  obtain ⟨event, hevent, rfl⟩ := List.mem_map.mp (List.mem_of_mem_filter hr)
  simp [decodeLine_record (hjson event hevent) (h.typed event hevent)]

/-- The lines that are read after lines have been inserted. -/
theorem fileLines_framed
    {extra altered : List Bytes}
    (hinserted : Inserted (splitLines [] file) extra altered)
    (hextra : ∀ x ∈ extra, 10 ∉ x) :
    fileLines (framed altered) = altered.filter (fun s => !s.isEmpty) := by
  have hnewline : ∀ r ∈ altered, 10 ∉ r := by
    intro r hr
    rcases (hinserted.mem_iff r).mp hr with hr | hr
    · exact not_mem_of_mem_splitLines (by simp) hr
    · exact hextra r hr
  have hsplit := splitLines_framed hnewline []
  simp only [List.append_nil, splitLines, List.isEmpty_nil, if_true] at hsplit
  rw [fileLines, hsplit]

/--
Extra lines that are empty or do not decode leave everything that is loaded from a
file as it is, and each of them that is not empty is one more error.  If the JSON library
carries the events of the file, these are all errors.
-/
theorem corrupt_lines_skipped
    (h : Written ι γ φ json (some file) events)
    {extra altered : List Bytes}
    (hinserted : Inserted (splitLines [] file) extra altered)
    (hextra : ∀ x ∈ extra, 10 ∉ x ∧ (x = [] ∨ decodeLine json x = none))
    (config : JsonlAsyncStorageConfig) :
    (file = framed (splitLines [] file) ∧
      (JsonlAsyncStorage.create json config (some (framed altered))).committedEvents =
        (JsonlAsyncStorage.create json config (some file)).committedEvents ∧
      (JsonlAsyncStorage.create json config (some (framed altered))).nextOffset =
        (JsonlAsyncStorage.create json config (some file)).nextOffset ∧
      (JsonlAsyncStorage.create json config (some (framed altered))).accepted =
        (JsonlAsyncStorage.create json config (some file)).accepted ∧
      (JsonlAsyncStorage.create json config (some (framed altered))).committed =
        (JsonlAsyncStorage.create json config (some file)).committed) ∧
      (JsonlAsyncStorage.create json config (some (framed altered))).parseErrors =
        (JsonlAsyncStorage.create json config (some file)).parseErrors +
          UInt64.ofNat (extra.countP (fun x => !x.isEmpty)) ∧
      ((∀ event ∈ events, RoundTrips json event) →
        (JsonlAsyncStorage.create json config (some (framed altered))).parseErrors =
          UInt64.ofNat (extra.countP (fun x => !x.isEmpty))) := by
  have hlines := fileLines_framed hinserted (fun x hx => (hextra x hx).1)
  have hdecode : ∀ x ∈ extra, x = [] ∨ decodeLine json x = none := fun x hx => (hextra x hx).2
  have hload : load json (framed altered) = load json file := by
    rw [load, scan, hlines, filterMap_decodeLine_inserted hinserted hdecode]
    rfl
  have herrors : (JsonlAsyncStorage.create json config (some (framed altered))).parseErrors =
      (JsonlAsyncStorage.create json config (some file)).parseErrors +
        UInt64.ofNat (extra.countP (fun x => !x.isEmpty)) := by
    simp only [JsonlAsyncStorage.create, Option.getD_some]
    rw [hlines, countP_decodeLine_inserted hinserted hdecode, UInt64.ofNat_add]
    rfl
  refine ⟨⟨h.framed_splitLines.symm, ?_⟩, herrors, ?_⟩
  · simp only [JsonlAsyncStorage.create, Option.getD_some, hload, and_self]
  · intro hjson
    have hzero : (JsonlAsyncStorage.create json config (some file)).parseErrors = 0 := by
      simp only [JsonlAsyncStorage.create, Option.getD_some, h.countP_eq_zero hjson]
      rfl
    rw [herrors, hzero, UInt64.zero_add]

/-- Two bad lines and an empty one around the line of a trade. -/
theorem corrupt_lines_skipped_around_trade :
    ∃ (file : Bytes) (events : List (StorageEvent ℚ)),
      Written Unit Unit Unit btcJson (some file) events ∧ events.length = 1 ∧
        (JsonlAsyncStorage.create btcJson ⟨4, 2⟩
          (some (framed [text "not json", [], btcTradeText 0, text "null"]))).committedEvents =
            (JsonlAsyncStorage.create btcJson ⟨4, 2⟩ (some file)).committedEvents ∧
        (JsonlAsyncStorage.create btcJson ⟨4, 2⟩
          (some (framed [text "not json", [], btcTradeText 0, text "null"]))).parseErrors = 2 := by
  have hrun : (runActions (JsonlRun.step btcJson)
      (.start (.create btcJson ⟨4, 2⟩ none) : JsonlRun Unit Unit Unit ℚ)
      (appendTrade ++ flushBatch)).map
        (fun s => (s.storage.output, s.lineEvents (.create btcJson ⟨4, 2⟩ none))) =
      some (btcTradeText 0 ++ [10], [{ btcTrade with offset := 0 }]) := by
    decide +kernel
  obtain ⟨s, hs, hview⟩ := Reachable.exists_of_runActions hrun
  obtain ⟨houtput, hevents⟩ := Prod.mk.inj hview
  have hwritten := Written.absent.run hs
  rw [hevents, houtput] at hwritten
  have hjson : ∀ event ∈ [{ btcTrade with offset := 0 }], RoundTrips btcJson event := by
    intro event hevent
    rw [List.mem_singleton.mp hevent]
    exact roundTrips_btcTrade 0 (by decide)
  have hextra : ∀ x ∈ [text "not json", [], text "null"],
      10 ∉ x ∧ (x = [] ∨ decodeLine btcJson x = none) := by
    decide +kernel
  have hlines : splitLines [] (btcTradeText 0 ++ [10]) = [btcTradeText 0] := by
    decide +kernel
  have hinserted : Inserted (splitLines [] (btcTradeText 0 ++ [10]))
      [text "not json", [], text "null"]
      [text "not json", [], btcTradeText 0, text "null"] := by
    rw [hlines]
    exact .insert _ (.insert _ (.keep _ (.insert _ .nil)))
  obtain ⟨⟨-, hcommitted, -⟩, -, herrors⟩ :=
    corrupt_lines_skipped hwritten hinserted hextra ⟨4, 2⟩
  exact ⟨_, _, hwritten, rfl, hcommitted, herrors hjson⟩

end Opening

section InfinitePrice

/-- A market trade at an infinite price, which `append` takes as any other. -/
def infiniteTrade : StorageEvent Binary64 where
  offset := 0
  ingestTsNs := 5
  type := .marketTrade
  payload := .tradeEvent
    { ticker := .copyString (text "BTC")
      price := .infinity false
      quantity := .ofInt 1
      isBuyerMaker := false
      timestampNs := 5
      tradeId := 9 }

/-- The text that the JSON library writes for it under an offset. -/
def infiniteTradeText (offset : UInt64) : Bytes :=
  text "\x7b\"event_type\":\"market_trade\",\"ingest_ts_ns\":5,\"offset\":" ++
    decimal offset.toNat ++
    text ",\"payload\":\x7b\"is_buyer_maker\":false,\"price\":null,\"quantity\":1.0," ++
    text "\"ticker\":\"BTC\",\"timestamp_ns\":5,\"trade_id\":9\x7d," ++
    text "\"schema_version\":1,\"ticker\":\"BTC\"\x7d"

/-- What it reads from the text under offset 0. -/
def infiniteTradeRead : Json Binary64 :=
  .object
    [("event_type", .string (text "market_trade")),
      ("ingest_ts_ns", .ofInt64 5),
      ("offset", .ofUInt64 0),
      ("payload", .object
        [("is_buyer_maker", .bool false),
          ("price", .null),
          ("quantity", .float (.ofInt 1)),
          ("ticker", .string (text "BTC")),
          ("timestamp_ns", .ofInt64 5),
          ("trade_id", .ofUInt64 9)]),
      ("schema_version", .ofUInt64 1),
      ("ticker", .string (text "BTC"))]

def infiniteJson : JsonText Binary64 where
  dump j := ((j.field "offset" Json.getUInt64).map infiniteTradeText).getD []
  parse s := if s = infiniteTradeText 0 then some infiniteTradeRead else none

/-- A call of `append` and its steps, and the flusher that writes the event. -/
def appendInfinite : List (JsonlAction Unit Unit Unit Binary64) :=
  [.callAppend () infiniteTrade, .append () 5, .append () 5, .append () 5, .append () 5,
    .flusher, .flusher, .flusher, .flusher]

/-- No line is inserted, and the line that the storage has written is an error. -/
theorem infinite_price_is_error :
    ∃ (file : Bytes) (events : List (StorageEvent Binary64)) (extra altered : List Bytes),
      Written Unit Unit Unit infiniteJson (some file) events ∧
        Inserted (splitLines [] file) extra altered ∧
        (∀ x ∈ extra, 10 ∉ x ∧ (x = [] ∨ decodeLine infiniteJson x = none)) ∧
        extra = [] ∧
        (JsonlAsyncStorage.create infiniteJson ⟨4, 2⟩ (some (framed altered))).parseErrors ≠
          UInt64.ofNat (extra.countP (fun x => !x.isEmpty)) := by
  have hrun : (runActions (JsonlRun.step infiniteJson)
      (.start (.create infiniteJson ⟨4, 2⟩ none) : JsonlRun Unit Unit Unit Binary64)
      appendInfinite).map (fun s => s.storage.output) =
      some (framed [infiniteTradeText 0]) := by
    decide +kernel
  obtain ⟨s, hs, houtput⟩ := Reachable.exists_of_runActions hrun
  have hwritten := Written.absent.run hs
  rw [houtput] at hwritten
  have hlines : splitLines [] (framed [infiniteTradeText 0]) = [infiniteTradeText 0] := by
    decide +kernel
  have herrors : (JsonlAsyncStorage.create infiniteJson ⟨4, 2⟩
      (some (framed [infiniteTradeText 0]))).parseErrors = 1 := by
    decide +kernel
  refine ⟨_, _, [], [infiniteTradeText 0], hwritten, ?_, by simp, rfl, ?_⟩
  · rw [hlines]
    exact .keep _ .nil
  · rw [herrors]
    decide

end InfinitePrice

end Storage
end CryptoHft
