import CryptoHft.Storage.PagedReplay

/-!
# Crash recovery

A crash leaves a prefix of the file that the storage was writing: whole lines,
and possibly a beginning of the next record.  Opening such a file recovers the
events whose records are complete in it.  The file is then opened for appending
as it is, so the first record of the next session continues the torn line; the
line no longer parses, and the next reopen loses that record, together with a
last record that the crash had separated from its newline.

`recovers_iff` says when nothing is lost: exactly if the crash cut no line, or
the next session accepted no event.
-/

namespace CryptoHft
namespace Storage

open Lib

section Complete

variable {R : Type} (json : JsonText R)

/-- The events of a file that have their whole record in a prefix of the file. -/
def completeEvents : List (StorageEvent R) → Bytes → List (StorageEvent R)
  | [], _ => []
  | event :: rest, file =>
      if (record json event).length ≤ file.length then
        event :: completeEvents rest (file.drop ((record json event).length + 1))
      else
        []

/--
What the JSON library does with torn texts: it accepts neither a beginning of a
record nor a beginning of a record that runs into another record.
-/
structure RejectsTorn (events later : List (StorageEvent R)) : Prop where
  cut : ∀ event ∈ events, ∀ torn, torn <+: record json event → torn ≠ [] →
    torn ≠ record json event → json.parse torn = none
  glued : ∀ event ∈ events, ∀ torn, torn <+: record json event → torn ≠ [] →
    ∀ next ∈ later, json.parse (torn ++ record json next) = none

variable {json}

theorem RejectsTorn.of_subset
    {events events' later : List (StorageEvent R)}
    (h : RejectsTorn json events later)
    (hsubset : ∀ event ∈ events', event ∈ events) :
    RejectsTorn json events' later :=
  ⟨fun event hevent => h.cut event (hsubset event hevent),
    fun event hevent => h.glued event (hsubset event hevent)⟩

theorem completeEvents_isPrefix (events : List (StorageEvent R)) (file : Bytes) :
    completeEvents json events file <+: events := by
  induction events generalizing file with
  | nil =>
      simp [completeEvents]
  | cons event rest ih =>
      unfold completeEvents
      split
      · exact List.prefix_cons_inj event |>.mpr (ih _)
      · exact List.nil_prefix

theorem completeEvents_lines_append
    (whole rest : List (StorageEvent R)) (torn : Bytes) :
    completeEvents json (whole ++ rest) (whole.flatMap (line json) ++ torn) =
      whole ++ completeEvents json rest torn := by
  induction whole with
  | nil =>
      simp
  | cons event whole ih =>
      have hlength : (record json event).length ≤
          ((event :: whole).flatMap (line json) ++ torn).length := by
        simp [line]
      have hdrop : ((event :: whole).flatMap (line json) ++ torn).drop
          ((record json event).length + 1) = whole.flatMap (line json) ++ torn := by
        rw [List.flatMap_cons, List.append_assoc]
        exact List.drop_left' (by simp [line])
      rw [List.cons_append, completeEvents, if_pos hlength, hdrop, ih, List.cons_append]

/-- No event is complete in an empty text. -/
theorem completeEvents_nil
    {events : List (StorageEvent R)}
    (h : ∀ event ∈ events, record json event ≠ []) :
    completeEvents json events [] = [] := by
  cases events with
  | nil =>
      rfl
  | cons event rest =>
      have hne : ¬ (record json event).length ≤ ([] : Bytes).length := by
        simpa using h event (by simp)
      rw [completeEvents, if_neg hne]

/-- The parts of a prefix of a file. -/
theorem exists_of_isPrefix_lines
    {events : List (StorageEvent R)} {p : Bytes}
    (h : p <+: events.flatMap (line json)) :
    ∃ whole rest torn, events = whole ++ rest ∧ p = whole.flatMap (line json) ++ torn ∧
      (torn = [] ∨ ∃ event rest', rest = event :: rest' ∧ torn <+: record json event) := by
  rw [flatMap_line] at h
  obtain ⟨records, records', torn, hrecords, rfl, htorn⟩ := exists_of_isPrefix_framed h
  obtain ⟨whole, rest, rfl, rfl, rfl⟩ := List.map_eq_append_iff.mp hrecords
  refine ⟨whole, rest, torn, rfl, by rw [flatMap_line], ?_⟩
  rcases htorn with rfl | ⟨r, records'', hrest, hbegins⟩
  · exact .inl rfl
  · obtain ⟨event, rest', rfl, rfl, rfl⟩ := List.map_eq_cons_iff.mp hrest
    exact .inr ⟨event, rest', rfl, hbegins⟩

end Complete

section Opening

variable {R : Type} [Double R] {json : JsonText R}

/-- A line of its own that does not parse. -/
theorem scan_rejected
    {r : Bytes}
    (hr : 10 ∉ r)
    (hparse : json.parse r = none)
    (rest : Bytes) :
    scan json (r ++ 10 :: rest) = scan json rest := by
  rw [scan, fileLines, splitLines_cons_line hr, List.filter_cons]
  split
  · rw [List.filterMap_cons_none (by simp [decodeLine, hparse])]
    rfl
  · rfl

/-- What the scan finds in the torn end of a file. -/
theorem scan_torn
    {events later : List (StorageEvent R)} {torn : Bytes}
    (hjson : ∀ event ∈ events, RoundTrips json event)
    (htype : ∀ event ∈ events, payloadMatchesType event = true)
    (hrejects : RejectsTorn json events later)
    (htorn : torn = [] ∨
      ∃ event rest, events = event :: rest ∧ torn <+: record json event) :
    scan json torn = completeEvents json events torn := by
  by_cases hempty : torn = []
  · subst hempty
    rw [completeEvents_nil (fun event hevent => (hjson event hevent).nonempty)]
    rfl
  · obtain ⟨event, rest, rfl, hbegins⟩ := htorn.resolve_left hempty
    have hevent : event ∈ event :: rest := by simp
    have hone := hjson event hevent
    have hline : fileLines torn = [torn] := by
      rw [fileLines, splitLines_of_not_mem
        (fun hmem => hone.noNewline (hbegins.subset hmem)) hempty]
      simp [hempty]
    by_cases hwhole : torn = record json event
    · have hrest : completeEvents json rest [] = [] :=
        completeEvents_nil (fun e he => (hjson e (by simp [he])).nonempty)
      have hdrop : (record json event).drop ((record json event).length + 1) = [] :=
        List.drop_of_length_le (by omega)
      rw [scan, hline, hwhole, completeEvents, if_pos (Nat.le_refl _), hdrop, hrest,
        List.filterMap_cons_some (decodeLine_record hone (htype event hevent))]
      rfl
    · have hshort : ¬ (record json event).length ≤ torn.length := by
        intro hle
        exact hwhole (hbegins.eq_of_length_le hle)
      have hnone := hrejects.cut event hevent torn hbegins hempty hwhole
      rw [scan, hline, completeEvents, if_neg hshort,
        List.filterMap_cons_none (by simp [decodeLine, hnone])]
      rfl

/-- Opening a torn file recovers the events that are complete in it. -/
theorem load_torn
    {events later : List (StorageEvent R)} {p : Bytes}
    (hincreasing : Increasing events)
    (hjson : ∀ event ∈ events, RoundTrips json event)
    (htype : ∀ event ∈ events, payloadMatchesType event = true)
    (hrejects : RejectsTorn json events later)
    (hp : p <+: events.flatMap (line json)) :
    load json p = completeEvents json events p := by
  have hcomplete : Increasing (completeEvents json events p) :=
    hincreasing.sublist (completeEvents_isPrefix events p).sublist
  obtain ⟨whole, rest, torn, rfl, rfl, htorn⟩ := exists_of_isPrefix_lines hp
  have hscan : scan json torn = completeEvents json rest torn :=
    scan_torn (fun event hevent => hjson event (List.mem_append_right _ hevent))
      (fun event hevent => htype event (List.mem_append_right _ hevent))
      (hrejects.of_subset fun event hevent => List.mem_append_right _ hevent) htorn
  rw [load, scan_lines_append (fun event hevent => hjson event (List.mem_append_left _ hevent))
    (fun event hevent => htype event (List.mem_append_left _ hevent)), hscan,
    ← completeEvents_lines_append, sortByOffset_of_increasing hcomplete]

/-- The first record after a torn line is lost with the line. -/
theorem length_load_glued
    {whole rest later : List (StorageEvent R)} {event next : StorageEvent R} {torn : Bytes}
    (hjson : ∀ e ∈ whole ++ event :: rest ++ next :: later, RoundTrips json e)
    (htype : ∀ e ∈ whole ++ event :: rest ++ next :: later, payloadMatchesType e = true)
    (hrejects : RejectsTorn json (whole ++ event :: rest) (next :: later))
    (hbegins : torn <+: record json event)
    (hne : torn ≠ []) :
    (load json (whole.flatMap (line json) ++ torn ++
      (next :: later).flatMap (line json))).length = whole.length + later.length := by
  have hparse : json.parse (torn ++ record json next) = none :=
    hrejects.glued event (by simp) torn hbegins hne next (by simp)
  have hnewline : 10 ∉ torn ++ record json next := by
    intro hmem
    rcases List.mem_append.mp hmem with hmem | hmem
    · exact (hjson event (by simp)).noNewline (hbegins.subset hmem)
    · exact (hjson next (by simp)).noNewline hmem
  have hfile : whole.flatMap (line json) ++ torn ++ (next :: later).flatMap (line json) =
      whole.flatMap (line json) ++
        (torn ++ record json next ++ 10 :: later.flatMap (line json)) := by
    simp [line]
  rw [load, sortByOffset, List.length_insertionSort, hfile,
    scan_lines_append (fun e he => hjson e (by simp [he])) (fun e he => htype e (by simp [he])),
    scan_rejected hnewline hparse,
    scan_lines (fun e he => hjson e (by simp [he])) (fun e he => htype e (by simp [he])),
    List.length_append]

/--
The file of a session on a torn file keeps all events if no line was torn or
nothing was appended, and loses some otherwise.
-/
theorem load_appended
    {events later : List (StorageEvent R)} {p : Bytes}
    (hincreasing : Increasing events)
    (hlater : Increasing (completeEvents json events p ++ later))
    (hjson : ∀ event ∈ events ++ later, RoundTrips json event)
    (htype : ∀ event ∈ events ++ later, payloadMatchesType event = true)
    (hrejects : RejectsTorn json events later)
    (hp : p <+: events.flatMap (line json)) :
    (EndsLine p ∨ later = [] →
        load json (p ++ later.flatMap (line json)) = completeEvents json events p ++ later) ∧
      (¬ (EndsLine p ∨ later = []) →
        (load json (p ++ later.flatMap (line json))).length <
          (completeEvents json events p ++ later).length) := by
  have hload := load_torn hincreasing (fun e he => hjson e (List.mem_append_left _ he))
    (fun e he => htype e (List.mem_append_left _ he)) hrejects hp
  obtain ⟨whole, rest, torn, rfl, rfl, htorn⟩ := exists_of_isPrefix_lines hp
  have hnewline : 10 ∉ torn := by
    rcases htorn with rfl | ⟨event, rest', rfl, hbegins⟩
    · simp
    · exact fun hmem => (hjson event (by simp)).noNewline (hbegins.subset hmem)
  have hends : EndsLine (whole.flatMap (line json) ++ torn) ↔ torn = [] := by
    rw [flatMap_line]
    exact endsLine_framed_append hnewline _
  rw [hends]
  constructor
  · rintro (rfl | rfl)
    · have hnone : completeEvents json rest [] = [] :=
        completeEvents_nil (fun e he => (hjson e (by simp [he])).nonempty)
      have hwhole : ∀ e ∈ whole ++ later, e ∈ whole ++ rest ++ later := by
        intro e he
        rcases List.mem_append.mp he with he | he
        · exact List.mem_append_left _ (List.mem_append_left _ he)
        · exact List.mem_append_right _ he
      rw [completeEvents_lines_append, hnone, List.append_nil] at hlater ⊢
      rw [List.append_nil, ← List.flatMap_append, load,
        scan_lines (fun e he => hjson e (hwhole e he)) (fun e he => htype e (hwhole e he)),
        sortByOffset_of_increasing hlater]
    · simpa using hload
  · intro hlost
    obtain ⟨hne, hsome⟩ := not_or.mp hlost
    obtain ⟨event, rest', rfl, hbegins⟩ := htorn.resolve_left hne
    obtain ⟨next, later', rfl⟩ := List.exists_cons_of_ne_nil hsome
    rw [length_load_glued hjson htype hrejects hbegins hne, completeEvents_lines_append]
    simp only [List.length_append, List.length_cons]
    omega

end Opening

section Recovery

variable {ι γ φ R : Type} [Double R] {json : JsonText R}
  {config config' : JsonlAsyncStorageConfig} {w t : JsonlRun ι γ φ R} {p : Bytes}

/--
After the run `t` of the storage on the torn file `p` of some events, a reopen
replays the complete events of `p` and the events that `t` committed, each once
and in the order of their offsets.
-/
def Recovers (json : JsonText R) (config : JsonlAsyncStorageConfig)
    (events : List (StorageEvent R)) (p : Bytes) (t : JsonlRun ι γ φ R) : Prop :=
  ((JsonlAsyncStorage.create json config (some t.storage.output)).replay .all).events =
      completeEvents json events p ++ t.acceptedEvents json (some p) ∧
    Increasing (completeEvents json events p ++ t.acceptedEvents json (some p))

/-- The events of a session on a torn file continue the complete ones. -/
theorem acceptedEvents_torn
    {written : List (StorageEvent R × Int64)}
    (hload : load json p = completeEvents json (stampFrom 0 written) p) :
    completeEvents json (stampFrom 0 written) p ++ t.acceptedEvents json (some p) =
      stampFrom 0
        (written.take (completeEvents json (stampFrom 0 written) p).length ++ t.log) := by
  have hbegins : completeEvents json (stampFrom 0 written) p <+: stampFrom 0 written :=
    completeEvents_isPrefix _ _
  have hcomplete := List.prefix_iff_eq_take.mp hbegins
  rw [take_stampFrom] at hcomplete
  have hnext : offsetAfter (load json p) =
      UInt64.ofNat (written.take (completeEvents json (stampFrom 0 written) p).length).length := by
    rw [hload, ← offsetAfter_stampFrom, ← hcomplete]
  rw [stampFrom_append, ← hcomplete, UInt64.zero_add, ← hnext]
  rfl

variable [DecidableEq ι] [DecidableEq γ] [DecidableEq φ] {j : γ} {file : Option Bytes}
  {log : List (StorageEvent R × Int64)}

/-- What a run has written at any moment, after complete sessions. -/
theorem Sessions.output_isPrefix
    (hfile : Sessions ι γ φ json file log)
    (hw : Reachable (Steps (JsonlRun.step json)) (.start (.create json config file)) w)
    (hcount : log.length < 2 ^ 64)
    (hjson : ∀ event ∈ stampFrom 0 (log ++ w.log), RoundTrips json event) :
    w.storage.output <+: (stampFrom 0 (log ++ w.log)).flatMap (line json) := by
  rw [stampFrom_append] at hjson ⊢
  have hlog : ∀ event ∈ stampFrom 0 log, RoundTrips json event :=
    fun event hevent => hjson event (List.mem_append_left _ hevent)
  have houtput := (JsonlRun.inv_of_reachable hw).output_isPrefix
  simp only [JsonlAsyncStorage.create, hfile.load_eq hcount hlog, offsetAfter_stampFrom]
    at houtput
  rwa [hfile.file_eq hcount hlog, ← UInt64.zero_add (UInt64.ofNat log.length),
    ← List.flatMap_append] at houtput

/-- The same as `recovers_iff`, for any file that holds consecutive events. -/
theorem recovers_torn_iff
    {written : List (StorageEvent R × Int64)}
    (hwritten : ∀ e ∈ written, payloadMatchesType e.1 = true)
    (hp : p <+: (stampFrom 0 written).flatMap (line json))
    (ht : Reachable (Steps (JsonlRun.step json)) (.start (.create json config' (some p))) t)
    (hclosed : t.closers j = .returned true)
    (hcount : written.length + t.log.length < 2 ^ 64)
    (hjson : ∀ event ∈ stampFrom 0 written ++ t.acceptedEvents json (some p),
      RoundTrips json event)
    (hrejects : RejectsTorn json (stampFrom 0 written) (t.acceptedEvents json (some p)))
    (config'' : JsonlAsyncStorageConfig) :
    Recovers json config'' (stampFrom 0 written) p t ↔ EndsLine p ∨ t.log = [] := by
  have hevents : ∀ event ∈ stampFrom 0 written, RoundTrips json event :=
    fun event hevent => hjson event (List.mem_append_left _ hevent)
  have htyped : ∀ event ∈ stampFrom 0 written, payloadMatchesType event = true :=
    payloadMatchesType_of_mem_stampFrom hwritten
  have htype : ∀ event ∈ stampFrom 0 written ++ t.acceptedEvents json (some p),
      payloadMatchesType event = true := by
    intro event hevent
    rcases List.mem_append.mp hevent with hevent | hevent
    · exact htyped event hevent
    · exact payloadMatchesType_of_mem_stampFrom (JsonlRun.typed_of_reachable ht).log event hevent
  have hfits : (0 : UInt64).toNat + written.length ≤ 2 ^ 64 := by
    rw [UInt64.toNat_zero]
    omega
  have hincreasing : Increasing (stampFrom 0 written) := (stampFrom_increasing hfits).1
  have hload := load_torn hincreasing hevents htyped hrejects hp
  have haccepted := acceptedEvents_torn (t := t) hload
  have hlength : (completeEvents json (stampFrom 0 written) p ++
      t.acceptedEvents json (some p)).length < 2 ^ 64 := by
    rw [haccepted, length_stampFrom, List.length_append, List.length_take]
    omega
  have hlater : Increasing (completeEvents json (stampFrom 0 written) p ++
      t.acceptedEvents json (some p)) := by
    rw [haccepted] at hlength ⊢
    rw [length_stampFrom] at hlength
    exact (stampFrom_increasing (by rw [UInt64.toNat_zero]; omega)).1
  have houtput : t.storage.output = p ++ (t.acceptedEvents json (some p)).flatMap (line json) :=
    ((JsonlRun.inv_of_reachable ht).closed hclosed).2
  have hempty : t.acceptedEvents json (some p) = [] ↔ t.log = [] := by
    rw [← List.length_eq_zero_iff, JsonlRun.acceptedEvents, length_stampFrom,
      List.length_eq_zero_iff]
  obtain ⟨hkept, hlost⟩ := load_appended hincreasing hlater hjson htype hrejects hp
  rw [hempty] at hkept hlost
  -- both cases need the bound on the number of events that a page can hold
  have hreplay : (load json t.storage.output).length < 2 ^ 64 →
      ((JsonlAsyncStorage.create json config'' (some t.storage.output)).replay .all).events =
        load json t.storage.output := by
    intro hbound
    exact replayEvents_all hbound
  rw [houtput] at hreplay
  constructor
  · rintro ⟨hrecovers, -⟩
    by_contra hnot
    have hshort := hlost hnot
    rw [houtput, hreplay (by omega)] at hrecovers
    rw [hrecovers] at hshort
    omega
  · intro hcond
    have heq := hkept hcond
    refine ⟨?_, hlater⟩
    rw [houtput, hreplay (by rw [heq]; exact hlength), heq]

/--
A reopen after a crash and one more session replays everything exactly if no line
was torn or the session accepted nothing.
-/
theorem recovers_iff
    (hfile : Sessions ι γ φ json file log)
    (hw : Reachable (Steps (JsonlRun.step json)) (.start (.create json config file)) w)
    (hcrash : p <+: w.storage.output)
    (ht : Reachable (Steps (JsonlRun.step json)) (.start (.create json config' (some p))) t)
    (hclosed : t.closers j = .returned true)
    (hcount : (log ++ w.log).length + t.log.length < 2 ^ 64)
    (hjson : ∀ event ∈ stampFrom 0 (log ++ w.log) ++ t.acceptedEvents json (some p),
      RoundTrips json event)
    (hrejects : RejectsTorn json (stampFrom 0 (log ++ w.log)) (t.acceptedEvents json (some p)))
    (config'' : JsonlAsyncStorageConfig) :
    Recovers json config'' (stampFrom 0 (log ++ w.log)) p t ↔ EndsLine p ∨ t.log = [] := by
  have htype : ∀ e ∈ log ++ w.log, payloadMatchesType e.1 = true := by
    intro e he
    rcases List.mem_append.mp he with he | he
    · exact hfile.typed e he
    · exact (JsonlRun.typed_of_reachable hw).log e he
  have hlength : log.length ≤ (log ++ w.log).length := by simp
  have hp := hcrash.trans (hfile.output_isPrefix hw (by omega)
    (fun event hevent => hjson event (List.mem_append_left _ hevent)))
  exact recovers_torn_iff htype hp ht hclosed hcount hjson hrejects config''

end Recovery

section Sample

/-- Texts of another length than those of `btcTrade` do not parse. -/
theorem parse_btcJson_of_length
    {s : Bytes}
    (h : s.length ≠ (btcTradeText 0).length) :
    btcJson.parse s = none := by
  have hall : ([0, 1, 2, 3] : List UInt64).all (fun offset =>
      (btcTradeText offset).length = (btcTradeText 0).length) = true := by
    decide +kernel
  have hnone : ([0, 1, 2, 3] : List UInt64).find? (fun offset => btcTradeText offset = s) =
      none := by
    rw [List.find?_eq_none]
    intro offset hoffset heq
    rw [decide_eq_true_eq] at heq
    have hlength := of_decide_eq_true (List.all_eq_true.mp hall offset hoffset)
    exact h (by rw [← heq, hlength])
  simp only [btcJson, hnone, Option.map_none]

theorem rejectsTorn_btcTrade :
    RejectsTorn btcJson [{ btcTrade with offset := 0 }] [{ btcTrade with offset := 1 }] := by
  have hfirst : record btcJson { btcTrade with offset := 0 } = btcTradeText 0 := by
    decide +kernel
  have hsecond : (record btcJson { btcTrade with offset := 1 }).length =
      (btcTradeText 0).length := by
    decide +kernel
  constructor
  · intro event hevent torn hbegins hne hproper
    rw [List.mem_singleton.mp hevent, hfirst] at hbegins hproper
    refine parse_btcJson_of_length ?_
    intro hlength
    exact hproper (hbegins.eq_of_length hlength)
  · intro event hevent torn hbegins hne next hnext
    rw [List.mem_singleton.mp hnext]
    refine parse_btcJson_of_length ?_
    rw [List.length_append, hsecond]
    have hpos := List.length_pos_of_ne_nil hne
    omega

/-- Nothing is torn: both sessions are replayed. -/
theorem recovers_second_session :
    ∃ w t : JsonlRun Unit Unit Unit ℚ,
      Reachable (Steps (JsonlRun.step btcJson)) (.start (.create btcJson ⟨4, 2⟩ none)) w ∧
        Reachable (Steps (JsonlRun.step btcJson))
          (.start (.create btcJson ⟨4, 2⟩ (some w.storage.output))) t ∧
        w.log = [(btcTrade, 7)] ∧ t.log = [(btcTrade, 7)] ∧
        Recovers btcJson ⟨4, 2⟩ (stampFrom 0 ([] ++ w.log)) w.storage.output t := by
  obtain ⟨w, hw, -, hwlog, hwoutput⟩ := exists_first_session
  obtain ⟨t, ht, htclosed, htlog⟩ := exists_second_session
  have hfirst : stampFrom 0 [(btcTrade, 7)] = [{ btcTrade with offset := 0 }] := by
    decide +kernel
  have hsecond : t.acceptedEvents btcJson (some (btcTradeText 0 ++ [10])) =
      [{ btcTrade with offset := 1 }] := by
    rw [JsonlRun.acceptedEvents, htlog]
    decide +kernel
  refine ⟨w, t, hw, by rw [hwoutput]; exact ht, hwlog, htlog, ?_⟩
  rw [hwoutput]
  refine (recovers_iff Sessions.absent hw (by rw [hwoutput]) ht htclosed ?_ ?_ ?_ ⟨4, 2⟩).mpr
    (.inl ?_)
  · rw [hwlog, htlog]
    decide
  · intro event hevent
    rw [List.nil_append, hwlog, hfirst, hsecond] at hevent
    simp only [List.cons_append, List.nil_append, List.mem_cons, List.not_mem_nil,
      or_false] at hevent
    rcases hevent with rfl | rfl
    · exact roundTrips_btcTrade 0 (by decide)
    · exact roundTrips_btcTrade 1 (by decide)
  · rw [List.nil_append, hwlog, hfirst, hsecond]
    exact rejectsTorn_btcTrade
  · intro b hb
    simpa using hb.symm

/-- A crash after five bytes: the event of the next session is committed and lost. -/
theorem torn_line_swallows_next_event :
    ∃ w t : JsonlRun Unit Unit Unit ℚ,
      Reachable (Steps (JsonlRun.step btcJson)) (.start (.create btcJson ⟨4, 2⟩ none)) w ∧
        Reachable (Steps (JsonlRun.step btcJson))
          (.start (.create btcJson ⟨4, 2⟩ (some (w.storage.output.take 5)))) t ∧
        t.closers () = .returned true ∧
        t.storage.committedEvents = [btcTrade] ∧
        ((JsonlAsyncStorage.create btcJson ⟨4, 2⟩
          (some t.storage.output)).replay .all).events = [] ∧
        ¬ Recovers btcJson ⟨4, 2⟩ (stampFrom 0 w.log) (w.storage.output.take 5) t := by
  obtain ⟨w, hw, -, hwlog, hwoutput⟩ := exists_first_session
  have hrun : (runActions (JsonlRun.step btcJson)
      (.start (.create btcJson ⟨4, 2⟩ (some ((btcTradeText 0 ++ [10]).take 5))))
      (appendTrade ++ flushBatch ++ closeStorage)).map
        (fun s => (s.closers (), s.log.length, s.storage.committedEvents,
          ((JsonlAsyncStorage.create btcJson ⟨4, 2⟩
            (some s.storage.output)).replay .all).events.length)) =
      some (.returned true, 1, [btcTrade], 0) := by
    decide +kernel
  obtain ⟨t, ht, hview⟩ := Reachable.exists_of_runActions hrun
  simp only [Prod.mk.injEq] at hview
  obtain ⟨hclosed, hlog, hcommitted, hlength⟩ := hview
  have hreplayed := List.length_eq_zero_iff.mp hlength
  refine ⟨w, t, hw, by rw [hwoutput]; exact ht, hclosed, hcommitted, hreplayed, ?_⟩
  rintro ⟨hrecovers, -⟩
  rw [hrecovers, List.length_append, JsonlRun.acceptedEvents, length_stampFrom, hlog] at hlength
  omega

end Sample

end Storage
end CryptoHft
