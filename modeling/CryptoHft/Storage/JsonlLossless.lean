import CryptoHft.Storage.JsonlInvariant

/-!
# What every run of `JsonlAsyncStorage` keeps

The events loaded at start and the events accepted since are, in this order, the
committed events, the batch that the flusher holds, and the queue.  `NothingLost`
collects what this means for a state of a run, and `nothing_lost` proves it for
every schedule of the appending, flushing and closing threads.

The offsets of the events are consecutive from the last loaded one on.  They are
64-bit numbers, so they increase only as long as they fit (`OffsetsFit`), and
offsets that a file has twice stay (`offsets_repeat_and_count_lags`).
-/

namespace CryptoHft
namespace Storage

open Lib

section Offsets

variable {R : Type}

/-- Strictly increasing offsets. -/
def Increasing (events : List (StorageEvent R)) : Prop :=
  events.Pairwise (fun a b => a.offset < b.offset)

/-- There is room for `n` more offsets after those of the loaded events. -/
def OffsetsFit (loaded : List (StorageEvent R)) (n : Nat) : Prop :=
  n ≤ 2 ^ 64 ∧ ∀ event ∈ loaded, event.offset.toNat + n < 2 ^ 64

theorem sortByOffset_sorted (events : List (StorageEvent R)) :
    (sortByOffset events).Pairwise (fun a b => a.offset ≤ b.offset) := by
  have htotal : Std.Total (fun a b : StorageEvent R => a.offset ≤ b.offset) :=
    ⟨fun a b => UInt64.le_total a.offset b.offset⟩
  have htrans : IsTrans (StorageEvent R) (fun a b => a.offset ≤ b.offset) :=
    ⟨fun _ _ _ => UInt64.le_trans⟩
  exact List.pairwise_insertionSort _ events

/-- No event of a sorted list has a greater offset than the last one. -/
theorem offset_le_last
    {events : List (StorageEvent R)} {last : StorageEvent R}
    (hsorted : events.Pairwise (fun a b => a.offset ≤ b.offset))
    (hlast : events.getLast? = some last)
    {event : StorageEvent R}
    (hevent : event ∈ events) :
    event.offset ≤ last.offset := by
  obtain ⟨front, rfl⟩ := List.getLast?_eq_some_iff.mp hlast
  rcases List.mem_append.mp hevent with hfront | hend
  · exact (List.pairwise_append.mp hsorted).2.2 event hfront last (by simp)
  · rw [List.mem_singleton.mp hend]
    exact UInt64.le_refl _

theorem OffsetsFit.next
    {loaded : List (StorageEvent R)} {n : Nat}
    (h : OffsetsFit loaded n) :
    (offsetAfter loaded).toNat + n ≤ 2 ^ 64 := by
  cases hlast : loaded.getLast? with
  | none =>
      simpa [offsetAfter, hlast] using h.1
  | some last =>
      have hfit := h.2 last (List.mem_of_getLast? hlast)
      have hle : (last.offset + 1).toNat ≤ last.offset.toNat + 1 := by
        rw [UInt64.toNat_add]
        exact Nat.mod_le _ _
      simp only [offsetAfter, hlast, Option.map_some, Option.getD_some]
      omega

/-- The offsets after those of a sorted list are greater than those of the list. -/
theorem OffsetsFit.offset_lt_next
    {loaded : List (StorageEvent R)} {n : Nat}
    (hsorted : loaded.Pairwise (fun a b => a.offset ≤ b.offset))
    (h : OffsetsFit loaded n)
    (hn : 0 < n)
    {event : StorageEvent R}
    (hevent : event ∈ loaded) :
    event.offset < offsetAfter loaded := by
  cases hlast : loaded.getLast? with
  | none =>
      simp [List.getLast?_eq_none_iff.mp hlast] at hevent
  | some last =>
      have hfit := h.2 last (List.mem_of_getLast? hlast)
      have hle := offset_le_last hsorted hlast hevent
      have hnext : (last.offset + 1).toNat = last.offset.toNat + 1 := by
        rw [UInt64.toNat_add]
        exact Nat.mod_eq_of_lt (by simp; omega)
      rw [UInt64.le_iff_toNat_le] at hle
      rw [UInt64.lt_iff_toNat_lt]
      simp only [offsetAfter, hlast, Option.map_some, Option.getD_some, hnext]
      omega

/-- What is accepted after loading gets greater offsets, in increasing order. -/
theorem OffsetsFit.increasing
    {loaded : List (StorageEvent R)} {log : List (StorageEvent R × Int64)}
    (hsorted : loaded.Pairwise (fun a b => a.offset ≤ b.offset))
    (h : OffsetsFit loaded log.length) :
    Increasing (stampFrom (offsetAfter loaded) log) ∧
      ∀ a ∈ loaded, ∀ b ∈ stampFrom (offsetAfter loaded) log, a.offset < b.offset := by
  obtain ⟨hincreasing, hle⟩ := stampFrom_increasing h.next
  refine ⟨hincreasing, ?_⟩
  intro a ha b hb
  have hpos : 0 < log.length := by
    rw [← length_stampFrom (offsetAfter loaded)]
    exact List.length_pos_of_mem hb
  exact UInt64.lt_of_lt_of_le (h.offset_lt_next hsorted hpos ha) (hle b hb)

/-- Distinct offsets in sorted order are strictly increasing. -/
theorem increasing_of_sorted
    {events : List (StorageEvent R)}
    (hsorted : events.Pairwise (fun a b => a.offset ≤ b.offset))
    (hdistinct : (events.map StorageEvent.offset).Nodup) :
    Increasing events := by
  have hne : events.Pairwise (fun a b => a.offset ≠ b.offset) :=
    List.pairwise_map.mp hdistinct
  refine (hsorted.and hne).imp ?_
  rintro a b ⟨hle, hne⟩
  exact UInt64.lt_of_le_of_ne hle hne

end Offsets

namespace JsonlRun

variable {ι γ φ R : Type}

/-- The events that a run has accepted, as they are stored. -/
def acceptedEvents [Double R] (json : JsonText R) (file : Option Bytes) (s : JsonlRun ι γ φ R) :
    List (StorageEvent R) :=
  stampFrom (offsetAfter (load json (file.getD []))) s.log

/-- In this step some call of `append` returned true. -/
def Accepts (s t : JsonlRun ι γ φ R) : Prop :=
  ∃ i, s.appenders i ≠ .returned true ∧ t.appenders i = .returned true

section Acceptance

variable {json : JsonText R} {s t : JsonlRun ι γ φ R}

theorem not_accepts_of_eq
    (h : t.appenders = s.appenders) :
    ¬ Accepts s t := by
  rintro ⟨i, hbefore, hafter⟩
  exact hbefore (by rw [← h, hafter])

theorem not_accepts_setAppender
    [DecidableEq ι]
    {i : ι} {pc : AppendPc R}
    (hpc : pc ≠ .returned true) :
    ¬ Accepts s (s.setAppender i pc) := by
  rintro ⟨k, hbefore, hafter⟩
  by_cases hk : k = i
  · subst hk
    exact hpc (by simpa using hafter)
  · rw [appenders_setAppender_of_ne hk] at hafter
    exact hbefore hafter

/-- A step of `append` accepts an event or leaves the storage as it is. -/
theorem appendStep_accepts
    [DecidableEq ι]
    {i : ι} {nowNs : Int64}
    (hstep : s.appendStep i nowNs = some t) :
    (∃ event, s.appenders i = .push event ∧ Accepts s t ∧
        t.log = s.log ++ [(event, nowNs)]) ∨
      (¬ Accepts s t ∧ t.log = s.log ∧
        (t.storage = s.storage ∨
          t.storage = { s.storage with
            rejectedBackpressure := s.storage.rejectedBackpressure + 1 })) := by
  rcases appendStep_cases hstep with ⟨event, hpush, hreturned, hlog⟩ | ⟨hnot, hlog, hstorage⟩
  · left
    exact ⟨event, hpush, ⟨i, by simp [hpush], hreturned⟩, hlog⟩
  · right
    refine ⟨?_, hlog, hstorage.imp_right And.right⟩
    rintro ⟨k, hbefore, hafter⟩
    by_cases hk : k = i
    · subst hk
      exact hnot hafter
    · rw [(appendStep_frame hstep).2 k hk] at hafter
      exact hbefore hafter

/-- The log grows exactly in the steps in which an `append` returns true. -/
theorem step_accepts
    [DecidableEq ι] [DecidableEq γ] [DecidableEq φ]
    {a : JsonlAction ι γ φ R}
    (hstep : s.step json a = some t) :
    (∃ i nowNs event, a = .append i nowNs ∧ s.appenders i = .push event ∧ Accepts s t ∧
        t.log = s.log ++ [(event, nowNs)]) ∨
      (¬ Accepts s t ∧ t.log = s.log) := by
  cases a with
  | callAppend i event =>
      right
      rw [eq_of_callAppend hstep]
      exact ⟨not_accepts_setAppender (by simp), rfl⟩
  | append i nowNs =>
      rcases appendStep_accepts hstep with ⟨event, hpush, haccepts, hlog⟩ | ⟨hnot, hlog, -⟩
      · exact .inl ⟨i, nowNs, event, rfl, hpush, haccepts, hlog⟩
      · exact .inr ⟨hnot, hlog⟩
  | flusher =>
      obtain ⟨happenders, hlog⟩ := flusherStep_frame hstep
      exact .inr ⟨not_accepts_of_eq happenders, hlog⟩
  | callClose j =>
      right
      rw [eq_of_callClose hstep]
      exact ⟨not_accepts_of_eq rfl, rfl⟩
  | close j =>
      obtain ⟨-, happenders, hlog⟩ := closeStep_frame hstep
      exact .inr ⟨not_accepts_of_eq happenders, hlog⟩
  | callFlush k =>
      right
      rw [eq_of_callFlush hstep]
      exact ⟨not_accepts_of_eq rfl, rfl⟩
  | flush k timedOut =>
      obtain ⟨pc, flushCount, rfl⟩ := flushStep_cases hstep
      exact .inr ⟨not_accepts_of_eq rfl, rfl⟩

end Acceptance

section Lossless

variable [DecidableEq ι] [DecidableEq γ] [DecidableEq φ] [Double R]

/--
What holds in a state `s` of a run of the storage on `file`.

`committed_` is increased after the batch has entered `committed_events_`; in
between the batch is uncounted although it is no longer in flight.
-/
structure NothingLost (json : JsonText R) (file : Option Bytes) (s : JsonlRun ι γ φ R) :
    Prop where
  sequence : s.storage.committedEvents ++ s.inFlight ++ s.storage.queue =
    load json (file.getD []) ++ s.acceptedEvents json file
  count : s.storage.accepted =
    s.storage.committed + UInt64.ofNat (s.uncounted + s.storage.queue.length)
  uncounted : s.uncounted = s.inFlight.length ∨ ∃ batchSize, s.flusher = .counting batchSize
  increasing : OffsetsFit (load json (file.getD [])) s.log.length →
    Increasing (s.acceptedEvents json file) ∧
      (∀ a ∈ load json (file.getD []), ∀ b ∈ s.acceptedEvents json file,
        a.offset < b.offset) ∧
      (load json (file.getD []) ++ s.acceptedEvents json file).Pairwise
        (fun a b => a.offset ≤ b.offset) ∧
      (((load json (file.getD [])).map StorageEvent.offset).Nodup →
        Increasing (load json (file.getD []) ++ s.acceptedEvents json file))
  accepts : ∀ a t, s.step json a = some t →
    (∃ i nowNs event, a = .append i nowNs ∧ s.appenders i = .push event ∧ Accepts s t ∧
      t.log = s.log ++ [(event, nowNs)]) ∨
    (¬ Accepts s t ∧ t.log = s.log)
  rejects : ∀ i nowNs t, s.step json (.append i nowNs) = some t → ¬ Accepts s t →
    t.storage = s.storage ∨
      t.storage = { s.storage with
        rejectedBackpressure := s.storage.rejectedBackpressure + 1 }
  closed : ∀ j, s.closers j = .returned true →
    s.storage.committedEvents = load json (file.getD []) ++ s.acceptedEvents json file ∧
      s.storage.output = file.getD [] ++ (s.acceptedEvents json file).flatMap (line json) ∧
      ∀ t a u, Reachable (Steps (step json)) s t → t.step json a = some u → ¬ Accepts t u

variable {json : JsonText R} {config : JsonlAsyncStorageConfig} {file : Option Bytes}
  {s t : JsonlRun ι γ φ R}

/-- After the first `close` has returned, no `append` returns true. -/
theorem not_accepts_after_close
    (hs : Reachable (Steps (step json)) (start (.create json config file)) s)
    {j : γ}
    (hj : s.closers j = .returned true)
    (ht : Reachable (Steps (step json)) s t)
    {a : JsonlAction ι γ φ R} {u : JsonlRun ι γ φ R}
    (hstep : t.step json a = some u) :
    ¬ Accepts t u := by
  have hinv := inv_of_reachable hs
  have hstop : s.flusher = .stopped := hinv.joined j (by rw [hj]; rfl)
  have hlog := hinv.log_of_stopped hstop ht
  have hlog' := hinv.log_of_stopped hstop (ht.tail hstep)
  rcases step_accepts hstep with ⟨i, nowNs, event, -, -, -, hgrown⟩ | ⟨hnot, -⟩
  · rw [hlog, hlog'] at hgrown
    simp at hgrown
  · exact hnot

/-- No schedule loses, duplicates or reorders an event. -/
theorem nothing_lost
    (hs : Reachable (Steps (step json)) (start (.create json config file)) s) :
    NothingLost json file s := by
  have hinv := inv_of_reachable hs
  have hsorted := sortByOffset_sorted (scan json (file.getD []))
  refine ⟨hinv.sequence, hinv.count, ?_, ?_, ?_, ?_, ?_⟩
  · cases hpc : s.flusher <;> simp [JsonlRun.uncounted, inFlight, hpc]
  · intro hfit
    obtain ⟨haccepted, habove⟩ := hfit.increasing hsorted
    refine ⟨haccepted, habove, ?_, ?_⟩
    · refine List.pairwise_append.mpr ⟨hsorted, haccepted.imp UInt64.le_of_lt, ?_⟩
      intro a ha b hb
      exact UInt64.le_of_lt (habove a ha b hb)
    · intro hdistinct
      exact List.pairwise_append.mpr ⟨increasing_of_sorted hsorted hdistinct, haccepted, habove⟩
  · intro a t hstep
    exact step_accepts hstep
  · intro i nowNs t hstep hnot
    rcases appendStep_accepts hstep with ⟨-, -, haccepts, -⟩ | ⟨-, -, hstorage⟩
    · exact absurd haccepts hnot
    · exact hstorage
  · intro j hj
    obtain ⟨hcommitted, houtput⟩ := hinv.closed hj
    exact ⟨hcommitted, houtput, fun t a u ht hstep => not_accepts_after_close hs hj ht hstep⟩

end Lossless

end JsonlRun

section Sample

/-- A market trade. -/
def btcTrade : StorageEvent ℚ where
  offset := 0
  ingestTsNs := 5
  type := .marketTrade
  payload := .tradeEvent
    { ticker := .copyString (text "BTC")
      price := 2
      quantity := 1
      isBuyerMaker := false
      timestampNs := 5
      tradeId := 9 }

/-- The text that the JSON library writes for `btcTrade` under an offset. -/
def btcTradeText (offset : UInt64) : Bytes :=
  text "\x7b\"event_type\":\"market_trade\",\"ingest_ts_ns\":5,\"offset\":" ++
    decimal offset.toNat ++
    text ",\"payload\":\x7b\"is_buyer_maker\":false,\"price\":2.0,\"quantity\":1.0," ++
    text "\"ticker\":\"BTC\",\"timestamp_ns\":5,\"trade_id\":9\x7d," ++
    text "\"schema_version\":1,\"ticker\":\"BTC\"\x7d"

/-- What the JSON library does with the texts of `btcTrade` under the first offsets. -/
def btcJson : JsonText ℚ where
  dump j := ((j.field "offset" Json.getUInt64).map btcTradeText).getD []
  parse s :=
    (([0, 1, 2, 3] : List UInt64).find? (fun offset => btcTradeText offset = s)).map
      (fun offset => storageEventToJson { btcTrade with offset := offset })

/-- Two sessions in one file, each of which has counted from 0 on. -/
def concatenatedFile : Bytes :=
  framed [btcTradeText 0, btcTradeText 0]

/-- The greatest offset. -/
def lastOffset : UInt64 :=
  18446744073709551615

/-- What the JSON library does with the text of `btcTrade` under the greatest offset. -/
def lastOffsetJson : JsonText ℚ where
  dump := btcJson.dump
  parse s :=
    if btcTradeText lastOffset = s then
      some (storageEventToJson { btcTrade with offset := lastOffset })
    else none

/-- A call of `append` and its steps. -/
def appendTrade : List (JsonlAction Unit Unit Unit ℚ) :=
  [.callAppend () btcTrade, .append () 7, .append () 7, .append () 7, .append () 7]

/-- The flusher drains and writes a batch. -/
def flushBatch : List (JsonlAction Unit Unit Unit ℚ) :=
  [.flusher, .flusher, .flusher, .flusher]

/-- A call of `close`, with the flusher that has nothing left to write. -/
def closeStorage : List (JsonlAction Unit Unit Unit ℚ) :=
  [.callClose (), .close (), .flusher, .close (), .close (), .close ()]

end Sample

namespace JsonlRun

theorem nothing_lost_one_trade :
    ∃ s : JsonlRun Unit Unit Unit ℚ,
      Reachable (Steps (step btcJson)) (start (.create btcJson ⟨4, 2⟩ none)) s ∧
        s.closers () = .returned true ∧
        s.storage.committedEvents = [btcTrade] ∧
        NothingLost btcJson none s := by
  have hrun : (runActions (step btcJson) (start (.create btcJson ⟨4, 2⟩ none))
      (appendTrade ++ flushBatch ++ closeStorage)).map
        (fun s => (s.closers (), s.storage.committedEvents)) =
      some (.returned true, [btcTrade]) := by
    decide +kernel
  obtain ⟨s, hs, hview⟩ := Reachable.exists_of_runActions hrun
  rw [Prod.mk.injEq] at hview
  exact ⟨s, hs, hview.1, hview.2, nothing_lost hs⟩

theorem not_increasing_of_offsets
    {events : List (StorageEvent ℚ)} {offsets : List UInt64}
    (h : events.map StorageEvent.offset = offsets)
    (hoffsets : ¬ offsets.Pairwise (· < ·)) :
    ¬ Increasing events := by
  intro hincreasing
  rw [← h, List.pairwise_map] at hoffsets
  exact hoffsets hincreasing

/--
Offsets that occur twice in the file stay, the offset after the greatest one is 0, and a
batch is counted one step after it has entered `committed_events_`.
-/
theorem offsets_repeat_and_count_lags :
    (∃ s : JsonlRun Unit Unit Unit ℚ,
      Reachable (Steps (step btcJson)) (start (.create btcJson ⟨4, 2⟩ (some concatenatedFile))) s ∧
        ¬ Increasing (s.storage.committedEvents ++ s.inFlight ++ s.storage.queue)) ∧
      (∃ s : JsonlRun Unit Unit Unit ℚ,
        Reachable (Steps (step lastOffsetJson))
            (start (.create lastOffsetJson ⟨4, 2⟩ (some (framed [btcTradeText lastOffset])))) s ∧
          ¬ Increasing (s.storage.committedEvents ++ s.inFlight ++ s.storage.queue)) ∧
      ∃ s : JsonlRun Unit Unit Unit ℚ,
        Reachable (Steps (step btcJson)) (start (.create btcJson ⟨4, 2⟩ none)) s ∧
          s.storage.accepted ≠
            s.storage.committed + UInt64.ofNat (s.inFlight.length + s.storage.queue.length) := by
  refine ⟨?_, ?_, ?_⟩
  · have hrun : (runActions (step btcJson)
        (start (.create btcJson ⟨4, 2⟩ (some concatenatedFile)) : JsonlRun Unit Unit Unit ℚ)
        []).map
          (fun s => (s.storage.committedEvents ++ s.inFlight ++ s.storage.queue).map
            StorageEvent.offset) =
        some [0, 0] := by
      decide +kernel
    obtain ⟨s, hs, hview⟩ := Reachable.exists_of_runActions hrun
    exact ⟨s, hs, not_increasing_of_offsets hview (by decide)⟩
  · have hrun : (runActions (step lastOffsetJson)
        (start (.create lastOffsetJson ⟨4, 2⟩ (some (framed [btcTradeText lastOffset]))))
        appendTrade).map
          (fun s => (s.storage.committedEvents ++ s.inFlight ++ s.storage.queue).map
            StorageEvent.offset) =
        some [lastOffset, 0] := by
      decide +kernel
    obtain ⟨s, hs, hview⟩ := Reachable.exists_of_runActions hrun
    exact ⟨s, hs, not_increasing_of_offsets hview (by decide)⟩
  · -- three steps of the flusher: the batch is among the committed events, and not yet counted
    have hrun : (runActions (step btcJson) (start (.create btcJson ⟨4, 2⟩ none))
        (appendTrade ++ [.flusher, .flusher, .flusher])).map
          (fun s => (s.storage.accepted, s.storage.committed,
            s.inFlight.length + s.storage.queue.length)) =
        some (1, 0, 0) := by
      decide +kernel
    obtain ⟨s, hs, hview⟩ := Reachable.exists_of_runActions hrun
    simp only [Prod.mk.injEq] at hview
    obtain ⟨haccepted, hcommitted, hheld⟩ := hview
    refine ⟨s, hs, ?_⟩
    rw [haccepted, hcommitted, hheld]
    decide

end JsonlRun
end Storage
end CryptoHft
