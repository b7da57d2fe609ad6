import CryptoHft.Storage.PagedReplay

/-!
# The offsets of a loaded file

`load_existing_file` takes the offsets of a file as they are: it sorts the events
by them and goes on counting after the greatest one.  Two events with one offset
stay two events, and a cursor that falls between them skips the second; after the
greatest 64-bit number the count starts again at 0.

`OffsetsUsable` excludes both, and it is exactly the condition under which a run on
the file has increasing offsets, gives new events greater offsets than all loaded
ones and can be replayed completely in pages of any size.
-/

namespace CryptoHft
namespace Storage

open Lib

section Statement

variable {ι γ φ R : Type} [Double R]

/-- The events that a run has accepted, in the storage. -/
def newEvents (json : JsonText R) (file : Bytes) (s : JsonlRun ι γ φ R) :
    List (StorageEvent R) :=
  (s.storage.committedEvents ++ s.inFlight ++ s.storage.queue).drop (load json file).length

/-- What a state of a run on a file is to satisfy. -/
structure ReplaysCompletely (json : JsonText R) (file : Bytes) (s : JsonlRun ι γ φ R) :
    Prop where
  increasing : Increasing s.storage.committedEvents
  above : ∀ a ∈ load json file, ∀ b ∈ newEvents json file s, a.offset < b.offset
  paged : ∀ pageSize, 0 < pageSize → ∃ batches,
    (∀ fuel, s.storage.committedEvents.length < fuel →
      drive (fun _ => s.storage.replay) (fun done batch => done ++ [batch]) fuel 0
        { ReplayRequest.all with maxEvents := pageSize } [] = some batches) ∧
      batches.flatMap ReplayBatch.events = s.storage.committedEvents

/-- The lines of the file have different offsets, and counting on does not wrap around. -/
structure OffsetsUsable (json : JsonText R) (file : Bytes) (s : JsonlRun ι γ φ R) : Prop where
  distinct : ((scan json file).map StorageEvent.offset).Nodup
  fits : ∀ event ∈ scan json file, event.offset.toNat + s.log.length < 2 ^ 64
  fresh : scan json file = [] → s.storage.committedEvents.length ≤ 2 ^ 64

end Statement

section Loading

variable {R : Type} [Double R] {json : JsonText R} {file : Bytes}

theorem load_perm (json : JsonText R) (file : Bytes) :
    (load json file).Perm (scan json file) :=
  List.perm_insertionSort _ _

omit [Double R] in
theorem Increasing.offsets_nodup
    {events : List (StorageEvent R)}
    (h : Increasing events) :
    (events.map StorageEvent.offset).Nodup :=
  List.pairwise_map.mpr (h.imp UInt64.ne_of_lt)

theorem increasing_load
    (h : ((scan json file).map StorageEvent.offset).Nodup) :
    Increasing (load json file) :=
  increasing_of_sorted (sortByOffset_sorted _)
    (((load_perm json file).map StorageEvent.offset).nodup_iff.mpr h)

omit [Double R] in
/-- After the greatest offset the count starts again at 0. -/
theorem exists_wrapped
    (last : StorageEvent R) {log : List (StorageEvent R × Int64)}
    (h : 2 ^ 64 ≤ last.offset.toNat + log.length) :
    ∃ event ∈ stampFrom (last.offset + 1) log, event.offset = 0 := by
  have hlast := last.offset.toNat_lt
  have hk : 2 ^ 64 - 1 - last.offset.toNat < log.length := by
    omega
  obtain ⟨event, hevent, hoffset⟩ := exists_offset_stampFrom (last.offset + 1) hk
  refine ⟨event, List.mem_of_getElem? hevent, ?_⟩
  rw [hoffset, ← UInt64.toNat_inj, UInt64.toNat_add, UInt64.toNat_add, UInt64.toNat_one,
    UInt64.toNat_ofNat', UInt64.toNat_zero]
  omega

omit [Double R] in
/-- More than `2 ^ 64` offsets repeat one. -/
theorem length_le_of_increasing
    {log : List (StorageEvent R × Int64)}
    (h : Increasing (stampFrom 0 log)) :
    log.length ≤ 2 ^ 64 := by
  by_contra hlong
  have hzeroth : 0 < log.length := by
    omega
  have hlast : 2 ^ 64 < log.length := by
    omega
  obtain ⟨first, hfirst, hzero⟩ := exists_offset_stampFrom 0 hzeroth
  obtain ⟨later, hlater, hwrapped⟩ := exists_offset_stampFrom 0 hlast
  obtain ⟨hfirst', hfirst⟩ := List.getElem?_eq_some_iff.mp hfirst
  obtain ⟨hlater', hlater⟩ := List.getElem?_eq_some_iff.mp hlater
  have hlt := List.pairwise_iff_getElem.mp h 0 (2 ^ 64) hfirst' hlater' (by norm_num)
  rw [hfirst, hlater, hzero, hwrapped] at hlt
  exact absurd hlt (by decide)

end Loading

section Runs

variable {ι γ φ R : Type} [DecidableEq ι] [DecidableEq γ] [DecidableEq φ] [Double R]
variable {json : JsonText R} {config : JsonlAsyncStorageConfig} {file : Bytes}
  {s : JsonlRun ι γ φ R}

/-- The new events are the accepted ones, stamped from the next offset on. -/
theorem newEvents_eq
    (hs : Reachable (Steps (JsonlRun.step json)) (.start (.create json config (some file))) s) :
    newEvents json file s = stampFrom (offsetAfter (load json file)) s.log := by
  have hsequence := (JsonlRun.inv_of_reachable hs).sequence
  rw [newEvents, hsequence]
  exact List.drop_left

theorem committedEvents_isPrefix_load
    (hs : Reachable (Steps (JsonlRun.step json)) (.start (.create json config (some file))) s) :
    s.storage.committedEvents <+:
      load json file ++ stampFrom (offsetAfter (load json file)) s.log := by
  have hsequence := (JsonlRun.inv_of_reachable hs).sequence
  rw [List.append_assoc] at hsequence
  exact ⟨_, hsequence⟩

/-- On a file without events, the committed events are counted from 0 on. -/
theorem exists_log_of_empty
    (hs : Reachable (Steps (JsonlRun.step json)) (.start (.create json config (some file))) s)
    (hempty : scan json file = []) :
    ∃ log, s.storage.committedEvents = stampFrom 0 log := by
  have hload : load json file = [] := by
    rw [load, hempty]
    rfl
  have hcommitted := committedEvents_isPrefix_load hs
  rw [hload, List.nil_append, List.prefix_iff_eq_take, take_stampFrom] at hcommitted
  exact ⟨_, hcommitted⟩

/-- The loaded events come first, and stay. -/
theorem load_isPrefix_committedEvents
    (hs : Reachable (Steps (JsonlRun.step json)) (.start (.create json config (some file))) s) :
    load json file <+: s.storage.committedEvents := by
  obtain ⟨session, hcommitted, -⟩ := (JsonlRun.inv_of_reachable hs).file
  rw [hcommitted]
  exact List.prefix_append _ _

omit [DecidableEq ι] [DecidableEq γ] [DecidableEq φ] in
theorem OffsetsUsable.offsetsFit
    (h : OffsetsUsable json file s)
    (hne : scan json file ≠ []) :
    OffsetsFit (load json file) s.log.length := by
  obtain ⟨first, hfirst⟩ := List.exists_mem_of_ne_nil _ hne
  have := h.fits first hfirst
  exact ⟨by omega, fun event hevent => h.fits event ((load_perm json file).subset hevent)⟩

theorem OffsetsUsable.increasing
    (hs : Reachable (Steps (JsonlRun.step json)) (.start (.create json config (some file))) s)
    (h : OffsetsUsable json file s) :
    Increasing s.storage.committedEvents := by
  by_cases hempty : scan json file = []
  · obtain ⟨log, hlog⟩ := exists_log_of_empty hs hempty
    have hlength := h.fresh hempty
    rw [hlog, length_stampFrom] at hlength
    rw [hlog]
    exact increasing_stampFrom hlength
  · obtain ⟨hnew, habove⟩ := (h.offsetsFit hempty).increasing (sortByOffset_sorted _)
    have hall := List.pairwise_append.mpr ⟨increasing_load h.distinct, hnew, habove⟩
    exact hall.sublist (committedEvents_isPrefix_load hs).sublist

theorem OffsetsUsable.above
    (hs : Reachable (Steps (JsonlRun.step json)) (.start (.create json config (some file))) s)
    (h : OffsetsUsable json file s) :
    ∀ a ∈ load json file, ∀ b ∈ newEvents json file s, a.offset < b.offset := by
  intro a ha
  have hne : scan json file ≠ [] := List.ne_nil_of_mem ((load_perm json file).subset ha)
  rw [newEvents_eq hs]
  exact ((h.offsetsFit hne).increasing (sortByOffset_sorted _)).2 a ha

omit [Double R] in
/-- Events with increasing offsets can be replayed in pages of any size. -/
theorem exists_all_pages
    {events : List (StorageEvent R)}
    (h : Increasing events) (pageSize : Nat) :
    ∃ batches, (∀ fuel, events.length < fuel →
      drive (fun _ => replayEvents events) (fun done batch => done ++ [batch]) fuel 0
        { ReplayRequest.all with maxEvents := pageSize } [] = some batches) ∧
      batches.flatMap ReplayBatch.events = events := by
  have hmatching : matching { ReplayRequest.all with maxEvents := pageSize } events = events :=
    List.filter_eq_self.mpr (fun _ _ => rfl)
  obtain ⟨batches, hbatches, -, -, hevents⟩ := exists_pages (fun _ => events)
    (fun _ => List.prefix_rfl) (fun _ => h) (n := events.length) (k := 0)
    { ReplayRequest.all with maxEvents := pageSize } (fun _ _ => by rw [hmatching])
    (Nat.lt_succ_self _)
  rw [hmatching] at hevents
  refine ⟨batches, ?_, hevents⟩
  intro fuel hfuel
  rw [drive_eq, pages_of_le hbatches hfuel, Option.map_some, foldl_concat, List.nil_append]

theorem ReplaysCompletely.fits
    (hs : Reachable (Steps (JsonlRun.step json)) (.start (.create json config (some file))) s)
    (h : ReplaysCompletely json file s) :
    ∀ event ∈ scan json file, event.offset.toNat + s.log.length < 2 ^ 64 := by
  intro event hevent
  by_contra hwraps
  have hloaded := (load_perm json file).symm.subset hevent
  obtain ⟨last, hlast⟩ : ∃ last, (load json file).getLast? = some last :=
    Option.ne_none_iff_exists'.mp (by
      rw [ne_eq, List.getLast?_eq_none_iff]
      exact List.ne_nil_of_mem hloaded)
  have hle := offset_le_last (sortByOffset_sorted (scan json file)) hlast hloaded
  rw [UInt64.le_iff_toNat_le] at hle
  have hcount : 2 ^ 64 ≤ last.offset.toNat + s.log.length := by
    omega
  obtain ⟨wrapped, hwrapped, hzero⟩ := exists_wrapped last hcount
  have hnew : wrapped ∈ newEvents json file s := by
    rw [newEvents_eq hs, offsetAfter, hlast]
    exact hwrapped
  have hlt := h.above last (List.mem_of_getLast? hlast) wrapped hnew
  rw [hzero] at hlt
  exact absurd hlt UInt64.not_lt_zero

/--
In every state of a run on a file, the offsets increase, new events come after the
loaded ones and paging returns everything, exactly if the offsets are usable.
-/
theorem replays_completely_iff
    (hs : Reachable (Steps (JsonlRun.step json)) (.start (.create json config (some file))) s) :
    ReplaysCompletely json file s ↔ OffsetsUsable json file s := by
  constructor
  · intro h
    refine ⟨?_, h.fits hs, ?_⟩
    · have hload : Increasing (load json file) :=
        h.increasing.sublist (load_isPrefix_committedEvents hs).sublist
      exact ((load_perm json file).map StorageEvent.offset).nodup_iff.mp hload.offsets_nodup
    · intro hempty
      obtain ⟨log, hlog⟩ := exists_log_of_empty hs hempty
      have hincreasing := h.increasing
      rw [hlog] at hincreasing
      rw [hlog, length_stampFrom]
      exact length_le_of_increasing hincreasing
  · intro h
    have hincreasing := h.increasing hs
    exact ⟨hincreasing, h.above hs, fun pageSize _ => exists_all_pages hincreasing pageSize⟩

end Runs

section Sample

/-- The second of two sessions that appends to the lines of the first. -/
theorem replays_completely_second_session :
    ∃ s : JsonlRun Unit Unit Unit ℚ,
      Reachable (Steps (JsonlRun.step btcJson))
          (.start (.create btcJson ⟨4, 2⟩ (some (framed [btcTradeText 2])))) s ∧
        s.storage.committedEvents.length = 2 ∧
        ReplaysCompletely btcJson (framed [btcTradeText 2]) s := by
  have hrun : (runActions (JsonlRun.step btcJson)
      (.start (.create btcJson ⟨4, 2⟩ (some (framed [btcTradeText 2]))) :
        JsonlRun Unit Unit Unit ℚ)
      (appendTrade ++ flushBatch)).map
        (fun s => (s.log.length, s.storage.committedEvents.length)) = some (1, 2) := by
    decide +kernel
  obtain ⟨s, hs, hview⟩ := Reachable.exists_of_runActions hrun
  obtain ⟨hlog, hcommitted⟩ := Prod.mk.inj hview
  have hscan : (scan btcJson (framed [btcTradeText 2])).map StorageEvent.offset = [2] := by
    decide +kernel
  refine ⟨s, hs, hcommitted, (replays_completely_iff hs).mpr ⟨?_, ?_, ?_⟩⟩
  · rw [hscan]
    exact List.nodup_singleton 2
  · intro event hevent
    have hoffset := List.mem_map_of_mem (f := StorageEvent.offset) hevent
    rw [hscan, List.mem_singleton] at hoffset
    rw [hoffset, hlog]
    decide
  · intro _
    rw [hcommitted]
    norm_num

/-- Both events are loaded, and paging one by one returns one of them. -/
theorem concatenated_file_not_replayed :
    ((JsonlRun.start (.create btcJson ⟨4, 2⟩ (some concatenatedFile)) :
        JsonlRun Unit Unit Unit ℚ).storage.committedEvents.length = 2 ∧
      (pages (fun _ => (JsonlAsyncStorage.create btcJson ⟨4, 2⟩ (some concatenatedFile)).replay)
        3 0 onePerPage).map (fun batches => (batches.flatMap ReplayBatch.events).length) =
          some 1) ∧
      ¬ ReplaysCompletely btcJson concatenatedFile
        (.start (.create btcJson ⟨4, 2⟩ (some concatenatedFile)) : JsonlRun Unit Unit Unit ℚ) := by
  refine ⟨by decide +kernel, ?_⟩
  intro h
  have hnodup := h.increasing.offsets_nodup
  exact absurd hnodup (by decide +kernel)

end Sample

end Storage
end CryptoHft
