import CryptoHft.Storage.CorruptLines

/-!
# Paged replay

`StorageReplayDriver::run` and `BacktestReplayDriver::run` have the same loop:
fetch a page, process it, and go on from `next_offset` until a page says that the
stream has ended.  `drive` is this loop, with what is done to a page as a
parameter; `pages` collects the pages themselves.  Events may be committed
between two fetches, so the `k`-th fetch looks at the `k`-th of a sequence of
states.

A page holds the first events that pass the filter, and the cursor it returns
separates them from the rest (`filter_next`).  As stored events keep their place
and their offsets increase, the pages are the events that one unlimited replay
returns in the state of the last fetch.
-/

namespace CryptoHft
namespace Storage

open Lib

section Loop

variable {R σ : Type}

/-- The loop of the replay drivers; the fuel bounds the number of fetches. -/
def drive (fetch : Nat → ReplayRequest → ReplayBatch R) (process : σ → ReplayBatch R → σ) :
    Nat → Nat → ReplayRequest → σ → Option σ
  | 0, _, _, _ => none
  | fuel + 1, k, request, s =>
      let batch := fetch k request
      if batch.endOfStream then some (process s batch)
      else
        match batch.nextOffset with
        | none => some (process s batch)
        | some next =>
            drive fetch process fuel (k + 1) { request with startOffset := some next }
              (process s batch)

/-- The pages that the loop processes, from the `k`-th fetch on. -/
def pages (fetch : Nat → ReplayRequest → ReplayBatch R) :
    Nat → Nat → ReplayRequest → Option (List (ReplayBatch R))
  | 0, _, _ => none
  | fuel + 1, k, request =>
      let batch := fetch k request
      if batch.endOfStream then some [batch]
      else
        match batch.nextOffset with
        | none => some [batch]
        | some next =>
            (pages fetch fuel (k + 1) { request with startOffset := some next }).map
              (fun rest => batch :: rest)

/-- The loop processes its pages one after another. -/
theorem drive_eq
    (fetch : Nat → ReplayRequest → ReplayBatch R) (process : σ → ReplayBatch R → σ)
    (fuel k : Nat) (request : ReplayRequest) (s : σ) :
    drive fetch process fuel k request s =
      (pages fetch fuel k request).map (fun batches => batches.foldl process s) := by
  induction fuel generalizing k request s with
  | zero =>
      rfl
  | succ fuel ih =>
      unfold drive pages
      dsimp only
      split
      · rfl
      · cases (fetch k request).nextOffset with
        | none =>
            rfl
        | some next =>
            simp [ih, Option.map_map, Function.comp_def]

/-- A driver that handles the events one by one folds over those of all its pages. -/
theorem drive_events_eq
    {fetch : Nat → ReplayRequest → ReplayBatch R} {fuel : Nat} {request : ReplayRequest}
    {batches : List (ReplayBatch R)}
    (h : pages fetch fuel 0 request = some batches)
    (process : σ → StorageEvent R → σ) (s : σ) :
    drive fetch (fun s batch => batch.events.foldl process s) fuel 0 request s =
      some ((batches.flatMap ReplayBatch.events).foldl process s) := by
  rw [drive_eq, h, Option.map_some, List.foldl_flatMap]

end Loop

section Page

variable {R : Type}

/-- The events of a list that pass the filter of a request. -/
def matching (request : ReplayRequest) (events : List (StorageEvent R)) :
    List (StorageEvent R) :=
  events.filter (fun event => matchesReplayFilter event request)

/-- The page at the head of the events that pass the filter. -/
def pageOf (limit : Nat) (events : List (StorageEvent R)) : ReplayBatch R :=
  if events.length ≤ limit then ⟨events, none, true⟩
  else
    ⟨events.take limit, (events.take limit).getLast?.map (fun last => last.offset + 1), false⟩

theorem ReplayRequest.limit_pos (request : ReplayRequest) :
    0 < request.limit := by
  unfold ReplayRequest.limit
  split <;> omega

theorem replayLoop_eq
    {request : ReplayRequest} {collected : List (StorageEvent R)}
    (h : collected.length ≤ request.limit) (events : List (StorageEvent R)) :
    replayLoop request collected events =
      pageOf request.limit (collected ++ matching request events) := by
  induction events generalizing collected with
  | nil =>
      simp [replayLoop, matching, pageOf, h]
  | cons event events ih =>
      unfold replayLoop
      cases hmatches : matchesReplayFilter event request with
      | false =>
          simpa [matching, hmatches] using ih h
      | true =>
          have hcons : matching request (event :: events) = event :: matching request events := by
            simp [matching, hmatches]
          by_cases hfull : request.limit ≤ collected.length
          · have hlength : collected.length = request.limit := Nat.le_antisymm h hfull
            have htake : (collected ++ event :: matching request events).take request.limit =
                collected := List.take_left' hlength
            have hmore : ¬ (collected ++ event :: matching request events).length ≤
                request.limit := by
              simp only [List.length_append, List.length_cons]
              omega
            simp only [if_true, if_pos hfull, hcons, pageOf, if_neg hmore, htake]
          · have hroom : (collected ++ [event]).length ≤ request.limit := by
              simp only [List.length_append, List.length_singleton]
              omega
            simp only [if_true, if_neg hfull, ih hroom, hcons, List.append_assoc,
              List.singleton_append]

/-- What `replay` returns. -/
theorem replayEvents_eq (events : List (StorageEvent R)) (request : ReplayRequest) :
    replayEvents events request = pageOf request.limit (matching request events) := by
  rw [replayEvents, replayLoop_eq (Nat.zero_le _), List.nil_append]

/-- Without a limit on the page, `replay` returns all events that pass the filter. -/
theorem replayEvents_unlimited
    {events : List (StorageEvent R)}
    (h : events.length < 2 ^ 64) (request : ReplayRequest) :
    (replayEvents events { request with maxEvents := 0 }).events = matching request events := by
  have hle : (matching request events).length ≤ 2 ^ 64 - 1 := by
    have := List.length_filter_le (fun event => matchesReplayFilter event request) events
    rw [matching]
    omega
  rw [replayEvents_eq]
  have hmatching : matching { request with maxEvents := 0 } events = matching request events := rfl
  rw [hmatching, ReplayRequest.limit, if_pos rfl, pageOf, if_pos hle]

/-- The request for everything returns everything. -/
theorem replayEvents_all
    {events : List (StorageEvent R)}
    (h : events.length < 2 ^ 64) :
    (replayEvents events .all).events = events :=
  (replayEvents_unlimited h .all).trans (List.filter_eq_self.mpr (fun _ _ => rfl))

end Page

section Cursor

variable {R : Type}

/-- An offset that is not the greatest one has a successor. -/
theorem offset_lt_succ
    {a b : UInt64}
    (h : a < b) :
    a < a + 1 := by
  have hb := b.toNat_lt
  rw [UInt64.lt_iff_toNat_lt] at h ⊢
  rw [UInt64.toNat_add, UInt64.toNat_one, Nat.mod_eq_of_lt (by omega)]
  omega

/-- Moving the start of a request drops events from those that pass its filter. -/
theorem matching_next
    {request : ReplayRequest} {next : UInt64}
    (h : ∀ start ∈ request.startOffset, start ≤ next) (events : List (StorageEvent R)) :
    matching { request with startOffset := some next } events =
      (matching request events).filter (fun event => next ≤ event.offset) := by
  rw [matching, matching, List.filter_filter]
  refine List.filter_congr (fun event _ => ?_)
  by_cases hnext : next ≤ event.offset
  · have hstart : request.startOffset.all (fun start => start ≤ event.offset) = true := by
      cases hrequest : request.startOffset with
      | none =>
          rfl
      | some start =>
          have hle : start ≤ next := h start (by simp [hrequest])
          exact decide_eq_true (UInt64.le_trans hle hnext)
    simp [matchesReplayFilter, hnext, hstart]
  · simp [matchesReplayFilter, hnext]

/-- The offset after the last event of a page separates the page from the rest. -/
theorem filter_next
    {front rest : List (StorageEvent R)} {last : StorageEvent R}
    (h : Increasing (front ++ rest))
    (hlast : front.getLast? = some last)
    (hsuccessor : last.offset < last.offset + 1) :
    (front ++ rest).filter (fun event => last.offset + 1 ≤ event.offset) = rest := by
  have hmem : last ∈ front := List.mem_of_getLast? hlast
  obtain ⟨hfront, -, hcross⟩ := List.pairwise_append.mp h
  rw [List.filter_append, List.filter_eq_nil_iff.mpr ?before, List.filter_eq_self.mpr ?after,
    List.nil_append]
  case before =>
    intro event hevent hle
    have hsmall := offset_le_last (hfront.imp UInt64.le_of_lt) hlast hevent
    exact UInt64.not_lt.mpr hsmall (UInt64.lt_of_lt_of_le hsuccessor (of_decide_eq_true hle))
  case after =>
    intro event hevent
    have hlarge : last.offset < event.offset := hcross last hmem event hevent
    rw [decide_eq_true_iff, UInt64.le_iff_toNat_le]
    rw [UInt64.lt_iff_toNat_lt] at hlarge hsuccessor
    have hsucc : (last.offset + 1).toNat ≤ last.offset.toNat + 1 := by
      rw [UInt64.toNat_add]
      exact Nat.mod_le _ _
    omega

theorem Increasing.matching
    {events : List (StorageEvent R)}
    (h : Increasing events) (request : ReplayRequest) :
    Increasing (matching request events) :=
  h.sublist List.filter_sublist

/--
A page that is not the last one: it is full, its cursor is there, and going on
from the cursor in a later state gives the events that this page leaves out.
-/
theorem page_split
    {request : ReplayRequest} {events later : List (StorageEvent R)}
    (hprefixed : events <+: later)
    (hincreasing : Increasing later)
    (hmore : ¬ (matching request events).length ≤ request.limit) :
    ∃ next, (replayEvents events request).nextOffset = some next ∧
      (replayEvents events request).endOfStream = false ∧
      (replayEvents events request).events.length = request.limit ∧
      matching request later = (replayEvents events request).events ++
        matching { request with startOffset := some next } later := by
  have hpage : replayEvents events request =
      ⟨(matching request events).take request.limit,
        ((matching request events).take request.limit).getLast?.map
          (fun last => last.offset + 1), false⟩ := by
    rw [replayEvents_eq, pageOf, if_neg hmore]
  obtain ⟨added, rfl⟩ := hprefixed
  have hfull : ((matching request events).take request.limit).length =
      request.limit := by
    rw [List.length_take]
    omega
  obtain ⟨last, hlast⟩ :
      ∃ last, ((matching request events).take request.limit).getLast? = some last := by
    refine Option.ne_none_iff_exists'.mp ?_
    intro hnone
    rw [List.getLast?_eq_none_iff.mp hnone, List.length_nil] at hfull
    exact Nat.ne_of_lt request.limit_pos hfull
  have hsplit : matching request (events ++ added) =
      (matching request events).take request.limit ++
        ((matching request events).drop request.limit ++ matching request added) := by
    rw [← List.append_assoc, List.take_append_drop, matching, List.filter_append]
    rfl
  have hordered := hsplit ▸ hincreasing.matching request
  have hsuccessor : last.offset < last.offset + 1 := by
    -- the page leaves out an event, which has a greater offset
    have hdrop : (matching request events).drop request.limit ≠ [] := by
      rw [ne_eq, List.drop_eq_nil_iff]
      exact hmore
    obtain ⟨event, hevent⟩ := List.exists_mem_of_ne_nil _ hdrop
    exact offset_lt_succ ((List.pairwise_append.mp hordered).2.2 last (List.mem_of_getLast? hlast)
      event (List.mem_append_left _ hevent))
  refine ⟨last.offset + 1, by rw [hpage, hlast]; rfl, by rw [hpage], by rw [hpage]; exact hfull, ?_⟩
  have hstart : ∀ start ∈ request.startOffset, start ≤ last.offset + 1 := by
    intro start hstart
    have hmem : last ∈ matching request events :=
      List.mem_of_mem_take (List.mem_of_getLast? hlast)
    have hle : start ≤ last.offset := by
      have hmatches := (List.mem_filter.mp hmem).2
      simp only [matchesReplayFilter, Bool.and_eq_true] at hmatches
      rw [Option.mem_def.mp hstart] at hmatches
      exact of_decide_eq_true hmatches.1.1.1
    exact UInt64.le_trans hle (UInt64.le_of_lt hsuccessor)
  rw [matching_next hstart, hpage, hsplit, filter_next hordered hlast hsuccessor]

end Cursor

section Pages

variable {R : Type} {lists : Nat → List (StorageEvent R)}

theorem isPrefix_of_le
    (hgrows : ∀ k, lists k <+: lists (k + 1))
    {k m : Nat}
    (h : k ≤ m) :
    lists k <+: lists m := by
  induction h with
  | refl =>
      exact List.prefix_rfl
  | step _ ih =>
      exact ih.trans (hgrows _)

/-- The last page: it holds all events that pass the filter. -/
theorem page_last
    {request : ReplayRequest} {events : List (StorageEvent R)}
    (hall : (matching request events).length ≤ request.limit) :
    replayEvents events request = ⟨matching request events, none, true⟩ := by
  rw [replayEvents_eq, pageOf, if_pos hall]

variable (lists) in
/-- The loop stops: every page but the last uses up some of the events that are left. -/
theorem exists_pages
    (hgrows : ∀ k, lists k <+: lists (k + 1))
    (hincreasing : ∀ k, Increasing (lists k))
    {n k : Nat} (request : ReplayRequest)
    (hbound : ∀ m, k ≤ m → (matching request (lists m)).length ≤ n)
    {fuel : Nat}
    (hfuel : n < fuel) :
    ∃ batches, pages (fun j => replayEvents (lists j)) fuel k request = some batches ∧
      batches.length ≤ n + 1 ∧ batches ≠ [] ∧
      batches.flatMap ReplayBatch.events =
        matching request (lists (k + (batches.length - 1))) := by
  induction fuel generalizing n k request with
  | zero =>
      omega
  | succ fuel ih =>
      by_cases hall : (matching request (lists k)).length ≤ request.limit
      · refine ⟨[replayEvents (lists k) request], ?_, by simp, by simp, ?_⟩
        · simp [pages, page_last hall]
        · simp [page_last hall]
      · obtain ⟨next, hnext, hopen, hfull, -⟩ :=
          page_split List.prefix_rfl (hincreasing k) hall
        have hsplit : ∀ m, k ≤ m → matching request (lists m) =
            (replayEvents (lists k) request).events ++
              matching { request with startOffset := some next } (lists m) := by
          intro m hm
          obtain ⟨next', hnext', -, -, hrest⟩ :=
            page_split (isPrefix_of_le hgrows hm) (hincreasing m) hall
          rw [hnext, Option.some.injEq] at hnext'
          rw [hnext']
          exact hrest
        have hleft : ∀ m, k ≤ m →
            (matching { request with startOffset := some next } (lists m)).length + 1 ≤ n := by
          intro m hm
          have hlength := congrArg List.length (hsplit m hm)
          have := hbound m hm
          have := request.limit_pos
          rw [List.length_append, hfull] at hlength
          omega
        have hpos := hleft k (Nat.le_refl k)
        obtain ⟨batches, hbatches, hcount, hne, hevents⟩ :=
          @ih (n - 1) (k + 1) { request with startOffset := some next }
            (fun m hm => by have := hleft m (by omega); omega) (by omega)
        refine ⟨replayEvents (lists k) request :: batches, ?_, ?_, by simp, ?_⟩
        · simp [pages, hopen, hnext, hbatches]
        · rw [List.length_cons]
          omega
        · have hsome : 0 < batches.length := List.length_pos_iff.mpr hne
          have hlast : k + ((replayEvents (lists k) request :: batches).length - 1) =
              k + 1 + (batches.length - 1) := by
            rw [List.length_cons]
            omega
          rw [List.flatMap_cons, hevents, hlast]
          exact (hsplit _ (by omega)).symm

/-- More fuel does not change the pages. -/
theorem pages_of_le
    {fetch : Nat → ReplayRequest → ReplayBatch R} {fuel k : Nat} {request : ReplayRequest}
    {batches : List (ReplayBatch R)}
    (h : pages fetch fuel k request = some batches)
    {fuel' : Nat}
    (hle : fuel ≤ fuel') :
    pages fetch fuel' k request = some batches := by
  induction fuel generalizing fuel' k request batches with
  | zero =>
      cases h
  | succ fuel ih =>
      obtain ⟨fuel', rfl⟩ : ∃ m, fuel' = m + 1 := ⟨fuel' - 1, by omega⟩
      unfold pages at h ⊢
      dsimp only at h ⊢
      split
      · rename_i hend
        rwa [if_pos hend] at h
      · rename_i hopen
        rw [if_neg hopen] at h
        cases hnext : (fetch k request).nextOffset with
        | none =>
            simpa [hnext] using h
        | some next =>
            simp only [hnext, Option.map_eq_some_iff] at h ⊢
            obtain ⟨rest, hrest, rfl⟩ := h
            exact ⟨rest, ih hrest (by omega), rfl⟩

/--
Following `next_offset`, with the `k`-th fetch in the `k`-th of some states of a
store, ends after at most `n + 1` pages, and these hold what the same request
without a limit returns in the state of the last fetch, in the order of offsets.
-/
def PagesAgree {σ : Type} (replay : σ → ReplayRequest → ReplayBatch R) (states : Nat → σ)
    (request : ReplayRequest) (n : Nat) : Prop :=
  ∃ batches,
    (∀ fuel, n < fuel →
      drive (fun k => replay (states k)) (fun done batch => done ++ [batch]) fuel 0 request [] =
        some batches) ∧
      batches.length ≤ n + 1 ∧
      batches.flatMap ReplayBatch.events =
        (replay (states (batches.length - 1)) { request with maxEvents := 0 }).events ∧
      Increasing (batches.flatMap ReplayBatch.events)

theorem foldl_concat (done batches : List (ReplayBatch R)) :
    batches.foldl (fun done batch => done ++ [batch]) done = done ++ batches := by
  induction batches generalizing done with
  | nil =>
      simp
  | cons batch batches ih =>
      simp [ih]

/-- Pages agree with unlimited replay in every store whose list of events only grows. -/
theorem pagesAgree_of_grows
    {σ : Type} (events : σ → List (StorageEvent R)) {states : Nat → σ}
    (hgrows : ∀ k, events (states k) <+: events (states (k + 1)))
    (hincreasing : ∀ k, Increasing (events (states k)))
    {n : Nat}
    (hbound : ∀ k, (events (states k)).length ≤ n)
    (hn : n < 2 ^ 64)
    (request : ReplayRequest) :
    PagesAgree (fun s => replayEvents (events s)) states request n := by
  have hmatching : ∀ m, 0 ≤ m → (matching request (events (states m))).length ≤ n :=
    fun m _ => (List.length_filter_le _ _).trans (hbound m)
  obtain ⟨batches, hbatches, hcount, -, hevents⟩ :=
    exists_pages (fun k => events (states k)) hgrows hincreasing request hmatching
      (Nat.lt_succ_self n)
  rw [Nat.zero_add] at hevents
  refine ⟨batches, ?_, hcount, ?_, ?_⟩
  · intro fuel hfuel
    rw [drive_eq, pages_of_le hbatches hfuel, Option.map_some, foldl_concat, List.nil_append]
  · rw [hevents, replayEvents_unlimited (Nat.lt_of_le_of_lt (hbound _) hn)]
  · rw [hevents]
    exact (hincreasing _).matching request

end Pages

section Stores

variable {R : Type}

/-- Offsets that are counted from 0 on increase. -/
theorem increasing_stampFrom
    {log : List (StorageEvent R × Int64)}
    (h : log.length ≤ 2 ^ 64) :
    Increasing (stampFrom 0 log) :=
  (stampFrom_increasing (by rw [UInt64.toNat_zero]; omega)).1

/-- A driver without filters, with any page size, processes a whole log once and in order. -/
theorem drive_all
    {σ : Type} {log : List (StorageEvent R × Int64)}
    (h : log.length < 2 ^ 64)
    (pageSize : Nat)
    {fuel : Nat}
    (hfuel : log.length < fuel)
    (process : σ → StorageEvent R → σ) (s : σ) :
    drive (fun _ => replayEvents (stampFrom 0 log)) (fun s batch => batch.events.foldl process s)
        fuel 0 { ReplayRequest.all with maxEvents := pageSize } s =
      some ((stampFrom 0 log).foldl process s) := by
  have hmatching : matching { ReplayRequest.all with maxEvents := pageSize } (stampFrom 0 log) =
      stampFrom 0 log := List.filter_eq_self.mpr (fun _ _ => rfl)
  obtain ⟨batches, hbatches, -, -, hevents⟩ :=
    exists_pages (fun _ => stampFrom 0 log) (fun _ => List.prefix_rfl)
      (fun _ => increasing_stampFrom h.le) (n := log.length) (k := 0)
      { ReplayRequest.all with maxEvents := pageSize }
      (fun _ _ => by rw [hmatching, length_stampFrom]) hfuel
  rw [hmatching] at hevents
  rw [drive_events_eq hbatches, hevents]

/-- The calls that change an in-memory store. -/
inductive InMemoryCall (R : Type)
  | append (event : StorageEvent R) (nowNs : Int64)
  | flush
  | close

def InMemoryStorage.call (s : InMemoryStorage R) : InMemoryCall R → InMemoryStorage R
  | .append event nowNs => (s.append event nowNs).2
  | .flush => s.flush.2
  | .close => s.close

/-- The events of an in-memory store are numbered from 0 on. -/
structure InMemoryStorage.Inv (s : InMemoryStorage R) : Prop where
  stamped : ∃ log, s.events = stampFrom 0 log ∧ s.nextOffset = UInt64.ofNat log.length

theorem InMemoryStorage.Inv.call
    {s : InMemoryStorage R}
    (h : s.Inv) (c : InMemoryCall R) :
    (s.call c).Inv ∧ s.events <+: (s.call c).events := by
  cases c with
  | append event nowNs =>
      obtain ⟨log, hevents, hnext⟩ := h.stamped
      simp only [InMemoryStorage.call, InMemoryStorage.append]
      split
      · exact ⟨h, List.prefix_rfl⟩
      · split
        · exact ⟨h, List.prefix_rfl⟩
        · refine ⟨⟨log ++ [(event, nowNs)], ?_, ?_⟩, List.prefix_append _ _⟩
          · simp only [hevents, hnext, stampFrom_append, stampFrom, UInt64.zero_add]
          · rw [hnext, List.length_append, UInt64.ofNat_add]
            rfl
  | flush =>
      exact ⟨⟨h.stamped⟩, List.prefix_rfl⟩
  | close =>
      exact ⟨⟨h.stamped⟩, List.prefix_rfl⟩

/-- The states that calls lead to from a state of an in-memory store. -/
def InMemoryStorage.Reaches (s t : InMemoryStorage R) : Prop :=
  Reachable (Steps (fun u c => some (InMemoryStorage.call u c))) s t

theorem InMemoryStorage.Inv.reaches
    {s t : InMemoryStorage R}
    (h : s.Inv)
    (ht : s.Reaches t) :
    t.Inv ∧ s.events <+: t.events := by
  induction ht with
  | init =>
      exact ⟨h, List.prefix_rfl⟩
  | @tail u v c _ hstep ih =>
      cases hstep
      exact ⟨(ih.1.call c).1, ih.2.trans (ih.1.call c).2⟩

theorem InMemoryStorage.inv_create : (InMemoryStorage.create : InMemoryStorage R).Inv :=
  ⟨[], rfl, rfl⟩

theorem InMemoryStorage.Inv.increasing
    {s : InMemoryStorage R}
    (h : s.Inv)
    (hcount : s.events.length < 2 ^ 64) :
    Increasing s.events := by
  obtain ⟨log, hevents, -⟩ := h.stamped
  rw [hevents, length_stampFrom] at hcount
  rw [hevents]
  exact increasing_stampFrom hcount.le

section Jsonl

variable {ι γ φ : Type} {json : JsonText R}
  [DecidableEq ι] [DecidableEq γ] [DecidableEq φ] {s t : JsonlRun ι γ φ R}

/-- Committed events stay where they are. -/
theorem committedEvents_isPrefix
    {a : JsonlAction ι γ φ R}
    (hstep : s.step json a = some t) :
    s.storage.committedEvents <+: t.storage.committedEvents := by
  cases a with
  | callAppend i event =>
      rw [JsonlRun.eq_of_callAppend hstep]
      exact List.prefix_rfl
  | append i nowNs =>
      simp only [JsonlRun.step, JsonlRun.appendStep] at hstep
      split at hstep <;> (try split at hstep) <;> cases hstep <;> exact List.prefix_rfl
  | flusher =>
      simp only [JsonlRun.step, JsonlRun.flusherStep] at hstep
      cases hpc : s.flusher with
      | waiting =>
          rw [hpc] at hstep
          dsimp only at hstep
          split at hstep
          · cases hstep
          · split at hstep <;> cases hstep <;> exact List.prefix_rfl
      | committing batch =>
          rw [hpc] at hstep
          cases hstep
          exact List.prefix_append _ _
      | writing batch | counting n =>
          rw [hpc] at hstep
          cases hstep
          exact List.prefix_rfl
      | stopped =>
          rw [hpc] at hstep
          cases hstep
  | callClose j =>
      rw [JsonlRun.eq_of_callClose hstep]
      exact List.prefix_rfl
  | close j =>
      simp only [JsonlRun.step, JsonlRun.closeStep] at hstep
      split at hstep <;> (try split at hstep) <;> cases hstep <;> exact List.prefix_rfl
  | callFlush k =>
      rw [JsonlRun.eq_of_callFlush hstep]
      exact List.prefix_rfl
  | flush k timedOut =>
      obtain ⟨pc, flushCount, rfl⟩ := JsonlRun.flushStep_cases hstep
      exact List.prefix_rfl

theorem committedEvents_isPrefix_of_reachable
    (ht : Reachable (Steps (JsonlRun.step json)) s t) :
    s.storage.committedEvents <+: t.storage.committedEvents := by
  induction ht with
  | init =>
      exact List.prefix_rfl
  | tail _ hstep ih =>
      exact ih.trans (committedEvents_isPrefix hstep)

end Jsonl

end Stores

section BothStores

variable {ι γ φ R : Type} [DecidableEq ι] [DecidableEq γ] [DecidableEq φ] [Double R]

/--
Paged replay of both stores, while further calls are made between the fetches: it
ends, and it returns what unlimited replay returns at the last fetch.  The file of a
`JsonlAsyncStorage` is one that the storage wrote in any number of runs; its lines are read
back or do not decode.
-/
theorem paged_replay_eq_unlimited
    (request : ReplayRequest)
    {n : Nat}
    (hn : n < 2 ^ 64) :
    (∀ states : Nat → InMemoryStorage R,
      InMemoryStorage.create.Reaches (states 0) →
      (∀ k, (states k).Reaches (states (k + 1))) →
      (∀ k, (states k).events.length ≤ n) →
      PagesAgree InMemoryStorage.replay states request n) ∧
    (∀ (json : JsonText R) (file : Option Bytes) (events : List (StorageEvent R))
        (config : JsonlAsyncStorageConfig) (states : Nat → JsonlRun ι γ φ R),
      Written ι γ φ json file events →
      events.length + (n - (load json (file.getD [])).length) < 2 ^ 64 →
      (∀ event ∈ events, ReadsOrFails json event) →
      Reachable (Steps (JsonlRun.step json)) (.start (.create json config file)) (states 0) →
      (∀ k, Reachable (Steps (JsonlRun.step json)) (states k) (states (k + 1))) →
      (∀ k, (states k).storage.committedEvents.length ≤ n) →
      PagesAgree (fun s request => s.storage.replay request) states request n) := by
  constructor
  · intro states hfirst hnext hcount
    have hinv : ∀ k, (states k).Inv := by
      intro k
      induction k with
      | zero =>
          exact (InMemoryStorage.inv_create.reaches hfirst).1
      | succ k ih =>
          exact (ih.reaches (hnext k)).1
    exact pagesAgree_of_grows InMemoryStorage.events (fun k => ((hinv k).reaches (hnext k)).2)
      (fun k => (hinv k).increasing (Nat.lt_of_le_of_lt (hcount k) hn)) hcount hn request
  · intro json file events config states hfile hbound hread hfirst hnext hcount
    have hreached : ∀ k, Reachable (Steps (JsonlRun.step json))
        (.start (.create json config file)) (states k) := by
      intro k
      induction k with
      | zero =>
          exact hfirst
      | succ k ih =>
          exact ih.trans (hnext k)
    exact pagesAgree_of_grows (fun s : JsonlRun ι γ φ R => s.storage.committedEvents)
      (fun k => committedEvents_isPrefix_of_reachable (hnext k))
      (fun k => hfile.increasing hread (hreached k) (hcount k) hbound)
      hcount hn request

end BothStores

section Sample

/-- Pages of one event. -/
def onePerPage : ReplayRequest :=
  { ReplayRequest.all with maxEvents := 1 }

/-- One state for the first fetch and one for all later ones. -/
def firstThen {σ : Type} (first later : σ) : Nat → σ
  | 0 => first
  | _ + 1 => later

/-- An in-memory store that receives a third trade after the first page. -/
def growingStore : Nat → InMemoryStorage ℚ :=
  firstThen (.received [(btcTrade, 7), (btcTrade, 7)])
    (.received [(btcTrade, 7), (btcTrade, 7), (btcTrade, 7)])

/-- A run on the file of one trade commits another one. -/
theorem exists_growing_run :
    ∃ (file : Bytes) (s : JsonlRun Unit Unit Unit ℚ),
      Sessions Unit Unit Unit btcJson (some file) [(btcTrade, 7)] ∧
        Reachable (Steps (JsonlRun.step btcJson))
          (.start (.create btcJson ⟨4, 2⟩ (some file))) s ∧
        (JsonlAsyncStorage.create btcJson ⟨4, 2⟩ (some file)).committedEvents.length = 1 ∧
        s.storage.committedEvents.length = 2 := by
  obtain ⟨w, hw, hwclosed, hwlog, hwoutput⟩ := exists_first_session
  have hrun : (runActions (JsonlRun.step btcJson)
      (.start (.create btcJson ⟨4, 2⟩ (some (btcTradeText 0 ++ [10]))))
      (appendTrade ++ flushBatch)).map (fun s => s.storage.committedEvents.length) = some 2 := by
    decide +kernel
  obtain ⟨s, hs, hview⟩ := Reachable.exists_of_runActions hrun
  have hsessions := Sessions.absent.session hw hwclosed
  rw [hwlog, hwoutput] at hsessions
  exact ⟨btcTradeText 0 ++ [10], s, hsessions, hs, by decide +kernel, hview⟩

theorem paged_replay_while_committing :
    PagesAgree InMemoryStorage.replay growingStore onePerPage 3 ∧
      ∃ (file : Bytes) (s : JsonlRun Unit Unit Unit ℚ),
        s.storage.committedEvents.length = 2 ∧
        PagesAgree (fun s request => s.storage.replay request)
          (firstThen (.start (.create btcJson ⟨4, 2⟩ (some file))) s) onePerPage 3 := by
  have hboth := paged_replay_eq_unlimited (ι := Unit) (γ := Unit) (φ := Unit) (R := ℚ)
    onePerPage (n := 3) (by decide)
  constructor
  · refine hboth.1 growingStore ?_ ?_ ?_
    · exact (Reachable.init.tail (a := .append btcTrade 7) rfl).tail (a := .append btcTrade 7) rfl
    · rintro (_ | k)
      · exact Reachable.init.tail (a := .append btcTrade 7) rfl
      · exact Reachable.init
    · rintro (_ | k)
      · rw [growingStore, firstThen, received_events (by decide), length_stampFrom]
        decide
      · rw [growingStore, firstThen, received_events (by decide), length_stampFrom]
        decide
  · obtain ⟨file, s, hsessions, hs, hfirst, hlater⟩ := exists_growing_run
    have hjson : ∀ event ∈ stampFrom 0 [(btcTrade, 7)], RoundTrips btcJson event :=
      fun event hevent => roundTrips_two_trades event (List.mem_of_mem_take (i := 1) hevent)
    have hwritten := hsessions.written (by decide) hjson
    refine ⟨file, s, hlater, hboth.2 btcJson (some file) _ ⟨4, 2⟩ _ hwritten ?_
      (fun event hevent => (hjson event hevent).readsOrFails) Reachable.init ?_ ?_⟩
    · rw [length_stampFrom, List.length_singleton]
      omega
    · rintro (_ | k)
      · exact hs
      · exact Reachable.init
    · rintro (_ | k)
      · exact hfirst.trans_le (by decide)
      · exact hlater.trans_le (by decide)

end Sample

end Storage
end CryptoHft
