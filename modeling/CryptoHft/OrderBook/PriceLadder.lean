import CryptoHft.OrderBook.OrderBook

/-!
# The order book as a last-writer-wins price ladder

The reference is computed from the history of calls alone: the levels of a side
since the start of the last snapshot, read with the last writer of a price
winning.  `upsert` keeps a side equal to the reference of the levels it has seen
(`Agrees.upsert`), hence so do a call and a history.
-/

namespace CryptoHft
namespace Orderbook

open Lib

section Reference

variable {R : Type}

/-- The calls from the last snapshot on; all of them if there was none. -/
def sinceLastSnapshot : List (BookCall R) → List (BookCall R)
  | [] => []
  | call :: rest =>
      if rest.any BookCall.isSnapshot then sinceLastSnapshot rest else call :: rest

def bidLevels (history : List (BookCall R)) : List (BookLevel R) :=
  (sinceLastSnapshot history).flatMap (fun call => call.update.bids)

def askLevels (history : List (BookCall R)) : List (BookLevel R) :=
  (sinceLastSnapshot history).flatMap (fun call => call.update.asks)

theorem sinceLastSnapshot_append_singleton
    (history : List (BookCall R))
    (call : BookCall R) :
    sinceLastSnapshot (history ++ [call]) =
      if call.isSnapshot then [call] else sinceLastSnapshot history ++ [call] := by
  induction history with
  | nil =>
      simp [sinceLastSnapshot]
  | cons first rest ih =>
      rw [List.cons_append, sinceLastSnapshot, List.any_append, List.any_cons, List.any_nil,
        Bool.or_false, ih]
      by_cases hcall : call.isSnapshot
      · simp [hcall]
      · by_cases hrest : rest.any BookCall.isSnapshot
        · simp [hcall, hrest, sinceLastSnapshot]
        · simp [hcall, hrest, sinceLastSnapshot]

theorem bidLevels_append_snapshot
    (history : List (BookCall R))
    (u : BookUpdate R) :
    bidLevels (history ++ [.snapshot u]) = u.bids := by
  simp [bidLevels, sinceLastSnapshot_append_singleton, BookCall.isSnapshot, BookCall.update]

theorem askLevels_append_snapshot
    (history : List (BookCall R))
    (u : BookUpdate R) :
    askLevels (history ++ [.snapshot u]) = u.asks := by
  simp [askLevels, sinceLastSnapshot_append_singleton, BookCall.isSnapshot, BookCall.update]

theorem bidLevels_append_delta
    (history : List (BookCall R))
    (u : BookUpdate R) :
    bidLevels (history ++ [.delta u]) = bidLevels history ++ u.bids := by
  simp [bidLevels, sinceLastSnapshot_append_singleton, BookCall.isSnapshot, BookCall.update]

theorem askLevels_append_delta
    (history : List (BookCall R))
    (u : BookUpdate R) :
    askLevels (history ++ [.delta u]) = askLevels history ++ u.asks := by
  simp [askLevels, sinceLastSnapshot_append_singleton, BookCall.isSnapshot, BookCall.update]

variable [LinearOrder R]

/-- The quantity of the last level for a price. -/
def lastQuantity (levels : List (BookLevel R)) (p : R) : Option R :=
  (levels.reverse.find? (fun level => level.price = p)).map BookLevel.quantity

theorem lastQuantity_append_singleton
    (levels : List (BookLevel R))
    (level : BookLevel R)
    (p : R) :
    lastQuantity (levels ++ [level]) p =
      if level.price = p then some level.quantity else lastQuantity levels p := by
  by_cases hp : level.price = p
  · simp [lastQuantity, hp]
  · simp [lastQuantity, hp]

variable [Zero R]

/-- A level stands at the end of a sequence of levels. -/
def Stands (levels : List (BookLevel R)) (level : BookLevel R) : Prop :=
  0 < level.price ∧ 0 < level.quantity ∧
    lastQuantity levels level.price = some level.quantity

end Reference

section Sides

variable {R : Type} [LinearOrder R] [Zero R]
variable {lt : R → R → Prop} [DecidableRel lt] [IsStrictTotalOrder R lt]

/-- A side holds exactly the levels that stand. -/
def Agrees (side : OrderedMap R R lt) (levels : List (BookLevel R)) : Prop :=
  ∀ p q, (p, q) ∈ side.entries ↔ Stands levels ⟨p, q⟩

omit [DecidableRel lt] [IsStrictTotalOrder R lt] in
theorem agrees_empty :
    Agrees (.empty : OrderedMap R R lt) [] := by
  intro p q
  simp [Stands, lastQuantity]

/-- One level. -/
theorem Agrees.upsert
    {side : OrderedMap R R lt}
    {levels : List (BookLevel R)}
    (h : Agrees side levels)
    (level : BookLevel R) :
    Agrees (upsert side level) (levels ++ [level]) := by
  intro p q
  simp only [Orderbook.upsert, Stands, lastQuantity_append_singleton]
  have hside := h p q
  simp only [Stands] at hside
  split_ifs with hprice hp hquantity hp hp
  · -- the level is skipped, and so is every later question about its price
    subst hp
    rw [hside]
    constructor
    · rintro ⟨hpos, -, -⟩
      exact absurd hpos (not_lt.mpr hprice)
    · rintro ⟨hpos, -, -⟩
      exact absurd hpos (not_lt.mpr hprice)
  · exact hside
  · subst hp
    rw [OrderedMap.mem_erase]
    constructor
    · rintro ⟨hne, -⟩
      exact absurd rfl hne
    · rintro ⟨-, hpos, hq⟩
      rw [Option.some.injEq] at hq
      exact absurd hpos (not_lt.mpr (hq ▸ hquantity))
  · rw [OrderedMap.mem_erase, hside]
    constructor
    · rintro ⟨-, hstands⟩
      exact hstands
    · intro hstands
      exact ⟨fun heq => hp heq.symm, hstands⟩
  · subst hp
    rw [OrderedMap.mem_insert]
    constructor
    · rintro (heq | ⟨hne, -⟩)
      · cases heq
        exact ⟨not_le.mp hprice, not_le.mp hquantity, rfl⟩
      · exact absurd rfl hne
    · rintro ⟨-, -, hq⟩
      rw [Option.some.injEq] at hq
      exact .inl (by rw [hq])
  · rw [OrderedMap.mem_insert, hside]
    constructor
    · rintro (heq | ⟨-, hstands⟩)
      · exact absurd (congrArg Prod.fst heq).symm hp
      · exact hstands
    · intro hstands
      exact .inr ⟨fun heq => hp heq.symm, hstands⟩

/-- A list of levels. -/
theorem Agrees.foldl_upsert
    {side : OrderedMap R R lt}
    {levels : List (BookLevel R)}
    (h : Agrees side levels)
    (update : List (BookLevel R)) :
    Agrees (update.foldl Orderbook.upsert side) (levels ++ update) := by
  induction update generalizing side levels with
  | nil =>
      simpa using h
  | cons level rest ih =>
      rw [List.foldl_cons, List.append_cons]
      exact ih (h.upsert level)

end Sides

section Histories

variable {R : Type} [LinearOrder R] [Zero R]

/-- Both sides of the book agree with the history. -/
structure Follows (book : OrderBook R) (history : List (BookCall R)) : Prop where
  bids : Agrees book.bids (bidLevels history)
  asks : Agrees book.asks (askLevels history)

/-- One call. -/
theorem Follows.apply
    {book : OrderBook R}
    {history : List (BookCall R)}
    (h : Follows book history)
    (call : BookCall R) :
    Follows (book.apply call) (history ++ [call]) := by
  cases call with
  | snapshot u =>
      constructor
      · rw [bidLevels_append_snapshot, ← List.nil_append u.bids]
        exact agrees_empty.foldl_upsert u.bids
      · rw [askLevels_append_snapshot, ← List.nil_append u.asks]
        exact agrees_empty.foldl_upsert u.asks
  | delta u =>
      constructor
      · rw [bidLevels_append_delta]
        exact h.bids.foldl_upsert u.bids
      · rw [askLevels_append_delta]
        exact h.asks.foldl_upsert u.asks

/-- A history of calls. -/
theorem follows_after
    (ticker : Bytes)
    (history : List (BookCall R)) :
    Follows (OrderBook.after ticker history) history := by
  induction history using List.reverseRecOn with
  | nil =>
      exact ⟨agrees_empty, agrees_empty⟩
  | append_singleton history call ih =>
      rw [OrderBook.after, List.foldl_append]
      exact ih.apply call

theorem timestampNs_apply
    (book : OrderBook R)
    (call : BookCall R) :
    (book.apply call).timestampNs = call.update.timestampNs := by
  cases call <;> rfl

theorem sequence_apply
    (book : OrderBook R)
    (call : BookCall R) :
    (book.apply call).sequence = call.update.sequence := by
  cases call <;> rfl

end Histories

section Reading

variable {R : Type}

/-- A level as the entry of a side. -/
def toLevel (entry : R × R) : BookLevel R :=
  ⟨entry.1, entry.2⟩

theorem toLevel_mem_map
    (entries : List (R × R))
    (level : BookLevel R) :
    level ∈ entries.map toLevel ↔ (level.price, level.quantity) ∈ entries := by
  constructor
  · intro h
    obtain ⟨entry, hentry, rfl⟩ := List.mem_map.mp h
    exact hentry
  · intro h
    exact List.mem_map.mpr ⟨_, h, rfl⟩

theorem copyLevels_eq_take
    (depth count : Nat)
    (entries : List (R × R)) :
    OrderBook.copyLevels depth count entries =
      (entries.take (depth - count)).map toLevel := by
  induction entries generalizing count with
  | nil =>
      simp [OrderBook.copyLevels]
  | cons entry rest ih =>
      obtain ⟨price, quantity⟩ := entry
      by_cases hcount : depth ≤ count
      · simp [OrderBook.copyLevels, hcount]
      · have hsucc : depth - count = depth - (count + 1) + 1 := by
          omega
        simp [OrderBook.copyLevels, hcount, ih, hsucc, toLevel]

theorem copyLevels_min
    {depth : Nat}
    (hdepth : depth ≠ 0)
    (entries : List (R × R)) :
    OrderBook.copyLevels (if depth = 0 then entries.length else min depth entries.length) 0
      entries = (entries.map toLevel).take depth := by
  rw [copyLevels_eq_take, if_neg hdepth, Nat.sub_zero, ← List.map_take]
  congr 1
  rw [List.take_eq_take_iff]
  simp

variable [LinearOrder R]

theorem snapshot_zero_bids (book : OrderBook R) :
    (book.snapshot 0).bids = book.bids.entries.map toLevel := by
  simp [OrderBook.snapshot, copyLevels_eq_take]

theorem snapshot_zero_asks (book : OrderBook R) :
    (book.snapshot 0).asks = book.asks.entries.map toLevel := by
  simp [OrderBook.snapshot, copyLevels_eq_take]

theorem snapshot_bids
    (book : OrderBook R)
    {depth : Nat}
    (hdepth : depth ≠ 0) :
    (book.snapshot depth).bids = (book.snapshot 0).bids.take depth := by
  rw [snapshot_zero_bids]
  exact copyLevels_min hdepth book.bids.entries

theorem snapshot_asks
    (book : OrderBook R)
    {depth : Nat}
    (hdepth : depth ≠ 0) :
    (book.snapshot depth).asks = (book.snapshot 0).asks.take depth := by
  rw [snapshot_zero_asks]
  exact copyLevels_min hdepth book.asks.entries

/-- There is a best quote exactly if neither side is empty. -/
theorem bestQuote_eq_none_iff (book : OrderBook R) :
    book.bestQuote = none ↔ (book.snapshot 0).bids = [] ∨ (book.snapshot 0).asks = [] := by
  rw [snapshot_zero_bids, snapshot_zero_asks, OrderBook.bestQuote]
  cases hbids : book.bids.entries with
  | nil =>
      simp
  | cons bid bids =>
      cases hasks : book.asks.entries with
      | nil =>
          simp
      | cons ask asks =>
          simp

/-- The best quote is made of the best level of each side. -/
theorem bestQuote_spec
    {book : OrderBook R}
    {quote : QuoteUpdate R}
    (h : book.bestQuote = some quote) :
    (⟨quote.bidPrice, quote.bidSize⟩ ∈ (book.snapshot 0).bids ∧
      ∀ level ∈ (book.snapshot 0).bids, level.price ≤ quote.bidPrice) ∧
    (⟨quote.askPrice, quote.askSize⟩ ∈ (book.snapshot 0).asks ∧
      ∀ level ∈ (book.snapshot 0).asks, quote.askPrice ≤ level.price) ∧
    quote.timestampNs = book.timestampNs := by
  rw [snapshot_zero_bids, snapshot_zero_asks]
  rw [OrderBook.bestQuote] at h
  split at h
  · rename_i bid bids ask asks hbids hasks
    cases h
    refine ⟨⟨?_, ?_⟩, ⟨?_, ?_⟩, rfl⟩
    · simp [hbids, toLevel]
    · intro level hlevel
      rw [toLevel_mem_map, hbids] at hlevel
      rcases List.mem_cons.mp hlevel with heq | hrest
      · exact (congrArg Prod.fst heq).le
      · exact le_of_lt (OrderedMap.lt_of_mem_tail hbids hrest)
    · simp [hasks, toLevel]
    · intro level hlevel
      rw [toLevel_mem_map, hasks] at hlevel
      rcases List.mem_cons.mp hlevel with heq | hrest
      · exact (congrArg Prod.fst heq).ge
      · exact le_of_lt (OrderedMap.lt_of_mem_tail hasks hrest)
  · cases h

end Reading

section LastWriterWins

variable {R : Type} [LinearOrder R] [Zero R]

/-- What can be read from a book, in terms of the history of its calls. -/
structure LastWriterWins (book : OrderBook R) (history : List (BookCall R)) : Prop where
  bids : ∀ level, level ∈ (book.snapshot 0).bids ↔ Stands (bidLevels history) level
  asks : ∀ level, level ∈ (book.snapshot 0).asks ↔ Stands (askLevels history) level
  bids_decreasing : (book.snapshot 0).bids.Pairwise (fun a b => a.price > b.price)
  asks_increasing : (book.snapshot 0).asks.Pairwise (fun a b => a.price < b.price)
  first_bids : ∀ depth, depth ≠ 0 →
    (book.snapshot depth).bids = (book.snapshot 0).bids.take depth
  first_asks : ∀ depth, depth ≠ 0 →
    (book.snapshot depth).asks = (book.snapshot 0).asks.take depth
  no_quote : book.bestQuote = none ↔
    (book.snapshot 0).bids = [] ∨ (book.snapshot 0).asks = []
  best_bid : ∀ quote, book.bestQuote = some quote →
    ⟨quote.bidPrice, quote.bidSize⟩ ∈ (book.snapshot 0).bids ∧
      ∀ level ∈ (book.snapshot 0).bids, level.price ≤ quote.bidPrice
  best_ask : ∀ quote, book.bestQuote = some quote →
    ⟨quote.askPrice, quote.askSize⟩ ∈ (book.snapshot 0).asks ∧
      ∀ level ∈ (book.snapshot 0).asks, quote.askPrice ≤ level.price
  last_call : ∀ call, history.getLast? = some call →
    (∀ depth, (book.snapshot depth).timestampNs = call.update.timestampNs ∧
      (book.snapshot depth).sequence = call.update.sequence) ∧
    ∀ quote, book.bestQuote = some quote → quote.timestampNs = call.update.timestampNs

theorem timestampNs_sequence_after
    (ticker : Bytes)
    {history : List (BookCall R)}
    {call : BookCall R}
    (hlast : history.getLast? = some call) :
    (OrderBook.after ticker history).timestampNs = call.update.timestampNs ∧
      (OrderBook.after ticker history).sequence = call.update.sequence := by
  obtain ⟨before, rfl⟩ := List.getLast?_eq_some_iff.mp hlast
  rw [OrderBook.after, List.foldl_append]
  exact ⟨timestampNs_apply _ call, sequence_apply _ call⟩

/-- Every history of snapshots and deltas leaves a last-writer-wins price ladder. -/
theorem after_lastWriterWins
    (ticker : Bytes)
    (history : List (BookCall R)) :
    LastWriterWins (OrderBook.after ticker history) history := by
  have hfollows := follows_after ticker history
  constructor
  case bids =>
    intro level
    rw [snapshot_zero_bids, toLevel_mem_map]
    exact hfollows.bids level.price level.quantity
  case asks =>
    intro level
    rw [snapshot_zero_asks, toLevel_mem_map]
    exact hfollows.asks level.price level.quantity
  case bids_decreasing =>
    rw [snapshot_zero_bids, List.pairwise_map]
    exact (OrderBook.after ticker history).bids.sorted
  case asks_increasing =>
    rw [snapshot_zero_asks, List.pairwise_map]
    exact (OrderBook.after ticker history).asks.sorted
  case first_bids =>
    intro depth hdepth
    exact snapshot_bids _ hdepth
  case first_asks =>
    intro depth hdepth
    exact snapshot_asks _ hdepth
  case no_quote =>
    exact bestQuote_eq_none_iff _
  case best_bid =>
    intro quote hquote
    exact (bestQuote_spec hquote).1
  case best_ask =>
    intro quote hquote
    exact (bestQuote_spec hquote).2.1
  case last_call =>
    intro call hlast
    obtain ⟨htimestamp, hsequence⟩ := timestampNs_sequence_after ticker hlast
    refine ⟨fun depth => ⟨htimestamp, hsequence⟩, ?_⟩
    intro quote hquote
    rw [(bestQuote_spec hquote).2.2, htimestamp]

end LastWriterWins

end Orderbook
end CryptoHft
