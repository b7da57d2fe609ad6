import CryptoHft.OrderBook.MultiExchange
import CryptoHft.OrderBook.PriceLadder

/-!
# The consolidated quote is the best of all venues

`best_quote` runs over the books of a ticker in the order in which they were
registered, skips those without a quote, and keeps the best bid, the best ask and
the latest timestamp seen so far, each on its own.  A later book replaces the best
bid or ask only if it is strictly better, so a price comes with the size and the
venue of the first book that offers it.

`FirstBest` is the notion behind both sides: the first element of a list that no
element beats.
-/

namespace CryptoHft
namespace Orderbook

open Lib

section FirstBest

variable {α κ : Type} {lt : κ → κ → Prop} {key : α → κ}

/-- The first element of a list that none beats; `lt` is "better than". -/
def FirstBest (lt : κ → κ → Prop) (key : α → κ) (l : List α) (best : α) : Prop :=
  ∃ front rest, l = front ++ best :: rest ∧
    (∀ x ∈ front, lt (key best) (key x)) ∧ ∀ x ∈ rest, ¬ lt (key x) (key best)

theorem firstBest_singleton (x : α) :
    FirstBest lt key [x] x :=
  ⟨[], [], rfl, by simp, by simp⟩

/-- A new element becomes the best if it is strictly better. -/
theorem FirstBest.append
    [IsStrictTotalOrder κ lt]
    {l : List α} {best : α}
    (h : FirstBest lt key l best)
    (x : α)
    [Decidable (lt (key x) (key best))] :
    FirstBest lt key (l ++ [x]) (if lt (key x) (key best) then x else best) := by
  obtain ⟨front, rest, rfl, hfront, hrest⟩ := h
  split
  · rename_i hbetter
    refine ⟨front ++ best :: rest, [], rfl, ?_, by simp⟩
    intro y hy
    rcases List.mem_append.mp hy with hy | hy
    · exact IsTrans.trans _ _ _ hbetter (hfront y hy)
    · rcases List.mem_cons.mp hy with rfl | hy
      · exact hbetter
      · rcases trichotomous_of lt (key y) (key best) with hlt | heq | hgt
        · exact absurd hlt (hrest y hy)
        · rwa [heq]
        · exact IsTrans.trans _ _ _ hbetter hgt
  · rename_i hworse
    refine ⟨front, rest ++ [x], by simp, hfront, ?_⟩
    intro y hy
    rcases List.mem_append.mp hy with hy | hy
    · exact hrest y hy
    · rwa [List.mem_singleton.mp hy]

end FirstBest

section Offers

variable {R : Type}

/-- A price with its size and its venue. -/
structure Offer (R : Type) where
  exchange : Bytes
  price : R
  size : R
deriving DecidableEq

/-- The bid of a book's quote, under the exchange it is registered for. -/
def bidOffer (quoted : Bytes × QuoteUpdate R) : Offer R :=
  ⟨quoted.1, quoted.2.bidPrice, quoted.2.bidSize⟩

def askOffer (quoted : Bytes × QuoteUpdate R) : Offer R :=
  ⟨quoted.1, quoted.2.askPrice, quoted.2.askSize⟩

def ConsolidatedQuote.bid (best : ConsolidatedQuote R) : Offer R :=
  ⟨best.bidExchange, best.quote.bidPrice, best.quote.bidSize⟩

def ConsolidatedQuote.ask (best : ConsolidatedQuote R) : Offer R :=
  ⟨best.askExchange, best.quote.askPrice, best.quote.askSize⟩

variable [LinearOrder R]

/-- The quotes of the two-sided books of a ticker, in the order of registration. -/
def MultiExchangeOrderBook.quoted (m : MultiExchangeOrderBook R) (ticker : Bytes) :
    List (Bytes × QuoteUpdate R) :=
  (m.visited ticker).filterMap (fun ref =>
    ((m.books ref.book).bind OrderBook.bestQuote).map (fun quote => (ref.exchange, quote)))

/-- The best of the quotes of several venues, each part on its own. -/
structure BestOf (quoted : List (Bytes × QuoteUpdate R)) (best : ConsolidatedQuote R) :
    Prop where
  bid : FirstBest (· > ·) Offer.price (quoted.map bidOffer) best.bid
  ask : FirstBest (· < ·) Offer.price (quoted.map askOffer) best.ask
  timestamp : ∃ offer ∈ quoted, best.quote.timestampNs = offer.2.timestampNs
  latest : ∀ offer ∈ quoted, offer.2.timestampNs ≤ best.quote.timestampNs

open MultiExchangeOrderBook

/-- Bid, ask and timestamp are updated independently. -/
theorem consolidate_some
    (best : ConsolidatedQuote R)
    (exchange : Bytes)
    (quote : QuoteUpdate R) :
    (consolidate (some best) exchange quote).bid =
        (if quote.bidPrice > best.quote.bidPrice then bidOffer (exchange, quote) else best.bid) ∧
      (consolidate (some best) exchange quote).ask =
        (if quote.askPrice < best.quote.askPrice then askOffer (exchange, quote) else best.ask) ∧
      (consolidate (some best) exchange quote).quote.timestampNs =
        max best.quote.timestampNs quote.timestampNs := by
  by_cases hbid : quote.bidPrice > best.quote.bidPrice
  · by_cases hask : quote.askPrice < best.quote.askPrice
    · simp [consolidate, ConsolidatedQuote.bid, ConsolidatedQuote.ask, bidOffer, askOffer,
        hbid, hask]
    · simp [consolidate, ConsolidatedQuote.bid, ConsolidatedQuote.ask, bidOffer,
        hbid, hask]
  · by_cases hask : quote.askPrice < best.quote.askPrice
    · simp [consolidate, ConsolidatedQuote.bid, ConsolidatedQuote.ask, askOffer,
        hbid, hask]
    · simp [consolidate, ConsolidatedQuote.bid, ConsolidatedQuote.ask, hbid, hask]

theorem bestOf_first
    (exchange : Bytes)
    (quote : QuoteUpdate R) :
    BestOf [(exchange, quote)] (consolidate none exchange quote) where
  bid := firstBest_singleton _
  ask := firstBest_singleton _
  timestamp := ⟨_, List.mem_singleton_self _, rfl⟩
  latest offer hoffer := by
    rw [List.mem_singleton.mp hoffer]
    exact Int64.le_refl _

/-- One more venue. -/
theorem BestOf.consolidate
    {quoted : List (Bytes × QuoteUpdate R)} {best : ConsolidatedQuote R}
    (h : BestOf quoted best)
    (exchange : Bytes)
    (quote : QuoteUpdate R) :
    BestOf (quoted ++ [(exchange, quote)])
      (MultiExchangeOrderBook.consolidate (some best) exchange quote) := by
  obtain ⟨hbid, hask, htimestamp⟩ := consolidate_some best exchange quote
  have hmax : max best.quote.timestampNs quote.timestampNs =
      if best.quote.timestampNs ≤ quote.timestampNs then quote.timestampNs
      else best.quote.timestampNs := rfl
  constructor
  · rw [hbid, List.map_append]
    exact h.bid.append (bidOffer (exchange, quote))
  · rw [hask, List.map_append]
    exact h.ask.append (askOffer (exchange, quote))
  · rw [htimestamp, hmax]
    split
    · exact ⟨(exchange, quote), by simp, rfl⟩
    · obtain ⟨offer, hoffer, heq⟩ := h.timestamp
      exact ⟨offer, by simp [hoffer], heq⟩
  · rw [htimestamp, hmax]
    intro offer hoffer
    rcases List.mem_append.mp hoffer with hoffer | hoffer
    · have hbefore := h.latest offer hoffer
      split
      · rename_i hle
        exact Int64.le_trans hbefore hle
      · exact hbefore
    · rw [List.mem_singleton.mp hoffer]
      split
      · exact Int64.le_refl _
      · rename_i hnot
        exact Std.le_of_not_ge hnot

/-- What the loop over the venues computes. -/
theorem foldl_consolidate
    (quoted : List (Bytes × QuoteUpdate R)) :
    (quoted = [] ∧ quoted.foldl (fun best offer => some (consolidate best offer.1 offer.2)) none =
        none) ∨
      ∃ best, quoted.foldl (fun best offer => some (consolidate best offer.1 offer.2)) none =
          some best ∧ BestOf quoted best := by
  induction quoted using List.reverseRecOn with
  | nil =>
      exact .inl ⟨rfl, rfl⟩
  | append_singleton quoted offer ih =>
      right
      rw [List.foldl_append]
      rcases ih with ⟨rfl, hnone⟩ | ⟨best, hbest, h⟩
      · rw [hnone]
        exact ⟨_, rfl, bestOf_first offer.1 offer.2⟩
      · rw [hbest]
        exact ⟨_, rfl, h.consolidate offer.1 offer.2⟩

theorem bestQuote_eq_foldl_quoted
    (m : MultiExchangeOrderBook R)
    (ticker : Bytes) :
    m.bestQuote ticker =
      (m.quoted ticker).foldl (fun best offer => some (consolidate best offer.1 offer.2)) none := by
  rw [bestQuote_eq, quoted, List.foldl_filterMap]
  refine List.foldl_ext _ _ _ ?_
  intro best ref _
  rw [considerRef]
  cases (m.books ref.book).bind OrderBook.bestQuote with
  | none =>
      rfl
  | some quote =>
      rfl

end Offers

section Histories

variable {R : Type} [LinearOrder R]

open MultiExchangeOrderBook

/-- Every reference has its book. -/
def Indexed (m : MultiExchangeOrderBook R) : Prop :=
  ∀ ticker, ∀ ref ∈ m.visited ticker, m.books ref.book ≠ none

theorem Indexed.bookFor
    {m : MultiExchangeOrderBook R}
    (h : Indexed m)
    (i : BookId) :
    Indexed (m.bookFor i).2 := by
  by_cases hnew : m.books i.key = none
  · intro ticker ref href
    rw [visited_bookFor_of_none hnew] at href
    rw [books_bookFor_of_none hnew]
    by_cases hkey : ref.book = i.key
    · simp [hkey]
    · rw [Function.update_of_ne hkey]
      rcases List.mem_append.mp href with href | href
      · exact h ticker ref href
      · split at href
        · rw [List.mem_singleton.mp href] at hkey
          exact absurd rfl hkey
        · cases href
  · rw [bookFor_of_ne_none hnew]
    exact h

/-- The books that are skipped. -/
theorem bestQuote_eq_none_iff_side (book : OrderBook R) :
    book.bestQuote = none ↔ book.bids.entries = [] ∨ book.asks.entries = [] := by
  rw [bestQuote_eq_none_iff, snapshot_zero_bids, snapshot_zero_asks, List.map_eq_nil_iff,
    List.map_eq_nil_iff]

theorem quoted_eq_nil_iff
    {m : MultiExchangeOrderBook R}
    (h : Indexed m)
    (ticker : Bytes) :
    m.quoted ticker = [] ↔
      ∀ ref ∈ m.visited ticker, ∃ book, m.books ref.book = some book ∧
        (book.bids.entries = [] ∨ book.asks.entries = []) := by
  rw [quoted, List.filterMap_eq_nil_iff]
  refine forall₂_congr ?_
  intro ref href
  obtain ⟨book, hbook⟩ := Option.ne_none_iff_exists'.mp (h ticker ref href)
  rw [hbook, Option.bind_some, Option.map_eq_none_iff, bestQuote_eq_none_iff_side]
  simp

variable [Zero R]

theorem Indexed.applyAt
    {m : MultiExchangeOrderBook R}
    (h : Indexed m)
    (book : Bytes)
    (call : BookCall R) :
    Indexed (m.applyAt book call) := by
  intro ticker ref href
  have hbefore := h ticker ref href
  by_cases hbook : ref.book = book
  · subst hbook
    simpa [MultiExchangeOrderBook.applyAt] using hbefore
  · simpa [MultiExchangeOrderBook.applyAt, Function.update_of_ne hbook] using hbefore

theorem indexed_after (history : List (BookOp R)) :
    Indexed (after history) := by
  induction history using List.reverseRecOn with
  | nil =>
      intro ticker ref href
      simp [after, create, visited] at href
  | append_singleton history op ih =>
      rw [after_append]
      cases op with
      | bookFor i =>
          exact ih.bookFor i
      | update i call =>
          exact (ih.bookFor i).applyAt _ call

/--
After every history of calls: there is no consolidated quote exactly if no book of
the ticker is two-sided, and otherwise it has the highest bid and the lowest ask of
the two-sided books, each with the size and the venue of the first book that has
it, and the latest timestamp.
-/
theorem best_quote_of_all_venues
    (history : List (BookOp R))
    (ticker : Bytes) :
    ((after history).bestQuote ticker = none ↔
      ∀ ref ∈ (after history).visited ticker, ∃ book,
        (after history).books ref.book = some book ∧
          (book.bids.entries = [] ∨ book.asks.entries = [])) ∧
    ∀ best, (after history).bestQuote ticker = some best →
      BestOf ((after history).quoted ticker) best := by
  rw [← quoted_eq_nil_iff (indexed_after history), bestQuote_eq_foldl_quoted]
  rcases foldl_consolidate ((after history).quoted ticker) with ⟨hnil, hnone⟩ | ⟨best, hbest, h⟩
  · rw [hnone]
    exact ⟨⟨fun _ => hnil, fun _ => rfl⟩, fun best heq => absurd heq (by simp)⟩
  · rw [hbest]
    refine ⟨⟨fun heq => absurd heq (by simp), ?_⟩, ?_⟩
    · intro hnil
      obtain ⟨offer, hoffer, -⟩ := h.timestamp
      rw [hnil] at hoffer
      cases hoffer
    · intro best' heq
      rw [← Option.some.inj heq]
      exact h

/-- Two venues with the same bid, and one without levels. -/
def tiedBids : List (BookOp ℚ) :=
  [.update ⟨text "kraken", text "BTC"⟩ (.snapshot ⟨[⟨5, 3⟩], [⟨9, 3⟩], 120, 0⟩),
    .bookFor ⟨text "gemini", text "BTC"⟩,
    .update ⟨text "coinbase", text "BTC"⟩ (.snapshot ⟨[⟨5, 2⟩], [⟨8, 2⟩], 110, 0⟩)]

/-- The bid is that of the venue that was registered first. -/
theorem best_quote_of_all_venues_tied_bids :
    ∃ best, (after tiedBids).bestQuote (text "BTC") = some best ∧
      best.bid = ⟨text "kraken", 5, 3⟩ ∧ best.ask = ⟨text "coinbase", 8, 2⟩ ∧
      BestOf ((after tiedBids).quoted (text "BTC")) best := by
  have hview : ((after tiedBids).bestQuote (text "BTC")).map (fun best => (best.bid, best.ask)) =
      some (⟨text "kraken", 5, 3⟩, ⟨text "coinbase", 8, 2⟩) := by
    decide +kernel
  obtain ⟨best, hbest, heq⟩ := Option.map_eq_some_iff.mp hview
  rw [Prod.mk.injEq] at heq
  exact ⟨best, hbest, heq.1, heq.2, (best_quote_of_all_venues _ _).2 best hbest⟩

end Histories

end Orderbook
end CryptoHft
