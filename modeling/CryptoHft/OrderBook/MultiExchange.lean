import CryptoHft.OrderBook.OrderBook

/-!
# The order books of several exchanges

`MultiExchangeOrderBook` of `include/orderbook/order_book.hpp`.  The books are
stored under the text `exchange:ticker`, and a second map lists for each ticker
the books that `bestQuote` reads.  A book is never removed, so a pointer to it is
modelled by the key it is stored under.

A history is a sequence of `book_for` calls and of updates through the reference
they return.  Two different pairs of names may have the same key (`key` is not
injective), and then the second pair is given the book of the first.  The main
result says that this is the only way in which the books of a history get mixed
up: they are isolated exactly if the requested pairs have different keys.
-/

namespace CryptoHft
namespace Orderbook

open Lib

/-- The arguments of `book_for`. -/
@[ext]
structure BookId where
  exchange : Bytes
  ticker : Bytes
deriving DecidableEq

namespace BookId

/-- `exchange + ":" + ticker`. -/
def key (id : BookId) : Bytes :=
  id.exchange ++ text ":" ++ id.ticker

end BookId

/-- An entry of `book_index_`; the book is named by its key in `books_`. -/
structure BookRef where
  exchange : Bytes
  book : Bytes
deriving DecidableEq

structure ConsolidatedQuote (R : Type) where
  quote : QuoteUpdate R
  bidExchange : Bytes
  askExchange : Bytes
deriving DecidableEq

structure MultiExchangeOrderBook (R : Type) [LinearOrder R] where
  books : Bytes → Option (OrderBook R)
  bookIndex : Bytes → Option (List BookRef)

namespace MultiExchangeOrderBook

section Operations

variable {R : Type} [LinearOrder R] [Zero R]

def create : MultiExchangeOrderBook R where
  books := fun _ => none
  bookIndex := fun _ => none

/-- The references that `bestQuote` visits. -/
def visited (m : MultiExchangeOrderBook R) (ticker : Bytes) : List BookRef :=
  (m.bookIndex ticker).getD []

/-- `book_for`: the book's key and the state after the call. -/
def bookFor (m : MultiExchangeOrderBook R) (id : BookId) :
    Bytes × MultiExchangeOrderBook R :=
  match m.books id.key with
  | some _ => (id.key, m)
  | none =>
      (id.key,
        { books := Function.update m.books id.key (some (OrderBook.create id.ticker))
          -- `book_index_[ticker]` starts from an empty vector
          bookIndex := Function.update m.bookIndex id.ticker
            (some (m.visited id.ticker ++ [⟨id.exchange, id.key⟩])) })

/-- A call on the book behind a reference. -/
def applyAt (m : MultiExchangeOrderBook R) (book : Bytes) (call : BookCall R) :
    MultiExchangeOrderBook R :=
  { m with books := Function.update m.books book ((m.books book).map (·.apply call)) }

/-- What the loop of `best_quote` does with the quote of one book. -/
def consolidate (best : Option (ConsolidatedQuote R)) (exchange : Bytes)
    (quote : QuoteUpdate R) : ConsolidatedQuote R :=
  match best with
  | none => ⟨quote, exchange, exchange⟩
  | some best =>
      let best :=
        if quote.bidPrice > best.quote.bidPrice then
          { best with
            quote := { best.quote with bidPrice := quote.bidPrice, bidSize := quote.bidSize }
            bidExchange := exchange }
        else best
      let best :=
        if quote.askPrice < best.quote.askPrice then
          { best with
            quote := { best.quote with askPrice := quote.askPrice, askSize := quote.askSize }
            askExchange := exchange }
        else best
      { best with
        quote := { best.quote with
          timestampNs := max best.quote.timestampNs quote.timestampNs } }

/-- One turn of the loop. -/
def considerRef (m : MultiExchangeOrderBook R) (best : Option (ConsolidatedQuote R))
    (ref : BookRef) : Option (ConsolidatedQuote R) :=
  match (m.books ref.book).bind OrderBook.bestQuote with
  | none => best
  | some quote => some (consolidate best ref.exchange quote)

def bestQuote (m : MultiExchangeOrderBook R) (ticker : Bytes) :
    Option (ConsolidatedQuote R) :=
  match m.bookIndex ticker with
  | none => none
  | some refs => refs.foldl m.considerRef none

/-- The book behind the reference that `book_for` returns. -/
def shown (m : MultiExchangeOrderBook R) (id : BookId) : Option (OrderBook R) :=
  (m.bookFor id).2.books (m.bookFor id).1

end Operations

end MultiExchangeOrderBook

/-- A call of `book_for`, alone or with a call on the book it returns. -/
inductive BookOp (R : Type)
  | bookFor (id : BookId)
  | update (id : BookId) (call : BookCall R)

namespace BookOp

variable {R : Type}

def id : BookOp R → BookId
  | bookFor i => i
  | update i _ => i

/-- The call that the operation makes on the book of `i`. -/
def callTo (i : BookId) : BookOp R → List (BookCall R)
  | bookFor _ => []
  | update j call => if j = i then [call] else []

end BookOp

section Histories

variable {R : Type}

def requested (history : List (BookOp R)) : List BookId :=
  history.map BookOp.id

/-- The calls made through references obtained for `i`. -/
def callsTo (i : BookId) (history : List (BookOp R)) : List (BookCall R) :=
  history.flatMap (BookOp.callTo i)

/-- Requested pairs with the same key are the same pair. -/
def KeysDistinct (history : List (BookOp R)) : Prop :=
  ∀ i ∈ requested history, ∀ j ∈ requested history, i.key = j.key → i = j

instance (history : List (BookOp R)) : Decidable (KeysDistinct history) :=
  inferInstanceAs (Decidable (∀ i ∈ requested history, ∀ j ∈ requested history,
    i.key = j.key → i = j))

theorem KeysDistinct.of_append
    {history later : List (BookOp R)}
    (h : KeysDistinct (history ++ later)) :
    KeysDistinct history := by
  intro i hi j hj
  refine h i ?_ j ?_
  · simpa [requested] using .inl (by simpa [requested] using hi)
  · simpa [requested] using .inl (by simpa [requested] using hj)

theorem mem_requested_append
    {history : List (BookOp R)}
    {op : BookOp R}
    {i : BookId} :
    i ∈ requested (history ++ [op]) ↔ i ∈ requested history ∨ i = op.id := by
  simp [requested]

theorem callsTo_append
    (i : BookId)
    (history : List (BookOp R))
    (op : BookOp R) :
    callsTo i (history ++ [op]) = callsTo i history ++ op.callTo i := by
  simp [callsTo]

theorem callsTo_eq_nil
    {i : BookId}
    {history : List (BookOp R)}
    (h : i ∉ requested history) :
    callsTo i history = [] := by
  rw [callsTo, List.flatMap_eq_nil_iff]
  intro op hop
  cases op with
  | bookFor j =>
      rfl
  | update j call =>
      have hne : j ≠ i := by
        rintro rfl
        exact h (List.mem_map.mpr ⟨_, hop, rfl⟩)
      simp [BookOp.callTo, hne]

variable [LinearOrder R] [Zero R]

namespace MultiExchangeOrderBook

def step (m : MultiExchangeOrderBook R) : BookOp R → MultiExchangeOrderBook R
  | .bookFor i => (m.bookFor i).2
  | .update i call => (m.bookFor i).2.applyAt (m.bookFor i).1 call

/-- The books after a history, oldest operation first. -/
def after (history : List (BookOp R)) : MultiExchangeOrderBook R :=
  history.foldl step create

theorem after_append
    (history : List (BookOp R))
    (op : BookOp R) :
    after (history ++ [op]) = (after history).step op := by
  simp [after]

end MultiExchangeOrderBook

open MultiExchangeOrderBook

/-- The isolation of the books that a history requested. -/
structure Isolated (history : List (BookOp R)) : Prop where
  /-- A book shows the calls made through its own pair, and no others. -/
  own : ∀ i ∈ requested history,
    (after history).shown i = some (OrderBook.after i.ticker (callsTo i history))
  /-- One more update through another pair changes nothing. -/
  unchanged : ∀ i ∈ requested history, ∀ j ∈ requested history, i ≠ j →
    ∀ call, (after (history ++ [BookOp.update i call])).shown j = (after history).shown j
  ticker : ∀ i ∈ requested history,
    ((after history).shown i).map OrderBook.ticker = some i.ticker
  /-- The book takes part in the quote of its ticker, under its exchange only. -/
  quoted : ∀ i ∈ requested history, ∀ exchange,
    ⟨exchange, ((after history).bookFor i).1⟩ ∈ (after history).visited i.ticker ↔
      exchange = i.exchange
  /-- The book takes part in the quote of no other ticker. -/
  apart : ∀ i ∈ requested history, ∀ ticker ≠ i.ticker,
    ∀ ref ∈ (after history).visited ticker, ref.book ≠ ((after history).bookFor i).1

end Histories

section References

variable {R : Type} [LinearOrder R]

open MultiExchangeOrderBook

@[simp] theorem bookFor_fst
    (m : MultiExchangeOrderBook R)
    (i : BookId) :
    (m.bookFor i).1 = i.key := by
  unfold bookFor
  split
  · rfl
  · rfl

theorem visited_bookFor_of_none
    {m : MultiExchangeOrderBook R}
    {i : BookId}
    (h : m.books i.key = none)
    (ticker : Bytes) :
    (m.bookFor i).2.visited ticker =
      m.visited ticker ++ if ticker = i.ticker then [⟨i.exchange, i.key⟩] else [] := by
  by_cases ht : ticker = i.ticker
  · subst ht
    simp [bookFor, h, visited]
  · simp [bookFor, h, visited, ht]

theorem books_bookFor_of_none
    {m : MultiExchangeOrderBook R}
    {i : BookId}
    (h : m.books i.key = none) :
    (m.bookFor i).2.books =
      Function.update m.books i.key (some (OrderBook.create i.ticker)) := by
  simp [bookFor, h]

theorem bookFor_of_ne_none
    {m : MultiExchangeOrderBook R}
    {i : BookId}
    (h : m.books i.key ≠ none) :
    (m.bookFor i).2 = m := by
  unfold bookFor
  split
  · rfl
  · exact absurd ‹_› h

theorem shown_eq
    {m : MultiExchangeOrderBook R}
    {i : BookId}
    (h : m.books i.key ≠ none) :
    m.shown i = m.books i.key := by
  rw [shown, bookFor_fst, bookFor_of_ne_none h]

/-- `best_quote` merges the quotes of the references it visits. -/
theorem bestQuote_eq
    (m : MultiExchangeOrderBook R)
    (ticker : Bytes) :
    m.bestQuote ticker = (m.visited ticker).foldl m.considerRef none := by
  rw [bestQuote, visited]
  cases m.bookIndex ticker with
  | none =>
      rfl
  | some refs =>
      rfl

end References

section Invariant

variable {R : Type} [LinearOrder R] [Zero R]

open MultiExchangeOrderBook

/-- What the two maps hold after a history whose keys are distinct. -/
structure Holds (m : MultiExchangeOrderBook R) (history : List (BookOp R)) : Prop where
  own : ∀ i ∈ requested history,
    m.books i.key = some (OrderBook.after i.ticker (callsTo i history))
  stored : ∀ k, m.books k ≠ none → ∃ i ∈ requested history, i.key = k
  refs : ∀ ticker ref, ref ∈ m.visited ticker ↔
    ∃ i ∈ requested history, i.ticker = ticker ∧ ref = ⟨i.exchange, i.key⟩

/-- A key without a book has not been requested. -/
theorem Holds.not_requested
    {m : MultiExchangeOrderBook R}
    {history : List (BookOp R)}
    (h : Holds m history)
    {i : BookId}
    (hnone : m.books i.key = none) :
    i ∉ requested history := by
  intro hi
  have hown := h.own i hi
  rw [hnone] at hown
  cases hown

/-- A key with a book has been requested by the same pair. -/
theorem Holds.requested_of_books
    {m : MultiExchangeOrderBook R}
    {history : List (BookOp R)}
    (h : Holds m history)
    {i : BookId}
    (hkeys : KeysDistinct (history ++ [BookOp.bookFor i]))
    (hsome : m.books i.key ≠ none) :
    i ∈ requested history := by
  obtain ⟨j, hj, hkey⟩ := h.stored _ hsome
  have hji : j = i :=
    hkeys j (mem_requested_append.mpr (.inl hj)) i (mem_requested_append.mpr (.inr rfl)) hkey
  exact hji ▸ hj

/-- A call of `book_for`. -/
theorem Holds.bookFor
    {m : MultiExchangeOrderBook R}
    {history : List (BookOp R)}
    (h : Holds m history)
    {i : BookId}
    (hkeys : KeysDistinct (history ++ [BookOp.bookFor i])) :
    Holds (m.bookFor i).2 (history ++ [BookOp.bookFor i]) := by
  have hcalls : ∀ j, callsTo j (history ++ [BookOp.bookFor i]) = callsTo j history := by
    intro j
    simp [callsTo_append, BookOp.callTo]
  by_cases hnone : m.books i.key = none
  · have hnew : i ∉ requested history := h.not_requested hnone
    refine ⟨?_, ?_, ?_⟩
    · intro j hj
      rw [hcalls, books_bookFor_of_none hnone]
      rcases mem_requested_append.mp hj with hold | hji
      · have hne : j.key ≠ i.key := by
          intro hkey
          exact hnew (hkeys j hj i (mem_requested_append.mpr (.inr rfl)) hkey ▸ hold)
        rw [Function.update_of_ne hne]
        exact h.own j hold
      · obtain rfl : j = i := hji
        rw [Function.update_self, callsTo_eq_nil hnew]
        rfl
    · intro k hk
      rw [books_bookFor_of_none hnone] at hk
      by_cases hki : k = i.key
      · exact ⟨i, mem_requested_append.mpr (.inr rfl), hki.symm⟩
      · rw [Function.update_of_ne hki] at hk
        obtain ⟨j, hj, hkey⟩ := h.stored k hk
        exact ⟨j, mem_requested_append.mpr (.inl hj), hkey⟩
    · intro ticker ref
      rw [visited_bookFor_of_none hnone, List.mem_append, h.refs]
      constructor
      · rintro (⟨j, hj, hticker, href⟩ | href)
        · exact ⟨j, mem_requested_append.mpr (.inl hj), hticker, href⟩
        · split at href
          · rename_i hticker
            exact ⟨i, mem_requested_append.mpr (.inr rfl), hticker.symm, by simpa using href⟩
          · cases href
      · rintro ⟨j, hj, rfl, rfl⟩
        rcases mem_requested_append.mp hj with hold | rfl
        · exact .inl ⟨j, hold, rfl, rfl⟩
        · right
          simp
  · have hold : i ∈ requested history := h.requested_of_books hkeys hnone
    have hreq : ∀ j, j ∈ requested (history ++ [BookOp.bookFor i]) ↔ j ∈ requested history := by
      intro j
      rw [mem_requested_append]
      constructor
      · rintro (hj | rfl)
        · exact hj
        · exact hold
      · exact .inl
    rw [bookFor_of_ne_none hnone]
    refine ⟨?_, ?_, ?_⟩
    · intro j hj
      rw [hcalls]
      exact h.own j ((hreq j).mp hj)
    · simpa only [hreq] using h.stored
    · simpa only [hreq] using h.refs

/-- A call through the reference that `book_for` has just returned. -/
theorem Holds.applyAt
    {m : MultiExchangeOrderBook R}
    {history : List (BookOp R)}
    {i : BookId}
    (h : Holds m (history ++ [BookOp.bookFor i]))
    (hkeys : KeysDistinct (history ++ [BookOp.bookFor i]))
    (call : BookCall R) :
    Holds (m.applyAt i.key call) (history ++ [BookOp.update i call]) := by
  have hreq : requested (history ++ [BookOp.update i call]) = requested (history ++ [BookOp.bookFor i]) := by
    simp [requested, BookOp.id]
  have hi : i ∈ requested (history ++ [BookOp.bookFor i]) :=
    mem_requested_append.mpr (.inr rfl)
  refine ⟨?_, ?_, ?_⟩
  · rw [hreq]
    intro j hj
    have hown := h.own j hj
    simp only [callsTo_append, BookOp.callTo, List.append_nil] at hown ⊢
    by_cases hij : i = j
    · subst hij
      simp [MultiExchangeOrderBook.applyAt, hown, OrderBook.after]
    · have hne : j.key ≠ i.key := by
        intro hkey
        exact hij (hkeys j hj i hi hkey).symm
      simp [MultiExchangeOrderBook.applyAt, Function.update_of_ne hne, hij, hown]
  · rw [hreq]
    intro k hk
    by_cases hki : k = i.key
    · exact ⟨i, hi, hki.symm⟩
    · simp only [MultiExchangeOrderBook.applyAt, Function.update_of_ne hki] at hk
      exact h.stored k hk
  · rw [hreq]
    exact h.refs

/-- The run lemma: every history whose keys are distinct. -/
theorem holds_after
    (history : List (BookOp R))
    (hkeys : KeysDistinct history) :
    Holds (after history) history := by
  induction history using List.reverseRecOn with
  | nil =>
      exact ⟨by simp [requested], by simp [after, create], by simp [requested, after, create, visited]⟩
  | append_singleton history op ih =>
      have h := ih hkeys.of_append
      rw [after_append]
      cases op with
      | bookFor i =>
          exact h.bookFor hkeys
      | update i call =>
          have hkeys' : KeysDistinct (history ++ [BookOp.bookFor i]) := by
            simpa [KeysDistinct, requested, BookOp.id] using hkeys
          rw [step, bookFor_fst]
          exact (h.bookFor hkeys').applyAt hkeys' call

end Invariant

section Isolation

variable {R : Type} [LinearOrder R] [Zero R]

open MultiExchangeOrderBook

theorem Holds.shown
    {m : MultiExchangeOrderBook R}
    {history : List (BookOp R)}
    (h : Holds m history)
    {i : BookId}
    (hi : i ∈ requested history) :
    m.shown i = some (OrderBook.after i.ticker (callsTo i history)) := by
  have hown := h.own i hi
  rw [shown_eq (by simp [hown]), hown]

/-- Distinct keys are enough. -/
theorem isolated_of_keysDistinct
    {history : List (BookOp R)}
    (hkeys : KeysDistinct history) :
    Isolated history := by
  have h := holds_after history hkeys
  -- two requested pairs with references to one book are the same pair
  have hsame : ∀ i ∈ requested history, ∀ ticker exchange,
      ⟨exchange, i.key⟩ ∈ (after history).visited ticker →
        ticker = i.ticker ∧ exchange = i.exchange := by
    intro i hi ticker exchange href
    obtain ⟨j, hj, hticker, href⟩ := (h.refs ticker _).mp href
    rw [BookRef.mk.injEq] at href
    have hij : i = j := hkeys i hi j hj href.2
    exact ⟨hij ▸ hticker.symm, hij ▸ href.1⟩
  refine ⟨?_, ?_, ?_, ?_, ?_⟩
  · intro i hi
    exact h.shown hi
  · intro i hi j hj hij call
    have hkeys' : KeysDistinct (history ++ [BookOp.update i call]) := by
      intro a ha b hb
      have hmem : ∀ c ∈ requested (history ++ [BookOp.update i call]), c ∈ requested history := by
        intro c hc
        rcases mem_requested_append.mp hc with hc | rfl
        · exact hc
        · exact hi
      exact hkeys a (hmem a ha) b (hmem b hb)
    rw [(holds_after _ hkeys').shown (mem_requested_append.mpr (.inl hj)), h.shown hj,
      callsTo_append]
    simp [BookOp.callTo, hij]
  · intro i hi
    rw [h.shown hi, Option.map_some, ticker_after]
  · intro i hi exchange
    rw [bookFor_fst]
    constructor
    · intro href
      exact (hsame i hi _ _ href).2
    · rintro rfl
      exact (h.refs _ _).mpr ⟨i, hi, rfl, rfl⟩
  · intro i hi ticker hne ref href hbook
    rw [bookFor_fst] at hbook
    exact hne (hsame i hi ticker ref.exchange (hbook ▸ href)).1

/-- The books of a history are isolated exactly if its keys are distinct. -/
theorem isolated_iff
    (history : List (BookOp R)) :
    Isolated history ↔ KeysDistinct history := by
  constructor
  · intro h i hi j hj hkey
    -- the book with this key takes part in the quotes of both tickers
    have href := (h.quoted j hj j.exchange).mpr rfl
    rw [bookFor_fst] at href
    have hticker : i.ticker = j.ticker := by
      by_contra hne
      have hapart := h.apart i hi j.ticker (Ne.symm hne) _ href
      rw [bookFor_fst] at hapart
      exact hapart hkey.symm
    have hexchange : i.exchange = j.exchange := by
      simpa [BookId.key, hticker] using hkey
    exact BookId.ext hexchange hticker
  · exact isolated_of_keysDistinct

example :
    KeysDistinct (R := ℚ)
      [.bookFor ⟨text "coinbase", text "BTC"⟩, .bookFor ⟨text "kraken", text "BTC"⟩] := by
  decide +kernel

/-- The exchange `a:b` with ticker `c` and the exchange `a` with ticker `b:c`. -/
theorem not_isolated_colon :
    ¬ Isolated (R := ℚ) [.bookFor ⟨text "a:b", text "c"⟩, .bookFor ⟨text "a", text "b:c"⟩] := by
  intro h
  have hticker := h.ticker ⟨text "a", text "b:c"⟩ (by decide +kernel)
  revert hticker
  decide +kernel

/-- Exchange names without a colon are enough: the name ends at the first colon of the key. -/
theorem isolated_of_no_colon
    {history : List (BookOp R)}
    (h : ∀ i ∈ requested history, (58 : UInt8) ∉ i.exchange) :
    Isolated history := by
  have hname : ∀ {a b c d : Bytes}, (58 : UInt8) ∉ c → a ++ 58 :: b = c ++ 58 :: d → c <+: a := by
    intro a b c d hc heq
    rcases List.append_eq_append_iff.mp heq with ⟨w, rfl, hw⟩ | ⟨w, rfl, -⟩
    · cases w with
      | nil =>
          simp
      | cons x w =>
          rw [List.cons_append, List.cons.injEq] at hw
          exact absurd (by simp [← hw.1]) hc
    · exact ⟨w, rfl⟩
  refine isolated_of_keysDistinct ?_
  intro i hi j hj hkey
  have hcolon : text ":" = [58] := by
    decide
  have hkey' : i.exchange ++ 58 :: i.ticker = j.exchange ++ 58 :: j.ticker := by
    simpa [BookId.key, hcolon] using hkey
  have hexchange : i.exchange = j.exchange :=
    (hname (h i hi) hkey'.symm).eq_of_length_le (hname (h j hj) hkey').length_le
  have hticker : i.ticker = j.ticker := by
    simpa [hexchange] using hkey'
  exact BookId.ext hexchange hticker

/-- The quote of a ticker comes from the books' own histories, each under its exchange. -/
theorem bestQuote_after
    {history : List (BookOp R)}
    (hkeys : KeysDistinct history)
    (ticker : Bytes) :
    (after history).bestQuote ticker =
      ((after history).visited ticker).foldl
        (fun best ref =>
          match (OrderBook.after ticker (callsTo ⟨ref.exchange, ticker⟩ history)).bestQuote with
          | none => best
          | some quote => some (consolidate best ref.exchange quote))
        none := by
  have h := holds_after history hkeys
  rw [bestQuote_eq]
  refine List.foldl_ext _ _ _ ?_
  intro best ref href
  obtain ⟨i, hi, rfl, rfl⟩ := (h.refs ticker ref).mp href
  rw [considerRef, h.own i hi]
  rfl

example :
    ((after (R := ℚ)
      [.update ⟨text "coinbase", text "BTC"⟩ (.snapshot ⟨[⟨5, 2⟩], [⟨9, 2⟩], 110, 0⟩),
        .update ⟨text "kraken", text "BTC"⟩ (.snapshot ⟨[⟨4, 3⟩], [⟨8, 3⟩], 120, 0⟩)]).bestQuote
      (text "BTC")).map
        (fun best => (best.bidExchange, best.askExchange, best.quote.timestampNs)) =
      some (text "coinbase", text "kraken", 120) := by
  decide +kernel

end Isolation

end Orderbook
end CryptoHft
