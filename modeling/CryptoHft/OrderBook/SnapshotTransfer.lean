import CryptoHft.OrderBook.PriceLadder

/-!
# A snapshot transfers the whole book

The levels of `snapshot(0)` are those that stand in the book, and all of them have
a positive price and a positive quantity, so `apply_snapshot` drops none of them.
They come in the order of the side, and each one is inserted behind the levels
before it.  A book that is given the snapshot of another one of its ticker is
therefore equal to it, and stays equal under the same later calls.
-/

namespace CryptoHft
namespace Orderbook

open Lib

section Sides

variable {R : Type} [LinearOrder R] [Zero R]
variable {lt : R → R → Prop} [DecidableRel lt] [IsStrictTotalOrder R lt]

/-- Prices and quantities are positive. -/
def Positive (entries : List (R × R)) : Prop :=
  ∀ e ∈ entries, 0 < e.1 ∧ 0 < e.2

omit [DecidableRel lt] [IsStrictTotalOrder R lt] in
theorem Agrees.positive
    {side : OrderedMap R R lt}
    {levels : List (BookLevel R)}
    (h : Agrees side levels) :
    Positive side.entries := by
  rintro ⟨p, q⟩ he
  obtain ⟨hprice, hquantity, -⟩ := (h p q).mp he
  exact ⟨hprice, hquantity⟩

/-- Levels in the order of a side are added to it one behind the other. -/
theorem entries_foldl_upsert
    (side : OrderedMap R R lt)
    {entries : List (R × R)}
    (hsorted : (side.entries ++ entries).Pairwise (fun a b => lt a.1 b.1))
    (hpositive : Positive entries) :
    ((entries.map toLevel).foldl upsert side).entries = side.entries ++ entries := by
  induction entries generalizing side with
  | nil =>
      simp
  | cons e rest ih =>
      obtain ⟨hprice, hquantity⟩ := hpositive e (by simp)
      have hlast : ∀ e' ∈ side.entries, lt e'.1 e.1 := by
        intro e' he'
        exact (List.pairwise_append.mp hsorted).2.2 e' he' e (by simp)
      have hupsert : (upsert side (toLevel e)).entries = side.entries ++ [e] := by
        have hprice' : ¬ (toLevel e).price ≤ 0 := not_le.mpr hprice
        have hquantity' : ¬ (toLevel e).quantity ≤ 0 := not_le.mpr hquantity
        rw [upsert, if_neg hprice', if_neg hquantity']
        exact OrderedMap.insert_of_forall_lt hlast e.2
      have hrest := ih (upsert side (toLevel e)) (by simpa [hupsert] using hsorted)
        (fun e' he' => hpositive e' (by simp [he']))
      rw [List.map_cons, List.foldl_cons, hrest, hupsert]
      simp

/-- The levels of a side make the side again. -/
theorem foldl_upsert_levels
    {side : OrderedMap R R lt}
    (hpositive : Positive side.entries) :
    (side.entries.map toLevel).foldl upsert .empty = side := by
  ext1
  exact entries_foldl_upsert .empty side.sorted hpositive

end Sides

section Transfer

variable {R : Type} [LinearOrder R] [Zero R]

/-- A book that is given the snapshot of another one is equal to it. -/
theorem applySnapshot_snapshot
    {book other : OrderBook R}
    (hbids : Positive book.bids.entries)
    (hasks : Positive book.asks.entries)
    (hticker : other.ticker = book.ticker) :
    other.applySnapshot (book.snapshot 0).bids (book.snapshot 0).asks
      (book.snapshot 0).timestampNs (book.snapshot 0).sequence = book := by
  obtain ⟨ticker, bids, asks, timestampNs, sequence⟩ := book
  have hbids' := foldl_upsert_levels hbids
  have hasks' := foldl_upsert_levels hasks
  rw [OrderBook.applySnapshot, snapshot_zero_bids, snapshot_zero_asks]
  simp only [OrderBook.snapshot, hticker]
  congr

/--
Whatever led to a book, and whatever state another book of its ticker is in: after
`apply_snapshot` with the snapshot of the first, both show the same quotes and the
same snapshots under all later calls.
-/
theorem snapshot_transfers_book
    (ticker : Bytes)
    (history : List (BookCall R))
    {other : OrderBook R}
    (hticker : other.ticker = ticker)
    (later : List (BookCall R)) :
    let book := OrderBook.after ticker history
    let snapshot := book.snapshot 0
    let restored := other.applySnapshot snapshot.bids snapshot.asks snapshot.timestampNs
      snapshot.sequence
    (later.foldl OrderBook.apply restored).bestQuote =
        (later.foldl OrderBook.apply book).bestQuote ∧
      ∀ depth, (later.foldl OrderBook.apply restored).snapshot depth =
        (later.foldl OrderBook.apply book).snapshot depth := by
  have hfollows := follows_after ticker history
  have hrestored := applySnapshot_snapshot hfollows.bids.positive hfollows.asks.positive
    (hticker.trans (ticker_after ticker history).symm)
  intro book snapshot restored
  rw [show restored = book from hrestored]
  exact ⟨rfl, fun depth => rfl⟩

/-- A book with a deleted level, restored into one that was in use. -/
theorem snapshot_transfers_book_with_deleted_level :
    (((OrderBook.after (text "BTC") [.delta ⟨[⟨3, 1⟩], [], 1, 1⟩] :
        OrderBook ℚ).applySnapshot [⟨6, 1⟩, ⟨5, 2⟩] [⟨9, 2⟩] 20 2).snapshot 0).bids =
      ((OrderBook.after (text "BTC") [.snapshot ⟨[⟨5, 2⟩, ⟨6, 1⟩, ⟨7, 1⟩], [⟨9, 2⟩], 10, 1⟩,
        .delta ⟨[⟨7, 0⟩], [], 20, 2⟩] : OrderBook ℚ).snapshot 0).bids := by
  have hticker : (OrderBook.after (text "BTC") [.delta ⟨[⟨3, 1⟩], [], 1, 1⟩] :
      OrderBook ℚ).ticker = text "BTC" := rfl
  have htransfer := (snapshot_transfers_book (text "BTC")
    [.snapshot ⟨[⟨5, 2⟩, ⟨6, 1⟩, ⟨7, 1⟩], [⟨9, 2⟩], 10, 1⟩, .delta ⟨[⟨7, 0⟩], [], 20, 2⟩]
    hticker []).2 0
  have hlevels : ((OrderBook.after (text "BTC")
      [.snapshot ⟨[⟨5, 2⟩, ⟨6, 1⟩, ⟨7, 1⟩], [⟨9, 2⟩], 10, 1⟩, .delta ⟨[⟨7, 0⟩], [], 20, 2⟩] :
        OrderBook ℚ).snapshot 0) = ⟨text "BTC", [⟨6, 1⟩, ⟨5, 2⟩], [⟨9, 2⟩], 20, 2⟩ := by
    decide +kernel
  simp only [hlevels, List.foldl_nil] at htransfer ⊢
  exact congrArg BookSnapshot.bids htransfer

end Transfer

end Orderbook
end CryptoHft
