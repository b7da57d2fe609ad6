import CryptoHft.Risk.RiskManager

/-!
# Conservation of money in `RiskManager::on_fill`

A history of fills of one ticker is a list of pairs `(s, p)`: the signed
quantity and the price it was booked at.  A position is in balance with a
history when its net quantity is the sum of the `s`, its realized profit is
`net_quantity * avg_entry_price` minus the sum of the `s * p`, and it has no
entry price while it is flat.

The code updates a position in four regimes (open or add, partial close, exact
close, flip through zero), for long and short positions.  In each of them the
value `net_quantity * avg_entry_price - realized_pnl` grows by exactly `s * p`
(`Position.book_value`), which is all that the balance needs.
-/

namespace CryptoHft
namespace Risk

open Lib

/-- A position that agrees with the history of its fills. -/
structure Position.Balanced (position : Position) (fills : List (ℚ × ℚ)) : Prop where
  net : position.netQuantity = (fills.map Prod.fst).sum
  pnl : position.realizedPnl =
    position.netQuantity * position.avgEntryPrice -
      (fills.map (fun f => f.1 * f.2)).sum
  flat : position.netQuantity = 0 → position.avgEntryPrice = 0

namespace Position

variable {position : Position} {s p : ℚ}

/-- The branch of `on_fill` that opens or adds to a position. -/
def Opens (position : Position) (s : ℚ) : Prop :=
  position.netQuantity = 0 ∨
    (0 < position.netQuantity ∧ 0 < s) ∨
    (position.netQuantity < 0 ∧ s < 0)

/-- Outside the opening branch, the fill is against the position. -/
theorem opposite_of_not_opens
    (hs : s ≠ 0)
    (h : ¬ position.Opens s) :
    (0 < position.netQuantity ∧ s < 0) ∨ (position.netQuantity < 0 ∧ 0 < s) := by
  unfold Opens at h
  push Not at h
  obtain ⟨hne, hlong, hshort⟩ := h
  rcases lt_or_gt_of_ne hne with hneg | hpos
  · right
    exact ⟨hneg, lt_of_le_of_ne (hshort hneg) (Ne.symm hs)⟩
  · left
    exact ⟨hpos, lt_of_le_of_ne (hlong hpos) hs⟩

/-- Opening or adding moves the cost basis by the cost of the fill. -/
theorem book_open
    (hs : s ≠ 0)
    (h : position.Opens s) :
    (position.book s p).realizedPnl = position.realizedPnl ∧
      (position.book s p).netQuantity * (position.book s p).avgEntryPrice =
        position.netQuantity * position.avgEntryPrice + s * p := by
  have hbranch : position.book s p =
      { position with
        avgEntryPrice :=
          if 0 < |position.netQuantity| + |s| then
            (position.avgEntryPrice * |position.netQuantity| + p * |s|) /
              (|position.netQuantity| + |s|)
          else 0
        netQuantity := position.netQuantity + s } := by
    unfold book
    exact if_pos h
  have habs : 0 < |position.netQuantity| + |s| := by
    have := abs_pos.mpr hs
    have := abs_nonneg position.netQuantity
    linarith
  rw [hbranch]
  refine ⟨rfl, ?_⟩
  simp only [if_pos habs]
  rcases h with hzero | ⟨hlong, hpos⟩ | ⟨hshort, hneg⟩
  · have hsabs : |s| ≠ 0 := abs_ne_zero.mpr hs
    rw [hzero, abs_zero]
    field_simp
    ring
  · rw [abs_of_pos hlong, abs_of_pos hpos] at habs ⊢
    have hne := ne_of_gt habs
    field_simp
  · rw [abs_of_neg hshort, abs_of_neg hneg] at habs ⊢
    have hne := ne_of_gt habs
    field_simp
    ring

/-- The regimes of the closing branch: the entry price after the fill. -/
def closedAvg (position : Position) (s p : ℚ) : ℚ :=
  if position.netQuantity + s = 0 then 0
  else if (0 < position.netQuantity ∧ position.netQuantity + s < 0) ∨
      (position.netQuantity < 0 ∧ 0 < position.netQuantity + s) then p
  else position.avgEntryPrice

theorem book_of_not_opens
    (h : ¬ position.Opens s) :
    position.book s p =
      { netQuantity := position.netQuantity + s
        realizedPnl := position.realizedPnl +
          (p - position.avgEntryPrice) * min |position.netQuantity| |s| *
            (if 0 < position.netQuantity then 1 else -1)
        avgEntryPrice := position.closedAvg s p } := by
  unfold book
  exact if_neg h

/-- A fill against a long position: partial close, exact close, flip. -/
theorem value_close_long
    (hlong : 0 < position.netQuantity)
    (hs : s < 0) :
    (position.netQuantity + s) * position.closedAvg s p -
        (p - position.avgEntryPrice) * min |position.netQuantity| |s| =
      position.netQuantity * position.avgEntryPrice + s * p := by
  rw [abs_of_pos hlong, abs_of_neg hs]
  unfold closedAvg
  rcases lt_trichotomy (position.netQuantity + s) 0 with hflip | hexact | hpart
  · rw [if_neg (ne_of_lt hflip), if_pos (Or.inl ⟨hlong, hflip⟩), min_eq_left (by linarith)]
    ring
  · rw [if_pos hexact, min_eq_left (by linarith)]
    have hsn : s = -position.netQuantity := by linarith
    rw [hsn]
    ring
  · have hno : ¬ ((0 < position.netQuantity ∧ position.netQuantity + s < 0) ∨
        (position.netQuantity < 0 ∧ 0 < position.netQuantity + s)) := by
      rintro (⟨-, h⟩ | ⟨h, -⟩) <;> linarith
    rw [if_neg (ne_of_gt hpart), if_neg hno, min_eq_right (by linarith)]
    ring

/-- A fill against a short position. -/
theorem value_close_short
    (hshort : position.netQuantity < 0)
    (hs : 0 < s) :
    (position.netQuantity + s) * position.closedAvg s p +
        (p - position.avgEntryPrice) * min |position.netQuantity| |s| =
      position.netQuantity * position.avgEntryPrice + s * p := by
  rw [abs_of_neg hshort, abs_of_pos hs]
  unfold closedAvg
  rcases lt_trichotomy (position.netQuantity + s) 0 with hpart | hexact | hflip
  · have hno : ¬ ((0 < position.netQuantity ∧ position.netQuantity + s < 0) ∨
        (position.netQuantity < 0 ∧ 0 < position.netQuantity + s)) := by
      rintro (⟨h, -⟩ | ⟨-, h⟩) <;> linarith
    rw [if_neg (ne_of_lt hpart), if_neg hno, min_eq_right (by linarith)]
    ring
  · rw [if_pos hexact, min_eq_left (by linarith)]
    have hsn : s = -position.netQuantity := by linarith
    rw [hsn]
    ring
  · rw [if_neg (ne_of_gt hflip), if_pos (Or.inr ⟨hshort, hflip⟩), min_eq_left (by linarith)]
    ring

/-- In all regimes the value of the position moves by the cost of the fill. -/
theorem book_value
    (position : Position) (p : ℚ)
    (hs : s ≠ 0) :
    (position.book s p).netQuantity * (position.book s p).avgEntryPrice -
        (position.book s p).realizedPnl =
      position.netQuantity * position.avgEntryPrice - position.realizedPnl + s * p := by
  by_cases hopen : position.Opens s
  · obtain ⟨hpnl, hcost⟩ := book_open (p := p) hs hopen
    rw [hpnl, hcost]
    ring
  · rw [book_of_not_opens hopen]
    rcases opposite_of_not_opens hs hopen with ⟨hlong, hneg⟩ | ⟨hshort, hpos⟩
    · have hvalue := value_close_long (p := p) hlong hneg
      simp only [if_pos hlong]
      linarith
    · have hvalue := value_close_short (p := p) hshort hpos
      simp only [if_neg (not_lt_of_gt hshort)]
      linarith

/-- A fill that flattens the position clears its entry price. -/
theorem book_avg_of_flat
    (hs : s ≠ 0)
    (hflat : position.netQuantity + s = 0) :
    (position.book s p).avgEntryPrice = 0 := by
  have hclose : ¬ position.Opens s := by
    rintro (h | ⟨h, hpos⟩ | ⟨h, hneg⟩)
    · apply hs
      linarith
    · linarith
    · linarith
  rw [book_of_not_opens hclose]
  exact if_pos hflat

/-- The empty history. -/
theorem Balanced.nil : Position.flat.Balanced [] where
  net := rfl
  pnl := by simp [Position.flat]
  flat _ := rfl

/-- One fill. -/
theorem Balanced.book
    {fills : List (ℚ × ℚ)}
    (h : position.Balanced fills)
    (hs : s ≠ 0) :
    (position.book s p).Balanced (fills ++ [(s, p)]) where
  net := by
    rw [book_netQuantity, h.net]
    simp
  pnl := by
    have hvalue := book_value position p hs
    have hpnl := h.pnl
    simp only [List.map_append, List.map_cons, List.map_nil, List.sum_append,
      List.sum_cons, List.sum_nil]
    linarith
  flat hflat := by
    rw [book_netQuantity] at hflat
    exact book_avg_of_flat hs hflat

end Position

namespace RiskManager

/-- The fill that a call books into a ticker. -/
def Call.fillOf (ticker : Bytes) : Call → Option (ℚ × ℚ)
  | .onFill trade response =>
      if isFill response = true ∧ trade.ticker.bytes = ticker then
        some (signedQuantity trade.side response.filledQuantity, fillPrice trade response)
      else
        none
  | .setLimits _ => none
  | .updateQuote _ => none

/-- The fills of a ticker in a sequence of calls, oldest first. -/
def fillsOf (ticker : Bytes) (calls : List Call) : List (ℚ × ℚ) :=
  calls.filterMap (Call.fillOf ticker)

theorem signedQuantity_ne_zero
    {response : OrderResponse ℚ} (side : OrderSide)
    (h : isFill response = true) :
    signedQuantity side response.filledQuantity ≠ 0 := by
  have hpos := filledQuantity_pos h
  cases side with
  | buy =>
      exact ne_of_gt hpos
  | sell =>
      exact neg_ne_zero.mpr (ne_of_gt hpos)

/-- One call keeps the books of every ticker in balance. -/
theorem balanced_apply
    {rm : RiskManager} {ticker : Bytes} {fills : List (ℚ × ℚ)}
    (h : (rm.position ticker).Balanced fills)
    (call : Call) :
    ((rm.apply call).position ticker).Balanced
      (fills ++ (call.fillOf ticker).toList) := by
  cases call with
  | setLimits limits =>
      simpa [apply, Call.fillOf] using h
  | updateQuote quote =>
      simpa [apply, Call.fillOf] using h
  | onFill trade response =>
      by_cases hfill : isFill response = true
      · by_cases hticker : trade.ticker.bytes = ticker
        · subst hticker
          have hs := signedQuantity_ne_zero trade.side hfill
          simpa [apply, Call.fillOf, hfill, rm.position_onFill_self hfill] using h.book hs
        · have hframe := rm.position_onFill_of_ne response (Ne.symm hticker)
          simpa [apply, Call.fillOf, hticker, hframe] using h
      · have hsame := rm.onFill_of_not_fill trade (Bool.eq_false_iff.mpr hfill)
        simpa [apply, Call.fillOf, hfill, hsame] using h

/-- A whole history keeps the books of every ticker in balance. -/
theorem balanced_run
    (limits : RiskLimits) (ticker : Bytes) (calls : List Call) :
    (((create limits).run calls).position ticker).Balanced (fillsOf ticker calls) := by
  induction calls using List.reverseRecOn with
  | nil =>
      exact Position.Balanced.nil
  | append_singleton calls call ih =>
      have hrun : (create limits).run (calls ++ [call]) =
          ((create limits).run calls).apply call := by
        simp [run, List.foldl_append]
      have hfills : fillsOf ticker (calls ++ [call]) =
          fillsOf ticker calls ++ (call.fillOf ticker).toList := by
        cases hcall : call.fillOf ticker <;> simp [fillsOf, List.filterMap_append, hcall]
      rw [hrun, hfills]
      exact balanced_apply ih call

/--
Conservation of money.  After any sequence of calls the net quantity of a ticker
is the sum of its signed fills, its realized profit is the value of the net
quantity at the entry price minus what the fills cost, and a flat position has
no entry price.  A further fill changes no other ticker.
-/
theorem on_fill_conserves_money
    (limits : RiskLimits) (calls : List Call) (ticker : Bytes) :
    let rm := (create limits).run calls
    let fills := fillsOf ticker calls
    (rm.position ticker).netQuantity = (fills.map (fun f => f.1)).sum ∧
      (rm.position ticker).realizedPnl =
        (rm.position ticker).netQuantity * (rm.position ticker).avgEntryPrice -
          (fills.map (fun f => f.1 * f.2)).sum ∧
      ((rm.position ticker).netQuantity = 0 → (rm.position ticker).avgEntryPrice = 0) ∧
      ∀ (trade : Trade ℚ) (response : OrderResponse ℚ),
        trade.ticker.bytes ≠ ticker →
        (rm.onFill trade response).position ticker = rm.position ticker := by
  have hbalanced := balanced_run limits ticker calls
  refine ⟨hbalanced.net, hbalanced.pnl, hbalanced.flat, ?_⟩
  intro trade response hne
  exact RiskManager.position_onFill_of_ne _ response (Ne.symm hne)

end RiskManager

end Risk
end CryptoHft
