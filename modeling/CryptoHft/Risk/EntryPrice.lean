import CryptoHft.Risk.ProfitAccounting

/-!
# Entry prices

A position is made of the fills that opened it or added to it since it was last flat or
changed its sign; a fill against it takes some of it away and has no part in the entry
price.  `Entries` keeps the prices of the opening fills, and `avg_entry_price` is always
between the least and the greatest of them: with positive prices it is positive.
-/

namespace CryptoHft
namespace Risk

open Lib

/-- The net quantity of a history of fills, and the prices of the fills that opened it. -/
structure Entries where
  net : ℚ
  prices : List ℚ

/-- A fill of the signed quantity `s` at the price `p`. -/
def Entries.fill (e : Entries) (s p : ℚ) : Entries where
  net := e.net + s
  prices :=
    if e.net + s = 0 then []
    else if 0 ≤ e.net * s then e.prices ++ [p]
    else if 0 < e.net * (e.net + s) then e.prices
    else [p]

/-- The opening fills of a history, oldest first. -/
def entriesOf (fills : List (ℚ × ℚ)) : Entries :=
  fills.foldl (fun e f => e.fill f.1 f.2) ⟨0, []⟩

/-- A position whose entry price is among the prices that opened it. -/
structure Position.Entered (position : Position) (e : Entries) : Prop where
  net : position.netQuantity = e.net
  flat : e.net = 0 → e.prices = []
  opened : e.net ≠ 0 → e.prices ≠ []
  between : e.net ≠ 0 → ∀ lo hi, (∀ p ∈ e.prices, lo ≤ p ∧ p ≤ hi) →
    lo ≤ position.avgEntryPrice ∧ position.avgEntryPrice ≤ hi

namespace Position

variable {position : Position} {e : Entries} {s p : ℚ}

theorem Entered.start :
    Position.flat.Entered ⟨0, []⟩ where
  net := rfl
  flat _ := rfl
  opened h := absurd rfl h
  between h := absurd rfl h

/-- The mean of two values with positive weights is between them. -/
theorem mean_between
    {a b v w lo hi : ℚ}
    (hv : 0 ≤ v) (hw : 0 < w)
    (ha : v ≠ 0 → lo ≤ a ∧ a ≤ hi)
    (hb : lo ≤ b ∧ b ≤ hi) :
    lo ≤ (a * v + b * w) / (v + w) ∧ (a * v + b * w) / (v + w) ≤ hi := by
  have hsum : 0 < v + w := by linarith
  have hlow : lo * v ≤ a * v := by
    rcases eq_or_ne v 0 with hzero | hne
    · rw [hzero, mul_zero, mul_zero]
    · exact mul_le_mul_of_nonneg_right (ha hne).1 hv
  have hhigh : a * v ≤ hi * v := by
    rcases eq_or_ne v 0 with hzero | hne
    · rw [hzero, mul_zero, mul_zero]
    · exact mul_le_mul_of_nonneg_right (ha hne).2 hv
  have hlow' := mul_le_mul_of_nonneg_right hb.1 hw.le
  have hhigh' := mul_le_mul_of_nonneg_right hb.2 hw.le
  constructor
  · rw [le_div_iff₀ hsum]
    linarith
  · rw [div_le_iff₀ hsum]
    linarith

theorem opens_iff
    (hs : s ≠ 0) :
    position.Opens s ↔ 0 ≤ position.netQuantity * s := by
  constructor
  · rintro (hzero | ⟨hlong, hpos⟩ | ⟨hshort, hneg⟩)
    · rw [hzero, zero_mul]
    · exact (mul_pos hlong hpos).le
    · exact (mul_pos_of_neg_of_neg hshort hneg).le
  · intro h
    by_contra hnot
    rcases opposite_of_not_opens hs hnot with ⟨hlong, hneg⟩ | ⟨hshort, hpos⟩
    · exact absurd (mul_neg_of_pos_of_neg hlong hneg) (not_lt.mpr h)
    · exact absurd (mul_neg_of_neg_of_pos hshort hpos) (not_lt.mpr h)

theorem avgEntryPrice_of_opens
    (hs : s ≠ 0)
    (h : position.Opens s) :
    (position.book s p).avgEntryPrice =
      (position.avgEntryPrice * |position.netQuantity| + p * |s|) /
        (|position.netQuantity| + |s|) := by
  have habs : 0 < |position.netQuantity| + |s| :=
    add_pos_of_nonneg_of_pos (abs_nonneg _) (abs_pos.mpr hs)
  unfold book
  exact (congrArg Position.avgEntryPrice (if_pos h)).trans (if_pos habs)

/-- A fill against the position that leaves some of it leaves the entry price alone. -/
theorem closedAvg_of_kept
    (hnet : 0 < position.netQuantity * (position.netQuantity + s)) :
    position.closedAvg s p = position.avgEntryPrice := by
  unfold closedAvg
  rw [if_neg (right_ne_zero_of_mul hnet.ne'), if_neg]
  rintro (⟨hold, hnew⟩ | ⟨hold, hnew⟩)
  · exact absurd (mul_neg_of_pos_of_neg hold hnew) hnet.not_gt
  · exact absurd (mul_neg_of_neg_of_pos hold hnew) hnet.not_gt

/-- A fill that turns the position round opens the other side. -/
theorem closedAvg_of_turned
    (hold : position.netQuantity ≠ 0)
    (hnew : position.netQuantity + s ≠ 0)
    (hnet : ¬ 0 < position.netQuantity * (position.netQuantity + s)) :
    position.closedAvg s p = p := by
  unfold closedAvg
  rw [if_neg hnew, if_pos]
  have hneg : position.netQuantity * (position.netQuantity + s) < 0 :=
    lt_of_le_of_ne (not_lt.mp hnet) (mul_ne_zero hold hnew)
  exact mul_neg_iff.mp hneg

theorem Entered.book
    (h : position.Entered e)
    (hs : s ≠ 0) :
    (position.book s p).Entered (e.fill s p) := by
  have hnet : (position.book s p).netQuantity = (e.fill s p).net := by
    rw [book_netQuantity, h.net]
    rfl
  by_cases hflat : e.net + s = 0
  · have hprices : (e.fill s p).prices = [] := if_pos hflat
    exact ⟨hnet, fun _ => hprices, fun hne => absurd hflat hne, fun hne => absurd hflat hne⟩
  by_cases hopens : position.Opens s
  · have hsign : 0 ≤ e.net * s := h.net ▸ (opens_iff hs).mp hopens
    have hprices : (e.fill s p).prices = e.prices ++ [p] := by
      rw [Entries.fill, if_neg hflat, if_pos hsign]
    refine ⟨hnet, fun hzero => absurd hzero hflat, fun _ => by simp [hprices], ?_⟩
    intro _ lo hi hall
    rw [hprices] at hall
    rw [avgEntryPrice_of_opens hs hopens]
    refine mean_between (abs_nonneg _) (abs_pos.mpr hs) ?_ (hall p (by simp))
    intro hopen
    rw [h.net] at hopen
    exact h.between (abs_ne_zero.mp hopen) lo hi
      (fun q hq => hall q (List.mem_append_left _ hq))
  · have hsign : ¬ 0 ≤ e.net * s := fun hle => hopens ((opens_iff hs).mpr (h.net ▸ hle))
    have hold : e.net ≠ 0 := by
      rintro hzero
      rw [hzero, zero_mul] at hsign
      exact hsign le_rfl
    have havg : (position.book s p).avgEntryPrice = position.closedAvg s p := by
      rw [book_of_not_opens hopens]
    by_cases hkept : 0 < e.net * (e.net + s)
    · have hprices : (e.fill s p).prices = e.prices := by
        rw [Entries.fill, if_neg hflat, if_neg hsign, if_pos hkept]
      refine ⟨hnet, fun hzero => absurd hzero hflat, fun _ => hprices ▸ h.opened hold, ?_⟩
      intro _ lo hi hall
      rw [havg, closedAvg_of_kept (h.net ▸ hkept)]
      exact h.between hold lo hi (hprices ▸ hall)
    · have hprices : (e.fill s p).prices = [p] := by
        rw [Entries.fill, if_neg hflat, if_neg hsign, if_neg hkept]
      refine ⟨hnet, fun hzero => absurd hzero hflat, fun _ => by simp [hprices], ?_⟩
      intro _ lo hi hall
      rw [havg, closedAvg_of_turned (h.net ▸ hold) (h.net ▸ hflat) (h.net ▸ hkept)]
      exact hall p (by simp [hprices])

end Position

namespace RiskManager

theorem entered_apply
    {rm : RiskManager} {ticker : Bytes} {fills : List (ℚ × ℚ)}
    (h : (rm.position ticker).Entered (entriesOf fills))
    (call : Call) :
    ((rm.apply call).position ticker).Entered
      (entriesOf (fills ++ (call.fillOf ticker).toList)) := by
  cases call with
  | setLimits limits =>
      simpa [apply, Call.fillOf] using h
  | updateQuote quote =>
      simpa [apply, Call.fillOf] using h
  | onFill trade response =>
      by_cases hfill : isFill response = true
      · by_cases hticker : trade.ticker.bytes = ticker
        · subst hticker
          have hs := signedQuantity_ne_zero trade.side hfill
          simpa [apply, Call.fillOf, hfill, rm.position_onFill_self hfill, entriesOf]
            using h.book hs
        · have hframe := rm.position_onFill_of_ne response (Ne.symm hticker)
          simpa [apply, Call.fillOf, hticker, hframe] using h
      · have hsame := rm.onFill_of_not_fill trade (Bool.eq_false_iff.mpr hfill)
        simpa [apply, Call.fillOf, hfill, hsame] using h

/--
After any sequence of calls the entry price of an open position is between the least and
the greatest price of the fills that opened it since it was last flat or turned round.
-/
theorem entry_price_between
    (limits : RiskLimits) (calls : List Call) (ticker : Bytes) :
    ((create limits).run calls |>.position ticker).Entered (entriesOf (fillsOf ticker calls)) := by
  induction calls using List.reverseRecOn with
  | nil =>
      exact Position.Entered.start
  | append_singleton calls call ih =>
      have hrun : (create limits).run (calls ++ [call]) =
          ((create limits).run calls).apply call := by
        simp [run, List.foldl_append]
      have hfills : fillsOf ticker (calls ++ [call]) =
          fillsOf ticker calls ++ (call.fillOf ticker).toList := by
        cases hcall : call.fillOf ticker <;> simp [fillsOf, List.filterMap_append, hcall]
      rw [hrun, hfills]
      exact entered_apply ih call

end RiskManager

end Risk
end CryptoHft
