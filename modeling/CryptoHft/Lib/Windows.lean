import Mathlib

/-!
# Counting in windows of time

Limits on the number of events in a period of time are stated for windows of two
kinds.  Aligned windows of length `w` are the classes of readings with the same
quotient by `w`; a counter that is reset when the quotient changes counts in them.
A sliding window starts anywhere.

`firstPerWindow` keeps of a sequence of readings the first `n` in each aligned
window.  A bound `n` for aligned windows does not carry over to sliding windows,
only the bound `2 * n` does (`countIn_le_two_mul`).  A sliding window that is not
longer than the aligned ones meets two neighbours of them, and what it has of the
kept readings is known from three counts of all readings: before it in the first of
the two, in it up to the end of the first, and in it beyond (`countIn_firstPerWindow`).
The bound `n` holds exactly if no burst falls across the end of an aligned window
(`countIn_firstPerWindow_le_iff`).
-/

namespace CryptoHft
namespace Lib

/-- The readings in the window of length `w` that starts at `t`. -/
def countIn (t w : Int) (readings : List Int) : Nat :=
  readings.countP (fun x => t ≤ x ∧ x < t + w)

/-- The readings in the aligned window of `ms`. -/
def countAligned (w ms : Int) (readings : List Int) : Nat :=
  readings.countP (fun x => x.tdiv w = ms.tdiv w)

/-- The readings before `t` in its aligned window. -/
def countBefore (w t : Int) (readings : List Int) : Nat :=
  readings.countP (fun x => x.tdiv w = t.tdiv w ∧ x < t)

/-- The readings of the window of length `v` at `t` in the aligned window of `t`. -/
def countWithin (w t v : Int) (readings : List Int) : Nat :=
  readings.countP (fun x => x.tdiv w = t.tdiv w ∧ t ≤ x ∧ x < t + v)

/-- The readings of the window of length `v` at `t` beyond the aligned window of `t`. -/
def countBeyond (w t v : Int) (readings : List Int) : Nat :=
  readings.countP (fun x => x.tdiv w ≠ t.tdiv w ∧ t ≤ x ∧ x < t + v)

/--
No burst at `t` falls across the end of the aligned window of `t`: there are `n` readings
at most in a window length from `t` on, or none of them before the end, or `n` readings
came earlier in the aligned window, or as many as there are beyond its end.
-/
def NoBurst (w : Int) (n : Nat) (t : Int) (readings : List Int) : Prop :=
  countWithin w t w readings + countBeyond w t w readings ≤ n ∨
    countWithin w t w readings = 0 ∨
    n ≤ countBefore w t readings ∨
    countBeyond w t w readings ≤ countBefore w t readings

/-- A reading is kept if fewer than `n` were kept in its aligned window. -/
def keepFirst (w : Int) (n : Nat) (kept : List Int) (ms : Int) : List Int :=
  if countAligned w ms kept < n then kept ++ [ms] else kept

/-- The first `n` readings of each aligned window. -/
def firstPerWindow (w : Int) (n : Nat) (readings : List Int) : List Int :=
  readings.foldl (keepFirst w n) []

section Aligned

variable {w : Int}

theorem countAligned_congr
    {ms t : Int}
    (h : ms.tdiv w = t.tdiv w)
    (readings : List Int) :
    countAligned w ms readings = countAligned w t readings := by
  rw [countAligned, countAligned, h]

/-- No reading up to `t` is in the window of a later `ms`, if `t` is not in it. -/
theorem countAligned_eq_zero
    (hw : 0 < w)
    {readings : List Int} {t ms : Int}
    (hreadings : ∀ x ∈ readings, x ≤ t)
    (hle : t ≤ ms)
    (hne : ms.tdiv w ≠ t.tdiv w) :
    countAligned w ms readings = 0 := by
  rw [countAligned, List.countP_eq_zero]
  intro x hx heq
  have hx' := Int.tdiv_le_tdiv hw (hreadings x hx)
  have ht := Int.tdiv_le_tdiv hw hle
  rw [of_decide_eq_true heq] at hx'
  omega

theorem firstPerWindow_append
    (n : Nat)
    (readings : List Int)
    (ms : Int) :
    firstPerWindow w n (readings ++ [ms]) =
      keepFirst w n (firstPerWindow w n readings) ms := by
  simp [firstPerWindow]

theorem firstPerWindow_sublist
    (n : Nat)
    (readings : List Int) :
    List.Sublist (firstPerWindow w n readings) readings := by
  induction readings using List.reverseRecOn with
  | nil =>
      exact List.Sublist.refl _
  | append_singleton readings ms ih =>
      rw [firstPerWindow_append, keepFirst]
      split
      · exact ih.append (List.Sublist.refl _)
      · exact ih.trans (List.sublist_append_left _ _)

theorem countAligned_eq_length
    (ms : Int)
    (readings : List Int) :
    countAligned w ms readings = (readings.filter (fun x => x.tdiv w = ms.tdiv w)).length :=
  List.countP_eq_length_filter

/-- Of the readings of an aligned window the first `n` are kept. -/
theorem filter_firstPerWindow_eq_take
    (n : Nat)
    (readings : List Int)
    (q : Int) :
    (firstPerWindow w n readings).filter (fun x => x.tdiv w = q) =
      (readings.filter (fun x => x.tdiv w = q)).take n := by
  induction readings using List.reverseRecOn with
  | nil =>
      simp [firstPerWindow]
  | append_singleton readings ms ih =>
      rw [firstPerWindow_append, keepFirst, List.filter_append]
      by_cases hq : ms.tdiv w = q
      · subst hq
        rw [countAligned_eq_length, ih, List.length_take]
        split
        · rename_i hroom
          rw [List.filter_append, ih, List.take_of_length_le (by omega), List.take_of_length_le]
          simp
          omega
        · rename_i hfull
          rw [ih, List.take_append_of_le_length (by omega)]
      · have hnone : [ms].filter (fun x => x.tdiv w = q) = [] := by
          simp [hq]
        rw [hnone, List.append_nil]
        split
        · rw [List.filter_append, hnone, List.append_nil, ih]
        · exact ih

theorem countAligned_firstPerWindow_le
    (n : Nat)
    (readings : List Int)
    (ms : Int) :
    countAligned w ms (firstPerWindow w n readings) ≤ n := by
  rw [countAligned_eq_length, filter_firstPerWindow_eq_take]
  exact List.length_take_le _ _

/-- A window in which fewer than `n` readings were kept has lost none. -/
theorem filter_firstPerWindow
    {n : Nat} {ms : Int} {readings : List Int}
    (h : countAligned w ms (firstPerWindow w n readings) < n) :
    (firstPerWindow w n readings).filter (fun x => x.tdiv w = ms.tdiv w) =
      readings.filter (fun x => x.tdiv w = ms.tdiv w) := by
  rw [countAligned_eq_length] at h
  rw [filter_firstPerWindow_eq_take] at h ⊢
  rw [List.length_take] at h
  exact List.take_of_length_le (by omega)

end Aligned

section Sliding

variable {w : Int}

theorem add_tdiv_self_le
    (hw : 0 < w)
    (t : Int) :
    (t + w).tdiv w ≤ t.tdiv w + 1 := by
  rcases lt_or_ge (t + w) 0 with hneg | hpos
  · -- below zero the quotients are those of the opposite numbers
    have hbelow : (t + w).tdiv w = -((-t - w) / w) := by
      rw [← Int.tdiv_eq_ediv_of_nonneg (by omega), ← Int.neg_tdiv]
      congr 1
      omega
    have hat : t.tdiv w = -(-t / w) := by
      rw [← Int.tdiv_eq_ediv_of_nonneg (by omega), ← Int.neg_tdiv, neg_neg]
    have hshift : (-t - w) / w = -t / w - 1 := by
      have hsub := Int.add_mul_ediv_right (-t) (-1) hw.ne'
      rwa [neg_one_mul, ← sub_eq_add_neg, ← sub_eq_add_neg] at hsub
    rw [hbelow, hat, hshift]
    omega
  · have hlower : w * (t + w).tdiv w ≤ t + w := Int.mul_tdiv_self_le hpos
    have hupper : t < (t.tdiv w + 1) * w := Int.lt_tdiv_add_one_mul_self t hw
    have hlt : (t + w).tdiv w < t.tdiv w + 2 := by
      refine lt_of_mul_lt_mul_left ?_ hw.le
      calc
        w * (t + w).tdiv w ≤ t + w := hlower
        _ < (t.tdiv w + 1) * w + w := by omega
        _ = w * (t.tdiv w + 2) := by ring
    omega

/-- A sliding window meets at most two aligned ones. -/
theorem countIn_le_two_mul
    (hw : 0 < w)
    {readings : List Int} {n : Nat}
    (h : ∀ ms, countAligned w ms readings ≤ n)
    (t : Int) :
    countIn t w readings ≤ 2 * n := by
  have hmeets : ∀ x, t ≤ x ∧ x < t + w →
      x.tdiv w = t.tdiv w ∨ x.tdiv w = (t + w).tdiv w := by
    intro x hx
    have hlower := Int.tdiv_le_tdiv hw hx.1
    have hupper := Int.tdiv_le_tdiv hw hx.2.le
    have hnext := add_tdiv_self_le hw t
    omega
  have hsplit : countIn t w readings ≤
      countAligned w t readings + countAligned w (t + w) readings := by
    induction readings with
    | nil =>
        simp [countIn]
    | cons x rest ih =>
        have ih' := ih (fun ms => (List.sublist_cons_self x rest).countP_le.trans (h ms))
        simp only [countIn, countAligned, List.countP_cons, decide_eq_true_eq] at ih' ⊢
        have hx := hmeets x
        split_ifs <;> omega
  have hfirst := h t
  have hsecond := h (t + w)
  omega

/-- In readings in order, those below a bound come first. -/
theorem countP_take_of_sorted
    {readings : List Int}
    (hsorted : readings.Pairwise (· ≤ ·))
    (c : Int)
    (n : Nat) :
    (readings.take n).countP (fun x => x < c) = min n (readings.countP (fun x => x < c)) := by
  induction readings generalizing n with
  | nil =>
      simp
  | cons x rest ih =>
      obtain ⟨hx, hrest⟩ := List.pairwise_cons.mp hsorted
      cases n with
      | zero =>
          simp
      | succ n =>
          by_cases hlt : x < c
          · rw [List.take_succ_cons, List.countP_cons_of_pos (by simpa using hlt),
              List.countP_cons_of_pos (by simpa using hlt), ih hrest]
            omega
          · have hnone : ∀ l : List Int, (∀ y ∈ l, y ∈ x :: rest) →
                l.countP (fun x => x < c) = 0 := by
              intro l hl
              rw [List.countP_eq_zero]
              intro y hy
              have hge : x ≤ y := by
                rcases List.mem_cons.mp (hl y hy) with rfl | hy
                · exact le_refl _
                · exact hx y hy
              simp
              omega
            rw [hnone _ (fun y hy => List.mem_of_mem_take hy), hnone _ (fun y hy => hy),
              Nat.min_zero]

theorem countIn_eq_add
    (w t v : Int)
    (readings : List Int) :
    countIn t v readings = countWithin w t v readings + countBeyond w t v readings := by
  induction readings with
  | nil =>
      rfl
  | cons x rest ih =>
      simp only [countIn, countWithin, countBeyond, List.countP_cons, decide_eq_true_eq] at ih ⊢
      rw [ih]
      split_ifs <;> simp_all <;> omega

/-- The readings of an aligned window below the end of a sliding one. -/
theorem countBefore_add_countWithin
    {v : Int}
    (hv : 0 ≤ v)
    (t : Int)
    (readings : List Int) :
    countBefore w t readings + countWithin w t v readings =
      (readings.filter (fun x => x.tdiv w = t.tdiv w)).countP (fun x => x < t + v) := by
  induction readings with
  | nil =>
      rfl
  | cons x rest ih =>
      simp only [countBefore, countWithin, List.countP_filter, List.countP_cons, Bool.and_eq_true,
        decide_eq_true_eq] at ih ⊢
      rw [← ih]
      split_ifs <;> omega

theorem countBefore_eq
    (t : Int)
    (readings : List Int) :
    countBefore w t readings =
      (readings.filter (fun x => x.tdiv w = t.tdiv w)).countP (fun x => x < t) := by
  rw [countBefore, List.countP_filter]
  refine List.countP_congr ?_
  intro x _
  simp [and_comm]

/-- Beyond an aligned window a sliding window is in the next one. -/
theorem countBeyond_eq
    (hw : 0 < w)
    {v : Int}
    (hv : v ≤ w)
    (t : Int)
    (readings : List Int) :
    countBeyond w t v readings =
      (readings.filter (fun x => x.tdiv w = t.tdiv w + 1)).countP (fun x => x < t + v) := by
  rw [countBeyond, List.countP_filter]
  refine List.countP_congr ?_
  intro x _
  simp only [decide_eq_true_eq, Bool.and_eq_true]
  constructor
  · rintro ⟨hne, hle, hlt⟩
    have hlower := Int.tdiv_le_tdiv hw hle
    have hupper := Int.tdiv_le_tdiv hw (show x ≤ t + w by omega)
    have hnext := add_tdiv_self_le hw t
    exact ⟨hlt, by omega⟩
  · rintro ⟨hlt, hnext⟩
    refine ⟨by omega, ?_, hlt⟩
    by_contra hgt
    have hlower := Int.tdiv_le_tdiv hw (show x ≤ t by omega)
    omega

/-- What a sliding window has of the kept readings. -/
theorem countIn_firstPerWindow
    (hw : 0 < w)
    {v : Int}
    (hpos : 0 ≤ v)
    (hv : v ≤ w)
    {readings : List Int}
    (hsorted : readings.Pairwise (· ≤ ·))
    (n : Nat)
    (t : Int) :
    countIn t v (firstPerWindow w n readings) =
      min (countWithin w t v readings) (n - countBefore w t readings) +
        min (countBeyond w t v readings) n := by
  have hclass : ∀ q c : Int,
      ((firstPerWindow w n readings).filter (fun x => x.tdiv w = q)).countP (fun x => x < c) =
        min n ((readings.filter (fun x => x.tdiv w = q)).countP (fun x => x < c)) := by
    intro q c
    rw [filter_firstPerWindow_eq_take, countP_take_of_sorted (hsorted.filter _)]
  have hbeyond : countBeyond w t v (firstPerWindow w n readings) =
      min n (countBeyond w t v readings) := by
    rw [countBeyond_eq hw hv, countBeyond_eq hw hv, hclass]
  have hbefore : countBefore w t (firstPerWindow w n readings) =
      min n (countBefore w t readings) := by
    rw [countBefore_eq, countBefore_eq, hclass]
  have hwithin : countBefore w t (firstPerWindow w n readings) +
        countWithin w t v (firstPerWindow w n readings) =
      min n (countBefore w t readings + countWithin w t v readings) := by
    rw [countBefore_add_countWithin hpos, countBefore_add_countWithin hpos, hclass]
  rw [countIn_eq_add w]
  omega

/-- A bound on aligned windows holds in all windows exactly if no burst falls across their ends. -/
theorem countIn_firstPerWindow_le_iff
    (hw : 0 < w)
    {readings : List Int}
    (hsorted : readings.Pairwise (· ≤ ·))
    (n : Nat)
    (t : Int) :
    countIn t w (firstPerWindow w n readings) ≤ n ↔ NoBurst w n t readings := by
  rw [countIn_firstPerWindow hw hw.le le_rfl hsorted, NoBurst]
  omega

end Sliding

end Lib
end CryptoHft
