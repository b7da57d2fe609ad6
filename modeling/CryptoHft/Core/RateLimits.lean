import CryptoHft.Lib.Windows
import CryptoHft.Core.OrderExecutor

/-!
# What the rate limiter grants

`RateLimiter::try_acquire` along a sequence of clock readings, with one caller.
The counters are reset when the aligned second or the aligned 100 ms interval of
the reading changes.  For readings in order each counter is the number of calls
granted so far in the aligned window of the reading (`Counts`), so an answer
depends on the granted calls alone.

The limits therefore hold in aligned windows.  They hold in all windows exactly
if no burst of calls falls across a boundary of aligned windows
(`limits_respected_iff`, on the numbers of calls next to the boundaries); in general a
window of the same length anywhere has at most twice as many granted calls.
-/

namespace CryptoHft
namespace Core

open Lib

namespace RateLimiter

/-- The limiter after calls at the given readings. -/
def after (limiter : RateLimiter) (readings : List Int) : RateLimiter :=
  readings.foldl (fun limiter ms => (limiter.tryAcquire ms).2) limiter

/-- The answers of calls at the given readings. -/
def answers (limiter : RateLimiter) : List Int → List Bool
  | [] => []
  | ms :: rest => (limiter.tryAcquire ms).1 :: answers (limiter.tryAcquire ms).2 rest

/-- The readings of the calls that return true. -/
def granted (limiter : RateLimiter) : List Int → List Int
  | [] => []
  | ms :: rest =>
      (if (limiter.tryAcquire ms).1 then [ms] else []) ++ granted (limiter.tryAcquire ms).2 rest

/-- The limits leave room for a call, given the calls granted before. -/
def Allowed (maxPerSecond maxPer100ms : Nat) (grants : List Int) (ms : Int) : Prop :=
  countAligned 1000 ms grants < maxPerSecond ∧ countAligned 100 ms grants < maxPer100ms

instance (maxPerSecond maxPer100ms : Nat) (grants : List Int) (ms : Int) :
    Decidable (Allowed maxPerSecond maxPer100ms grants ms) :=
  inferInstanceAs (Decidable (_ ∧ _))

/-- The answers that the granted calls alone determine. -/
def historyAnswers (maxPerSecond maxPer100ms : Nat) : List Int → List Int → List Bool
  | _, [] => []
  | grants, ms :: rest =>
      if Allowed maxPerSecond maxPer100ms grants ms then
        true :: historyAnswers maxPerSecond maxPer100ms (grants ++ [ms]) rest
      else
        false :: historyAnswers maxPerSecond maxPer100ms grants rest

/-- The first calls of each 100 ms interval, and of these the first of each second. -/
def letThrough (maxPerSecond maxPer100ms : Nat) (readings : List Int) : List Int :=
  firstPerWindow 1000 maxPerSecond (firstPerWindow 100 maxPer100ms readings)

section Counting

variable {maxPerSecond maxPer100ms : Nat} {readings grants : List Int} {limiter : RateLimiter}

/-- The counters of a limiter that was called at `readings` and granted `grants`. -/
structure Counts (maxPerSecond maxPer100ms : Nat) (readings grants : List Int)
    (limiter : RateLimiter) : Prop where
  maxPerSecond : limiter.maxRequestsPerSecond = maxPerSecond
  maxPer100ms : limiter.maxRequestsPer100ms = maxPer100ms
  subset : ∀ x ∈ grants, x ∈ readings
  second : ∀ ms, (∀ x ∈ readings, x ≤ ms) →
    (limiter.advance ms).requestsThisSecond = countAligned 1000 ms grants
  interval : ∀ ms, (∀ x ∈ readings, x ≤ ms) →
    (limiter.advance ms).requestsThis100ms = countAligned 100 ms grants

theorem counts_create (maxPerSecond maxPer100ms : Nat) :
    Counts maxPerSecond maxPer100ms [] [] (create maxPerSecond maxPer100ms) where
  maxPerSecond := rfl
  maxPer100ms := rfl
  subset := by simp
  second ms _ := ite_self 0
  interval ms _ := ite_self 0

/-- The answer of a call, from the granted calls. -/
theorem Counts.tryAcquire_eq_true_iff
    (h : Counts maxPerSecond maxPer100ms readings grants limiter)
    {ms : Int}
    (hms : ∀ x ∈ readings, x ≤ ms) :
    (limiter.tryAcquire ms).1 = true ↔ Allowed maxPerSecond maxPer100ms grants ms := by
  have hsecond : (limiter.advance ms).maxRequestsPerSecond = maxPerSecond := h.maxPerSecond
  have hinterval : (limiter.advance ms).maxRequestsPer100ms = maxPer100ms := h.maxPer100ms
  rw [tryAcquire, Allowed, ← h.second ms hms, ← h.interval ms hms, ← hsecond, ← hinterval]
  split
  · rename_i hfull
    simp
    omega
  · rename_i hroom
    simp
    omega

/-- A counter of aligned windows, one call later. -/
theorem count_next
    {w : Int}
    (hw : 0 < w)
    {t ms : Int} {added : List Int}
    (hreadings : ∀ x ∈ readings, x ≤ t)
    (hgrants : ∀ x ∈ grants, x ∈ readings)
    (hle : t ≤ ms)
    (hadded : ∀ x ∈ added, x = t) :
    (if ms.tdiv w ≠ t.tdiv w then 0 else countAligned w t grants + added.length) =
      countAligned w ms (grants ++ added) := by
  split
  · rename_i hne
    refine (countAligned_eq_zero hw ?_ hle hne).symm
    intro x hx
    rcases List.mem_append.mp hx with hx | hx
    · exact hreadings x (hgrants x hx)
    · rw [hadded x hx]
  · rename_i heq
    rw [ne_eq, not_not] at heq
    have hall : countAligned w t added = added.length := by
      rw [countAligned, List.countP_eq_length]
      intro x hx
      simp [hadded x hx]
    rw [countAligned_congr heq, ← hall, countAligned, countAligned, countAligned,
      List.countP_append]

/-- The limiter after a call: the windows of the call, and the call if it was granted. -/
theorem tryAcquire_snd
    (limiter : RateLimiter)
    (ms : Int) :
    (limiter.tryAcquire ms).2 =
      { limiter.advance ms with
        requestsThisSecond := (limiter.advance ms).requestsThisSecond +
          (if (limiter.tryAcquire ms).1 then [ms] else []).length
        requestsThis100ms := (limiter.advance ms).requestsThis100ms +
          (if (limiter.tryAcquire ms).1 then [ms] else []).length } := by
  simp only [tryAcquire]
  split
  · rfl
  · rfl

theorem Counts.step
    (h : Counts maxPerSecond maxPer100ms readings grants limiter)
    {t : Int}
    (ht : ∀ x ∈ readings, x ≤ t) :
    Counts maxPerSecond maxPer100ms (readings ++ [t])
      (grants ++ if (limiter.tryAcquire t).1 then [t] else []) (limiter.tryAcquire t).2 := by
  have hadded : ∀ x ∈ if (limiter.tryAcquire t).1 then [t] else [], x = t := by
    intro x hx
    split at hx
    · exact List.mem_singleton.mp hx
    · cases hx
  have hlast : ∀ {ms : Int}, (∀ x ∈ readings ++ [t], x ≤ ms) → t ≤ ms := fun hms => hms t (by simp)
  refine ⟨?_, ?_, ?_, ?_, ?_⟩
  · rw [tryAcquire_snd]
    exact h.maxPerSecond
  · rw [tryAcquire_snd]
    exact h.maxPer100ms
  · intro x hx
    rcases List.mem_append.mp hx with hx | hx
    · exact List.mem_append_left _ (h.subset x hx)
    · simp [hadded x hx]
  · intro ms hms
    rw [tryAcquire_snd, ← count_next (by norm_num) ht h.subset (hlast hms) hadded,
      ← h.second t ht]
    rfl
  · intro ms hms
    rw [tryAcquire_snd, ← count_next (by norm_num) ht h.subset (hlast hms) hadded,
      ← h.interval t ht]
    rfl

theorem granted_append
    (limiter : RateLimiter)
    (earlier later : List Int) :
    limiter.granted (earlier ++ later) =
      limiter.granted earlier ++ (limiter.after earlier).granted later := by
  induction earlier generalizing limiter with
  | nil =>
      rfl
  | cons ms rest ih =>
      rw [List.cons_append, granted, granted, ih, List.append_assoc]
      rfl

theorem after_append
    (limiter : RateLimiter)
    (earlier later : List Int) :
    limiter.after (earlier ++ later) = (limiter.after earlier).after later :=
  List.foldl_append

/-- The counters along readings in order. -/
theorem counts_after
    (maxPerSecond maxPer100ms : Nat)
    {readings : List Int}
    (hsorted : readings.Pairwise (· ≤ ·)) :
    Counts maxPerSecond maxPer100ms readings
      ((create maxPerSecond maxPer100ms).granted readings)
      ((create maxPerSecond maxPer100ms).after readings) := by
  induction readings using List.reverseRecOn with
  | nil =>
      exact counts_create maxPerSecond maxPer100ms
  | append_singleton readings ms ih =>
      obtain ⟨hfront, -, hlast⟩ := List.pairwise_append.mp hsorted
      have hstep := (ih hfront).step (fun x hx => hlast x hx ms (by simp))
      rw [granted_append, after_append]
      simpa [granted, after] using hstep

/-- Whatever the limiter was called for, the answers are those of the granted calls. -/
theorem Counts.answers_eq
    {later : List Int}
    (h : Counts maxPerSecond maxPer100ms readings grants limiter)
    (hsorted : (readings ++ later).Pairwise (· ≤ ·)) :
    limiter.answers later = historyAnswers maxPerSecond maxPer100ms grants later := by
  induction later generalizing readings grants limiter with
  | nil =>
      rfl
  | cons ms rest ih =>
      have hms : ∀ x ∈ readings, x ≤ ms := by
        intro x hx
        exact (List.pairwise_append.mp hsorted).2.2 x hx ms (by simp)
      have ih' := ih (h.step hms) (by simpa using hsorted)
      have hanswer := h.tryAcquire_eq_true_iff hms
      by_cases hallowed : Allowed maxPerSecond maxPer100ms grants ms
      · rw [answers, historyAnswers, if_pos hallowed, ih', hanswer.mpr hallowed, if_pos rfl]
      · have hrefused : (limiter.tryAcquire ms).1 = false := by
          rw [← Bool.not_eq_true, hanswer]
          exact hallowed
        rw [answers, historyAnswers, if_neg hallowed, ih', hrefused]
        simp

end Counting

section Specification

/--
A call is granted exactly if the calls granted before leave room in its aligned
second and its aligned 100 ms interval, and refused calls change no later answer.
-/
theorem try_acquire_meets_history
    (maxPerSecond maxPer100ms : Nat)
    {earlier later : List Int} {ms : Int}
    (hsorted : (earlier ++ ms :: later).Pairwise (· ≤ ·)) :
    ((((create maxPerSecond maxPer100ms).after earlier).tryAcquire ms).1 = true ↔
      countAligned 1000 ms ((create maxPerSecond maxPer100ms).granted earlier) < maxPerSecond ∧
        countAligned 100 ms ((create maxPerSecond maxPer100ms).granted earlier) < maxPer100ms) ∧
    ((((create maxPerSecond maxPer100ms).after earlier).tryAcquire ms).1 = false →
      ((create maxPerSecond maxPer100ms).after (earlier ++ [ms])).answers later =
        ((create maxPerSecond maxPer100ms).after earlier).answers later) := by
  obtain ⟨hearlier, hrest, hle⟩ := List.pairwise_append.mp hsorted
  have hcounts := counts_after maxPerSecond maxPer100ms hearlier
  have hms : ∀ x ∈ earlier, x ≤ ms := fun x hx => hle x hx ms (by simp)
  refine ⟨hcounts.tryAcquire_eq_true_iff hms, ?_⟩
  intro hrefused
  have hwith := hcounts.step hms
  rw [hrefused] at hwith
  have hskip : (earlier ++ later).Pairwise (· ≤ ·) :=
    hsorted.sublist ((List.Sublist.refl _).append (List.sublist_cons_self _ _))
  rw [after_append, hcounts.answers_eq hskip]
  have hall : (earlier ++ [ms] ++ later).Pairwise (· ≤ ·) := by
    simpa using hsorted
  simpa [after] using hwith.answers_eq hall

/-- Calls in the first, the last and again the first interval of a second. -/
theorem try_acquire_meets_history_two_seconds :
    (((create 2 1).after [50, 60, 950]).tryAcquire 1000).1 = true ∧
      countAligned 1000 1000 ((create 2 1).granted [50, 60, 950]) < 2 ∧
        countAligned 100 1000 ((create 2 1).granted [50, 60, 950]) < 1 := by
  have hsorted : ([50, 60, 950] ++ 1000 :: [] : List Int).Pairwise (· ≤ ·) := by
    decide
  have hanswer : (((create 2 1).after [50, 60, 950]).tryAcquire 1000).1 = true := by
    decide
  exact ⟨hanswer, (try_acquire_meets_history 2 1 hsorted).1.mp hanswer⟩

end Specification

section Sliding

variable {maxPerSecond maxPer100ms : Nat} {readings : List Int}

/-- An interval of 100 ms lies in one second. -/
theorem tdiv_1000_of_tdiv_100
    {x ms : Int}
    (h : x.tdiv 100 = ms.tdiv 100) :
    x.tdiv 1000 = ms.tdiv 1000 := by
  have hnonneg : ∀ y : Int, 0 ≤ y → y.tdiv 1000 = (y.tdiv 100).tdiv 10 := by
    intro y hy
    rw [Int.tdiv_eq_ediv_of_nonneg hy, Int.tdiv_eq_ediv_of_nonneg hy,
      Int.tdiv_eq_ediv_of_nonneg (by omega)]
    omega
  have hquotient : ∀ y : Int, y.tdiv 1000 = (y.tdiv 100).tdiv 10 := by
    intro y
    rcases le_total 0 y with hpos | hneg
    · exact hnonneg y hpos
    · obtain ⟨z, rfl⟩ : ∃ z, y = -z := ⟨-y, (neg_neg y).symm⟩
      rw [Int.neg_tdiv, Int.neg_tdiv, Int.neg_tdiv, hnonneg z (by omega)]
  rw [hquotient, hquotient, h]

theorem letThrough_append
    (maxPerSecond maxPer100ms : Nat)
    (readings : List Int)
    (ms : Int) :
    letThrough maxPerSecond maxPer100ms (readings ++ [ms]) =
      if countAligned 100 ms (firstPerWindow 100 maxPer100ms readings) < maxPer100ms then
        keepFirst 1000 maxPerSecond (letThrough maxPerSecond maxPer100ms readings) ms
      else letThrough maxPerSecond maxPer100ms readings := by
  rw [letThrough, firstPerWindow_append, keepFirst]
  split
  · rw [firstPerWindow_append, letThrough]
  · rfl

/-- As long as a second has room, no call of it was lost to the limit for seconds. -/
theorem countAligned_100_letThrough
    {ms : Int}
    (h : countAligned 1000 ms (letThrough maxPerSecond maxPer100ms readings) < maxPerSecond) :
    countAligned 100 ms (letThrough maxPerSecond maxPer100ms readings) =
      countAligned 100 ms (firstPerWindow 100 maxPer100ms readings) := by
  have hfilter := filter_firstPerWindow h
  have hwithin : ∀ l : List Int, countAligned 100 ms l =
      countAligned 100 ms (l.filter (fun x => x.tdiv 1000 = ms.tdiv 1000)) := by
    intro l
    rw [countAligned, countAligned, List.countP_filter]
    refine List.countP_congr ?_
    intro x _
    simp only [decide_eq_true_eq, Bool.and_eq_true]
    exact ⟨fun hx => ⟨hx, tdiv_1000_of_tdiv_100 hx⟩, fun hx => hx.1⟩
  rw [hwithin, letThrough, hfilter, ← hwithin]

/-- The granted calls, as a function of the readings. -/
theorem granted_eq_letThrough
    (hsorted : readings.Pairwise (· ≤ ·)) :
    (create maxPerSecond maxPer100ms).granted readings =
      letThrough maxPerSecond maxPer100ms readings := by
  induction readings using List.reverseRecOn with
  | nil =>
      rfl
  | append_singleton readings ms ih =>
      obtain ⟨hfront, -, hlast⟩ := List.pairwise_append.mp hsorted
      have ih' := ih hfront
      have hms : ∀ x ∈ readings, x ≤ ms := fun x hx => hlast x hx ms (by simp)
      have hanswer := (counts_after maxPerSecond maxPer100ms hfront).tryAcquire_eq_true_iff hms
      rw [ih', Allowed] at hanswer
      rw [granted_append, ih', granted, granted, List.append_nil, letThrough_append, keepFirst]
      by_cases hfirst : countAligned 100 ms (firstPerWindow 100 maxPer100ms readings) < maxPer100ms
      · rw [if_pos hfirst]
        have hinterval : countAligned 100 ms (letThrough maxPerSecond maxPer100ms readings) <
            maxPer100ms :=
          lt_of_le_of_lt (firstPerWindow_sublist _ _).countP_le hfirst
        by_cases hsecond : countAligned 1000 ms (letThrough maxPerSecond maxPer100ms readings) <
            maxPerSecond
        · rw [if_pos (hanswer.mpr ⟨hsecond, hinterval⟩), if_pos hsecond]
        · rw [if_neg (fun h => hsecond (hanswer.mp h).1), if_neg hsecond, List.append_nil]
      · -- the interval is full, or the second is
        rw [if_neg hfirst, if_neg, List.append_nil]
        intro hgranted
        obtain ⟨hsecond, hinterval⟩ := hanswer.mp hgranted
        rw [countAligned_100_letThrough hsecond] at hinterval
        exact hfirst hinterval

/-- In windows anywhere the limiter grants at most twice its limits. -/
theorem countIn_granted_le
    (hsorted : readings.Pairwise (· ≤ ·))
    (t : Int) :
    countIn t 100 ((create maxPerSecond maxPer100ms).granted readings) ≤ 2 * maxPer100ms ∧
      countIn t 1000 ((create maxPerSecond maxPer100ms).granted readings) ≤ 2 * maxPerSecond := by
  rw [granted_eq_letThrough hsorted]
  constructor
  · refine countIn_le_two_mul (by norm_num) ?_ t
    intro ms
    exact (firstPerWindow_sublist _ _).countP_le.trans (countAligned_firstPerWindow_le _ _ ms)
  · exact countIn_le_two_mul (by norm_num) (countAligned_firstPerWindow_le _ _) t

/--
The limit of the seconds takes so much of a burst at `t` that the limit for 100 ms holds:
what the calls before `t` leave of their second, and what the next second lets through,
is no more.  Of each aligned 100 ms interval the first calls count.
-/
def SecondCutsBurst (maxPerSecond maxPer100ms : Nat) (t : Int) (readings : List Int) : Prop :=
  let firsts := firstPerWindow 100 maxPer100ms readings
  maxPerSecond - countBefore 1000 t firsts + min (countBeyond 1000 t 100 firsts) maxPerSecond ≤
      maxPer100ms ∨
    countWithin 1000 t 100 firsts + maxPerSecond ≤ maxPer100ms

theorem firstPerWindow_sorted
    {w : Int} {n : Nat}
    (hsorted : readings.Pairwise (· ≤ ·)) :
    (firstPerWindow w n readings).Pairwise (· ≤ ·) :=
  hsorted.sublist (firstPerWindow_sublist n readings)

/-- The limit for 100 ms in a window anywhere. -/
theorem countIn_100_granted_le_iff
    (hsorted : readings.Pairwise (· ≤ ·))
    (t : Int) :
    countIn t 100 ((create maxPerSecond maxPer100ms).granted readings) ≤ maxPer100ms ↔
      NoBurst 100 maxPer100ms t readings ∨ SecondCutsBurst maxPerSecond maxPer100ms t readings := by
  have hfirsts := firstPerWindow_sorted (w := 100) (n := maxPer100ms) hsorted
  have hintervals := countIn_firstPerWindow_le_iff (w := 100) (by norm_num) hsorted maxPer100ms t
  rw [countIn_eq_add 1000] at hintervals
  rw [granted_eq_letThrough hsorted, letThrough,
    countIn_firstPerWindow (by norm_num) (by norm_num) (by norm_num) hfirsts, ← hintervals,
    SecondCutsBurst]
  omega

/-- The limit for a second in a window anywhere. -/
theorem countIn_1000_granted_le_iff
    (hsorted : readings.Pairwise (· ≤ ·))
    (t : Int) :
    countIn t 1000 ((create maxPerSecond maxPer100ms).granted readings) ≤ maxPerSecond ↔
      NoBurst 1000 maxPerSecond t (firstPerWindow 100 maxPer100ms readings) := by
  rw [granted_eq_letThrough hsorted]
  exact countIn_firstPerWindow_le_iff (by norm_num) (firstPerWindow_sorted hsorted) maxPerSecond t

/--
The limits hold in every window exactly if no burst of calls falls across the end of an
aligned window: neither across that of an interval of 100 ms, unless the limit of the
seconds cuts the burst, nor, of the first calls of these intervals, across that of a second.
-/
theorem limits_respected_iff
    (maxPerSecond maxPer100ms : Nat)
    (hsorted : readings.Pairwise (· ≤ ·)) :
    (∀ t, countIn t 100 ((create maxPerSecond maxPer100ms).granted readings) ≤ maxPer100ms ∧
        countIn t 1000 ((create maxPerSecond maxPer100ms).granted readings) ≤ maxPerSecond) ↔
      ∀ t, (NoBurst 100 maxPer100ms t readings ∨
          SecondCutsBurst maxPerSecond maxPer100ms t readings) ∧
        NoBurst 1000 maxPerSecond t (firstPerWindow 100 maxPer100ms readings) := by
  refine forall_congr' fun t => ?_
  rw [countIn_100_granted_le_iff hsorted, countIn_1000_granted_le_iff hsorted]

/-- Two bursts, each larger than the limit for 100 ms and in an interval of its own. -/
def twoBursts : List Int :=
  List.replicate 20 950 ++ List.replicate 20 1050

/-- A window of 100 ms meets one of them. -/
theorem noBurst_twoBursts
    (n : Nat)
    (t : Int) :
    NoBurst 100 n t twoBursts := by
  have hreading : ∀ x ∈ twoBursts, x = 950 ∨ x = 1050 := by
    intro x hx
    rw [twoBursts, List.mem_append, List.mem_replicate, List.mem_replicate] at hx
    exact hx.imp And.right And.right
  by_cases hnone : countWithin 100 t 100 twoBursts = 0
  · exact .inr (.inl hnone)
  · refine .inr (.inr (.inr ?_))
    obtain ⟨x, hx, hin⟩ := List.countP_pos_iff.mp (Nat.pos_of_ne_zero hnone)
    obtain ⟨hclass, hle, hlt⟩ := of_decide_eq_true hin
    have hbeyond : countBeyond 100 t 100 twoBursts = 0 := by
      rw [countBeyond, List.countP_eq_zero]
      intro y hy hout
      obtain ⟨hother, hle', hlt'⟩ := of_decide_eq_true hout
      -- two calls in one window of 100 ms are of the same burst
      have hsame : x = y := by
        rcases hreading x hx with rfl | rfl <;> rcases hreading y hy with rfl | rfl <;> omega
      rw [← hsame] at hother
      exact hother hclass
    rw [hbeyond]
    exact Nat.zero_le _

theorem limits_respected_two_bursts :
    twoBursts.Pairwise (· ≤ ·) ∧
      ∀ t, countIn t 100 ((create 100 15).granted twoBursts) ≤ 15 ∧
        countIn t 1000 ((create 100 15).granted twoBursts) ≤ 100 := by
  have hsorted : twoBursts.Pairwise (· ≤ ·) := by
    decide
  refine ⟨hsorted, (limits_respected_iff 100 15 hsorted).mpr fun t => ?_⟩
  refine ⟨.inl (noBurst_twoBursts 15 t), .inl ?_⟩
  have hfew : (firstPerWindow 100 15 twoBursts).length ≤ 100 :=
    (firstPerWindow_sublist 15 twoBursts).length_le.trans (by decide)
  rw [← countIn_eq_add]
  exact List.countP_le_length.trans hfew

/-- Sixteen calls around a boundary are granted within a millisecond. -/
theorem burst_across_boundary :
    (List.replicate 15 (99 : Int) ++ [100]).Pairwise (· ≤ ·) ∧
      countIn 99 100 ((create 100 15).granted (List.replicate 15 99 ++ [100])) = 16 ∧
      ¬ ∀ t, countIn t 100 ((create 100 15).granted (List.replicate 15 99 ++ [100])) ≤ 15 ∧
        countIn t 1000 ((create 100 15).granted (List.replicate 15 99 ++ [100])) ≤ 100 := by
  have hcount : countIn 99 100 ((create 100 15).granted (List.replicate 15 99 ++ [100])) = 16 := by
    decide +kernel
  refine ⟨by decide, hcount, ?_⟩
  intro h
  have := (h 99).1
  omega

end Sliding

end RateLimiter

end Core
end CryptoHft
