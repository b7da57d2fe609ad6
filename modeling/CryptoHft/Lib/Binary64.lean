import CryptoHft.Lib.Json
import Mathlib.Algebra.Order.Floor.Semiring
import Mathlib.Data.Int.Log
import Mathlib.Tactic.Positivity

/-!
# Binary64 numbers

The numbers of a `double`: a sign and a rational magnitude that 53 bits and an
exponent can represent, or an infinity, or a value that is not a number.  The
results of operations are exact rationals rounded to the nearest number, to an
even significand where two are equally near.

`stod` reads what `std::stod` reads: decimal and hexadecimal numerals, infinities,
and `nan`.  It has no value for a text without a numeral, and for a numeral that is
too large, or so small that it loses digits.
-/

namespace CryptoHft
namespace Lib

section Rounding

/-- The nearest natural number, an even one where two are equally near. -/
def roundHalfEven (q : ℚ) : Nat :=
  let n := ⌊q⌋₊
  if q - n < 1 / 2 then n
  else if 1 / 2 < q - n then n + 1
  else if n % 2 = 0 then n
  else n + 1

/-- The exponent of the last bit of a number of this size. -/
def lastBit (q : ℚ) : Int :=
  max (-1074) (Int.log 2 q - 52)

/-- A nonnegative number, rounded to 53 bits and to multiples of `2 ^ -1074`. -/
def roundBits (q : ℚ) : ℚ :=
  roundHalfEven (q / 2 ^ lastBit q) * 2 ^ lastBit q

/-- The magnitudes of the finite numbers. -/
def Representable (q : ℚ) : Prop :=
  ∃ (m : Nat) (e : Int), m < 2 ^ 53 ∧ -1074 ≤ e ∧ e ≤ 971 ∧ q = m * 2 ^ e

theorem floor_le_roundHalfEven
    (q : ℚ) :
    ⌊q⌋₊ ≤ roundHalfEven q := by
  simp only [roundHalfEven]
  split_ifs <;> omega

theorem roundHalfEven_le
    {q : ℚ} {n : Nat}
    (h : q ≤ n) :
    roundHalfEven q ≤ n := by
  have hfloor : ⌊q⌋₊ ≤ n := by
    calc ⌊q⌋₊ ≤ ⌊(n : ℚ)⌋₊ := Nat.floor_le_floor h
      _ = n := Nat.floor_natCast n
  rcases Nat.lt_or_eq_of_le hfloor with hlt | heq
  · simp only [roundHalfEven]
    split_ifs <;> omega
  · have hfrac : q - ⌊q⌋₊ < 1 / 2 := by
      rw [heq]
      linarith
    have hround : roundHalfEven q = ⌊q⌋₊ := if_pos hfrac
    exact hround.trans_le hfloor

theorem roundHalfEven_natCast
    (n : Nat) :
    roundHalfEven n = n := by
  have hfloor : ⌊(n : ℚ)⌋₊ = n := Nat.floor_natCast n
  exact le_antisymm (roundHalfEven_le le_rfl) (hfloor.symm.le.trans (floor_le_roundHalfEven _))

theorem le_roundHalfEven
    {q : ℚ} {n : Nat}
    (h : (n : ℚ) ≤ q) :
    n ≤ roundHalfEven q :=
  (Nat.le_floor h).trans (floor_le_roundHalfEven q)

theorem two_zpow_pos
    (e : Int) :
    (0 : ℚ) < 2 ^ e :=
  zpow_pos (by norm_num) e

theorem two_pow_mul_zpow
    (k : Nat)
    (e : Int) :
    (2 : ℚ) ^ k * 2 ^ e = 2 ^ (k + e) := by
  rw [zpow_add₀ (by norm_num), zpow_natCast]

/-- The significand has at most 53 bits. -/
theorem div_lastBit_lt
    (q : ℚ) :
    q / 2 ^ lastBit q < 2 ^ 53 := by
  have hlog : q < 2 ^ (Int.log 2 q + 1) := by
    exact_mod_cast Int.lt_zpow_succ_log_self (b := 2) (by norm_num) q
  rw [div_lt_iff₀ (two_zpow_pos _), two_pow_mul_zpow]
  exact hlog.trans_le (zpow_le_zpow_right₀ (by norm_num) (by rw [lastBit]; omega))

/-- Above the smallest exponent it has all of them. -/
theorem le_div_lastBit
    {q : ℚ}
    (hq : 0 < q)
    (h : lastBit q = Int.log 2 q - 52) :
    2 ^ 52 ≤ q / 2 ^ lastBit q := by
  have hlog : (2 : ℚ) ^ Int.log 2 q ≤ q := by
    exact_mod_cast Int.zpow_log_le_self (b := 2) (by norm_num) hq
  rw [le_div_iff₀ (two_zpow_pos _), two_pow_mul_zpow, h]
  refine (le_of_eq ?_).trans hlog
  congr 1
  omega

theorem significand_le
    (q : ℚ) :
    roundHalfEven (q / 2 ^ lastBit q) ≤ 2 ^ 53 := by
  refine roundHalfEven_le ?_
  push_cast
  exact (div_lastBit_lt q).le

theorem roundBits_nonneg
    (q : ℚ) :
    0 ≤ roundBits q :=
  mul_nonneg (Nat.cast_nonneg _) (two_zpow_pos _).le

theorem roundBits_zero :
    roundBits 0 = 0 := by
  have hzero : roundHalfEven 0 = 0 := roundHalfEven_natCast 0
  rw [roundBits, zero_div, hzero, Nat.cast_zero, zero_mul]

theorem representable_zero :
    Representable 0 :=
  ⟨0, 0, by norm_num, by norm_num, by norm_num, by norm_num⟩

/-- A number that overflows has a last bit above the range. -/
theorem lastBit_le
    {q : ℚ}
    (hq : 0 < q)
    (h : roundBits q < 2 ^ (1024 : Int)) :
    lastBit q ≤ 971 := by
  by_contra hgt
  have hbit : lastBit q = Int.log 2 q - 52 := by
    rw [lastBit] at hgt ⊢
    omega
  have hm : 2 ^ 52 ≤ roundHalfEven (q / 2 ^ lastBit q) := by
    refine le_roundHalfEven ?_
    push_cast
    exact le_div_lastBit hq hbit
  have hlarge : (2 : ℚ) ^ (1024 : Int) ≤ roundBits q := by
    calc (2 : ℚ) ^ (1024 : Int) = 2 ^ 52 * 2 ^ (972 : Int) := (two_pow_mul_zpow 52 972).symm
      _ ≤ 2 ^ 52 * 2 ^ lastBit q := by
          gcongr
          · norm_num
          · omega
      _ ≤ roundBits q := by
          rw [roundBits]
          gcongr
          exact_mod_cast hm
  exact absurd h (not_lt.mpr hlarge)

/-- What does not overflow is representable. -/
theorem representable_roundBits
    {q : ℚ}
    (hq : 0 ≤ q)
    (h : roundBits q < 2 ^ (1024 : Int)) :
    Representable (roundBits q) := by
  rcases hq.eq_or_lt with rfl | hpos
  · rw [roundBits_zero]
    exact representable_zero
  have hlower : -1074 ≤ lastBit q := by
    rw [lastBit]
    omega
  have hupper := lastBit_le hpos h
  rcases Nat.lt_or_eq_of_le (significand_le q) with hlt | heq
  · exact ⟨_, _, hlt, hlower, hupper, rfl⟩
  · -- the significand has been rounded up to the next power of two
    have hvalue : roundBits q = (2 ^ 52 : Nat) * 2 ^ (lastBit q + 1) := by
      rw [roundBits, heq, Nat.cast_pow, Nat.cast_pow, Nat.cast_ofNat, two_pow_mul_zpow,
        two_pow_mul_zpow]
      congr 1
      omega
    have hsmall : lastBit q + 1 ≤ 971 := by
      by_contra hgt
      have hbit : lastBit q = 971 := by omega
      rw [hvalue, hbit, Nat.cast_pow, Nat.cast_ofNat, two_pow_mul_zpow] at h
      exact lt_irrefl _ h
    exact ⟨2 ^ 52, lastBit q + 1, by norm_num, by omega, hsmall, hvalue⟩

/-- A representable number is rounded to itself. -/
theorem roundBits_of_representable
    {q : ℚ}
    (h : Representable q) :
    roundBits q = q := by
  obtain ⟨m, e, hm, hlower, -, rfl⟩ := h
  rcases Nat.eq_zero_or_pos m with rfl | hpos
  · rw [Nat.cast_zero, zero_mul, roundBits_zero]
  have hq : (0 : ℚ) < m * 2 ^ e := mul_pos (by exact_mod_cast hpos) (two_zpow_pos e)
  set q : ℚ := m * 2 ^ e with hqdef
  -- its last bit is not above the exponent, so the significand is a whole number
  have hlog : Int.log 2 q < e + 53 := by
    refine (Int.lt_zpow_iff_log_lt (b := 2) (by norm_num) hq).mp ?_
    calc q < 2 ^ 53 * 2 ^ e := by
          rw [hqdef]
          gcongr
          exact_mod_cast hm
      _ = ((2 : Nat) : ℚ) ^ (e + 53) := by
          rw [Nat.cast_ofNat, two_pow_mul_zpow, add_comm]
          rfl
  have hle : lastBit q ≤ e := by
    rw [lastBit]
    omega
  obtain ⟨k, hk⟩ := Int.le.dest hle
  have hwhole : q / 2 ^ lastBit q = ((m * 2 ^ k : Nat) : ℚ) := by
    rw [div_eq_iff (two_zpow_pos _).ne']
    push_cast
    rw [mul_assoc, two_pow_mul_zpow, add_comm, hk]
  rw [roundBits, hwhole, roundHalfEven_natCast, ← hwhole, div_mul_cancel₀ _ (two_zpow_pos _).ne']

/-- Rounding does not take a number below a power of two that it is not below. -/
theorem two_zpow_le_roundBits
    {q : ℚ} {k : Int}
    (hk : -1022 ≤ k)
    (hq : 2 ^ k ≤ q) :
    2 ^ k ≤ roundBits q := by
  have hpos : 0 < q := (two_zpow_pos k).trans_le hq
  have hlog : k ≤ Int.log 2 q := by
    refine (Int.zpow_le_iff_le_log (b := 2) (by norm_num) hpos).mp ?_
    exact_mod_cast hq
  have hbit : lastBit q = Int.log 2 q - 52 := by
    rw [lastBit]
    omega
  have hm : 2 ^ 52 ≤ roundHalfEven (q / 2 ^ lastBit q) := by
    refine le_roundHalfEven ?_
    push_cast
    exact le_div_lastBit hpos hbit
  calc (2 : ℚ) ^ k ≤ 2 ^ Int.log 2 q := zpow_le_zpow_right₀ (by norm_num) hlog
    _ = 2 ^ 52 * 2 ^ lastBit q := by
        rw [two_pow_mul_zpow, hbit]
        congr 1
        omega
    _ ≤ roundBits q := by
        rw [roundBits]
        gcongr
        exact_mod_cast hm

/-- A number that is not too large does not overflow. -/
theorem roundBits_lt
    {q : ℚ} {k : Int}
    (hk : 0 ≤ k)
    (hk' : k < 1022)
    (hq : q ≤ 2 ^ k) :
    roundBits q < 2 ^ (1024 : Int) := by
  rcases le_or_gt q 0 with hle | hpos
  · have hsmall : roundHalfEven (q / 2 ^ lastBit q) ≤ 0 := by
      refine roundHalfEven_le ?_
      rw [Nat.cast_zero]
      exact div_nonpos_of_nonpos_of_nonneg hle (two_zpow_pos _).le
    rw [roundBits, Nat.le_zero.mp hsmall, Nat.cast_zero, zero_mul]
    exact two_zpow_pos _
  have hlog : Int.log 2 q < k + 1 := by
    refine (Int.lt_zpow_iff_log_lt (b := 2) (by norm_num) hpos).mp ?_
    calc q ≤ 2 ^ k := hq
      _ < ((2 : Nat) : ℚ) ^ (k + 1) := zpow_lt_zpow_right₀ (by norm_num) (by omega)
  calc roundBits q ≤ 2 ^ 53 * 2 ^ lastBit q := by
        rw [roundBits]
        gcongr
        exact_mod_cast significand_le q
    _ = 2 ^ (53 + lastBit q) := two_pow_mul_zpow 53 _
    _ < 2 ^ (1024 : Int) := zpow_lt_zpow_right₀ (by norm_num) (by rw [lastBit]; omega)

theorem abs_roundHalfEven_sub_le
    {q : ℚ}
    (hq : 0 ≤ q) :
    |roundHalfEven q - q| ≤ 1 / 2 := by
  have hfloor := Nat.floor_le hq
  have hlt := Nat.lt_floor_add_one q
  rw [abs_le]
  simp only [roundHalfEven]
  split_ifs <;> push_cast <;> constructor <;> linarith

/-- The nearest number is the only one within one half. -/
theorem roundHalfEven_eq_of_abs_lt
    {q : ℚ} {n : Nat}
    (hq : 0 ≤ q)
    (h : |q - n| < 1 / 2) :
    roundHalfEven q = n := by
  have hround := abs_roundHalfEven_sub_le hq
  have hnear : |(roundHalfEven q : ℚ) - n| < 1 := by
    calc |(roundHalfEven q : ℚ) - n| ≤ |roundHalfEven q - q| + |q - n| := abs_sub_le _ _ _
      _ < 1 := by linarith
  have hint : |(roundHalfEven q : Int) - n| < 1 := by exact_mod_cast hnear
  rw [Int.abs_lt_one_iff] at hint
  omega

theorem abs_roundBits_sub_le
    {q : ℚ}
    (hq : 0 ≤ q) :
    |roundBits q - q| ≤ 2 ^ lastBit q / 2 := by
  have hpos := two_zpow_pos (lastBit q)
  have hround := abs_roundHalfEven_sub_le (div_nonneg hq hpos.le)
  have heq : roundBits q - q =
      (roundHalfEven (q / 2 ^ lastBit q) - q / 2 ^ lastBit q) * 2 ^ lastBit q := by
    rw [roundBits, sub_mul, div_mul_cancel₀ _ hpos.ne']
  rw [heq, abs_mul, abs_of_pos hpos]
  calc _ ≤ 1 / 2 * (2 : ℚ) ^ lastBit q := by gcongr
    _ = 2 ^ lastBit q / 2 := by ring

/-- What is within half a unit of a number, but not at a power of two, is rounded to it. -/
theorem roundBits_eq_of_abs_lt
    {q : ℚ} {m : Nat} {e : Int}
    (hlower : 2 ^ 52 < m)
    (hupper : m < 2 ^ 53)
    (he : -1074 ≤ e)
    (h : |q - m * 2 ^ e| < 2 ^ e / 2) :
    roundBits q = m * 2 ^ e := by
  have hunit := two_zpow_pos e
  have hlow : ((2 : ℚ) ^ 52 + 1) * 2 ^ e ≤ m * 2 ^ e := by
    gcongr
    exact_mod_cast hlower
  have hupp : (m : ℚ) * 2 ^ e ≤ (2 ^ 53 - 1) * 2 ^ e := by
    gcongr
    have : (m : ℚ) + 1 ≤ 2 ^ 53 := by exact_mod_cast hupper
    linarith
  rw [abs_lt] at h
  have hge : 2 ^ 52 * 2 ^ e ≤ q := by nlinarith
  have hlt : q < 2 ^ 53 * 2 ^ e := by nlinarith
  have hpos : 0 < q := lt_of_lt_of_le (by positivity) hge
  rw [two_pow_mul_zpow] at hge hlt
  have hlog : Int.log 2 q = 52 + e := by
    have hle : 52 + e ≤ Int.log 2 q := by
      refine (Int.zpow_le_iff_le_log (b := 2) (by norm_num) hpos).mp ?_
      exact_mod_cast hge
    have hgt : Int.log 2 q < 53 + e := by
      refine (Int.lt_zpow_iff_log_lt (b := 2) (by norm_num) hpos).mp ?_
      exact_mod_cast hlt
    omega
  have hbit : lastBit q = e := by
    rw [lastBit, hlog]
    omega
  have hnear : |q / 2 ^ e - m| < 1 / 2 := by
    have heq : q / 2 ^ e - m = (q - m * 2 ^ e) / 2 ^ e := by
      rw [sub_div, mul_div_cancel_right₀ _ hunit.ne']
    rw [heq, abs_div, abs_of_pos hunit, div_lt_iff₀ hunit, abs_lt]
    constructor <;> linarith
  rw [roundBits, hbit, roundHalfEven_eq_of_abs_lt (div_nonneg hpos.le hunit.le) hnear]

end Rounding

/-- The magnitude of a finite number. -/
structure Magnitude where
  val : ℚ
  representable : Representable val

theorem Magnitude.nonneg
    (x : Magnitude) :
    0 ≤ x.val := by
  obtain ⟨m, e, -, -, -, heq⟩ := x.representable
  rw [heq]
  exact mul_nonneg (Nat.cast_nonneg m) (two_zpow_pos e).le

inductive Binary64
  | nan (negative : Bool)
  | infinity (negative : Bool)
  | finite (negative : Bool) (magnitude : Magnitude)

namespace Binary64

/-- The nearest number to a rational one; the sign is given, for zeros have one. -/
def ofRat (negative : Bool) (q : ℚ) : Binary64 :=
  if h : roundBits |q| < 2 ^ (1024 : Int) then
    .finite negative ⟨roundBits |q|, representable_roundBits (abs_nonneg q) h⟩
  else .infinity negative

theorem ofRat_congr
    (negative : Bool)
    {q r : ℚ}
    (h : roundBits |q| = roundBits |r|) :
    ofRat negative q = ofRat negative r := by
  simp only [ofRat, h]

/-- The value of a finite number. -/
def value : Binary64 → Option ℚ
  | .finite negative magnitude => some (if negative then -magnitude.val else magnitude.val)
  | _ => none

/-- The value, with zero for the others. -/
def toRat (x : Binary64) : ℚ :=
  x.value.getD 0

/-- `x > 0.0` -/
def isPositive : Binary64 → Bool
  | .nan _ => false
  | .infinity negative => !negative
  | .finite negative magnitude => !negative && decide (0 < magnitude.val)

/-- `x <= 0.0` -/
def isNonPositive : Binary64 → Bool
  | .nan _ => false
  | .infinity negative => negative
  | .finite negative magnitude => negative || decide (magnitude.val = 0)

/-- A finite number above zero. -/
def isReal : Binary64 → Bool
  | .finite negative magnitude => !negative && decide (0 < magnitude.val)
  | _ => false

def ofInt (i : Int) : Binary64 :=
  ofRat (decide (i < 0)) i

/-- The difference; one of two equal numbers is a positive zero, except that of zeros. -/
def sub : Binary64 → Binary64 → Binary64
  | .nan negative, _ => .nan negative
  | _, .nan negative => .nan negative
  | .infinity x, .infinity y => if x = y then .nan true else .infinity x
  | .infinity x, .finite _ _ => .infinity x
  | .finite _ _, .infinity y => .infinity (!y)
  | .finite x m, .finite y n =>
      let difference := (if x then -m.val else m.val) - (if y then -n.val else n.val)
      let negativeZero := x && !y && decide (m.val = 0) && decide (n.val = 0)
      ofRat (decide (difference < 0) || negativeZero) difference

/-- The integer part; the conversion of other values is undefined. -/
def truncate : Binary64 → Int
  | .finite negative magnitude =>
      if negative then -(⌊magnitude.val⌋₊ : Int) else ⌊magnitude.val⌋₊
  | _ => 0

/-- The numbers that compare as not below zero and as not zero: the positive ones, and `nan`. -/
theorem isNonPositive_eq_false_iff
    (x : Binary64) :
    x.isNonPositive = false ↔ x.isPositive = true ∨ ∃ negative, x = .nan negative := by
  cases x with
  | nan negative =>
      simp [isNonPositive]
  | infinity negative =>
      cases negative <;> simp [isNonPositive, isPositive]
  | finite negative magnitude =>
      have hnonneg : 0 ≤ magnitude.val := magnitude.nonneg
      cases negative <;> simp [isNonPositive, isPositive, hnonneg.lt_iff_ne']

/-- The positive numbers: the real ones, and the infinity. -/
theorem isPositive_iff
    (x : Binary64) :
    x.isPositive = true ↔ x.isReal = true ∨ x = .infinity false := by
  cases x with
  | nan negative =>
      simp [isPositive, isReal]
  | infinity negative =>
      cases negative <;> simp [isPositive, isReal]
  | finite negative magnitude =>
      simp [isPositive, isReal]

theorem toRat_pos
    {x : Binary64}
    (h : x.isReal = true) :
    0 < x.toRat := by
  cases x with
  | nan negative | infinity negative =>
      cases h
  | finite negative magnitude =>
      simp only [isReal, Bool.and_eq_true, Bool.not_eq_true', decide_eq_true_eq] at h
      obtain ⟨rfl, hpos⟩ := h
      exact hpos

/-- The integers of 64 bits are finite numbers of the same sign. -/
theorem ofInt_eq_finite
    {i : Int}
    (h : |i| ≤ 2 ^ 64) :
    ∃ magnitude : Magnitude, ofInt i = .finite (decide (i < 0)) magnitude ∧
      (magnitude.val = 0 ↔ i = 0) := by
  have habs : |(i : ℚ)| ≤ 2 ^ (64 : Int) := by exact_mod_cast h
  have hfinite := roundBits_lt (by norm_num) (by norm_num) habs
  refine ⟨_, dif_pos hfinite, ?_⟩
  show roundBits |(i : ℚ)| = 0 ↔ i = 0
  constructor
  · intro hzero
    by_contra hne
    have hone : (2 : ℚ) ^ (0 : Int) ≤ |(i : ℚ)| := by
      rw [zpow_zero]
      exact_mod_cast Int.one_le_abs hne
    have hpos := (two_zpow_pos 0).trans_le (two_zpow_le_roundBits (by norm_num) hone)
    exact hpos.ne' hzero
  · rintro rfl
    rw [Int.cast_zero, abs_zero, roundBits_zero]

theorem isReal_ofInt_iff
    {i : Int}
    (h : |i| ≤ 2 ^ 64) :
    (ofInt i).isReal = true ↔ 0 < i := by
  obtain ⟨magnitude, heq, hzero⟩ := ofInt_eq_finite h
  have hnonneg := magnitude.nonneg
  rw [heq]
  simp only [isReal, Bool.and_eq_true, Bool.not_eq_true', decide_eq_false_iff_not,
    decide_eq_true_eq, hnonneg.lt_iff_ne', ne_eq, hzero]
  omega

end Binary64

section Reading

/-- `tolower` in the C locale. -/
def toLower (b : UInt8) : UInt8 :=
  if 65 ≤ b ∧ b ≤ 90 then b + 32 else b

def startsWith (s word : Bytes) : Bool :=
  word.isPrefixOf (s.map toLower)

/-- The value of a hexadecimal digit. -/
def hexValue (b : UInt8) : Option Nat :=
  if isDigit b then some (b.toNat - 48)
  else if 97 ≤ toLower b ∧ toLower b ≤ 102 then some ((toLower b).toNat - 87)
  else none

def isHexDigit (b : UInt8) : Bool :=
  (hexValue b).isSome

/-- A hexadecimal numeral, after `0x`. -/
def scanHexadecimal (s : Bytes) : Option ℚ :=
  let whole := s.takeWhile isHexDigit
  let afterWhole := s.dropWhile isHexDigit
  let fraction := if afterWhole.head? = some 46 then afterWhole.tail.takeWhile isHexDigit else []
  let afterFraction :=
    if afterWhole.head? = some 46 then afterWhole.tail.dropWhile isHexDigit else afterWhole
  if (whole ++ fraction).isEmpty then none
  else
    let significand : ℚ :=
      ((whole ++ fraction).foldl (fun n b => n * 16 + (hexValue b).getD 0) 0 : Nat)
    let exponent : Int :=
      if afterFraction.head?.map toLower = some 112 then
        let (negative, rest) := scanSign afterFraction.tail
        let e := digitsValue (rest.takeWhile isDigit)
        if negative then -e else e
      else 0
    some (significand * 2 ^ (exponent - 4 * fraction.length))

/-- What a text after its sign denotes. -/
inductive Numeral
  | nan
  | infinity
  | number (q : ℚ)

def scanNumeral (s : Bytes) : Option Numeral :=
  if startsWith s (text "inf") then some .infinity
  else if startsWith s (text "nan") then some .nan
  else if startsWith s (text "0x") then
    -- without a digit after it, the numeral is the zero
    some (.number ((scanHexadecimal (s.drop 2)).getD 0))
  else (scanDecimal s).map .number

/-- Numbers that `strtod` does not report to be out of range. -/
def readable (q : ℚ) : Bool :=
  roundBits q < 2 ^ (1024 : Int) && (2 ^ (-1022 : Int) ≤ roundBits q || roundBits q = q)

/-- `std::stod`. -/
def Binary64.stod (s : Bytes) : Option Binary64 :=
  let (negative, rest) := scanSign (s.dropWhile isSpace)
  match scanNumeral rest with
  | none => none
  | some .nan => some (.nan negative)
  | some .infinity => some (.infinity negative)
  | some (.number q) => if readable q then some (.ofRat negative q) else none

theorem startsWith_eq_false
    {s : Bytes}
    (word : Bytes)
    (c : UInt8)
    (hc : c ∈ word)
    (hs : ∀ b ∈ s, toLower b ≠ c) :
    startsWith s word = false := by
  rw [startsWith, ← Bool.not_eq_true, List.isPrefixOf_iff_prefix]
  intro hpre
  obtain ⟨b, hb, hlower⟩ := List.mem_map.mp (hpre.subset hc)
  exact hs b hb hlower

theorem toLower_of_isDigit
    {b : UInt8}
    (h : isDigit b = true) :
    toLower b = b := by
  simp only [isDigit, Bool.and_eq_true, decide_eq_true_eq, UInt8.le_iff_toNat_le,
    UInt8.reduceToNat] at h
  refine if_neg ?_
  rintro ⟨hupper, -⟩
  rw [UInt8.le_iff_toNat_le] at hupper
  have : (65 : UInt8).toNat = 65 := rfl
  omega

/-- A numeral of digits and points is read as a decimal one. -/
theorem scanNumeral_of_plain
    {s : Bytes}
    (hs : ∀ b ∈ s, isDigit b = true ∨ b = 46) :
    scanNumeral s = (scanDecimal s).map .number := by
  have hplain : ∀ c, isDigit c = false → c ≠ 46 → ∀ b ∈ s, toLower b ≠ c := by
    intro c hdigit hpoint b hb
    have hlower : toLower b = b := by
      rcases hs b hb with hb | rfl
      · exact toLower_of_isDigit hb
      · decide
    rw [hlower]
    rintro rfl
    rcases hs b hb with hb | hb
    · rw [hdigit] at hb
      cases hb
    · exact hpoint hb
  have hinf := startsWith_eq_false (text "inf") 110 (by decide +kernel)
    (hplain 110 (by decide) (by decide))
  have hnan := startsWith_eq_false (text "nan") 110 (by decide +kernel)
    (hplain 110 (by decide) (by decide))
  have hhex := startsWith_eq_false (text "0x") 120 (by decide +kernel)
    (hplain 120 (by decide) (by decide))
  simp only [scanNumeral, hinf, hnan, hhex, Bool.false_eq_true, if_false]

/-- What `stod` does with such a text, after its sign. -/
theorem Binary64.stod_signText
    (negative : Bool)
    {s : Bytes}
    (hhead : ∃ b, s.head? = some b ∧ isDigit b = true)
    (hs : ∀ b ∈ s, isDigit b = true ∨ b = 46)
    {q : ℚ}
    (hq : scanDecimal s = some q)
    (hreadable : readable q = true) :
    Binary64.stod (signText negative ++ s) = some (.ofRat negative q) := by
  simp only [Binary64.stod, scanSign_signText negative hhead, scanNumeral_of_plain hs, hq,
    Option.map_some, hreadable, if_true]

theorem readable_zero :
    readable 0 = true := by
  simp [readable, roundBits_zero]

theorem readable_of_le
    {q : ℚ}
    (hlower : 2 ^ (-1022 : Int) ≤ q)
    {k : Int}
    (hk : 0 ≤ k)
    (hk' : k < 1022)
    (hupper : q ≤ 2 ^ k) :
    readable q = true := by
  rw [readable, Bool.and_eq_true, Bool.or_eq_true, decide_eq_true_iff, decide_eq_true_iff]
  exact ⟨roundBits_lt hk hk' hupper, .inl (two_zpow_le_roundBits le_rfl hlower)⟩

instance : Double Binary64 where
  zero := .finite false ⟨0, representable_zero⟩
  sub := Binary64.sub
  isPositive := Binary64.isPositive
  isNonPositive := Binary64.isNonPositive
  ofInt := Binary64.ofInt
  truncate := Binary64.truncate
  read := Binary64.stod

end Reading

end Lib
end CryptoHft
