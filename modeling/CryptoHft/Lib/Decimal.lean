import CryptoHft.Lib.CString

/-!
# Decimal texts

`decimal` is the text that `std::to_string` gives for an unsigned number.
`stoull`, `stoll` and `stod` read a number from the front of a text as the C++
library does: leading blanks, an optional sign, and the longest numeral; what
follows is ignored.  They have no value when there is no numeral or the number
is out of range.  `stod` reads decimal numerals to their exact rational value.

The main fact is the round trip `stoull_decimal`.
-/

namespace CryptoHft
namespace Lib

/-- `isspace` in the C locale. -/
def isSpace (b : UInt8) : Bool :=
  b == 32 || (9 ≤ b && b ≤ 13)

def isDigit (b : UInt8) : Bool :=
  48 ≤ b && b ≤ 57

/-- The number that a run of digits denotes. -/
def digitsValue (ds : Bytes) : Nat :=
  ds.foldl (fun n b => n * 10 + (b.toNat - 48)) 0

/-- An optional sign. -/
def scanSign : Bytes → Bool × Bytes
  | [] => (false, [])
  | b :: rest =>
      if b = 45 then (true, rest)
      else if b = 43 then (false, rest)
      else (false, b :: rest)

/-- Blanks, a sign and the longest run of digits: is it negative, and its value. -/
def scanInteger (s : Bytes) : Option (Bool × Nat) :=
  let (negative, rest) := scanSign (s.dropWhile isSpace)
  let ds := rest.takeWhile isDigit
  if ds.isEmpty then none else some (negative, digitsValue ds)

/-- `std::stoull`: a minus sign negates modulo `2 ^ 64`. -/
def stoull (s : Bytes) : Option UInt64 :=
  match scanInteger s with
  | none => none
  | some (negative, n) =>
      if n < 2 ^ 64 then
        some (if negative then -(UInt64.ofNat n) else UInt64.ofNat n)
      else
        none

/-- `std::stoll`. -/
def stoll (s : Bytes) : Option Int64 :=
  match scanInteger s with
  | none => none
  | some (negative, n) =>
      let i : Int := if negative then -n else n
      if -2 ^ 63 ≤ i ∧ i < 2 ^ 63 then some (Int64.ofInt i) else none

/-- The exponent part of a numeral, if it is complete. -/
def scanExponent : Bytes → Int
  | [] => 0
  | b :: rest =>
      if b = 101 ∨ b = 69 then
        let (negative, rest) := scanSign rest
        let e := digitsValue (rest.takeWhile isDigit)
        if negative then -e else e
      else
        0

/-- The digits after a point. -/
def scanFraction : Bytes → Bytes × Bytes
  | [] => ([], [])
  | b :: rest =>
      if b = 46 then (rest.takeWhile isDigit, rest.dropWhile isDigit)
      else ([], b :: rest)

/-- `std::stod` on decimal numerals, without rounding. -/
def stod (s : Bytes) : Option ℚ :=
  let (negative, rest) := scanSign (s.dropWhile isSpace)
  let whole := rest.takeWhile isDigit
  let (fraction, rest) := scanFraction (rest.dropWhile isDigit)
  if (whole ++ fraction).isEmpty then
    none
  else
    let value : ℚ := digitsValue (whole ++ fraction)
    let e := scanExponent rest - fraction.length
    some ((if negative then -value else value) * (10 : ℚ) ^ e)

/-- The decimal numeral at the front of a text without a sign. -/
def scanDecimal (s : Bytes) : Option ℚ :=
  let (fraction, rest) := scanFraction (s.dropWhile isDigit)
  let digits := s.takeWhile isDigit ++ fraction
  if digits.isEmpty then none
  else some (digitsValue digits * (10 : ℚ) ^ (scanExponent rest - fraction.length))

/-- `std::to_string` of an unsigned number. -/
def decimal (n : Nat) : Bytes :=
  if n = 0 then [48] else ((Nat.digits 10 n).reverse).map (fun d => UInt8.ofNat (48 + d))

section RoundTrip

theorem toNat_digit
    {d : Nat}
    (h : d < 10) :
    (UInt8.ofNat (48 + d)).toNat = 48 + d := by
  simp only [UInt8.toNat_ofNat']
  omega

theorem isDigit_digit
    {d : Nat}
    (h : d < 10) :
    isDigit (UInt8.ofNat (48 + d)) = true := by
  have := toNat_digit h
  simp only [isDigit, Bool.and_eq_true, decide_eq_true_eq, UInt8.le_iff_toNat_le, this]
  decide +revert

theorem not_isSpace_of_isDigit
    {b : UInt8}
    (h : isDigit b = true) :
    isSpace b = false := by
  simp only [isDigit, Bool.and_eq_true, decide_eq_true_eq, UInt8.le_iff_toNat_le,
    UInt8.reduceToNat] at h
  simp only [isSpace, Bool.or_eq_false_iff, beq_eq_false_iff_ne, Bool.and_eq_false_iff,
    decide_eq_false_iff_not, UInt8.le_iff_toNat_le, UInt8.reduceToNat, ne_eq,
    ← UInt8.toNat_inj]
  omega

theorem isDigit_of_mem_decimal
    {n : Nat} {b : UInt8}
    (h : b ∈ decimal n) :
    isDigit b = true := by
  unfold decimal at h
  split at h
  · rw [List.mem_singleton.mp h]
    decide
  · obtain ⟨d, hd, rfl⟩ := List.mem_map.mp h
    exact isDigit_digit (Nat.digits_lt_base (by norm_num) (List.mem_reverse.mp hd))

theorem digitsValue_digits
    (ds : List Nat)
    (h : ∀ d ∈ ds, d < 10) :
    digitsValue (ds.reverse.map (fun d => UInt8.ofNat (48 + d))) = Nat.ofDigits 10 ds := by
  induction ds with
  | nil =>
      rfl
  | cons d ds ih =>
      have hd := toNat_digit (h d (by simp))
      have ih' := ih (fun e he => h e (by simp [he]))
      unfold digitsValue at ih' ⊢
      simp only [List.reverse_cons, List.map_append, List.map_cons, List.map_nil,
        List.foldl_append, List.foldl_cons, List.foldl_nil, Nat.ofDigits_cons, ih', hd]
      omega

theorem digitsValue_decimal (n : Nat) :
    digitsValue (decimal n) = n := by
  unfold decimal
  split
  · rename_i h
    rw [h]
    rfl
  · rw [digitsValue_digits _ (fun d hd => Nat.digits_lt_base (by norm_num) hd),
      Nat.ofDigits_digits]

theorem decimal_ne_nil (n : Nat) :
    decimal n ≠ [] := by
  unfold decimal
  split
  · simp
  · rename_i h
    simpa using Nat.digits_ne_nil_iff_ne_zero.mpr h

/-- Scanning a text that consists of digits only. -/
theorem scanInteger_of_digits
    {s : Bytes}
    (hne : s ≠ [])
    (h : ∀ b ∈ s, isDigit b = true) :
    scanInteger s = some (false, digitsValue s) := by
  have htake : s.takeWhile isDigit = s := List.takeWhile_eq_self_iff.mpr h
  cases s with
  | nil =>
      exact absurd rfl hne
  | cons b rest =>
      have hb := h b (by simp)
      have hdrop : (b :: rest).dropWhile isSpace = b :: rest := by
        simp [not_isSpace_of_isDigit hb]
      have hminus : b ≠ 45 := by
        rintro rfl
        exact absurd hb (by decide)
      have hplus : b ≠ 43 := by
        rintro rfl
        exact absurd hb (by decide)
      simp only [scanInteger, hdrop, scanSign, if_neg hminus, if_neg hplus, htake]
      simp

/-- Reading the text of a 64-bit number gives the number back. -/
theorem stoull_decimal (c : UInt64) :
    stoull (decimal c.toNat) = some c := by
  have hscan := scanInteger_of_digits (decimal_ne_nil c.toNat)
    (fun b hb => isDigit_of_mem_decimal hb)
  rw [digitsValue_decimal] at hscan
  have hlt : c.toNat < 2 ^ 64 := c.toNat_lt
  simp only [stoull, hscan, if_pos hlt]
  simp

end RoundTrip

/-- The sign of a numeral. -/
def signText (negative : Bool) : Bytes :=
  if negative then [45] else []

/-- A number as `width` digits, or more if it has more. -/
def padded (width n : Nat) : Bytes :=
  List.replicate (width - (decimal n).length) 48 ++ decimal n

section FixedPoint

theorem digitsValue_append
    (xs ys : Bytes) :
    digitsValue (xs ++ ys) = digitsValue xs * 10 ^ ys.length + digitsValue ys := by
  induction ys using List.reverseRecOn with
  | nil =>
      simp [digitsValue]
  | append_singleton ys b ih =>
      have hconcat : ∀ zs : Bytes, digitsValue (zs ++ [b]) =
          digitsValue zs * 10 + (b.toNat - 48) := by
        intro zs
        simp [digitsValue]
      rw [← List.append_assoc, hconcat, ih, hconcat, List.length_append, List.length_singleton,
        pow_succ]
      ring

theorem digitsValue_replicate
    (k : Nat) :
    digitsValue (List.replicate k 48) = 0 := by
  induction k with
  | zero =>
      rfl
  | succ k ih =>
      rw [List.replicate_succ', digitsValue_append, ih]
      rfl

theorem digitsValue_padded
    (width n : Nat) :
    digitsValue (padded width n) = n := by
  rw [padded, digitsValue_append, digitsValue_replicate, zero_mul, zero_add, digitsValue_decimal]

theorem length_decimal_le
    {width n : Nat}
    (hwidth : 0 < width)
    (h : n < 10 ^ width) :
    (decimal n).length ≤ width := by
  unfold decimal
  split_ifs
  · exact hwidth
  · rw [List.length_map, List.length_reverse]
    exact (Nat.digits_length_le_iff (by norm_num) n).mpr h

theorem lt_of_length_decimal_le
    {width n : Nat}
    (h : (decimal n).length ≤ width) :
    n < 10 ^ width := by
  unfold decimal at h
  split_ifs at h with hzero
  · rw [hzero]
    positivity
  · rw [List.length_map, List.length_reverse] at h
    exact (Nat.digits_length_le_iff (by norm_num) n).mp h

theorem length_padded
    {width n : Nat}
    (hwidth : 0 < width)
    (h : n < 10 ^ width) :
    (padded width n).length = width := by
  have hle := length_decimal_le hwidth h
  rw [padded, List.length_append, List.length_replicate]
  omega

theorem isDigit_of_mem_padded
    {width n : Nat} {b : UInt8}
    (h : b ∈ padded width n) :
    isDigit b = true := by
  rcases List.mem_append.mp h with hzero | hdigit
  · rw [List.eq_of_mem_replicate hzero]
    decide
  · exact isDigit_of_mem_decimal hdigit

theorem takeWhile_isDigit
    {xs : Bytes}
    (rest : Bytes)
    (hxs : ∀ b ∈ xs, isDigit b = true)
    (hrest : ∀ b, rest.head? = some b → isDigit b = false) :
    (xs ++ rest).takeWhile isDigit = xs ∧ (xs ++ rest).dropWhile isDigit = rest := by
  have hnone : rest.takeWhile isDigit = [] ∧ rest.dropWhile isDigit = rest := by
    cases rest with
    | nil => simp
    | cons b rest => simp [hrest b rfl]
  rw [List.takeWhile_append_of_pos hxs, List.dropWhile_append_of_pos hxs, hnone.1, hnone.2,
    List.append_nil]
  exact ⟨rfl, rfl⟩

/-- A numeral of digits alone. -/
theorem scanDecimal_digits
    {xs : Bytes}
    (hne : xs ≠ [])
    (hxs : ∀ b ∈ xs, isDigit b = true) :
    scanDecimal xs = some (digitsValue xs : ℚ) := by
  obtain ⟨htake, hdrop⟩ := takeWhile_isDigit [] hxs (by simp)
  rw [List.append_nil] at htake hdrop
  rw [scanDecimal, hdrop, htake]
  simp [scanFraction, scanExponent, hne]

/-- A numeral with a point. -/
theorem scanDecimal_point
    {xs ys : Bytes}
    (hne : xs ≠ [])
    (hxs : ∀ b ∈ xs, isDigit b = true)
    (hys : ∀ b ∈ ys, isDigit b = true) :
    scanDecimal (xs ++ 46 :: ys) = some (digitsValue xs + digitsValue ys / 10 ^ ys.length : ℚ) := by
  obtain ⟨htake, hdrop⟩ := takeWhile_isDigit (46 :: ys) hxs (by
    intro b hb
    cases hb
    decide)
  have hytake : ys.takeWhile isDigit = ys := List.takeWhile_eq_self_iff.mpr hys
  have hydrop : ys.dropWhile isDigit = [] := List.dropWhile_eq_nil_iff.mpr hys
  have hnonempty : (xs ++ ys).isEmpty = false := by
    simp [hne]
  rw [scanDecimal, hdrop, htake]
  simp only [scanFraction, if_true, hytake, hydrop, hnonempty, Bool.false_eq_true, if_false,
    scanExponent, Option.some.injEq]
  rw [digitsValue_append, zero_sub, zpow_neg, zpow_natCast]
  push_cast
  field_simp

/-- A text that starts with a digit, after its sign. -/
theorem scanSign_signText
    (negative : Bool)
    {s : Bytes}
    (hhead : ∃ b, s.head? = some b ∧ isDigit b = true) :
    scanSign ((signText negative ++ s).dropWhile isSpace) = (negative, s) := by
  obtain ⟨b, hb, hdigit⟩ := hhead
  obtain ⟨rest, rfl⟩ := List.head?_eq_some_iff.mp hb
  cases negative with
  | true =>
      rfl
  | false =>
      have hminus : b ≠ 45 := by
        rintro rfl
        exact absurd hdigit (by decide)
      have hplus : b ≠ 43 := by
        rintro rfl
        exact absurd hdigit (by decide)
      simp [signText, not_isSpace_of_isDigit hdigit, scanSign, hminus, hplus]

theorem stod_signText
    (negative : Bool)
    {s : Bytes}
    (hhead : ∃ b, s.head? = some b ∧ isDigit b = true) :
    stod (signText negative ++ s) =
      (scanDecimal s).map (fun q => if negative then -q else q) := by
  simp only [stod, scanSign_signText negative hhead, scanDecimal]
  by_cases hempty :
      (s.takeWhile isDigit ++ (scanFraction (s.dropWhile isDigit)).1).isEmpty = true
  · rw [if_pos hempty, if_pos hempty]
    rfl
  · rw [if_neg hempty, if_neg hempty]
    cases negative <;> simp

end FixedPoint

end Lib
end CryptoHft
