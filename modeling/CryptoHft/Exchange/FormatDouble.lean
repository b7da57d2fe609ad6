import CryptoHft.Exchange.MessageBuilder
import CryptoHft.Lib.Binary64

/-!
# `format_double`

Prices and quantities are sent as texts: `%.8f`, without the zeros at its end, and
without the point if nothing is left after it.  `renderFixed` is the text that
`snprintf` makes; the position of the point and that of the last character that is
not a zero decide how it is cut.
-/

namespace CryptoHft
namespace Exchange

open Lib

section Strings

/-- `find` of one character. -/
def findChar (c : UInt8) : Bytes → Option Nat
  | [] => none
  | b :: rest => if b = c then some 0 else (findChar c rest).map (· + 1)

/-- `find_last_not_of` one character. -/
def findLastNotOf (c : UInt8) : Bytes → Option Nat
  | [] => none
  | b :: rest =>
      match findLastNotOf c rest with
      | some i => some (i + 1)
      | none => if b = c then none else some 0

/-- A text without the zeros at its end. -/
def trimZeros : Bytes → Bytes
  | [] => []
  | b :: rest => if trimZeros rest = [] ∧ b = 48 then [] else b :: trimZeros rest

end Strings

/-- `%.8f` of `n / 10 ^ 8`. -/
def fixedPoint (n : Nat) : Bytes :=
  decimal (n / 10 ^ 8) ++ 46 :: padded 8 (n % 10 ^ 8)

/-- A magnitude in units of `10 ^ -8`, rounded as `snprintf` rounds. -/
def roundedUnits (magnitude : Magnitude) : Nat :=
  roundHalfEven (magnitude.val * 10 ^ 8)

/-- The decimal that `%.8f` rounds a finite number to. -/
def roundedValue (negative : Bool) (magnitude : Magnitude) : ℚ :=
  if negative then -(roundedUnits magnitude / 10 ^ 8 : ℚ) else roundedUnits magnitude / 10 ^ 8

/-- The text of `snprintf(buf, size, "%.8f", value)` in a buffer that is large enough. -/
def renderFixed : Binary64 → Bytes
  | .nan negative => signText negative ++ text "nan"
  | .infinity negative => signText negative ++ text "inf"
  | .finite negative magnitude => signText negative ++ fixedPoint (roundedUnits magnitude)

/-- The part of `format_double` after `snprintf`. -/
def trimText (s : Bytes) : Bytes :=
  match findChar 46 s with
  | none => s
  | some dot =>
      match findLastNotOf 48 s with
      | none => s
      | some last =>
          if dot < last then s.take (last + 1)
          else if last = dot then s.take dot
          else s

/-- `format_double`; the buffer has 32 bytes. -/
def formatDouble (value : Binary64) : Bytes :=
  trimText ((renderFixed value).take 31)

section Trimming

theorem findChar_append
    {c : UInt8} {front rest : Bytes}
    (h : c ∉ front) :
    findChar c (front ++ c :: rest) = some front.length := by
  induction front with
  | nil =>
      simp [findChar]
  | cons b front ih =>
      rw [List.mem_cons, not_or] at h
      rw [List.cons_append, findChar, if_neg (Ne.symm h.1), ih h.2]
      rfl

theorem findChar_eq_none
    {c : UInt8} {s : Bytes}
    (h : c ∉ s) :
    findChar c s = none := by
  induction s with
  | nil =>
      rfl
  | cons b rest ih =>
      rw [List.mem_cons, not_or] at h
      rw [findChar, if_neg (Ne.symm h.1), ih h.2]
      rfl

/-- The last character that is not a zero ends the trimmed text. -/
theorem findLastNotOf_eq
    (s : Bytes) :
    findLastNotOf 48 s =
      if trimZeros s = [] then none else some ((trimZeros s).length - 1) := by
  induction s with
  | nil =>
      rfl
  | cons b rest ih =>
      rw [findLastNotOf, ih, trimZeros]
      by_cases hrest : trimZeros rest = []
      · by_cases hb : b = 48 <;> simp [hrest, hb]
      · have hpos : 0 < (trimZeros rest).length := List.length_pos_iff.mpr hrest
        simp only [hrest, false_and, if_false, reduceCtorEq, List.length_cons]
        congr 1
        omega

theorem trimZeros_isPrefix
    (s : Bytes) :
    trimZeros s <+: s := by
  induction s with
  | nil =>
      exact List.prefix_refl _
  | cons b rest ih =>
      rw [trimZeros]
      split_ifs
      · exact List.nil_prefix
      · exact List.cons_prefix_cons.mpr ⟨rfl, ih⟩

/-- What is cut off are zeros. -/
theorem trimZeros_append_replicate
    (s : Bytes) :
    s = trimZeros s ++ List.replicate (s.length - (trimZeros s).length) 48 := by
  induction s with
  | nil =>
      rfl
  | cons b rest ih =>
      rw [trimZeros]
      split_ifs with h
      · rw [h.1, List.nil_append, List.length_nil, Nat.sub_zero] at ih
        rw [h.2, List.nil_append, List.length_cons, List.length_nil, Nat.sub_zero,
          List.replicate_succ, ← ih]
      · rw [List.cons_append, List.length_cons, List.length_cons, Nat.add_sub_add_right, ← ih]

theorem getLast?_trimZeros
    {s : Bytes} {b : UInt8}
    (h : (trimZeros s).getLast? = some b) :
    b ≠ 48 := by
  induction s with
  | nil =>
      cases h
  | cons c rest ih =>
      rw [trimZeros] at h
      split_ifs at h with hcut
      · cases h
      · by_cases hrest : trimZeros rest = []
        · rw [hrest, List.getLast?_singleton, Option.some.injEq] at h
          rw [← h]
          exact fun hc => hcut ⟨hrest, hc⟩
        · rw [List.getLast?_cons_of_ne_nil hrest] at h
          exact ih h

/-- A character that is not a zero stays, with what is before it. -/
theorem trimZeros_append
    (front : Bytes)
    {c : UInt8}
    (hc : c ≠ 48)
    (rest : Bytes) :
    trimZeros (front ++ c :: rest) = front ++ c :: trimZeros rest := by
  induction front with
  | nil =>
      simp [trimZeros, hc]
  | cons b front ih =>
      rw [List.cons_append, trimZeros, ih]
      simp

/-- The three outcomes: the text is cut after its last digit that is not a zero, or at the point. -/
theorem trimText_point
    {front fraction : Bytes}
    (h : 46 ∉ front) :
    trimText (front ++ 46 :: fraction) =
      front ++ if trimZeros fraction = [] then [] else 46 :: trimZeros fraction := by
  have htrim := trimZeros_append front (c := 46) (by decide) fraction
  have hne : trimZeros (front ++ 46 :: fraction) ≠ [] := by
    rw [htrim]
    simp
  have hlast : findLastNotOf 48 (front ++ 46 :: fraction) =
      some (front.length + (trimZeros fraction).length) := by
    rw [findLastNotOf_eq, if_neg hne, htrim, List.length_append, List.length_cons]
    rfl
  simp only [trimText, findChar_append h, hlast]
  by_cases hfraction : trimZeros fraction = []
  · rw [if_pos hfraction, hfraction, List.length_nil, Nat.add_zero, if_neg (Nat.lt_irrefl _),
      if_pos rfl, List.take_left', List.append_nil]
    rfl
  · have hpos : 0 < (trimZeros fraction).length := List.length_pos_iff.mpr hfraction
    have htake := List.prefix_iff_eq_take.mp (trimZeros_isPrefix (front ++ 46 :: fraction))
    rw [if_neg hfraction, if_pos (by omega), ← htrim, htake, htrim, List.length_append,
      List.length_cons]
    rfl

/-- A text up to its point. -/
theorem takeWhile_front
    {front tail : Bytes}
    (hfront : 46 ∉ front)
    (htail : ∀ b, tail.head? = some b → b = 46) :
    (front ++ tail).takeWhile (· ≠ 46) = front := by
  have hpoint : ∀ b ∈ front, decide (b ≠ 46) = true := by
    intro b hb
    rw [decide_eq_true_iff]
    rintro rfl
    exact hfront hb
  rw [List.takeWhile_append_of_pos hpoint]
  cases tail with
  | nil => simp
  | cons b rest => simp [htail b rfl]

theorem trimText_of_not_mem
    {s : Bytes}
    (h : 46 ∉ s) :
    trimText s = s := by
  rw [trimText, findChar_eq_none h]

end Trimming

section Digits

/-- The trimmed text of `n / 10 ^ 8`. -/
def trimmedPoint (n : Nat) : Bytes :=
  decimal (n / 10 ^ 8) ++
    if trimZeros (padded 8 (n % 10 ^ 8)) = [] then []
    else 46 :: trimZeros (padded 8 (n % 10 ^ 8))

theorem length_padded_mod
    (n : Nat) :
    (padded 8 (n % 10 ^ 8)).length = 8 :=
  length_padded (by norm_num) (Nat.mod_lt n (by norm_num))

theorem isDigit_of_mem_trimZeros
    {n : Nat} {b : UInt8}
    (h : b ∈ trimZeros (padded 8 (n % 10 ^ 8))) :
    isDigit b = true :=
  isDigit_of_mem_padded ((trimZeros_isPrefix _).subset h)

/-- The zeros that are cut off do not change the fraction. -/
theorem digitsValue_trimZeros
    (n : Nat) :
    (digitsValue (trimZeros (padded 8 (n % 10 ^ 8))) : ℚ) /
        10 ^ (trimZeros (padded 8 (n % 10 ^ 8))).length =
      (n % 10 ^ 8 : Nat) / 10 ^ 8 := by
  set ds := trimZeros (padded 8 (n % 10 ^ 8)) with hds
  have hlength : ds.length ≤ 8 := by
    have hle := (trimZeros_isPrefix (padded 8 (n % 10 ^ 8))).length_le
    rwa [length_padded_mod] at hle
  have hvalue : n % 10 ^ 8 = digitsValue ds * 10 ^ (8 - ds.length) := by
    have hsplit := congrArg digitsValue (trimZeros_append_replicate (padded 8 (n % 10 ^ 8)))
    rw [digitsValue_padded, digitsValue_append, digitsValue_replicate, length_padded_mod,
      List.length_replicate, Nat.add_zero] at hsplit
    exact hsplit
  have hpow : (10 : ℚ) ^ 8 = 10 ^ ds.length * 10 ^ (8 - ds.length) := by
    rw [← pow_add]
    congr 1
    omega
  rw [hvalue, hpow]
  push_cast
  field_simp

/-- The trimmed text denotes the same decimal. -/
theorem scanDecimal_trimmedPoint
    (n : Nat) :
    scanDecimal (trimmedPoint n) = some (n / 10 ^ 8 : ℚ) := by
  have hdigits : ∀ b ∈ decimal (n / 10 ^ 8), isDigit b = true :=
    fun b hb => isDigit_of_mem_decimal hb
  have hvalue := digitsValue_trimZeros n
  have hsplit : (n : ℚ) = (n / 10 ^ 8 : Nat) * 10 ^ 8 + (n % 10 ^ 8 : Nat) := by
    exact_mod_cast (Nat.div_add_mod' n (10 ^ 8)).symm
  rw [trimmedPoint]
  split_ifs with hempty
  · rw [List.append_nil, scanDecimal_digits (decimal_ne_nil _) hdigits, digitsValue_decimal,
      Option.some.injEq, hsplit]
    rw [hempty] at hvalue
    have hzero : ((n % 10 ^ 8 : Nat) : ℚ) / 10 ^ 8 = 0 := by
      rw [← hvalue]
      simp [digitsValue]
    rw [add_div, hzero, add_zero, mul_div_cancel_right₀ _ (by norm_num)]
  · rw [scanDecimal_point (decimal_ne_nil _) hdigits (fun b hb => isDigit_of_mem_trimZeros hb),
      digitsValue_decimal, Option.some.injEq, hvalue, hsplit, add_div,
      mul_div_cancel_right₀ _ (by norm_num)]

theorem head?_trimmedPoint
    (n : Nat) :
    ∃ b, (trimmedPoint n).head? = some b ∧ isDigit b = true := by
  obtain ⟨b, rest, heq⟩ := List.exists_cons_of_ne_nil (decimal_ne_nil (n / 10 ^ 8))
  refine ⟨b, ?_, isDigit_of_mem_decimal (n := n / 10 ^ 8) (by rw [heq]; simp)⟩
  rw [trimmedPoint, heq]
  rfl

theorem point_notMem_front
    (negative : Bool)
    (n : Nat) :
    46 ∉ signText negative ++ decimal n := by
  intro h
  rcases List.mem_append.mp h with hsign | hdigit
  · cases negative <;> simp [signText] at hsign
  · exact absurd (isDigit_of_mem_decimal hdigit) (by decide)

/-- `format_double` of a finite number. -/
theorem formatDouble_finite
    {negative : Bool} {magnitude : Magnitude}
    (hfits : (renderFixed (.finite negative magnitude)).length ≤ 31) :
    formatDouble (.finite negative magnitude) =
      signText negative ++ trimmedPoint (roundedUnits magnitude) := by
  rw [formatDouble, List.take_of_length_le hfits, renderFixed, fixedPoint, trimmedPoint,
    ← List.append_assoc, trimText_point (point_notMem_front negative _), List.append_assoc]

theorem stod_formatDouble
    {negative : Bool} {magnitude : Magnitude}
    (hfits : (renderFixed (.finite negative magnitude)).length ≤ 31) :
    stod (formatDouble (.finite negative magnitude)) = some (roundedValue negative magnitude) := by
  rw [formatDouble_finite hfits, stod_signText negative (head?_trimmedPoint _),
    scanDecimal_trimmedPoint]
  rfl

/-- The digits before the point are kept. -/
theorem takeWhile_formatDouble
    {negative : Bool} {magnitude : Magnitude}
    (hfits : (renderFixed (.finite negative magnitude)).length ≤ 31) :
    (formatDouble (.finite negative magnitude)).takeWhile (· ≠ 46) =
      (renderFixed (.finite negative magnitude)).takeWhile (· ≠ 46) := by
  have hfront := point_notMem_front negative (roundedUnits magnitude / 10 ^ 8)
  rw [formatDouble_finite hfits, trimmedPoint, renderFixed, fixedPoint, ← List.append_assoc,
    ← List.append_assoc, takeWhile_front hfront, takeWhile_front hfront]
  · intro b hb
    cases hb
    rfl
  · intro b hb
    split_ifs at hb
    · cases hb
    · cases hb
      rfl

/-- A point is followed by a digit that is not a zero at the end. -/
theorem getLast?_formatDouble
    {negative : Bool} {magnitude : Magnitude}
    (hfits : (renderFixed (.finite negative magnitude)).length ≤ 31)
    (hpoint : 46 ∈ formatDouble (.finite negative magnitude)) :
    ∃ b, (formatDouble (.finite negative magnitude)).getLast? = some b ∧ b ≠ 48 ∧ b ≠ 46 := by
  set n := roundedUnits magnitude with hn
  rw [formatDouble_finite hfits, trimmedPoint, ← List.append_assoc] at hpoint ⊢
  split_ifs at hpoint ⊢ with hempty
  · rw [List.append_nil] at hpoint
    exact absurd hpoint (point_notMem_front negative _)
  · obtain ⟨b, hb⟩ := Option.isSome_iff_exists.mp (List.getLast?_isSome.mpr hempty)
    refine ⟨b, ?_, getLast?_trimZeros hb, ?_⟩
    · rw [List.getLast?_append, List.getLast?_cons_of_ne_nil hempty, hb]
      rfl
    · rintro rfl
      exact absurd (isDigit_of_mem_trimZeros (List.mem_of_getLast? hb)) (by decide)

end Digits

section Injectivity

/-- A rendering can be read back from its trimmed text. -/
theorem trimText_point_inj
    {front front' fraction fraction' : Bytes}
    (hfront : 46 ∉ front)
    (hfront' : 46 ∉ front')
    (hlength : fraction.length = fraction'.length)
    (h : trimText (front ++ 46 :: fraction) = trimText (front' ++ 46 :: fraction')) :
    front ++ 46 :: fraction = front' ++ 46 :: fraction' := by
  have htail : ∀ fraction : Bytes, ∀ b,
      (if trimZeros fraction = [] then [] else 46 :: trimZeros fraction).head? = some b →
        b = 46 := by
    intro fraction b hb
    split_ifs at hb
    · cases hb
    · cases hb
      rfl
  rw [trimText_point hfront, trimText_point hfront'] at h
  have hsame : front = front' := by
    rw [← takeWhile_front hfront (htail fraction), h, takeWhile_front hfront' (htail fraction')]
  subst hsame
  have htails := List.append_cancel_left h
  have htrim : trimZeros fraction = trimZeros fraction' := by
    split_ifs at htails with hempty hempty' hempty'
    · rw [hempty, hempty']
    · exact (List.cons.inj htails).2
  rw [trimZeros_append_replicate fraction, trimZeros_append_replicate fraction', htrim, hlength]

/-- The text of a number has a point and eight digits; the others have a letter and no point. -/
theorem renderFixed_cases
    (v : Binary64) :
    (∃ front fraction, renderFixed v = front ++ 46 :: fraction ∧ 46 ∉ front ∧
        fraction.length = 8 ∧ ∀ b ∈ front ++ fraction, b ≠ 110) ∨
      (46 ∉ renderFixed v ∧ 110 ∈ renderFixed v) := by
  cases v with
  | nan negative =>
      refine .inr ?_
      cases negative <;> decide +kernel
  | infinity negative =>
      refine .inr ?_
      cases negative <;> decide +kernel
  | finite negative magnitude =>
      refine .inl ⟨signText negative ++ decimal (roundedUnits magnitude / 10 ^ 8),
        padded 8 (roundedUnits magnitude % 10 ^ 8), ?_, point_notMem_front negative _,
        length_padded_mod _, ?_⟩
      · rw [renderFixed, fixedPoint, List.append_assoc]
      · rintro b hb rfl
        rw [List.append_assoc, List.mem_append, List.mem_append] at hb
        rcases hb with hsign | hwhole | hfraction
        · cases negative <;> simp [signText] at hsign
        · exact absurd (isDigit_of_mem_decimal hwhole) (by decide)
        · exact absurd (isDigit_of_mem_padded hfraction) (by decide)

theorem trimText_letter
    {front fraction : Bytes}
    (hfront : 46 ∉ front)
    (hletter : ∀ b ∈ front ++ fraction, b ≠ 110) :
    110 ∉ trimText (front ++ 46 :: fraction) := by
  rw [trimText_point hfront]
  intro h
  rcases List.mem_append.mp h with hmem | hmem
  · exact hletter 110 (List.mem_append_left _ hmem) rfl
  · split_ifs at hmem
    · cases hmem
    · rcases List.mem_cons.mp hmem with heq | hmem
      · exact absurd heq (by decide)
      · exact hletter 110 (List.mem_append_right _ ((trimZeros_isPrefix _).subset hmem)) rfl

/-- Two values get the same text exactly if they are rendered alike. -/
theorem formatDouble_eq_iff
    {v w : Binary64}
    (hv : (renderFixed v).length ≤ 31)
    (hw : (renderFixed w).length ≤ 31) :
    formatDouble v = formatDouble w ↔ renderFixed v = renderFixed w := by
  rw [formatDouble, formatDouble, List.take_of_length_le hv, List.take_of_length_le hw]
  refine ⟨fun h => ?_, fun h => by rw [h]⟩
  rcases renderFixed_cases v with
    ⟨front, fraction, hrender, hfront, hlength, hletter⟩ | ⟨hpoint, hletter⟩ <;>
    rcases renderFixed_cases w with
      ⟨front', fraction', hrender', hfront', hlength', hletter'⟩ | ⟨hpoint', hletter'⟩
  · rw [hrender, hrender'] at h ⊢
    exact trimText_point_inj hfront hfront' (hlength.trans hlength'.symm) h
  · rw [hrender, trimText_of_not_mem hpoint'] at h
    exact absurd (h ▸ hletter') (trimText_letter hfront hletter)
  · rw [hrender', trimText_of_not_mem hpoint] at h
    exact absurd (h ▸ hletter) (trimText_letter hfront' hletter')
  · rwa [trimText_of_not_mem hpoint, trimText_of_not_mem hpoint'] at h

end Injectivity

section Recovery

theorem isDigit_or_point
    {n : Nat} {b : UInt8}
    (h : b ∈ trimmedPoint n) :
    isDigit b = true ∨ b = 46 := by
  rcases List.mem_append.mp h with hwhole | htail
  · exact .inl (isDigit_of_mem_decimal hwhole)
  · split_ifs at htail
    · cases htail
    · rcases List.mem_cons.mp htail with hpoint | hfraction
      · exact .inr hpoint
      · exact .inl (isDigit_of_mem_trimZeros hfraction)

/-- A decimal whose rendering fits is in the range of the numbers. -/
theorem readable_of_fits
    {negative : Bool} {magnitude : Magnitude}
    (hfits : (renderFixed (.finite negative magnitude)).length ≤ 31) :
    readable (roundedUnits magnitude / 10 ^ 8) = true := by
  have hwhole : roundedUnits magnitude / 10 ^ 8 < 10 ^ 31 := by
    refine lt_of_length_decimal_le ?_
    rw [renderFixed, fixedPoint, List.length_append, List.length_append] at hfits
    omega
  generalize roundedUnits magnitude = n at hwhole ⊢
  rcases Nat.eq_zero_or_pos n with hzero | hpos
  · rw [hzero, Nat.cast_zero, zero_div]
    exact readable_zero
  have hn31 : n < 10 ^ 39 := by omega
  have hone : (1 : ℚ) ≤ n := by exact_mod_cast hpos
  have hupper : (n : ℚ) < 10 ^ 39 := by exact_mod_cast hn31
  refine readable_of_le (k := 104) ?_ (by norm_num) (by norm_num) ?_
  · calc (2 : ℚ) ^ (-1022 : Int) ≤ 2 ^ (-27 : Int) := zpow_le_zpow_right₀ (by norm_num) (by norm_num)
      _ ≤ 1 / 10 ^ 8 := by norm_num
      _ ≤ n / 10 ^ 8 := by gcongr
  · rw [div_le_iff₀ (by norm_num)]
    calc (n : ℚ) ≤ 10 ^ 39 := hupper.le
      _ ≤ 2 ^ (104 : Int) * 10 ^ 8 := by norm_num

/-- The text is read as the number nearest to the decimal. -/
theorem binary64_stod_formatDouble
    {negative : Bool} {magnitude : Magnitude}
    (hfits : (renderFixed (.finite negative magnitude)).length ≤ 31) :
    Binary64.stod (formatDouble (.finite negative magnitude)) =
      some (.ofRat negative (roundedUnits magnitude / 10 ^ 8)) := by
  rw [formatDouble_finite hfits]
  exact Binary64.stod_signText negative (head?_trimmedPoint _) (fun b hb => isDigit_or_point hb)
    (scanDecimal_trimmedPoint _) (readable_of_fits hfits)

/-- A number that is a whole number of units is rendered as it is. -/
theorem roundBits_of_whole
    {r : ℚ} {n : Nat}
    (hr : Representable r)
    (h : r * 10 ^ 8 = n) :
    roundBits ((roundHalfEven (r * 10 ^ 8) : ℚ) / 10 ^ 8) = r := by
  rw [h, roundHalfEven_natCast, ← h, mul_div_cancel_right₀ _ (by norm_num),
    roundBits_of_representable hr]

/--
Rounding `k / 10 ^ 8` to a number, the number to eight decimals, and these to a
number again gives the first number.  Where the numbers are close to each other, the
decimals are those of `k`; where they are far apart, the decimals are closer to the
number than to any other.
-/
theorem roundBits_roundedUnits
    (k : Nat)
    (hfinite : roundBits (k / 10 ^ 8) < 2 ^ (1024 : Int)) :
    roundBits ((roundHalfEven (roundBits (k / 10 ^ 8) * 10 ^ 8) : ℚ) / 10 ^ 8) =
      roundBits (k / 10 ^ 8) := by
  set q : ℚ := k / 10 ^ 8 with hq
  have hqpos : 0 ≤ q := div_nonneg (Nat.cast_nonneg k) (by norm_num)
  have hrep := representable_roundBits hqpos hfinite
  by_cases hwhole : ∃ n : Nat, roundBits q * 10 ^ 8 = n
  · obtain ⟨n, hn⟩ := hwhole
    exact roundBits_of_whole hrep hn
  rcases le_or_gt (lastBit q) (-27) with hfine | hcoarse
  · -- the number is less than half a decimal unit away from `k / 10 ^ 8`
    have herror := abs_roundBits_sub_le hqpos
    have hunit : (2 : ℚ) ^ lastBit q ≤ 2 ^ (-27 : Int) := zpow_le_zpow_right₀ (by norm_num) hfine
    have hhalf : |roundBits q - q| ≤ 2 ^ (-27 : Int) / 2 := herror.trans (by gcongr)
    have hnear : |roundBits q * 10 ^ 8 - k| < 1 / 2 := by
      have heq : roundBits q * 10 ^ 8 - k = (roundBits q - q) * 10 ^ 8 := by
        rw [hq]
        ring
      rw [heq, abs_mul, abs_of_pos (by norm_num : (0 : ℚ) < 10 ^ 8)]
      calc |roundBits q - q| * 10 ^ 8 ≤ 2 ^ (-27 : Int) / 2 * 10 ^ 8 := by
            gcongr
        _ < 1 / 2 := by norm_num
    have hunits := roundHalfEven_eq_of_abs_lt
      (mul_nonneg (roundBits_nonneg q) (by norm_num)) hnear
    rw [hunits, ← hq]
  · -- the decimals are less than half a unit of the number away from it
    have hq0 : 0 < q := by
      refine hqpos.lt_of_ne ?_
      intro hzero
      refine hwhole ⟨0, ?_⟩
      rw [← hzero, roundBits_zero, zero_mul, Nat.cast_zero]
    have hbit : lastBit q = Int.log 2 q - 52 := by
      rw [lastBit] at hcoarse ⊢
      omega
    have hbits : roundBits q = roundHalfEven (q / 2 ^ lastBit q) * 2 ^ lastBit q := rfl
    have hlower : 2 ^ 52 ≤ roundHalfEven (q / 2 ^ lastBit q) := by
      refine le_roundHalfEven ?_
      push_cast
      exact le_div_lastBit hq0 hbit
    have hupper := significand_le q
    -- a power of two of this size is a whole number
    have hpower : ∀ j : Nat, 26 ≤ j → roundHalfEven (q / 2 ^ lastBit q) ≠ 2 ^ j := by
      intro j hj heq
      refine hwhole ⟨2 ^ (j + lastBit q).toNat * 10 ^ 8, ?_⟩
      rw [hbits, heq, Nat.cast_pow, Nat.cast_ofNat, two_pow_mul_zpow, Nat.cast_mul, Nat.cast_pow,
        Nat.cast_pow, Nat.cast_ofNat, Nat.cast_ofNat, ← zpow_natCast (2 : ℚ) (Int.toNat _),
        Int.toNat_of_nonneg (by omega)]
    have hunits := abs_roundHalfEven_sub_le
      (mul_nonneg (roundBits_nonneg q) (by norm_num : (0 : ℚ) ≤ 10 ^ 8))
    have hunit : (2 : ℚ) ^ (-26 : Int) ≤ 2 ^ lastBit q :=
      zpow_le_zpow_right₀ (by norm_num) (by omega)
    generalize roundHalfEven (roundBits q * 10 ^ 8) = n at hunits ⊢
    rw [hbits]
    refine roundBits_eq_of_abs_lt (hlower.lt_of_ne (hpower 52 (by norm_num)).symm)
      (hupper.lt_of_ne (hpower 53 (by norm_num))) (by omega) ?_
    rw [← hbits]
    have heq : (n : ℚ) / 10 ^ 8 - roundBits q = (n - roundBits q * 10 ^ 8) / 10 ^ 8 := by
      rw [sub_div, mul_div_cancel_right₀ _ (by norm_num)]
    rw [heq, abs_div, abs_of_pos (by norm_num : (0 : ℚ) < 10 ^ 8)]
    calc |(n : ℚ) - roundBits q * 10 ^ 8| / 10 ^ 8 ≤ 1 / 2 / 10 ^ 8 := by gcongr
      _ < 2 ^ (-26 : Int) / 2 := by norm_num
      _ ≤ 2 ^ lastBit q / 2 := by gcongr

/-- The number nearest to a multiple of `10 ^ -8` is recovered from its text. -/
theorem stod_formatDouble_ofRat
    (negative : Bool)
    (k : Nat)
    (hfits : (renderFixed (.ofRat negative (k / 10 ^ 8))).length ≤ 31) :
    Binary64.stod (formatDouble (.ofRat negative (k / 10 ^ 8))) =
      some (.ofRat negative (k / 10 ^ 8)) := by
  have habs : |(k / 10 ^ 8 : ℚ)| = (k / 10 ^ 8 : ℚ) :=
    abs_of_nonneg (div_nonneg (Nat.cast_nonneg k) (by norm_num))
  by_cases hfinite : roundBits |(k : ℚ) / 10 ^ 8| < 2 ^ (1024 : Int)
  · have hv : Binary64.ofRat negative (k / 10 ^ 8) = .finite negative
        ⟨roundBits |(k : ℚ) / 10 ^ 8|, representable_roundBits (abs_nonneg _) hfinite⟩ :=
      dif_pos hfinite
    rw [hv] at hfits
    conv_lhs => rw [hv]
    rw [binary64_stod_formatDouble hfits, Option.some.injEq]
    have hsame := roundBits_roundedUnits k (habs ▸ hfinite)
    refine Binary64.ofRat_congr negative ?_
    rw [abs_of_nonneg (div_nonneg (Nat.cast_nonneg _) (by norm_num)), roundedUnits]
    simp only [habs]
    exact hsame
  · have hv : Binary64.ofRat negative (k / 10 ^ 8) = .infinity negative := dif_neg hfinite
    rw [hv]
    cases negative <;> rfl

end Recovery

/-- `format_double` of a value whose rendering fits. -/
structure FormatsExactly (v : Binary64) : Prop where
  /-- The text denotes the decimal that `%.8f` rounds the value to. -/
  denotes : ∀ negative magnitude, v = .finite negative magnitude →
    stod (formatDouble v) = some (roundedValue negative magnitude)
  /-- No zero ends a text with a point, and no point does. -/
  trimmed : 46 ∈ formatDouble v → ∃ b, (formatDouble v).getLast? = some b ∧ b ≠ 48 ∧ b ≠ 46
  integerPart : (formatDouble v).takeWhile (· ≠ 46) = (renderFixed v).takeWhile (· ≠ 46)
  /-- A multiple of `10 ^ -8` is denoted exactly. -/
  exact : ∀ negative magnitude (k : Nat), v = .finite negative magnitude →
    magnitude.val = k / 10 ^ 8 → stod (formatDouble v) = v.value
  /-- The number nearest to a multiple of `10 ^ -8` is read back. -/
  recovered : ∀ negative (k : Nat), v = .ofRat negative (k / 10 ^ 8) →
    Binary64.stod (formatDouble v) = some v

theorem roundedValue_of_multiple
    (negative : Bool)
    {magnitude : Magnitude} {k : Nat}
    (hk : magnitude.val = k / 10 ^ 8) :
    some (roundedValue negative magnitude) = (Binary64.finite negative magnitude).value := by
  have hunits : roundedUnits magnitude = k := by
    rw [roundedUnits, hk, div_mul_cancel₀ _ (by norm_num), roundHalfEven_natCast]
  rw [roundedValue, hunits, ← hk]
  rfl

theorem formatsExactly
    (v : Binary64)
    (hfits : (renderFixed v).length ≤ 31) :
    FormatsExactly v := by
  refine ⟨?_, ?_, ?_, ?_, ?_⟩
  · rintro negative magnitude rfl
    exact stod_formatDouble hfits
  · intro hpoint
    cases v with
    | nan negative | infinity negative =>
        cases negative <;> exact absurd hpoint (by decide +kernel)
    | finite negative magnitude =>
        exact getLast?_formatDouble hfits hpoint
  · cases v with
    | nan negative | infinity negative =>
        cases negative <;> decide +kernel
    | finite negative magnitude =>
        exact takeWhile_formatDouble hfits
  · rintro negative magnitude k rfl hk
    rw [stod_formatDouble hfits, roundedValue_of_multiple negative hk]
  · rintro negative k rfl
    exact stod_formatDouble_ofRat negative k hfits

/--
The texts of values whose renderings fit denote the rounded decimals, without zeros or
a point at the end, and two of them are equal exactly if the renderings are.
-/
theorem format_double_lossless :
    (∀ v, (renderFixed v).length ≤ 31 → FormatsExactly v) ∧
      ∀ v w, (renderFixed v).length ≤ 31 → (renderFixed w).length ≤ 31 →
        (formatDouble v = formatDouble w ↔ renderFixed v = renderFixed w) :=
  ⟨formatsExactly, fun _ _ hv hw => formatDouble_eq_iff hv hw⟩

/-- A tenth, and a hundred, whose zeros are before the point. -/
theorem format_double_lossless_tenth :
    formatDouble (.ofRat false (10000000 / 10 ^ 8)) = text "0.1" ∧
      formatDouble (.ofRat false 100) = text "100" ∧
      Binary64.stod (text "0.1") = some (.ofRat false (10000000 / 10 ^ 8)) ∧
      (formatDouble (.ofRat false (10000000 / 10 ^ 8)) = formatDouble (.ofRat false 100) ↔
        renderFixed (.ofRat false (10000000 / 10 ^ 8)) = renderFixed (.ofRat false 100)) := by
  obtain ⟨hexact, hsame⟩ := format_double_lossless
  have htenth : formatDouble (.ofRat false (10000000 / 10 ^ 8)) = text "0.1" := by
    decide +kernel
  have hfits : (renderFixed (.ofRat false (10000000 / 10 ^ 8))).length ≤ 31 := by
    decide +kernel
  refine ⟨htenth, by decide +kernel, ?_, hsame _ _ hfits (by decide +kernel)⟩
  rw [← htenth]
  exact (hexact _ hfits).recovered false 10000000 (by norm_num)

end Exchange
end CryptoHft
