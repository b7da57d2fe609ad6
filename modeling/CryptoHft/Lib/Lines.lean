import CryptoHft.Lib.CString

/-!
# Line framing

A text file is cut into lines as `std::getline` does it, with the byte 10 as the
separator: a last line without a separator counts as a line, an empty rest does
not.  `framed` writes records one per line.

Records without a separator come back as they were written (`splitLines_framed`),
and a prefix of a framed file consists of some of its records, in whole lines,
and a beginning of the next record (`exists_of_isPrefix_framed`).  `Inserted` is
the relation between the lines of a file before and after an insertion of lines.

A stream reaches its reader in pieces (`Arrives`).  A reader that waits for the
separator has read all of a line that ends with it, and nothing more, however the
line was cut (`eq_nil_of_separator`).
-/

namespace CryptoHft
namespace Lib

/-- The lines of a text, with the current line so far. -/
def splitLines : Bytes → Bytes → List Bytes
  | current, [] => if current.isEmpty then [] else [current]
  | current, b :: rest =>
      if b = 10 then current :: splitLines [] rest else splitLines (current ++ [b]) rest

/-- Records, one per line. -/
def framed (records : List Bytes) : Bytes :=
  records.flatMap (fun r => r ++ [10])

@[simp] theorem framed_nil : framed [] = [] := by
  rfl

@[simp] theorem framed_cons (r : Bytes) (records : List Bytes) :
    framed (r :: records) = r ++ 10 :: framed records := by
  simp [framed]

@[simp] theorem framed_append (records records' : List Bytes) :
    framed (records ++ records') = framed records ++ framed records' := by
  simp [framed]

/-- Bytes other than the separator only extend the current line. -/
theorem splitLines_append
    {r : Bytes}
    (hr : 10 ∉ r)
    (current rest : Bytes) :
    splitLines current (r ++ rest) = splitLines (current ++ r) rest := by
  induction r generalizing current with
  | nil =>
      simp
  | cons b r ih =>
      have hb : b ≠ 10 := by
        rintro rfl
        exact hr (by simp)
      have hr' : 10 ∉ r := fun hmem => hr (by simp [hmem])
      simp only [List.cons_append, splitLines, if_neg hb, ih hr', List.append_assoc,
        List.nil_append]

theorem splitLines_cons_line
    {r : Bytes}
    (hr : 10 ∉ r)
    (rest : Bytes) :
    splitLines [] (r ++ 10 :: rest) = r :: splitLines [] rest := by
  rw [splitLines_append hr]
  simp [splitLines]

/-- The lines of framed records, and of what follows them. -/
theorem splitLines_framed
    {records : List Bytes}
    (h : ∀ r ∈ records, 10 ∉ r)
    (rest : Bytes) :
    splitLines [] (framed records ++ rest) = records ++ splitLines [] rest := by
  induction records with
  | nil =>
      simp
  | cons r records ih =>
      have ih' := ih (fun q hq => h q (by simp [hq]))
      rw [framed_cons, List.append_assoc, List.cons_append,
        splitLines_cons_line (h r (by simp)), ih', List.cons_append]

/-- A text without a separator is one line. -/
theorem splitLines_of_not_mem
    {r : Bytes}
    (hr : 10 ∉ r)
    (hne : r ≠ []) :
    splitLines [] r = [r] := by
  have h := splitLines_append hr [] []
  simpa [splitLines, hne] using h

/-- A line has no separator in it. -/
theorem not_mem_of_mem_splitLines
    {current text r : Bytes}
    (hcurrent : 10 ∉ current)
    (hr : r ∈ splitLines current text) :
    10 ∉ r := by
  induction text generalizing current with
  | nil =>
      simp only [splitLines] at hr
      split_ifs at hr
      · cases hr
      · rw [List.mem_singleton.mp hr]
        exact hcurrent
  | cons b rest ih =>
      simp only [splitLines] at hr
      split_ifs at hr with hb
      · rcases List.mem_cons.mp hr with rfl | hr
        · exact hcurrent
        · exact ih (by simp) hr
      · exact ih (by simp [hcurrent, Ne.symm hb]) hr

/-- Lines with extra lines inserted anywhere between them. -/
inductive Inserted : List Bytes → List Bytes → List Bytes → Prop
  | nil : Inserted [] [] []
  | keep (r : Bytes) {records extra altered : List Bytes}
      (h : Inserted records extra altered) :
      Inserted (r :: records) extra (r :: altered)
  | insert (x : Bytes) {records extra altered : List Bytes}
      (h : Inserted records extra altered) :
      Inserted records (x :: extra) (x :: altered)

theorem Inserted.mem_iff
    {records extra altered : List Bytes}
    (h : Inserted records extra altered)
    (r : Bytes) :
    r ∈ altered ↔ r ∈ records ∨ r ∈ extra := by
  induction h with
  | nil =>
      simp
  | keep q h ih =>
      simp [ih, or_assoc]
  | insert x h ih =>
      simp [ih, or_left_comm]

/-- A prefix of a framed file: whole lines, and a beginning of the next record. -/
theorem exists_of_isPrefix_framed
    {records : List Bytes} {p : Bytes}
    (h : p <+: framed records) :
    ∃ whole rest torn, records = whole ++ rest ∧ p = framed whole ++ torn ∧
      (torn = [] ∨ ∃ r rest', rest = r :: rest' ∧ torn <+: r) := by
  induction records generalizing p with
  | nil =>
      exact ⟨[], [], [], rfl, by simpa using h, .inl rfl⟩
  | cons r records ih =>
      rw [framed_cons] at h
      rcases List.prefix_or_prefix_of_prefix h (List.prefix_append r _) with hp | hr
      · -- the cut is inside the first record
        exact ⟨[], r :: records, p, rfl, rfl, .inr ⟨r, records, rfl, hp⟩⟩
      · obtain ⟨q, rfl⟩ := hr
        rw [List.prefix_append_right_inj] at h
        cases q with
        | nil =>
            exact ⟨[], r :: records, r, rfl, by simp, .inr ⟨r, records, rfl, List.prefix_rfl⟩⟩
        | cons b q =>
            rw [List.cons_prefix_cons] at h
            obtain ⟨rfl, hq⟩ := h
            obtain ⟨whole, rest, torn, rfl, rfl, htorn⟩ := ih hq
            exact ⟨r :: whole, rest, torn, rfl, by simp, htorn⟩

/-- A stream as it arrives: in non-empty pieces of at most `size` bytes. -/
structure Arrives (size : Nat) (stream : Bytes) (chunks : List Bytes) : Prop where
  joined : chunks.flatten = stream
  pieces : ∀ c ∈ chunks, c ≠ [] ∧ c.length ≤ size

/-- The part before the first separator. -/
def firstLine (s : Bytes) : Bytes :=
  s.takeWhile (· ≠ 10)

theorem firstLine_append
    {r : Bytes}
    (hr : 10 ∉ r)
    (rest : Bytes) :
    firstLine (r ++ 10 :: rest) = r := by
  induction r with
  | nil =>
      simp [firstLine]
  | cons b r ih =>
      have hb : b ≠ 10 := by
        rintro rfl
        exact hr (by simp)
      have hr' : 10 ∉ r := fun hmem => hr (by simp [hmem])
      rw [firstLine, List.cons_append, List.takeWhile_cons_of_pos (by simpa using hb)]
      exact congrArg (b :: ·) (ih hr')

/-- Nothing follows the piece of a line that has the separator. -/
theorem eq_nil_of_separator
    {xs ys r : Bytes}
    (h : xs ++ ys = r ++ [10])
    (hr : 10 ∉ r)
    (hxs : 10 ∈ xs) :
    ys = [] := by
  rcases List.eq_nil_or_concat ys with rfl | ⟨front, b, rfl⟩
  · rfl
  · rw [List.concat_eq_append, ← List.append_assoc] at h
    have hfront := (List.append_inj' h rfl).1
    exact absurd (by simp [← hfront, hxs]) hr

/-- A text that stops at the end of a line. -/
def EndsLine (s : Bytes) : Prop :=
  ∀ b, s.getLast? = some b → b = 10

theorem endsLine_framed_append
    {torn : Bytes}
    (htorn : 10 ∉ torn)
    (records : List Bytes) :
    EndsLine (framed records ++ torn) ↔ torn = [] := by
  constructor
  · intro h
    by_contra hne
    have hlast : (framed records ++ torn).getLast? = some (torn.getLast hne) := by
      rw [List.getLast?_append_of_ne_nil _ hne, List.getLast?_eq_some_getLast hne]
    exact htorn (h _ hlast ▸ List.getLast_mem hne)
  · rintro rfl b hb
    rcases List.eq_nil_or_concat records with rfl | ⟨front, r, rfl⟩
    · simp at hb
    · rw [List.concat_eq_append, List.append_nil, framed_append, framed_cons, framed_nil,
        ← List.append_assoc, List.getLast?_concat, Option.some.injEq] at hb
      exact hb.symm

theorem framed_splitLines_concat
    (current text : Bytes) :
    framed (splitLines current (text ++ [10])) = current ++ text ++ [10] := by
  induction text generalizing current with
  | nil =>
      simp [splitLines]
  | cons b rest ih =>
      rw [List.cons_append, splitLines]
      split_ifs with hb
      · rw [framed_cons, ih, hb]
        simp
      · rw [ih]
        simp

/-- The lines of a text that stops at the end of a line make up the text. -/
theorem EndsLine.framed_splitLines
    {s : Bytes}
    (h : EndsLine s) :
    framed (splitLines [] s) = s := by
  rcases List.eq_nil_or_concat s with rfl | ⟨front, b, rfl⟩
  · simp [splitLines]
  · rw [List.concat_eq_append] at h ⊢
    rw [h b (by simp), framed_splitLines_concat, List.nil_append]

end Lib
end CryptoHft
