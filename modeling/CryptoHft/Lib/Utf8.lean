import CryptoHft.Lib.Json

/-!
# UTF-8 and bounded copies

A byte string is valid UTF-8 if it is the encoding of a sequence of characters.
Cutting a valid string leaves a valid string exactly if the first byte that is left
out starts a character (`validUtf8_take_iff`).  The bounded copy into a buffer cuts
at the first NUL, where a character always starts, and at the size of the buffer,
where it need not: `validUtf8_copyString_iff`.  A buffer without a terminator is read
as valid text, whatever lies behind it, only if the text does not fill it:
`validUtf8_readUnterminated_iff`.

`Json.strings` lists the strings of a JSON value.
-/

namespace CryptoHft
namespace Lib

def ValidUtf8 (s : Bytes) : Prop :=
  s.toByteArray.IsValidUTF8

instance (s : Bytes) : Decidable (ValidUtf8 s) :=
  inferInstanceAs (Decidable s.toByteArray.IsValidUTF8)

theorem validUtf8_nil : ValidUtf8 [] :=
  ByteArray.isValidUTF8_empty

theorem validUtf8_text (s : String) : ValidUtf8 (text s) := by
  have hbytes : (text s).toByteArray = s.toByteArray := by
    apply ByteArray.ext
    simp [text]
  rw [ValidUtf8, hbytes]
  exact s.isValidUTF8

/-- A valid string is cut into a valid one exactly in front of a character. -/
theorem validUtf8_take_iff
    {s : Bytes}
    (h : ValidUtf8 s)
    (n : Nat) :
    ValidUtf8 (s.take n) ↔ ∀ b, s[n]? = some b → b.IsUTF8FirstByte := by
  by_cases hn : n < s.length
  · -- a position of the string whose bytes these are
    have hbytes : (s.take n).toByteArray = s.toByteArray.extract 0 n := by
      apply ByteArray.ext
      simp
    have hlt : (⟨n⟩ : String.Pos.Raw) < String.rawEndPos ⟨s.toByteArray, h⟩ := by
      simpa [String.Pos.Raw.lt_iff, ← String.size_toByteArray] using hn
    have hend : (⟨n⟩ : String.Pos.Raw) ≠ String.rawEndPos ⟨s.toByteArray, h⟩ := by
      intro heq
      rw [heq, String.Pos.Raw.lt_iff] at hlt
      exact lt_irrefl _ hlt
    have hcut : (s.toByteArray.extract 0 n).IsValidUTF8 ↔
        (⟨n⟩ : String.Pos.Raw).IsValid ⟨s.toByteArray, h⟩ := by
      rw [String.Pos.Raw.isValid_iff_isValidUTF8_extract_zero]
      exact ⟨fun hvalid => ⟨String.Pos.Raw.le_of_lt hlt, hvalid⟩, And.right⟩
    have hbyte : String.getUTF8Byte ⟨s.toByteArray, h⟩ ⟨n⟩ hlt = s[n] := by
      simp [String.getUTF8Byte]
    rw [ValidUtf8, hbytes, hcut, String.Pos.Raw.isValid_iff_isUTF8FirstByte,
      List.getElem?_eq_getElem hn]
    constructor
    · rintro (heq | ⟨_, hfirst⟩) b hb
      · exact absurd heq hend
      · rw [hbyte] at hfirst
        rwa [← Option.some.inj hb]
    · intro hfirst
      refine .inr ⟨hlt, ?_⟩
      rw [hbyte]
      exact hfirst _ rfl
  · have hall : s.take n = s := List.take_of_length_le (by omega)
    have hnone : s[n]? = none := List.getElem?_eq_none (by omega)
    rw [hall, hnone]
    exact iff_of_true h (by simp)

/-- No character has a NUL among its later bytes. -/
theorem ValidUtf8.takeWhile_ne_zero
    {s : Bytes}
    (h : ValidUtf8 s) :
    ValidUtf8 (s.takeWhile (· ≠ 0)) := by
  rw [List.takeWhile_eq_take_findIdx_not, validUtf8_take_iff h]
  intro b hb
  obtain ⟨hlt, rfl⟩ := List.getElem?_eq_some_iff.mp hb
  have hzero := List.findIdx_getElem (w := hlt)
  have hzero' : s[List.findIdx (fun a => !decide (a ≠ 0)) s] = 0 := by
    simpa using hzero
  rw [hzero']
  decide

/--
A copy into a buffer of `n` bytes does not end within a character: the first byte
that is left out, before any NUL, starts one.
-/
def CutsNoCharacter (n : Nat) (s : Bytes) : Prop :=
  ∀ b, (s.takeWhile (· ≠ 0))[n - 1]? = some b → b.IsUTF8FirstByte

instance (n : Nat) (s : Bytes) : Decidable (CutsNoCharacter n s) :=
  match h : (s.takeWhile (· ≠ 0))[n - 1]? with
  | none => isTrue (by rw [CutsNoCharacter, h]; simp)
  | some b => decidable_of_iff b.IsUTF8FirstByte (by rw [CutsNoCharacter, h]; simp)

theorem validUtf8_copyString_iff
    {n : Nat} [NeZero n] {s : Bytes}
    (h : ValidUtf8 s) :
    ValidUtf8 (CString.copyString s : CString n).bytes ↔ CutsNoCharacter n s :=
  validUtf8_take_iff h.takeWhile_ne_zero (n - 1)

/-- A byte that starts no character cannot follow a valid string. -/
theorem ValidUtf8.not_concat
    {s : Bytes} {b : UInt8}
    (h : ValidUtf8 s)
    (hb : ¬ b.IsUTF8FirstByte) :
    ¬ ValidUtf8 (s ++ [b]) := by
  intro hconcat
  have hfirst := (validUtf8_take_iff hconcat s.length).mp (by rwa [List.take_left])
  exact hb (hfirst b (by simp))

/-- The byte behind an unterminated text can make it invalid. -/
theorem validUtf8_readUnterminated_iff
    {n : Nat} [NeZero n] {s : Bytes}
    (h : ValidUtf8 s) :
    (∀ behind, ValidUtf8 ((CString.copyString s : CString n).readUnterminated behind)) ↔
      CString.LeavesTerminator n s := by
  rw [← CString.length_copyString_lt_iff]
  constructor
  · intro hread
    by_contra hfull
    have hvalid := hread []
    have hinvalid := hread [0xFF]
    simp only [CString.readUnterminated, if_neg hfull, List.takeWhile_nil,
      List.append_nil] at hvalid hinvalid
    exact hvalid.not_concat (by decide) hinvalid
  · intro hlt behind
    rw [CString.readUnterminated, if_pos hlt]
    have hcopied : (CString.copyString s : CString n).bytes = s.takeWhile (· ≠ 0) :=
      List.take_of_length_le (CString.length_copyString_lt_iff.mp hlt).le
    rw [hcopied]
    exact h.takeWhile_ne_zero

namespace Json

variable {R : Type}

mutual

/-- The strings in a JSON value. -/
def strings : Json R → List Bytes
  | .null => []
  | .bool _ => []
  | .integer _ => []
  | .float _ => []
  | .string s => [s]
  | .array items => itemStrings items
  | .object fields => fieldStrings fields

def itemStrings : List (Json R) → List Bytes
  | [] => []
  | item :: rest => item.strings ++ itemStrings rest

def fieldStrings : List (String × Json R) → List Bytes
  | [] => []
  | (_, value) :: rest => value.strings ++ fieldStrings rest

end

/-- The JSON library accepts the value in `dump`, and makes no other in `parse`. -/
def ValidUtf8 (j : Json R) : Prop :=
  ∀ s ∈ j.strings, Lib.ValidUtf8 s

instance (j : Json R) : Decidable j.ValidUtf8 :=
  inferInstanceAs (Decidable (∀ s ∈ j.strings, Lib.ValidUtf8 s))

theorem strings_subset_of_lookup
    {fields : List (String × Json R)} {key : String} {value : Json R}
    (h : fields.lookup key = some value) :
    value.strings ⊆ fieldStrings fields := by
  induction fields with
  | nil =>
      simp at h
  | cons field rest ih =>
      obtain ⟨name, first⟩ := field
      rw [List.lookup_cons] at h
      split at h
      · cases h
        simp [fieldStrings]
      · exact List.Subset.trans (ih h) (by simp [fieldStrings])

theorem strings_subset_of_mem
    {items : List (Json R)} {item : Json R}
    (h : item ∈ items) :
    item.strings ⊆ itemStrings items := by
  induction items with
  | nil =>
      simp at h
  | cons first rest ih =>
      obtain rfl | h := List.mem_cons.mp h
      · simp [itemStrings]
      · exact List.Subset.trans (ih h) (by simp [itemStrings])

theorem ValidUtf8.find
    {j value : Json R} {key : String}
    (h : j.ValidUtf8)
    (hfind : j.find key = some value) :
    value.ValidUtf8 := by
  cases j with
  | object fields =>
      intro s hs
      exact h s (by rw [strings]; exact strings_subset_of_lookup hfind hs)
  | null | bool | integer | float | string | array =>
      cases hfind

theorem ValidUtf8.item
    {items : List (Json R)} {item : Json R}
    (h : (Json.array items).ValidUtf8)
    (hitem : item ∈ items) :
    item.ValidUtf8 := by
  intro s hs
  exact h s (by rw [strings]; exact strings_subset_of_mem hitem hs)

theorem ValidUtf8.getString
    {j : Json R} {s : Bytes}
    (h : j.ValidUtf8)
    (hstring : j.getString = .ok s) :
    Lib.ValidUtf8 s := by
  rw [getString_eq_ok hstring] at h
  exact h s (by simp [strings])

theorem ValidUtf8.valueString
    {j : Json R} {key : String} {default s : Bytes}
    (h : j.ValidUtf8)
    (hdefault : Lib.ValidUtf8 default)
    (hvalue : j.valueString key default = .ok s) :
    Lib.ValidUtf8 s := by
  cases j with
  | object fields =>
      cases hfind : (Json.object fields).find key with
      | none =>
          simp only [Json.find] at hfind
          simp only [Json.valueString, hfind, Except.ok.injEq] at hvalue
          rw [← hvalue]
          exact hdefault
      | some value =>
          have hvalid := h.find hfind
          simp only [Json.find] at hfind
          simp only [Json.valueString, hfind] at hvalue
          exact hvalid.getString hvalue
  | null | bool | integer | float | string | array =>
      cases hvalue

end Json

end Lib
end CryptoHft
