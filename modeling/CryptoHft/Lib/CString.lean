import Mathlib

/-!
# Byte strings and fixed-size character buffers

A byte string is a list of bytes; `text` is the byte string of a literal.  A
`CString n` is the content of a `char[n]` buffer read as a C string: fewer than
`n` bytes, none of them NUL.  `copyString` is the bounded copy that fills such a
buffer from an arbitrary byte string: it stops at the first NUL of the source
and after `n - 1` bytes.

`strncpy` with `n - 1` writes the last NUL only if the source is shorter than that
(`LeavesTerminator`).  Where nobody else writes it, a reader of the buffer goes on
behind the bytes that were copied: `readUnterminated`.
-/

namespace CryptoHft
namespace Lib

/-- Byte strings. -/
abbrev Bytes := List UInt8

/-- The bytes of a literal. -/
def text (s : String) : Bytes :=
  s.toUTF8.data.toList

/--
The content of a NUL-terminated buffer of `n` characters, or what `strncpy` has written to one
that nobody has terminated.
-/
structure CString (n : Nat) where
  bytes : Bytes
  length_lt : bytes.length < n
  noNul : 0 ∉ bytes
deriving DecidableEq

namespace CString

variable {n : Nat}

@[ext] theorem ext
    {s t : CString n}
    (h : s.bytes = t.bytes) :
    s = t := by
  cases s
  cases t
  cases h
  rfl

/-- The empty buffer. -/
def empty [NeZero n] : CString n :=
  ⟨[], Nat.pos_of_neZero n, by simp⟩

/-- Bounded copy of a byte string, as `strncpy` with `n - 1` and a terminator. -/
def copyString [NeZero n] (source : Bytes) : CString n where
  bytes := (source.takeWhile (· ≠ 0)).take (n - 1)
  length_lt := by
    have hn := Nat.pos_of_neZero n
    have hle := List.length_take_le (n - 1) (source.takeWhile (· ≠ 0))
    omega
  noNul := by
    intro hmem
    have hsource := List.mem_takeWhile_imp (List.mem_of_mem_take hmem)
    simp at hsource

/-- `strncpy` with `n - 1` writes a NUL behind the bytes of the source. -/
def LeavesTerminator (n : Nat) (source : Bytes) : Prop :=
  (source.takeWhile (· ≠ 0)).length < n - 1

instance (source : Bytes) : Decidable (LeavesTerminator n source) :=
  inferInstanceAs (Decidable (_ < _))

/--
What is read of a buffer to which `strncpy` has written at most `n - 1` bytes and nobody the
last one.  If the text takes all of them, it goes on with the bytes behind it, up to a NUL.
-/
def readUnterminated (s : CString n) (behind : Bytes) : Bytes :=
  if s.bytes.length < n - 1 then s.bytes else s.bytes ++ behind.takeWhile (· ≠ 0)

theorem length_copyString_lt_iff
    [NeZero n]
    {source : Bytes} :
    (copyString source : CString n).bytes.length < n - 1 ↔ LeavesTerminator n source := by
  simp only [copyString, LeavesTerminator, List.length_take]
  omega

/-- Copying the content of a buffer gives the buffer back. -/
@[simp] theorem copyString_bytes [NeZero n] (s : CString n) :
    copyString s.bytes = s := by
  have hwhile : s.bytes.takeWhile (· ≠ 0) = s.bytes := by
    rw [List.takeWhile_eq_self_iff]
    intro b hb
    have hne : b ≠ 0 := by
      rintro rfl
      exact s.noNul hb
    simpa using hne
  have hlt := s.length_lt
  ext1
  simp only [copyString, hwhile]
  exact List.take_of_length_le (by omega)

end CString

end Lib
end CryptoHft
