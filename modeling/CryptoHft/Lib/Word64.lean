import Mathlib.Data.Nat.Bitwise
import Mathlib.Tactic

/-!
# Unsigned words, signed casts and ring indices

Lock-free ring buffers keep unsigned 64-bit positions, mask them with a power
of two to find a slot, and compare them by casting to the signed type and
subtracting.  Positions are natural numbers here; `wrap` is written where the
machine operation can wrap around.

* `signedDiff_eq`: below `2 ^ 63` the difference of the signed casts is the
  difference of the positions.
* `PowTwo.index_inj_window`: inside a window of one ring length, different
  positions have different slots.
-/

namespace CryptoHft
namespace Lib

/-- Reduction of a natural number to an unsigned 64-bit word. -/
def wrap (n : Nat) : Nat :=
  n % 2 ^ 64

theorem wrap_of_lt
    {n : Nat}
    (h : n < 2 ^ 64) :
    wrap n = n :=
  Nat.mod_eq_of_lt h

/-- The difference of two unsigned 64-bit words. -/
def wrapSub (m n : Nat) : Nat :=
  wrap (m + (2 ^ 64 - n))

/-- The cast of an unsigned 64-bit word to the signed 64-bit type. -/
def toSigned (n : Nat) : Int :=
  if n < 2 ^ 63 then (n : Int) else (n : Int) - 2 ^ 64

/-- The difference of the signed casts of two words. -/
def signedDiff (m n : Nat) : Int :=
  toSigned m - toSigned n

theorem signedDiff_self (n : Nat) : signedDiff n n = 0 :=
  sub_self _

theorem signedDiff_eq
    {m n : Nat}
    (hm : m < 2 ^ 63)
    (hn : n < 2 ^ 63) :
    signedDiff m n = (m : Int) - (n : Int) := by
  rw [signedDiff, toSigned, toSigned, if_pos hm, if_pos hn]

/-- A power of two, given by its exponent. -/
structure PowTwo where
  exponent : Nat

namespace PowTwo

/-- The number itself. -/
def size (n : PowTwo) : Nat :=
  2 ^ n.exponent

theorem size_pos (n : PowTwo) : 0 < n.size :=
  Nat.two_pow_pos n.exponent

/-- The slot of a position: `pos & (size - 1)`. -/
def index (n : PowTwo) (pos : Nat) : Nat :=
  pos &&& (n.size - 1)

theorem index_eq_mod (n : PowTwo) (pos : Nat) :
    n.index pos = pos % n.size :=
  Nat.and_two_pow_sub_one_eq_mod pos n.exponent

theorem index_lt (n : PowTwo) (pos : Nat) :
    n.index pos < n.size := by
  rw [index_eq_mod]
  exact Nat.mod_lt pos n.size_pos

/-- Masking undoes a wrap-around. -/
theorem index_wrap
    (n : PowTwo)
    (h : n.exponent ≤ 64)
    (pos : Nat) :
    n.index (wrap pos) = n.index pos := by
  rw [index_eq_mod, index_eq_mod, wrap]
  exact Nat.mod_mod_of_dvd pos (Nat.pow_dvd_pow 2 h)

/-- From a slot on, the next slots are those of the next positions. -/
theorem index_index_add
    (n : PowTwo)
    (pos k : Nat) :
    n.index (n.index pos + k) = n.index (pos + k) := by
  rw [index_eq_mod, index_eq_mod, index_eq_mod, Nat.mod_add_mod]

/-- Positions with one slot differ by a whole number of rounds. -/
theorem add_size_le_of_index_eq
    (n : PowTwo)
    {p q : Nat}
    (hlt : p < q)
    (h : n.index p = n.index q) :
    p + n.size ≤ q := by
  rw [index_eq_mod, index_eq_mod] at h
  have hdvd : n.size ∣ q - p :=
    (Nat.modEq_iff_dvd' hlt.le).mp h
  have := Nat.le_of_dvd (by omega) hdvd
  omega

/-- Inside a window of one ring length, the slot determines the position. -/
theorem index_inj_window
    (n : PowTwo)
    {base p q : Nat}
    (hp : base ≤ p) (hp' : p < base + n.size)
    (hq : base ≤ q) (hq' : q < base + n.size)
    (h : n.index p = n.index q) :
    p = q := by
  rcases Nat.lt_trichotomy p q with hlt | heq | hgt
  · have := n.add_size_le_of_index_eq hlt h
    omega
  · exact heq
  · have := n.add_size_le_of_index_eq hgt h.symm
    omega

/-- Every slot has a position in each window of one ring length. -/
theorem exists_window
    (n : PowTwo)
    (base q : Nat) :
    ∃ p, base ≤ p ∧ p < base + n.size ∧ n.index p = n.index q := by
  have hpos := n.size_pos
  refine ⟨base + (q + (n.size - base % n.size)) % n.size, by omega, ?_, ?_⟩
  · have := Nat.mod_lt (q + (n.size - base % n.size)) hpos
    omega
  · rw [index_eq_mod, index_eq_mod, Nat.add_mod, Nat.mod_mod,
      ← Nat.add_mod]
    have hb := Nat.mod_lt base hpos
    have hdiv := Nat.div_add_mod base n.size
    have hrw : base + (q + (n.size - base % n.size)) =
        q + n.size * (base / n.size + 1) := by
      rw [Nat.mul_add, Nat.mul_one]
      omega
    rw [hrw, Nat.add_mul_mod_self_left]

end PowTwo

end Lib
end CryptoHft
