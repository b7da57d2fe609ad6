import CryptoHft.Lib.Decimal

/-!
# JSON values

The JSON values of the platform's JSON library, with the access operations that
the parsers use.  A number is an integer, in the range of `int64_t` or
`uint64_t`, or a floating-point number; the latter have a type parameter `R`,
and `Double R` lists what the parsers use of it.  Objects are association lists;
a key is looked up at its first occurrence.

A failing conversion throws in the library; here it is an error of `Except`.
-/

namespace CryptoHft
namespace Lib

/-- The operations on `double` that the parsers use. -/
class Double (R : Type) where
  zero : R
  sub : R → R → R
  /-- `x > 0.0` -/
  isPositive : R → Bool
  /-- `x <= 0.0` -/
  isNonPositive : R → Bool
  /-- `static_cast<double>` of an integer. -/
  ofInt : Int → R
  /-- The integer part, towards zero. -/
  truncate : R → Int
  /-- `std::stod`. -/
  read : Bytes → Option R

-- of low priority, so that numbers with a zero and a subtraction keep their own

instance (priority := low) Double.toZero {R : Type} [Double R] : Zero R :=
  ⟨Double.zero⟩

instance (priority := low) Double.toSub {R : Type} [Double R] : Sub R :=
  ⟨Double.sub⟩

instance : Double ℚ where
  zero := 0
  sub x y := x - y
  isPositive x := decide (0 < x)
  isNonPositive x := decide (x ≤ 0)
  ofInt i := i
  truncate x := if 0 ≤ x then x.floor else -(-x).floor
  read := stod

/-- The integers that a JSON number can hold. -/
structure JsonInt where
  val : Int
  lower : -2 ^ 63 ≤ val
  upper : val < 2 ^ 64
deriving DecidableEq

/-- The JSON integer of a 64-bit unsigned number. -/
def JsonInt.ofUInt64 (c : UInt64) : JsonInt where
  val := c.toNat
  lower := by
    have : (0 : Int) ≤ c.toNat := Int.natCast_nonneg _
    omega
  upper := by
    have := c.toNat_lt
    omega

/-- The JSON integer of a 64-bit signed number. -/
def JsonInt.ofInt64 (t : Int64) : JsonInt where
  val := t.toInt
  lower := t.le_toInt
  upper := by
    have := t.toInt_lt
    omega

inductive Json (R : Type)
  | null
  | bool (b : Bool)
  | integer (i : JsonInt)
  | float (x : R)
  | string (s : Bytes)
  | array (items : List (Json R))
  | object (fields : List (String × Json R))

/-- What a conversion throws. -/
inductive JsonError
  | typeError
deriving DecidableEq

namespace Json

variable {R : Type}

/-- `contains` and `operator[]`: the value of a key, if this is an object that has it. -/
def find (j : Json R) (key : String) : Option (Json R) :=
  match j with
  | .object fields => fields.lookup key
  | _ => none

/-- `is_object`. -/
def isObject : Json R → Bool
  | .object _ => true
  | _ => false

/-- `is_string`. -/
def isString : Json R → Bool
  | .string _ => true
  | _ => false

/-- An absent key, or one whose value is a text. -/
def textOrAbsent (j : Json R) (key : String) : Bool :=
  ((j.find key).map isString).getD true

/-- `get<std::string>`. -/
def getString : Json R → Except JsonError Bytes
  | .string s => .ok s
  | _ => .error .typeError

theorem getString_eq_ok
    {value : Json R} {s : Bytes}
    (h : value.getString = .ok s) :
    value = .string s := by
  cases value with
  | string t =>
      simp only [getString, Except.ok.injEq] at h
      rw [h]
  | null | bool | integer | float | array | object =>
      cases h

/-- `value(key, default)` for a text; it throws on what is no object too. -/
def valueString (j : Json R) (key : String) (default : Bytes) : Except JsonError Bytes :=
  match j with
  | .object fields =>
      match fields.lookup key with
      | some value => value.getString
      | none => .ok default
  | _ => .error .typeError

/-- `value(key, default)` for a text, where it does not throw. -/
theorem valueString_of_textOrAbsent
    {j : Json R} {key : String}
    (hobject : j.isObject = true)
    (htext : j.textOrAbsent key = true)
    (default : Bytes) :
    j.valueString key default =
      .ok (((j.find key).bind (fun value => value.getString.toOption)).getD default) := by
  cases j with
  | object fields =>
      simp only [valueString, textOrAbsent, find] at htext ⊢
      cases hlookup : fields.lookup key with
      | none =>
          rfl
      | some value =>
          cases value with
          | string s =>
              rfl
          | null | bool | integer | float | array | object =>
              simp [hlookup, isString] at htext
  | null | bool | integer | float | string | array =>
      cases hobject

theorem valueString_eq_error
    {j : Json R} {key : String}
    (h : ¬ (j.isObject = true ∧ j.textOrAbsent key = true))
    (default : Bytes) :
    j.valueString key default = .error .typeError := by
  cases j with
  | object fields =>
      simp only [isObject, textOrAbsent, find, true_and] at h
      simp only [valueString]
      cases hlookup : fields.lookup key with
      | none =>
          simp [hlookup] at h
      | some value =>
          cases value with
          | string s =>
              simp [hlookup, isString] at h
          | null | bool | integer | float | array | object =>
              rfl
  | null | bool | integer | float | string | array =>
      rfl

/-- `get<bool>`. -/
def getBool : Json R → Except JsonError Bool
  | .bool b => .ok b
  | _ => .error .typeError

/-- The number in a JSON number, towards zero. -/
def getNumber [Double R] : Json R → Except JsonError Int
  | .integer i => .ok i.val
  | .float x => .ok (Double.truncate x)
  | _ => .error .typeError

/-- `get<uint64_t>`. -/
def getUInt64 [Double R] (j : Json R) : Except JsonError UInt64 :=
  j.getNumber.map UInt64.ofInt

/-- `get<int64_t>`. -/
def getInt64 [Double R] (j : Json R) : Except JsonError Int64 :=
  j.getNumber.map Int64.ofInt

/-- `get<double>`. -/
def getDouble [Double R] : Json R → Except JsonError R
  | .integer i => .ok (Double.ofInt i.val)
  | .float x => .ok x
  | _ => .error .typeError

/-- The number that the conversions to narrower integers take; they accept booleans. -/
def getNarrow [Double R] : Json R → Except JsonError Int
  | .bool b => .ok (if b then 1 else 0)
  | j => j.getNumber

/-- `get<uint32_t>`. -/
def getUInt32 [Double R] (j : Json R) : Except JsonError UInt32 :=
  j.getNarrow.map UInt32.ofInt

/-- `get<uint8_t>`. -/
def getUInt8 [Double R] (j : Json R) : Except JsonError UInt8 :=
  j.getNarrow.map UInt8.ofInt

/-- `get<int32_t>`. -/
def getInt32 [Double R] (j : Json R) : Except JsonError Int32 :=
  j.getNarrow.map Int32.ofInt

/-- `at(key).get<T>()`, with no value when either throws. -/
def field {α : Type} (j : Json R) (key : String) (get : Json R → Except JsonError α) :
    Option α :=
  (j.find key).bind (fun value => (get value).toOption)

/-- A field that is there and has the right type. -/
theorem field_of_find
    {α : Type} {j value : Json R} {key : String} {get : Json R → Except JsonError α} {x : α}
    (hfind : j.find key = some value)
    (hget : get value = .ok x) :
    j.field key get = some x := by
  simp [field, hfind, hget, Except.toOption]

/-- The JSON value of an unsigned integer. -/
def ofUInt64 (c : UInt64) : Json R :=
  .integer (.ofUInt64 c)

/-- The JSON value of a signed integer. -/
def ofInt64 (t : Int64) : Json R :=
  .integer (.ofInt64 t)

section RoundTrip

variable [Double R]

@[simp] theorem getUInt64_ofUInt64 (c : UInt64) :
    (ofUInt64 c : Json R).getUInt64 = .ok c := by
  have hlt := c.toNat_lt
  have hmod : ((c.toNat : Int) % 2 ^ 64).toNat = c.toNat := by omega
  simp only [ofUInt64, getUInt64, getNumber, JsonInt.ofUInt64, Except.map, UInt64.ofInt, hmod]
  simp

@[simp] theorem getInt64_ofInt64 (t : Int64) :
    (ofInt64 t : Json R).getInt64 = .ok t := by
  simp [ofInt64, getInt64, getNumber, JsonInt.ofInt64, Except.map]

@[simp] theorem getUInt32_ofUInt64 (c : UInt32) :
    (ofUInt64 c.toUInt64 : Json R).getUInt32 = .ok c := by
  have hlt := c.toNat_lt
  have hmod : ((c.toUInt64.toNat : Int) % 2 ^ 32).toNat = c.toNat := by
    rw [UInt32.toNat_toUInt64]
    omega
  simp only [ofUInt64, getUInt32, getNarrow, getNumber, JsonInt.ofUInt64, Except.map,
    UInt32.ofInt, hmod]
  simp

@[simp] theorem getUInt8_ofUInt64 (c : UInt8) :
    (ofUInt64 c.toUInt64 : Json R).getUInt8 = .ok c := by
  have hlt := c.toNat_lt
  have hmod : ((c.toUInt64.toNat : Int) % 2 ^ 8).toNat = c.toNat := by
    rw [UInt8.toNat_toUInt64]
    omega
  simp only [ofUInt64, getUInt8, getNarrow, getNumber, JsonInt.ofUInt64, Except.map,
    UInt8.ofInt, hmod]
  simp

@[simp] theorem getInt32_ofInt64 (t : Int32) :
    (ofInt64 t.toInt64 : Json R).getInt32 = .ok t := by
  simp [ofInt64, getInt32, getNarrow, getNumber, JsonInt.ofInt64, Except.map]

end RoundTrip

end Json

/-- `std::string::find` other than `npos`. -/
def hasSubstring (s needle : Bytes) : Bool :=
  s.tails.any (fun t => needle.isPrefixOf t)

end Lib
end CryptoHft
