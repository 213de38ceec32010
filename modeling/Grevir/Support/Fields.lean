import Grevir.Support.Codec

/-!
# Support — Fields

Numbers at fixed places in a byte string, in either byte order, and the C strings in one.  A place
beyond the end holds no bytes, so that a field is a number wherever it is; `unpackFrom` fails there.

* `unpackFrom_eq`: unpacking inside the string answers its fields.
* `slice_slice`, `field_slice`: a part of a part.
-/

namespace Fields

open Codec

inductive ByteOrder where
  | little
  | big
  deriving DecidableEq

/-- The unsigned number some bytes make. -/
def number : ByteOrder → List UInt8 → Nat
  | .little, bs => fromLe bs
  | .big, bs => fromLe bs.reverse

/-- The `size` bytes at `offset`, as far as there are any. -/
def slice (data : List UInt8) (offset size : Nat) : List UInt8 := (data.drop offset).take size

/-- The number of `size` bytes at `offset`. -/
def field (order : ByteOrder) (data : List UInt8) (offset size : Nat) : Nat :=
  number order (slice data offset size)

/-- Fields of these sizes, one after another. -/
def fields (order : ByteOrder) (data : List UInt8) : Nat → List Nat → List Nat
  | _, [] => []
  | offset, size :: sizes =>
      field order data offset size :: fields order data (offset + size) sizes

/-- The fields of a format, if all of them are in the string. -/
def unpackFrom {ε : Type} (e : ε) (order : ByteOrder) (format : List Nat) (data : List UInt8)
    (offset : Nat) : Except ε (List Nat) :=
  if offset + format.sum ≤ data.length then .ok (fields order data offset format) else .error e

theorem unpackFrom_eq {ε : Type} {e : ε} {order : ByteOrder} {format : List Nat} {data : List UInt8}
    {offset : Nat} (h : offset + format.sum ≤ data.length) :
    unpackFrom e order format data offset = .ok (fields order data offset format) := if_pos h

theorem length_slice {data : List UInt8} {offset size : Nat} (h : offset + size ≤ data.length) :
    (slice data offset size).length = size := by
  rw [slice, List.length_take, List.length_drop]
  omega

/-- A part of a part. -/
theorem slice_slice {data : List UInt8} {offset size inner n : Nat} (h : inner + n ≤ size) :
    slice (slice data offset size) inner n = slice data (offset + inner) n := by
  rw [slice, slice, slice, List.drop_take, List.drop_drop, List.take_take, Nat.min_eq_left (by omega)]

theorem field_slice {order : ByteOrder} {data : List UInt8} {offset size inner n : Nat}
    (h : inner + n ≤ size) :
    field order (slice data offset size) inner n = field order data (offset + inner) n := by
  rw [field, field, slice_slice h]

/-! ### C strings -/

/-- What stands before the first zero byte. -/
def untilZero (data : List UInt8) : List UInt8 := data.takeWhile (· ≠ 0)

/-- The C string at an offset, as far as it goes. -/
def cstringAt (data : List UInt8) (offset : Nat) : List UInt8 := untilZero (data.drop offset)

end Fields
