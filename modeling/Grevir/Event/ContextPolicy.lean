import Grevir.Support.Utf8

/-!
# Event — ContextPolicy

`ContextPolicyIdentity`: one name for the pair of a lock and a main-loop context,
`l<lock length>_<lock>_c<context length>_<context>`, laid out byte by byte in a zeroed array.
-/

namespace Grevir.Event

/-- The number of decimal digits. -/
def digits (value : Nat) : Nat := if 10 ≤ value then digits (value / 10) + 1 else 1
termination_by value

/-- `Storage` while it is filled: the bytes, and where the next one goes. -/
structure Storage where
  bytes : List UInt8
  offset : Nat

namespace Storage

/-- `result.bytes[offset++] = value`. -/
def put (s : Storage) (value : UInt8) : Storage := ⟨s.bytes.set s.offset value, s.offset + 1⟩

/-- `append_number`: the digits from the last to the first. -/
def appendNumber (s : Storage) (value width : Nat) : Storage :=
  let filled := (List.range width).foldl (fun (filled : List UInt8 × Nat) i =>
    (filled.1.set (s.offset + width - 1 - i) (UInt8.ofNat (48 + filled.2 % 10)), filled.2 / 10))
    (s.bytes, value)
  ⟨filled.1, s.offset + width⟩

end Storage

namespace ContextPolicyIdentity

variable (lock context : List UInt8)

def length : Nat :=
  1 + digits lock.length + 1 + lock.length + 2 + digits context.length + 1 + context.length

def storage : Storage :=
  let result : Storage := ⟨List.replicate (length lock context + 1) 0, 0⟩
  let result := result.put 108
  let result := result.appendNumber lock.length (digits lock.length)
  let result := result.put 95
  let result := lock.foldl Storage.put result
  let result := result.put 95
  let result := result.put 99
  let result := result.appendNumber context.length (digits context.length)
  let result := result.put 95
  context.foldl Storage.put result

/-- The identity, of at most 255 bytes: the assertion on its length fails otherwise. -/
def value : Option (List UInt8) :=
  if length lock context ≤ 255 then
    some ((storage lock context).bytes.take (length lock context))
  else none

end ContextPolicyIdentity

end Grevir.Event
