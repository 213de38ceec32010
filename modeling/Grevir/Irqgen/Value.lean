import Grevir.Support.Json

/-!
# Irqgen — Value

What the generator does with the values `json.loads` answers and `json.dumps` takes: subscripts, and
Python's equality, under which `bool`, `int` and `float` compare as numbers and the order of a
dictionary's items does not matter.  Floats are a parameter with the comparisons Python makes of
them; the generator makes none of its own.
-/

namespace Grevir.Irqgen

/-- How floats compare, with one another and with integers. -/
class PyFloat (F : Type) where
  eq : F → F → Bool
  eqInt : F → Int → Bool

/-- No floats at all. -/
instance : PyFloat Empty where
  eq x _ := x.elim
  eqInt x _ := x.elim

/-- The exceptions the generator's own code can meet. -/
inductive Error where
  /-- `PlanError` -/
  | plan (message : String)
  | keyError (key : String)
  | indexError
  | structError
  | typeError
  | osError
  | unicodeError
  | valueError
  /-- `ObjectSectionError` -/
  | objectSection (message : String)
  deriving DecidableEq

end Grevir.Irqgen

namespace Json.Value

open Grevir.Irqgen

variable {F : Type}

/-- `value[key]`, of a dictionary. -/
def item (value : Value F) (key : String) : Except Error (Value F) :=
  match value with
  | .dict items => match items.lookup key with
    | some v => .ok v
    | none => .error (.keyError key)
  | _ => .error .typeError

/-- `type(value) is dict and set(value) == {fields}`. -/
def hasFields (value : Value F) (fields : List String) : Bool :=
  match value with
  | .dict items =>
      (items.all fun item => fields.contains item.1)
        && fields.all fun field => items.any fun item => item.1 = field
  | _ => false

/-- `value.values()`. -/
def values : Value F → List (Value F)
  | .dict items => items.map Prod.snd
  | _ => []

/-- The number a value compares as. -/
def number : Value F → Option (F ⊕ Int)
  | .bool b => some (.inr (if b then 1 else 0))
  | .int n => some (.inr n)
  | .float x => some (.inl x)
  | _ => none

variable [PyFloat F]

def numberEq : F ⊕ Int → F ⊕ Int → Bool
  | .inl x, .inl y => PyFloat.eq x y
  | .inl x, .inr n => PyFloat.eqInt x n
  | .inr n, .inl x => PyFloat.eqInt x n
  | .inr m, .inr n => m = n

mutual

/-- `left == right`. -/
def eq : Value F → Value F → Bool
  | .null, .null => true
  | .str s, .str t => s = t
  | .list xs, .list ys => eqList xs ys
  | .dict xs, .dict ys => xs.length = ys.length && eqItems xs ys
  | x, y => match x.number, y.number with
    | some m, some n => numberEq m n
    | _, _ => false

/-- Lists, place by place. -/
def eqList : List (Value F) → List (Value F) → Bool
  | [], [] => true
  | x :: xs, y :: ys => x.eq y && eqList xs ys
  | _, _ => false

/-- Every item has an equal value under its key. -/
def eqItems : List (String × Value F) → List (String × Value F) → Bool
  | [], _ => true
  | (k, v) :: xs, ys => (match ys.lookup k with
    | some w => v.eq w
    | none => false) && eqItems xs ys

end

end Json.Value
