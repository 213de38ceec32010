import Mathlib.Data.List.Nodup
import Mathlib.Data.String.Basic
import Mathlib.Tactic.Common

/-!
# Support — Json

JSON values, the text of a value with sorted keys and an indentation of two, and a reader of JSON
texts.  The text is ASCII: any other character is escaped, in two units where it needs them.  A
dictionary is its items in order, and a reader's dictionary has its keys in the order they first
appear, with the values they last had.  Floats are a parameter, with the texts they are read from and
written as.
-/

namespace Json

/-- Floats as a JSON text reads and writes them. -/
class FloatText (F : Type) where
  read : List Char → Option F
  write : F → List Char

/-- No floats at all. -/
instance emptyText : FloatText Empty where
  read _ := none
  write x := x.elim

inductive Value (F : Type) where
  | null
  | bool (b : Bool)
  | int (n : Int)
  | float (x : F)
  | str (s : String)
  | list (items : List (Value F))
  | dict (items : List (String × Value F))

variable {F : Type}

/-- `d[key] = value`: in place where the key is present, else at the end. -/
def setItem {α : Type} (key : String) (value : α) : List (String × α) → List (String × α)
  | [] => [(key, value)]
  | item :: items =>
      if item.1 = key then (key, value) :: items else item :: setItem key value items

theorem setItem_of_notMem {α : Type} {items : List (String × α)} {k : String} (v : α)
    (h : k ∉ items.map Prod.fst) : setItem k v items = items ++ [(k, v)] := by
  induction items with
  | nil => rfl
  | cons item items ih =>
      rw [List.map_cons, List.mem_cons, not_or] at h
      rw [setItem, if_neg fun heq => h.1 heq.symm, ih h.2, List.cons_append]

/-! ### Writing -/

/-- The four hexadecimal digits of a unit. -/
def hex4 (n : Nat) : List Char :=
  [n / 4096 % 16, n / 256 % 16, n / 16 % 16, n % 16].map Nat.digitChar

def escapeUnit (n : Nat) : List Char := '\\' :: 'u' :: hex4 n

def escapeChar (c : Char) : List Char :=
  if c = '"' then ['\\', '"']
  else if c = '\\' then ['\\', '\\']
  else if c = '\n' then ['\\', 'n']
  else if c = '\r' then ['\\', 'r']
  else if c = '\t' then ['\\', 't']
  else if c.toNat = 12 then ['\\', 'f']
  else if c.toNat = 8 then ['\\', 'b']
  else if 32 ≤ c.toNat ∧ c.toNat ≤ 126 then [c]
  else if c.toNat < 0x10000 then escapeUnit c.toNat
  else
    let n := c.toNat - 0x10000
    escapeUnit (0xd800 + n / 1024) ++ escapeUnit (0xdc00 + n % 1024)

def dumpString (s : String) : List Char := '"' :: s.toList.flatMap escapeChar ++ ['"']

def dumpInt : Int → List Char
  | .ofNat n => Nat.toDigits 10 n
  | .negSucc n => '-' :: Nat.toDigits 10 (n + 1)

def newline (level : Nat) : List Char := '\n' :: List.replicate (2 * level) ' '

/-- The members of a list or a dictionary between its brackets, a line each. -/
def bracket (opening closing : Char) (level : Nat) : List (List Char) → List Char
  | [] => [opening, closing]
  | texts => opening :: newline (level + 1)
      ++ (',' :: newline (level + 1)).intercalate texts ++ newline level ++ [closing]

/-- Items in the order of their keys. -/
def sortItems {α : Type} (items : List (String × α)) : List (String × α) :=
  items.mergeSort fun a b => a.1 ≤ b.1

/-- An item by its key and the text of its value. -/
def itemText (item : String × List Char) : List Char :=
  dumpString item.1 ++ ':' :: ' ' :: item.2

variable [FloatText F]

mutual

/-- `json.dumps(value, sort_keys=True, indent=2)`, at some level. -/
def dumps (level : Nat) : Value F → List Char
  | .null => ['n', 'u', 'l', 'l']
  | .bool true => ['t', 'r', 'u', 'e']
  | .bool false => ['f', 'a', 'l', 's', 'e']
  | .int n => dumpInt n
  | .float x => FloatText.write x
  | .str s => dumpString s
  | .list items => bracket '[' ']' level (dumpList (level + 1) items)
  | .dict items => bracket '\x7b' '\x7d' level <|
      (sortItems (dumpItems (level + 1) items)).map itemText

/-- The texts of the members. -/
def dumpList (level : Nat) : List (Value F) → List (List Char)
  | [] => []
  | v :: vs => dumps level v :: dumpList level vs

/-- The texts of the values, with their keys. -/
def dumpItems (level : Nat) : List (String × Value F) → List (String × List Char)
  | [] => []
  | (k, v) :: items => (k, dumps level v) :: dumpItems level items

end

/-! ### Reading -/

def isSpace (c : Char) : Bool := c = ' ' || c = '\t' || c = '\n' || c = '\r'

def skipSpace (text : List Char) : List Char := text.dropWhile isSpace

def hexValue (c : Char) : Option Nat :=
  if c.isDigit then some (c.toNat - 48)
  else if 97 ≤ c.toNat ∧ c.toNat ≤ 102 then some (c.toNat - 87)
  else if 65 ≤ c.toNat ∧ c.toNat ≤ 70 then some (c.toNat - 55)
  else none

def readHex4 : List Char → Option (Nat × List Char)
  | a :: b :: c :: d :: rest => do
      let a ← hexValue a
      let b ← hexValue b
      let c ← hexValue c
      let d ← hexValue d
      return (((a * 16 + b) * 16 + c) * 16 + d, rest)
  | _ => none

/-- The escape of one unit or two.  A surrogate by itself, which no string has, is refused. -/
def readUnits (text : List Char) : Option (Char × List Char) := do
  let (high, rest) ← readHex4 text
  if 0xd800 ≤ high ∧ high ≤ 0xdbff then
    match rest with
    | '\\' :: 'u' :: rest => do
        let (low, rest) ← readHex4 rest
        if 0xdc00 ≤ low ∧ low ≤ 0xdfff then
          return (Char.ofNat (0x10000 + ((high - 0xd800) * 1024 + (low - 0xdc00))), rest)
        else none
    | _ => none
  else if 0xdc00 ≤ high ∧ high ≤ 0xdfff then none
  else return (Char.ofNat high, rest)

/-- The character an escape of two stands for. -/
def unescape : Char → Option Char
  | '"' => some '"'
  | '\\' => some '\\'
  | '/' => some '/'
  | 'b' => some (Char.ofNat 8)
  | 'f' => some (Char.ofNat 12)
  | 'n' => some '\n'
  | 'r' => some '\r'
  | 't' => some '\t'
  | _ => none

/-- One character of a string, or `none` at its end. -/
def readChar : List Char → Option (Option Char × List Char)
  | [] => none
  | c :: rest =>
      if c = '"' then some (none, rest)
      else if c = '\\' then
        match rest with
        | [] => none
        | e :: rest =>
            if e = 'u' then (readUnits rest).map fun x => (some x.1, x.2)
            else (unescape e).map fun c => (some c, rest)
      else if c.toNat < 32 then none
      else some (some c, rest)

/-- The rest of a string, after its opening quote. -/
def readChars : Nat → List Char → Option (List Char × List Char)
  | 0, _ => none
  | fuel + 1, text => do
      match ← readChar text with
      | (none, rest) => return ([], rest)
      | (some c, rest) => do
          let (cs, rest) ← readChars fuel rest
          return (c :: cs, rest)

def readString (text : List Char) : Option (String × List Char) := do
  let (cs, rest) ← readChars text.length text
  return (String.ofList cs, rest)

/-! ### Numbers -/

/-- `0`, or digits that do not start with it. -/
def readWhole (text : List Char) : Option (List Char × List Char) :=
  match text.span Char.isDigit with
  | ([], _) => none
  | (d :: digits, rest) =>
      if d = '0' then some (['0'], digits ++ rest) else some (d :: digits, rest)

/-- The digits after a point; where there are none, the point is left too. -/
def readFraction : List Char → List Char × List Char
  | [] => ([], [])
  | c :: text =>
      if c = '.' then
        match text.span Char.isDigit with
        | ([], _) => ([], c :: text)
        | (digits, rest) => (c :: digits, rest)
      else ([], c :: text)

def readSign : List Char → List Char × List Char
  | [] => ([], [])
  | c :: text => if c = '+' ∨ c = '-' then ([c], text) else ([], c :: text)

def readExponent : List Char → List Char × List Char
  | [] => ([], [])
  | c :: text =>
      if c = 'e' ∨ c = 'E' then
        let (sign, digits) := readSign text
        match digits.span Char.isDigit with
        | ([], _) => ([], c :: text)
        | (digits, rest) => (c :: sign ++ digits, rest)
      else ([], c :: text)

/-- An integer where there is neither a fraction nor an exponent. -/
def readUnsigned (negative : Bool) (text : List Char) : Option (Value F × List Char) := do
  let (whole, rest) ← readWhole text
  let (fraction, rest) := readFraction rest
  let (exponent, rest) := readExponent rest
  if fraction = [] ∧ exponent = [] then
    let n : Int := Nat.ofDigitChars 10 whole 0
    return (.int (if negative then -n else n), rest)
  else
    let sign := if negative then ['-'] else []
    return (.float (← FloatText.read (sign ++ whole ++ fraction ++ exponent)), rest)

def readNumber : List Char → Option (Value F × List Char)
  | [] => none
  | c :: text => if c = '-' then readUnsigned true text else readUnsigned false (c :: text)

/-! ### Values -/

/-- The words that stand for a value. -/
def readWord (text : List Char) : Option (Value F × List Char) :=
  let word (w : String) (value : Option (Value F)) : Option (Value F × List Char) :=
    if w.toList <+: text then value.map fun v => (v, text.drop w.length) else none
  let number (w : String) := word w ((FloatText.read w.toList).map .float)
  word "null" (some .null) <|> word "true" (some (.bool true)) <|> word "false" (some (.bool false))
    <|> number "NaN" <|> number "Infinity" <|> number "-Infinity"

/-- The members of a list or a dictionary, of which there is one at least. -/
def members {α : Type} (member : List Char → Option (α × List Char)) (closing : Char) :
    Nat → List Char → Option (List α × List Char)
  | 0, _ => none
  | fuel + 1, text => do
      let (a, rest) ← member text
      match skipSpace rest with
      | [] => none
      | c :: rest =>
          if c = closing then return ([a], rest)
          else if c = ',' then do
            let (as, rest) ← members member closing fuel (skipSpace rest)
            return (a :: as, rest)
          else none

/-- All between an opening bracket and `closing`. -/
def bracketed {α : Type} (member : List Char → Option (α × List Char)) (closing : Char)
    (text : List Char) : Option (List α × List Char) :=
  match skipSpace text with
  | [] => none
  | c :: rest => if c = closing then some ([], rest) else members member closing text.length (c :: rest)

/-- A key, a colon and a value. -/
def readItem {α : Type} (value : List Char → Option (α × List Char)) (text : List Char) :
    Option ((String × α) × List Char) :=
  match text with
  | [] => none
  | c :: rest => do
      guard (c = '"')
      let (key, rest) ← readString rest
      match skipSpace rest with
      | [] => none
      | c :: rest => do
          guard (c = ':')
          let (v, rest) ← value (skipSpace rest)
          return ((key, v), rest)

/-- The dictionary of some items: of equal keys the last counts, in the place of the first. -/
def ofItems {α : Type} (items : List (String × α)) : List (String × α) :=
  items.foldl (fun done item => setItem item.1 item.2 done) []

/-- One value.  The fuel bounds how deep lists and dictionaries lie in one another. -/
def readValue : Nat → List Char → Option (Value F × List Char)
  | 0, _ => none
  | _ + 1, [] => none
  | fuel + 1, c :: rest =>
      if c = '"' then (readString rest).map fun x => (.str x.1, x.2)
      else if c = '[' then (bracketed (readValue fuel) ']' rest).map fun x => (.list x.1, x.2)
      else if c = '\x7b' then
        (bracketed (readItem (readValue fuel)) '\x7d' rest).map fun x => (.dict (ofItems x.1), x.2)
      else readWord (c :: rest) <|> readNumber (c :: rest)

/-- `json.loads(text)`; a nesting is never deeper than its text is long. -/
def loads (text : List Char) : Option (Value F) := do
  let (value, rest) ← readValue (text.length + 1) (skipSpace text)
  guard (skipSpace rest = [])
  return value

/-! ### Plain values -/

section Plain

omit [FloatText F]

/-- A value without floats, of which no dictionary has a key twice. -/
inductive Plain : Value F → Prop
  | null : Plain .null
  | bool (b : Bool) : Plain (.bool b)
  | int (n : Int) : Plain (.int n)
  | str (s : String) : Plain (.str s)
  | list {items : List (Value F)} (h : ∀ v ∈ items, Plain v) : Plain (.list items)
  | dict {items : List (String × Value F)} (hkeys : (items.map Prod.fst).Nodup)
      (h : ∀ item ∈ items, Plain item.2) : Plain (.dict items)

/-- A value of which no dictionary has a key twice. -/
inductive WellKeyed : Value F → Prop
  | null : WellKeyed .null
  | bool (b : Bool) : WellKeyed (.bool b)
  | int (n : Int) : WellKeyed (.int n)
  | float (x : F) : WellKeyed (.float x)
  | str (s : String) : WellKeyed (.str s)
  | list {items : List (Value F)} (h : ∀ v ∈ items, WellKeyed v) : WellKeyed (.list items)
  | dict {items : List (String × Value F)} (hkeys : (items.map Prod.fst).Nodup)
      (h : ∀ item ∈ items, WellKeyed item.2) : WellKeyed (.dict items)

theorem Plain.wellKeyed {v : Value F} (h : Plain v) : WellKeyed v := by
  induction h with
  | null => exact .null
  | bool b => exact .bool b
  | int n => exact .int n
  | str s => exact .str s
  | list _ ih => exact .list ih
  | dict hkeys _ ih => exact .dict hkeys ih

mutual

/-- The value, with the keys of its dictionaries in order. -/
def sortKeys : Value F → Value F
  | .null => .null
  | .bool b => .bool b
  | .int n => .int n
  | .float x => .float x
  | .str s => .str s
  | .list items => .list (sortKeysList items)
  | .dict items => .dict (sortItems (sortKeysItems items))

def sortKeysList : List (Value F) → List (Value F)
  | [] => []
  | v :: vs => sortKeys v :: sortKeysList vs

def sortKeysItems : List (String × Value F) → List (String × Value F)
  | [] => []
  | (k, v) :: items => (k, sortKeys v) :: sortKeysItems items

end

theorem sortKeysList_eq_map (items : List (Value F)) : sortKeysList items = items.map sortKeys := by
  induction items with
  | nil => rfl
  | cons v items ih => rw [sortKeysList, ih, List.map_cons]

theorem sortKeysItems_eq_map (items : List (String × Value F)) :
    sortKeysItems items = items.map fun item => (item.1, sortKeys item.2) := by
  induction items with
  | nil => rfl
  | cons item items ih => rw [sortKeysItems, ih, List.map_cons]

theorem sortItems_map {α β : Type} (f : α → β) (items : List (String × α)) :
    sortItems (items.map fun item => (item.1, f item.2)) =
      (sortItems items).map fun item => (item.1, f item.2) := by
  unfold sortItems
  refine Eq.symm (List.map_mergeSort ?_)
  exact fun _ _ _ _ => rfl

theorem sortItems_perm {α : Type} (items : List (String × α)) : (sortItems items).Perm items :=
  List.mergeSort_perm _ _

theorem ofItems_of_nodup {α : Type} {items : List (String × α)}
    (h : (items.map Prod.fst).Nodup) : ofItems items = items := by
  have hfold : ∀ done rest : List (String × α), ((done ++ rest).map Prod.fst).Nodup →
      rest.foldl (fun done item => setItem item.1 item.2 done) done = done ++ rest := by
    intro done rest
    induction rest generalizing done with
    | nil => simp
    | cons item rest ih =>
        intro hnodup
        have hitem : item.1 ∉ done.map Prod.fst := by
          rw [List.map_append, List.map_cons, List.nodup_middle, List.nodup_cons,
            List.mem_append, not_or] at hnodup
          exact hnodup.1.1
        rw [List.foldl_cons, setItem_of_notMem _ hitem, ih]
        · rw [List.append_assoc, List.singleton_append]
        · rwa [List.append_assoc, List.singleton_append]
  exact hfold [] items h

theorem Plain.sortKeys {v : Value F} (h : Plain v) : Plain (sortKeys v) := by
  induction h with
  | null => exact .null
  | bool b => exact .bool b
  | int n => exact .int n
  | str s => exact .str s
  | list h ih =>
      rw [Json.sortKeys, sortKeysList_eq_map]
      exact .list (List.forall_mem_map.mpr ih)
  | @dict items hkeys h ih =>
      have hperm := sortItems_perm items
      rw [Json.sortKeys, sortKeysItems_eq_map, sortItems_map]
      refine .dict ?_ (List.forall_mem_map.mpr fun item hitem => ih item (hperm.mem_iff.mp hitem))
      rw [List.map_map]
      exact (hperm.map Prod.fst).nodup_iff.mpr hkeys

theorem pairwise_sortItems {α : Type} (items : List (String × α)) :
    (sortItems items).Pairwise fun a b => a.1 ≤ b.1 := by
  refine (List.pairwise_mergeSort (fun a b c => ?_) (fun a b => ?_) items).imp fun h => ?_
  · simpa using le_trans
  · simpa using le_total a.1 b.1
  · simpa using h

theorem sortItems_idem {α : Type} (items : List (String × α)) :
    sortItems (sortItems items) = sortItems items :=
  List.mergeSort_of_pairwise ((pairwise_sortItems items).imp fun h => by simpa using h)

/-- Under distinct keys the sorted items are the same, whatever their order was. -/
theorem sortItems_eq_of_perm {α : Type} {items items' : List (String × α)}
    (hperm : items.Perm items') (hkeys : (items.map Prod.fst).Nodup) :
    sortItems items = sortItems items' := by
  refine List.Perm.eq_of_pairwise (fun a b ha hb hab hba => ?_) (pairwise_sortItems items)
    (pairwise_sortItems items') ((sortItems_perm items).trans (hperm.trans (sortItems_perm items').symm))
  have ha' := (sortItems_perm items).mem_iff.mp ha
  have hb' := hperm.mem_iff.mpr ((sortItems_perm items').mem_iff.mp hb)
  exact List.inj_on_of_nodup_map hkeys ha' hb' (le_antisymm hab hba)

theorem lookup_eq_some_iff {α : Type} {items : List (String × α)} (h : (items.map Prod.fst).Nodup)
    {key : String} {a : α} : items.lookup key = some a ↔ (key, a) ∈ items := by
  induction items with
  | nil => simp
  | cons item items ih =>
      obtain ⟨k, b⟩ := item
      rw [List.map_cons, List.nodup_cons] at h
      rw [List.mem_cons, Prod.mk.injEq]
      rcases eq_or_ne key k with rfl | hk
      · have hmem : (key, a) ∉ items := fun ha => h.1 (List.mem_map.mpr ⟨_, ha, rfl⟩)
        rw [List.lookup_cons_self]
        simp [hmem, eq_comm]
      · rw [List.lookup_cons, beq_false_of_ne hk]
        simp [hk, ih h.2]

/-- Under distinct keys the order of the items does not matter. -/
theorem lookup_perm {α : Type} {items items' : List (String × α)} (hperm : items.Perm items')
    (h : (items.map Prod.fst).Nodup) (key : String) : items.lookup key = items'.lookup key := by
  refine Option.ext fun a => ?_
  rw [lookup_eq_some_iff h, lookup_eq_some_iff ((hperm.map _).nodup_iff.mp h), hperm.mem_iff]

theorem lookup_sortKeys {items : List (String × Value F)} (h : (items.map Prod.fst).Nodup)
    (key : String) :
    (sortItems (sortKeysItems items)).lookup key = (items.lookup key).map Json.sortKeys := by
  have hlookup : ∀ l : List (String × Value F),
      (l.map fun item => (item.1, Json.sortKeys item.2)).lookup key =
        (l.lookup key).map Json.sortKeys := by
    intro l
    induction l with
    | nil => rfl
    | cons item l ih =>
        rw [List.map_cons, List.lookup_cons, List.lookup_cons, ih]
        cases key == item.1 <;> rfl
  have hperm := sortItems_perm items
  rw [sortKeysItems_eq_map, sortItems_map, hlookup,
    lookup_perm hperm ((hperm.map Prod.fst).nodup_iff.mpr h)]

end Plain

theorem dumpList_eq_map (level : Nat) (items : List (Value F)) :
    dumpList level items = items.map (dumps level) := by
  induction items with
  | nil => rfl
  | cons v items ih => rw [dumpList, ih, List.map_cons]

theorem dumpItems_eq_map (level : Nat) (items : List (String × Value F)) :
    dumpItems level items = items.map fun item => (item.1, dumps level item.2) := by
  induction items with
  | nil => rfl
  | cons item items ih => rw [dumpItems, ih, List.map_cons]

/-- The text of a dictionary, over its items in order. -/
theorem dumps_dict (level : Nat) (items : List (String × Value F)) :
    dumps level (.dict items) = bracket '\x7b' '\x7d' level ((sortItems items).map fun item =>
      itemText (item.1, dumps (level + 1) item.2)) := by
  rw [dumps, dumpItems_eq_map, sortItems_map, List.map_map]
  rfl

theorem dumps_sortKeys {v : Value F} (h : WellKeyed v) (level : Nat) :
    dumps level (Json.sortKeys v) = dumps level v := by
  induction h generalizing level with
  | null => rfl
  | bool b => rfl
  | int n => rfl
  | float x => rfl
  | str s => rfl
  | list h ih =>
      rw [Json.sortKeys, sortKeysList_eq_map, dumps, dumps, dumpList_eq_map, dumpList_eq_map,
        List.map_map]
      exact congrArg _ (List.map_congr_left fun v hv => ih v hv _)
  | @dict items hkeys h ih =>
      rw [Json.sortKeys, sortKeysItems_eq_map, dumps_dict, dumps_dict, sortItems_map,
        ← sortItems_map, sortItems_map, sortItems_map, sortItems_idem, List.map_map]
      refine congrArg _ (List.map_congr_left fun item hitem => ?_)
      rw [Function.comp_apply, ih item ((sortItems_perm items).mem_iff.mp hitem)]

theorem dumps_dict_perm {items items' : List (String × Value F)} (hperm : items.Perm items')
    (hkeys : (items.map Prod.fst).Nodup) (level : Nat) :
    dumps level (.dict items) = dumps level (.dict items') := by
  rw [dumps_dict, dumps_dict, sortItems_eq_of_perm hperm hkeys]

end Json
