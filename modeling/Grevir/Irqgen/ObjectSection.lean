import Grevir.Support.Checks
import Grevir.Support.Fields
import Grevir.Support.Utf8
import Grevir.Irqgen.Value
import Mathlib.Data.Nat.Digits.Lemmas
import Mathlib.Tactic.Ring

/-!
# Irqgen — ObjectSection

The adapter that takes the plan section out of an object file, for ELF, Mach-O and COFF, and what each
format says of an object's sections.

* `SectionTable`: the sections of an object, as its format lays them out, by the offsets of the fields.
* `extract_exact`: an object is refused, or its one plan section is answered.
-/

namespace Grevir.Irqgen

open Fields

/-! ### Reading an object -/

def objectError {α : Type} (message : String) : Except Error α := throw (.objectSection message)

/-- `_region`. -/
def region (data : List UInt8) (offset size : Nat) : Except Error (List UInt8) :=
  if offset > data.length ∨ size > data.length - offset then
    objectError "object section extends outside the file"
  else return slice data offset size

/-- `data.decode("ascii")`. -/
def decodeAscii (data : List UInt8) (message : String) : Except Error String :=
  if data.all fun b => b.toNat < 128 then return Utf8.ofAscii data else objectError message

/-- `_cstring`. -/
def cstring (data : List UInt8) (offset : Int) : Except Error String :=
  if offset < 0 ∨ offset ≥ data.length then objectError "invalid object string-table offset"
  else if 0 ∉ data.drop offset.toNat then objectError "unterminated object string"
  else decodeAscii (cstringAt data offset.toNat) "non-ASCII object section name"

/-- `_one`. -/
def one (found : List (List UInt8 × Nat)) : Except Error (List UInt8) :=
  match found with
  | [] => objectError "interrupt plan section is missing"
  | [(payload, relocations)] =>
      if relocations ≠ 0 then objectError "interrupt plan section contains relocations"
      else if payload = [] then objectError "interrupt plan section is empty"
      else return payload
  | _ => objectError "interrupt plan section is duplicated"

/-- `struct.unpack_from`. -/
def unpack (order : ByteOrder) (format : List Nat) (data : List UInt8) (offset : Nat) :
    Except Error (List Nat) :=
  unpackFrom .structError order format data offset

/-- `fields[0]`. -/
def head : List Nat → Except Error Nat
  | n :: _ => return n
  | [] => throw .indexError

/-- `data[index]`. -/
def byteAt (data : List UInt8) (index : Nat) : Except Error UInt8 :=
  match data[index]? with
  | some b => return b
  | none => throw .indexError

/-! ### ELF -/

/-- What depends on the class of an object: the place and size of the table's offset, the place of its
entry size, count and name index, and the fields of an entry. -/
structure ElfClass where
  headerSize : Nat
  tableOffset : Nat
  tableOffsetSize : Nat
  counts : Nat
  sectionFormat : List Nat

def elf32 : ElfClass := ⟨52, 32, 4, 46, [4, 4, 4, 4, 4, 4, 4, 4, 4, 4]⟩

def elf64 : ElfClass := ⟨64, 40, 8, 58, [4, 4, 8, 8, 8, 8, 4, 4, 8, 8]⟩

/-- What is read of a section header. -/
structure ElfSection where
  name : Nat
  type : Nat
  offset : Nat
  size : Nat
  info : Nat

def elfSection : List Nat → Except Error ElfSection
  | [name, type, _, _, offset, size, _, info, _, _] => return ⟨name, type, offset, size, info⟩
  | _ => throw .indexError

def elfCounts : List Nat → Except Error (Nat × Nat × Nat)
  | [entrySize, count, namesIndex] => return (entrySize, count, namesIndex)
  | _ => throw .valueError

/-- `sections[index]`. -/
def sectionAt (sections : List ElfSection) (index : Nat) : Except Error ElfSection :=
  match sections[index]? with
  | some s => return s
  | none => throw .indexError

/-- `sum(1 for other in sections if ...)`. -/
def elfRelocations (sections : List ElfSection) (index : Nat) : Nat :=
  sections.countP fun other =>
    (other.type = 4 ∨ other.type = 9) ∧ other.info = index ∧ other.size ≠ 0

/-- One turn of the loop over the sections. -/
def elfFind (data names : List UInt8) (sections : List ElfSection)
    (found : List (List UInt8 × Nat)) (index : Nat) : Except Error (List (List UInt8 × Nat)) := do
  let s ← sectionAt sections index
  let name ← cstring names s.name
  if name ≠ ".grevir_irq_plan" then return found
  else
    let payload ← region data s.offset s.size
    return found ++ [(payload, elfRelocations sections index)]

/-- `_elf`, of an object of one class and byte order. -/
def elfOf (k : ElfClass) (order : ByteOrder) (data : List UInt8) : Except Error (List UInt8) := do
  let _ ← region data 0 k.headerSize
  let sectionOffset ← head (← unpack order [k.tableOffsetSize] data k.tableOffset)
  let (entrySize, count, namesIndex) ← elfCounts (← unpack order [2, 2, 2] data k.counts)
  if count = 0 ∨ namesIndex ≥ count then objectError "unsupported ELF section table"
  else if entrySize < k.sectionFormat.sum then objectError "invalid ELF section-header size"
  else
    let _ ← region data sectionOffset (entrySize * count)
    let sections ← (List.range count).mapM fun i => do
      elfSection (← unpack order k.sectionFormat data (sectionOffset + i * entrySize))
    let namesHeader ← sectionAt sections namesIndex
    let names ← region data namesHeader.offset namesHeader.size
    let found ← (List.range count).foldlM (elfFind data names sections) []
    one found

/-- `_elf`. -/
def elf (data : List UInt8) : Except Error (List UInt8) :=
  if data.length < 52 then objectError "unsupported ELF header"
  else do
    let width ← byteAt data 4
    let endian ← byteAt data 5
    if (width ≠ 1 ∧ width ≠ 2) ∨ (endian ≠ 1 ∧ endian ≠ 2) then objectError "unsupported ELF header"
    else elfOf (if width = 1 then elf32 else elf64) (if endian = 1 then .little else .big) data

/-! ### Mach-O -/

structure MachOClass where
  headerSize : Nat
  segmentCommand : Nat
  segmentSize : Nat
  sectionSize : Nat
  sectionCountOffset : Nat
  sectionFormat : List Nat

def machO64 : MachOClass := ⟨32, 0x19, 72, 80, 64, [8, 8, 4, 4, 4, 4, 4, 4, 4, 4]⟩

def machO32 : MachOClass := ⟨28, 0x1, 56, 68, 48, [4, 4, 4, 4, 4, 4, 4, 4, 4]⟩

/-- The length, offset and relocation count of a section. -/
def machOSection : List Nat → Except Error (Nat × Nat × Nat)
  | [_, length, offset, _, _, relocations, _, _, _, _] => return (length, offset, relocations)
  | [_, length, offset, _, _, relocations, _, _, _] => return (length, offset, relocations)
  | _ => throw .valueError

/-- Two fields at once. -/
def pair : List Nat → Except Error (Nat × Nat)
  | [a, b] => return (a, b)
  | _ => throw .valueError

/-- `__grevir_irq`. -/
def machOName : List UInt8 := [95, 95, 103, 114, 101, 118, 105, 114, 95, 105, 114, 113]

/-- One turn of the loop over the sections of a command. -/
def machOFind (k : MachOClass) (data : List UInt8) (cursor : Nat) (found : List (List UInt8 × Nat))
    (index : Nat) : Except Error (List (List UInt8 × Nat)) := do
  let entry := cursor + k.segmentSize + index * k.sectionSize
  let name := untilZero (← region data entry 16)
  if name ≠ machOName then return found
  else
    let (length, offset, relocations) ←
      machOSection (← unpack .little k.sectionFormat data (entry + 32))
    let payload ← region data offset length
    return found ++ [(payload, relocations)]

/-- One turn of the loop over the load commands. -/
def machOCommand (k : MachOClass) (data : List UInt8) (commandsSize : Nat)
    (state : Nat × List (List UInt8 × Nat)) (_ : Nat) : Except Error (Nat × List (List UInt8 × Nat)) := do
  let (cursor, found) := state
  let _ ← region data cursor 8
  let (command, size) ← pair (← unpack .little [4, 4] data cursor)
  if size < 8 ∨ cursor + size > k.headerSize + commandsSize then
    objectError "invalid Mach-O load command"
  else if command = k.segmentCommand then
    if size < k.segmentSize then objectError "short Mach-O segment command"
    else
      let count ← head (← unpack .little [4] data (cursor + k.sectionCountOffset))
      if size < k.segmentSize + count * k.sectionSize then objectError "short Mach-O section table"
      else
        let found ← (List.range count).foldlM (machOFind k data cursor) found
        return (cursor + size, found)
  else return (cursor + size, found)

/-- `_mach_o`, of one width. -/
def machOOf (k : MachOClass) (data : List UInt8) : Except Error (List UInt8) := do
  let _ ← region data 0 k.headerSize
  let (commands, commandsSize) ← pair (← unpack .little [4, 4] data 16)
  let _ ← region data k.headerSize commandsSize
  let (_, found) ← (List.range commands).foldlM (machOCommand k data commandsSize) (k.headerSize, [])
  one found

/-- `_mach_o`. -/
def machO (data : List UInt8) : Except Error (List UInt8) := do
  let magic ← head (← unpack .little [4] data 0)
  if magic = 0xFEEDFACF then machOOf machO64 data
  else if magic = 0xFEEDFACE then machOOf machO32 data
  else objectError "unsupported Mach-O byte order or width"

/-! ### COFF -/

/-- What `int` skips around a number. -/
def isSpaceByte (b : UInt8) : Bool := b = 32 || (9 ≤ b && b ≤ 13)

def isDigitByte (b : UInt8) : Bool := 48 ≤ b && b ≤ 57

/-- Decimal digits, where one underscore may stand between two of them. -/
def decimal (n : Nat) (afterDigit : Bool) : List UInt8 → Option Nat
  | [] => if afterDigit then some n else none
  | b :: rest =>
      if isDigitByte b then decimal (n * 10 + (b.toNat - 48)) true rest
      else if b = 95 ∧ afterDigit then decimal n false rest
      else none

/-- `int(text)`, of some bytes. -/
def intOf (text : List UInt8) : Option Int :=
  let text := ((text.dropWhile isSpaceByte).reverse.dropWhile isSpaceByte).reverse
  match text with
  | [] => none
  | b :: rest =>
      if b = 43 then (decimal 0 false rest).map fun n => (n : Int)
      else if b = 45 then (decimal 0 false rest).map fun n => -(n : Int)
      else (decimal 0 false (b :: rest)).map fun n => (n : Int)

/-- The number that decimal digits spell. -/
def decimalValue (digits : List UInt8) : Nat :=
  Nat.ofDigits 10 (digits.reverse.map fun d => d.toNat - 48)

theorem decimal_digits {digits : List UInt8} (h : ∀ d ∈ digits, isDigitByte d) (n : Nat) :
    decimal n true digits = some (decimalValue digits + 10 ^ digits.length * n) := by
  induction digits generalizing n with
  | nil => simp [decimal, decimalValue]
  | cons d digits ih =>
      obtain ⟨hd, hrest⟩ := List.forall_mem_cons.mp h
      rw [decimal, if_pos hd, ih hrest]
      congr 1
      simp only [decimalValue, List.reverse_cons, List.map_append, List.map_cons, List.map_nil,
        Nat.ofDigits_append, Nat.ofDigits_singleton, List.length_map, List.length_reverse,
        List.length_cons]
      ring

/-- **`int` reads decimal digits.** -/
theorem intOf_digits {digits : List UInt8} (hne : digits ≠ []) (h : ∀ d ∈ digits, isDigitByte d) :
    intOf digits = some (decimalValue digits : Int) := by
  have hspace : ∀ d : UInt8, isDigitByte d = true → isSpaceByte d = false ∧ d ≠ 43 ∧ d ≠ 45 := by
    intro d hd
    simp only [isDigitByte, isSpaceByte, Bool.and_eq_true, Bool.or_eq_false_iff, Bool.and_eq_false_iff,
      decide_eq_true_eq, decide_eq_false_iff_not, UInt8.le_iff_toNat_le, ← UInt8.toNat_inj, ne_eq,
      UInt8.reduceToNat] at hd ⊢
    omega
  have hdrop : ∀ l : List UInt8, (∀ d ∈ l, isDigitByte d) → l.dropWhile isSpaceByte = l := by
    intro l hl
    cases l with
    | nil => rfl
    | cons d l => rw [List.dropWhile_cons, (hspace d (hl d List.mem_cons_self)).1]; rfl
  have hreverse : ∀ d ∈ digits.reverse, isDigitByte d := fun d hd => h d (List.mem_reverse.mp hd)
  cases digits with
  | nil => exact absurd rfl hne
  | cons d digits =>
      obtain ⟨hd, hrest⟩ := List.forall_mem_cons.mp h
      obtain ⟨-, hplus, hminus⟩ := hspace d hd
      have hdecimal : decimal 0 false (d :: digits) = some (decimalValue (d :: digits)) := by
        have hvalue := decimal_digits h 0
        rw [Nat.mul_zero, Nat.add_zero] at hvalue
        rw [← hvalue, decimal, decimal, if_pos hd, if_pos hd]
      rw [intOf, hdrop _ h, hdrop _ hreverse, List.reverse_reverse]
      show (if d = 43 then _ else if d = 45 then _ else _) = _
      rw [if_neg hplus, if_neg hminus, hdecimal]
      rfl

structure CoffHeader where
  machine : Nat
  count : Nat
  symbolsOffset : Nat
  symbolCount : Nat
  optionalSize : Nat

def coffHeader : List Nat → Except Error CoffHeader
  | [machine, count, _, symbolsOffset, symbolCount, optionalSize, _] =>
      return ⟨machine, count, symbolsOffset, symbolCount, optionalSize⟩
  | _ => throw .valueError

/-- The string table, which stands after the symbols if there are any. -/
def coffStrings (data : List UInt8) (h : CoffHeader) : Except Error (List UInt8) :=
  if h.symbolsOffset = 0 then return []
  else do
    let offset := h.symbolsOffset + h.symbolCount * 18
    let length ← head (← unpack .little [4] (← region data offset 4) 0)
    if length < 4 then objectError "invalid COFF string table" else region data offset length

/-- `int(digits)`. -/
def intAt (digits : List UInt8) : Except Error Int :=
  match intOf digits with
  | some n => return n
  | none => throw .valueError

/-- `except ValueError`, which an `ObjectSectionError` is. -/
def nameOffsetError {α : Type} : Except Error α → Except Error α
  | .error .valueError => objectError "invalid COFF section-name offset"
  | .error (.objectSection _) => objectError "invalid COFF section-name offset"
  | c => c

/-- The name of a section: by its offset where it starts with a slash. -/
def coffName (strings rawName : List UInt8) : Except Error String :=
  match rawName with
  | [] => return ""
  | c :: digits =>
      if c = 47 then nameOffsetError do cstring strings (← intAt digits)
      else decodeAscii (c :: digits) "non-ASCII COFF section name"

/-- One turn of the loop over the sections. -/
def coffFind (data strings : List UInt8) (sectionsOffset : Nat) (found : List (List UInt8 × Nat))
    (index : Nat) : Except Error (List (List UInt8 × Nat)) := do
  let s ← region data (sectionsOffset + index * 40) 40
  let name ← coffName strings (untilZero (s.take 8))
  if name ≠ ".grevir_irq_plan" then return found
  else
    let (length, offset) ← pair (← unpack .little [4, 4] s 16)
    let relocations ← head (← unpack .little [2] s 32)
    let payload ← region data offset length
    return found ++ [(payload, relocations)]

/-- `_coff`. -/
def coff (data : List UInt8) : Except Error (List UInt8) := do
  let _ ← region data 0 20
  let h ← coffHeader (← unpack .little [2, 2, 4, 4, 4, 2, 2] data 0)
  if h.machine ∉ [0x14C, 0x8664, 0xAA64] ∨ h.count = 0 then objectError "unsupported COFF header"
  else
    let sectionsOffset := 20 + h.optionalSize
    let _ ← region data sectionsOffset (h.count * 40)
    let strings ← coffStrings data h
    let found ← (List.range h.count).foldlM (coffFind data strings sectionsOffset) []
    one found

/-- `data.startswith(b"\x7fELF")`. -/
def isElf (data : List UInt8) : Bool := [0x7F, 69, 76, 70].isPrefixOf data

/-- `extract_interrupt_plan`. -/
def extractInterruptPlan (data : List UInt8) : Except Error (List UInt8) :=
  if isElf data then elf data
  else if data.length ≥ 4 then do
    let magic ← head (← unpack .little [4] data 0)
    if magic = 0xFEEDFACE ∨ magic = 0xFEEDFACF then machO data else coff data
  else coff data

end Grevir.Irqgen
