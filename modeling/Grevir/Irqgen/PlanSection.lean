import Grevir.Irqgen.ObjectSection

/-!
# Irqgen — PlanSection

What the formats say of an object's sections, by the places of their fields, and that the adapter
answers the one plan section of an object or refuses the object.

* `SectionTable.Supplies`: an object's one plan section, with its contents.
* `elf_ensures`, `machO_ensures`, `coff_ensures`: the three formats.
* `extract_coffObject`: an object with any plan section.
-/

namespace Grevir.Irqgen

open Fields

/-! ### Sections -/

/-- **The sections of an object**: which there are, and what their headers say. -/
structure SectionTable (ι : Type) where
  present : ι → Prop
  isPlan : ι → Bool
  offset : ι → Nat
  size : ι → Nat
  relocated : ι → Prop

/-- **`p` is what the object has in its one plan section**, which no relocation is recorded against. -/
def SectionTable.Supplies {ι : Type} (t : SectionTable ι) (data p : List UInt8) : Prop :=
  ∃ i, t.present i ∧ t.isPlan i ∧ (∀ j, t.present j → t.isPlan j → j = i) ∧ ¬ t.relocated i ∧
    t.offset i + t.size i ≤ data.length ∧ p = slice data (t.offset i) (t.size i) ∧ p ≠ []

/-- The name of the plan section in ELF and COFF. -/
def planName : List UInt8 := Utf8.bytes ".grevir_irq_plan"

/-! ### ELF -/

/-- The places of the fields in a header and in the entries of the section table, and the size of an
offset. -/
structure ElfLayout where
  word : Nat
  tableOffset : Nat
  entrySize : Nat
  count : Nat
  namesIndex : Nat
  offset : Nat
  size : Nat
  info : Nat

def elfLayout32 : ElfLayout := ⟨4, 32, 46, 48, 50, 16, 20, 28⟩

def elfLayout64 : ElfLayout := ⟨8, 40, 58, 60, 62, 24, 32, 44⟩

/-- Where an entry of the section table is. -/
def ElfLayout.entry (l : ElfLayout) (order : ByteOrder) (data : List UInt8) (i : Nat) : Nat :=
  field order data l.tableOffset l.word + i * field order data l.entrySize 2

/-- An entry of the section table. -/
def ElfLayout.header (l : ElfLayout) (order : ByteOrder) (data : List UInt8) (i : Nat) : ElfSection where
  name := field order data (l.entry order data i) 4
  type := field order data (l.entry order data i + 4) 4
  offset := field order data (l.entry order data i + l.offset) l.word
  size := field order data (l.entry order data i + l.size) l.word
  info := field order data (l.entry order data i + l.info) 4

def ElfLayout.table (l : ElfLayout) (order : ByteOrder) (data : List UInt8) : SectionTable Nat :=
  let count := field order data l.count 2
  let header := l.header order data
  let names := header (field order data l.namesIndex 2)
  { present := fun i => i < count
    isPlan := fun i => cstringAt (slice data names.offset names.size) (header i).name = planName
    offset := fun i => (header i).offset
    size := fun i => (header i).size
    relocated := fun i => ∃ j < count, ((header j).type = 4 ∨ (header j).type = 9) ∧
      (header j).info = i ∧ (header j).size ≠ 0 }

/-! ### Mach-O -/

structure MachOLayout where
  headerSize : Nat
  segment : Nat
  count : Nat
  sections : Nat
  sectionSize : Nat
  word : Nat
  size : Nat
  offset : Nat
  relocations : Nat

def machOLayout32 : MachOLayout := ⟨28, 0x1, 48, 56, 68, 4, 36, 40, 52⟩

def machOLayout64 : MachOLayout := ⟨32, 0x19, 64, 72, 80, 8, 40, 48, 60⟩

/-- Where a load command is: after those before it. -/
def MachOLayout.command (l : MachOLayout) (data : List UInt8) : Nat → Nat
  | 0 => l.headerSize
  | k + 1 => l.command data k + field .little data (l.command data k + 4) 4

/-- How many sections a load command has. -/
def MachOLayout.sectionCount (l : MachOLayout) (data : List UInt8) (k : Nat) : Nat :=
  if field .little data (l.command data k) 4 = l.segment then
    field .little data (l.command data k + l.count) 4
  else 0

/-- Where the header of a section is. -/
def MachOLayout.entry (l : MachOLayout) (data : List UInt8) (i : Nat × Nat) : Nat :=
  l.command data i.1 + l.sections + i.2 * l.sectionSize

/-- The sections by their load command and their place in it. -/
def MachOLayout.table (l : MachOLayout) (data : List UInt8) : SectionTable (Nat × Nat) where
  present i := i.1 < field .little data 16 4 ∧ i.2 < l.sectionCount data i.1
  isPlan i := untilZero (slice data (l.entry data i) 16) = machOName
  offset i := field .little data (l.entry data i + l.offset) 4
  size i := field .little data (l.entry data i + l.size) l.word
  relocated i := field .little data (l.entry data i + l.relocations) 4 ≠ 0

/-! ### COFF -/

/-- The strings long names are in. -/
def coffStringTable (data : List UInt8) : List UInt8 :=
  let symbols := field .little data 8 4
  let offset := symbols + field .little data 12 4 * 18
  if symbols = 0 then [] else slice data offset (field .little data offset 4)

/-- The name a section header says. -/
def coffNameOf (strings raw : List UInt8) : List UInt8 :=
  match raw with
  | [] => []
  | c :: digits =>
      if c = 47 then ((intOf digits).map fun n => cstringAt strings n.toNat).getD [] else c :: digits

/-- Where the header of a section is. -/
def coffEntry (data : List UInt8) (i : Nat) : Nat := 20 + field .little data 16 2 + i * 40

def coffTable (data : List UInt8) : SectionTable Nat where
  present i := i < field .little data 2 2
  isPlan i := coffNameOf (coffStringTable data) (untilZero (slice data (coffEntry data i) 8)) = planName
  offset i := field .little data (coffEntry data i + 20) 4
  size i := field .little data (coffEntry data i + 16) 4
  relocated i := field .little data (coffEntry data i + 32) 2 ≠ 0

/-! ### The parts of the adapter -/

def IsObjectError (e : Error) : Prop := ∃ message, e = .objectSection message

theorem objectError_ensures {α : Type} {Q : α → Prop} (message : String) :
    Ensures IsObjectError (objectError message) Q := .throw ⟨message, rfl⟩

theorem region_ensures (data : List UInt8) (offset size : Nat) :
    Ensures IsObjectError (region data offset size) fun r =>
      offset + size ≤ data.length ∧ r = slice data offset size := by
  unfold region
  split
  · exact objectError_ensures _
  · exact .pure ⟨by omega, rfl⟩

theorem unpack_eq {order : ByteOrder} {format : List Nat} {data : List UInt8} {offset : Nat}
    (h : offset + format.sum ≤ data.length) :
    unpack order format data offset = .ok (fields order data offset format) := unpackFrom_eq h

/-- An ASCII name is the plan's when its bytes are. -/
theorem decodeAscii_ensures (data : List UInt8) (message : String) :
    Ensures IsObjectError (decodeAscii data message) fun name =>
      name = ".grevir_irq_plan" ↔ data = planName := by
  unfold decodeAscii
  split
  · next h =>
    have hascii : ∀ b ∈ data, b.toNat < 128 := by simpa using h
    refine .pure ?_
    rw [← (Utf8.bytes_injective.eq_iff (a := Utf8.ofAscii data)), (Utf8.bytes_ofAscii hascii).2,
      planName]
  · exact objectError_ensures _

theorem cstring_ensures (data : List UInt8) (offset : Int) :
    Ensures IsObjectError (cstring data offset) fun name =>
      name = ".grevir_irq_plan" ↔ cstringAt data offset.toNat = planName := by
  unfold cstring
  split
  · exact objectError_ensures _
  · split
    · exact objectError_ensures _
    · exact decodeAscii_ensures _ _

/-! ### What has been found -/

section Found

variable {ι : Type} (t : SectionTable ι) (data : List UInt8)

/-- What is kept of a plan section. -/
structure Kept (i : ι) (m : List UInt8 × Nat) : Prop where
  inside : t.offset i + t.size i ≤ data.length
  payload : m.1 = slice data (t.offset i) (t.size i)
  relocations : m.2 = 0 → ¬ t.relocated i

/-- All the plan sections among some have been found. -/
def Found (is : List ι) (found : List (List UInt8 × Nat)) : Prop :=
  List.Forall₂ (Kept t data) (is.filter t.isPlan) found

variable {t data}

theorem found_nil : Found t data [] [] := List.Forall₂.nil

theorem Found.append {is js : List ι} {found : List (List UInt8 × Nat)} (h : Found t data is found)
    (hjs : ∀ j ∈ js, t.isPlan j = false) : Found t data (is ++ js) found := by
  have hnone : js.filter t.isPlan = [] := List.filter_eq_nil_iff.mpr fun j hj => by simp [hjs j hj]
  rw [Found, List.filter_append, hnone, List.append_nil]
  exact h

/-- One more section that is not the plan's. -/
theorem Found.skip {is : List ι} {i : ι} {found : List (List UInt8 × Nat)} (h : Found t data is found)
    (hi : t.isPlan i = false) : Found t data (is ++ [i]) found :=
  h.append fun j hj => by rwa [List.mem_singleton.mp hj]

/-- One more plan section. -/
theorem Found.keep {is : List ι} {i : ι} {found : List (List UInt8 × Nat)} {m : List UInt8 × Nat}
    (h : Found t data is found) (hi : t.isPlan i) (hm : Kept t data i m) :
    Found t data (is ++ [i]) (found ++ [m]) := by
  rw [Found, List.filter_append, List.filter_singleton, hi]
  exact List.rel_append h (.cons hm .nil)

/-- **Of all the sections, the one that is found is supplied.** -/
theorem one_ensures {is : List ι} {found : List (List UInt8 × Nat)} (h : Found t data is found)
    (his : ∀ i, i ∈ is ↔ t.present i) :
    Ensures IsObjectError (one found) (t.Supplies data) := by
  unfold one
  split
  · exact objectError_ensures _
  · next payload relocations =>
    split
    · exact objectError_ensures _
    · split
      · exact objectError_ensures _
      · next hrelocations hpayload =>
        refine .pure ?_
        cases hfilter : is.filter t.isPlan with
        | nil =>
            rw [Found, hfilter] at h
            cases h
        | cons i rest =>
            rw [Found, hfilter] at h
            cases h with
            | cons hm hrest =>
                cases hrest
                have hmem : ∀ j, j ∈ is ∧ t.isPlan j ↔ j = i := fun j => by
                  rw [← List.mem_filter, hfilter, List.mem_singleton]
                obtain ⟨hi, hplan⟩ := (hmem i).mpr rfl
                exact ⟨i, (his i).mp hi, hplan, fun j hj hjp => (hmem j).mp ⟨(his j).mpr hj, hjp⟩,
                  hm.relocations (not_not.mp hrelocations), hm.inside, hm.payload, hpayload⟩
  · exact objectError_ensures _

end Found

/-! ### ELF -/

/-- What a class is to the adapter and to the format. -/
structure ElfClass.Fits (k : ElfClass) (l : ElfLayout) : Prop where
  word : k.tableOffset = l.tableOffset ∧ k.tableOffsetSize = l.word
  counts : k.counts = l.entrySize ∧ l.entrySize + 2 = l.count ∧ l.count + 2 = l.namesIndex
  tableInside : k.tableOffset + k.tableOffsetSize ≤ k.headerSize
  countsInside : k.counts + 6 ≤ k.headerSize
  entry : ∀ order data offset, elfSection (fields order data offset k.sectionFormat) =
    .ok ⟨field order data offset 4, field order data (offset + 4) 4,
      field order data (offset + l.offset) l.word, field order data (offset + l.size) l.word,
      field order data (offset + l.info) 4⟩

theorem elf32_fits : elf32.Fits elfLayout32 :=
  ⟨⟨rfl, rfl⟩, ⟨rfl, rfl, rfl⟩, by decide, by decide, fun _ _ _ => rfl⟩

theorem elf64_fits : elf64.Fits elfLayout64 :=
  ⟨⟨rfl, rfl⟩, ⟨rfl, rfl, rfl⟩, by decide, by decide, fun _ _ _ => rfl⟩

theorem sectionAt_map {f : Nat → ElfSection} {n i : Nat} (h : i < n) :
    sectionAt ((List.range n).map f) i = .ok (f i) := by
  rw [sectionAt, List.getElem?_map, List.getElem?_range h]
  rfl

/-- One turn of the loop, where all the section headers have been read. -/
theorem elfFind_ensures {l : ElfLayout} {order : ByteOrder} {data : List UInt8}
    {found : List (List UInt8 × Nat)} {i : Nat} (hi : i < field order data l.count 2)
    (h : Found (l.table order data) data (List.range i) found) :
    let names := l.header order data (field order data l.namesIndex 2)
    Ensures IsObjectError (elfFind data (slice data names.offset names.size)
      ((List.range (field order data l.count 2)).map (l.header order data)) found i)
      (Found (l.table order data) data (List.range (i + 1))) := by
  intro names
  rw [List.range_succ]
  unfold elfFind
  refine .value (sectionAt_map hi) ((cstring_ensures _ _).bind fun name hname => ?_)
  have hplan : (l.table order data).isPlan i ↔ name = ".grevir_irq_plan" :=
    decide_eq_true_iff.trans hname.symm
  split
  · next hne => exact .pure (h.skip (by simpa using mt hplan.mp hne))
  · next heq =>
    refine (region_ensures _ _ _).bind fun payload ⟨hinside, hpayload⟩ => ?_
    refine .pure (h.keep (hplan.mpr (not_not.mp heq)) ⟨hinside, hpayload, fun hzero => ?_⟩)
    -- no section that relocates is counted
    rintro ⟨j, hj, htype, hinfo, hsize⟩
    rw [elfRelocations, List.countP_eq_zero] at hzero
    exact hzero _ (List.mem_map_of_mem (List.mem_range.mpr hj))
      (decide_eq_true ⟨htype, hinfo, hsize⟩)

theorem elfOf_ensures {k : ElfClass} {l : ElfLayout} (hk : k.Fits l) (order : ByteOrder)
    (data : List UInt8) :
    Ensures IsObjectError (elfOf k order data) ((l.table order data).Supplies data) := by
  obtain ⟨⟨htable, hword⟩, ⟨hsize, hcount, hnames⟩, htableInside, hcountsInside, hentry⟩ := hk
  unfold elfOf
  refine (region_ensures data 0 k.headerSize).bind fun _ hheader => ?_
  have hlength : k.headerSize ≤ data.length := by omega
  refine .value (unpack_eq (by simp; omega)) (.value rfl ?_)
  refine .value (unpack_eq (by simp; omega)) (.value rfl ?_)
  simp only [htable, hword, hsize, hcount, hnames]
  split
  · exact objectError_ensures _
  split
  · exact objectError_ensures _
  next hcounts hentrySize =>
  refine (region_ensures _ _ _).bind fun _ ⟨hinside, _⟩ => ?_
  have hsections : ∀ i ∈ List.range (field order data l.count 2),
      Ensures IsObjectError (do elfSection (← unpack order k.sectionFormat data
        (field order data l.tableOffset l.word + i * field order data l.entrySize 2)))
        fun s => s = l.header order data i := by
    intro i hi
    have hmul : (i + 1) * field order data l.entrySize 2 ≤
        field order data l.entrySize 2 * field order data l.count 2 := by
      rw [Nat.mul_comm]
      exact Nat.mul_le_mul_left _ (List.mem_range.mp hi)
    rw [Nat.succ_mul] at hmul
    refine .value (unpack_eq (by omega)) ?_
    rw [hentry]
    exact .pure rfl
  refine (Ensures.mapM hsections).bind fun sections hread => ?_
  have heq : sections = (List.range (field order data l.count 2)).map (l.header order data) := by
    have hmap := List.forall₂_map_left_iff.mpr (hread.imp fun _ _ => Eq.symm)
    rw [List.forall₂_eq_eq_eq] at hmap
    exact hmap.symm
  rw [heq]
  refine .value (sectionAt_map (by omega)) ?_
  refine (region_ensures _ _ _).bind fun names ⟨_, hnamesEq⟩ => ?_
  rw [hnamesEq]
  refine (Ensures.foldlM_range (fun i found => Found (l.table order data) data (List.range i) found)
    _ found_nil fun i hi found h => elfFind_ensures hi h).bind fun found h => ?_
  exact one_ensures h fun i => List.mem_range

/-- The table of an ELF object, of the class and byte order its identification says. -/
def elfTable (data : List UInt8) : SectionTable Nat :=
  (if data[4]? = some 1 then elfLayout32 else elfLayout64).table
    (if data[5]? = some 1 then .little else .big) data

theorem byteAt_eq {data : List UInt8} {i : Nat} (h : i < data.length) :
    byteAt data i = .ok data[i] := by
  rw [byteAt, List.getElem?_eq_getElem h]
  rfl

theorem elf_ensures (data : List UInt8) :
    Ensures IsObjectError (elf data) ((elfTable data).Supplies data) := by
  unfold elf
  split
  · exact objectError_ensures _
  next hlength =>
  refine .value (byteAt_eq (by omega)) (.value (byteAt_eq (by omega)) ?_)
  split
  · exact objectError_ensures _
  have hwidth : data[4]? = some 1 ↔ data[4] = 1 := by
    rw [List.getElem?_eq_getElem (by omega), Option.some.injEq]
  have hendian : data[5]? = some 1 ↔ data[5] = 1 := by
    rw [List.getElem?_eq_getElem (by omega), Option.some.injEq]
  simp only [elfTable, hwidth, hendian]
  by_cases h : data[4] = 1
  · rw [if_pos h, if_pos h]
    exact elfOf_ensures elf32_fits _ data
  · rw [if_neg h, if_neg h]
    exact elfOf_ensures elf64_fits _ data

/-! ### Mach-O -/

/-- What a width is to the adapter and to the format. -/
structure MachOClass.Fits (k : MachOClass) (l : MachOLayout) : Prop where
  header : k.headerSize = l.headerSize ∧ 24 ≤ k.headerSize
  command : k.segmentCommand = l.segment ∧ k.segmentSize = l.sections ∧ k.sectionSize = l.sectionSize
  count : k.sectionCountOffset = l.count ∧ l.count + 4 ≤ l.sections
  entry : 32 + k.sectionFormat.sum = l.sectionSize ∧ ∀ data offset,
    machOSection (fields .little data (offset + 32) k.sectionFormat) =
      .ok (field .little data (offset + l.size) l.word, field .little data (offset + l.offset) 4,
        field .little data (offset + l.relocations) 4)

theorem machO32_fits : machO32.Fits machOLayout32 :=
  ⟨⟨rfl, by decide⟩, ⟨rfl, rfl, rfl⟩, ⟨rfl, by decide⟩, rfl, fun _ _ => rfl⟩

theorem machO64_fits : machO64.Fits machOLayout64 :=
  ⟨⟨rfl, by decide⟩, ⟨rfl, rfl, rfl⟩, ⟨rfl, by decide⟩, rfl, fun _ _ => rfl⟩

/-- The sections of the first load commands, in order. -/
def MachOLayout.before (l : MachOLayout) (data : List UInt8) (k : Nat) : List (Nat × Nat) :=
  (List.range k).flatMap fun c => (List.range (l.sectionCount data c)).map fun i => (c, i)

theorem MachOLayout.before_succ (l : MachOLayout) (data : List UInt8) (k : Nat) :
    l.before data (k + 1) =
      l.before data k ++ (List.range (l.sectionCount data k)).map fun i => (k, i) := by
  rw [before, before, List.range_succ, List.flatMap_append, List.flatMap_singleton]

theorem mem_before {l : MachOLayout} {data : List UInt8} {k : Nat} {i : Nat × Nat} :
    i ∈ l.before data k ↔ i.1 < k ∧ i.2 < l.sectionCount data i.1 := by
  obtain ⟨c, i⟩ := i
  simp [MachOLayout.before]

/-- One turn of the loop over the sections of a load command. -/
theorem machOFind_ensures {k : MachOClass} {l : MachOLayout} (hk : k.Fits l) {data : List UInt8}
    {c i : Nat} {found : List (List UInt8 × Nat)} {is : List (Nat × Nat)}
    (hinside : l.entry data (c, i) + l.sectionSize ≤ data.length)
    (h : Found (l.table data) data is found) :
    Ensures IsObjectError (machOFind k data (l.command data c) found i)
      (Found (l.table data) data (is ++ [(c, i)])) := by
  obtain ⟨-, ⟨-, hsegment, hsection⟩, -, hsum, hentry⟩ := hk
  unfold machOFind
  simp only [hsegment, hsection]
  refine (region_ensures _ _ _).bind fun name ⟨_, hname⟩ => ?_
  rw [hname]
  have hplan : (l.table data).isPlan (c, i) ↔ untilZero (slice data (l.entry data (c, i)) 16) = machOName :=
    decide_eq_true_iff
  split
  · next hne => exact .pure (h.skip (by simpa using mt hplan.mp hne))
  · next heq =>
    have hend : l.command data c + l.sections + i * l.sectionSize + l.sectionSize ≤ data.length :=
      hinside
    refine .value (unpack_eq (by omega)) (.value (hentry data _) ?_)
    refine (region_ensures _ _ _).bind fun payload ⟨hfits, hpayload⟩ => ?_
    exact .pure (h.keep (hplan.mpr (not_not.mp heq)) ⟨hfits, hpayload, fun hzero hne => hne hzero⟩)

/-- What holds before a load command: where it is, that it is in the commands' part of the file, and
what the commands before it have. -/
structure CommandState (l : MachOLayout) (data : List UInt8) (k : Nat)
    (state : Nat × List (List UInt8 × Nat)) : Prop where
  cursor : state.1 = l.command data k
  found : Found (l.table data) data (l.before data k) state.2

theorem machOCommand_ensures {k : MachOClass} {l : MachOLayout} (hk : k.Fits l) {data : List UInt8}
    {commandsSize c : Nat} (hinside : l.headerSize + commandsSize ≤ data.length)
    {state : Nat × List (List UInt8 × Nat)} (h : CommandState l data c state) :
    Ensures IsObjectError (machOCommand k data commandsSize state c) (CommandState l data (c + 1)) := by
  have hk' := hk
  obtain ⟨⟨hheader, -⟩, ⟨hsegment, hsections, hsectionSize⟩, ⟨hcount, hcountInside⟩, hentry⟩ := hk'
  obtain ⟨cursor, found⟩ := state
  obtain ⟨rfl, hfound⟩ := h
  unfold machOCommand
  refine (region_ensures _ _ _).bind fun _ ⟨hcommand, _⟩ => ?_
  refine .value (unpack_eq (by simpa using hcommand)) (.value rfl ?_)
  simp only [hheader, hsegment, hsections, hsectionSize, hcount]
  split
  · exact objectError_ensures _
  next hsize =>
  have hnone : field .little data (l.command data c) 4 ≠ l.segment → l.sectionCount data c = 0 :=
    fun hne => if_neg hne
  split
  · next heq =>
    split
    · exact objectError_ensures _
    next hsegmentSize =>
    refine .value (unpack_eq (by simp; omega)) (.value rfl ?_)
    split
    · exact objectError_ensures _
    next htable =>
    have hsectionCount : l.sectionCount data c = field .little data (l.command data c + l.count) 4 :=
      if_pos heq
    refine (Ensures.foldlM_range (fun i found => Found (l.table data) data
      (l.before data c ++ (List.range i).map fun j => (c, j)) found) _ ?_ fun i hi found h => ?_).bind
      fun found h => .pure ⟨rfl, ?_⟩
    · rw [List.range_zero, List.map_nil, List.append_nil]
      exact hfound
    · have hmul : (i + 1) * l.sectionSize ≤
          field .little data (l.command data c + l.count) 4 * l.sectionSize :=
        Nat.mul_le_mul_right _ hi
      rw [Nat.succ_mul] at hmul
      have hend : l.entry data (c, i) + l.sectionSize ≤ data.length := by
        show l.command data c + l.sections + i * l.sectionSize + l.sectionSize ≤ data.length
        omega
      rw [List.range_succ, List.map_append, ← List.append_assoc]
      exact machOFind_ensures hk hend h
    · rw [MachOLayout.before_succ, hsectionCount]
      exact h
  · next hne =>
    refine .pure ⟨rfl, ?_⟩
    rw [MachOLayout.before_succ, hnone hne, List.range_zero, List.map_nil, List.append_nil]
    exact hfound

theorem machOOf_ensures {k : MachOClass} {l : MachOLayout} (hk : k.Fits l) (data : List UInt8) :
    Ensures IsObjectError (machOOf k data) ((l.table data).Supplies data) := by
  obtain ⟨hheader, hsize⟩ := hk.header
  unfold machOOf
  refine (region_ensures _ _ _).bind fun _ ⟨hinside, _⟩ => ?_
  refine .value (unpack_eq (by simp; omega)) (.value rfl ?_)
  refine (region_ensures _ _ _).bind fun _ ⟨hcommands, _⟩ => ?_
  rw [hheader] at hcommands ⊢
  refine (Ensures.foldlM_range (CommandState l data) _ ⟨rfl, found_nil⟩ fun c _ state h =>
    machOCommand_ensures hk hcommands h).bind fun state h => ?_
  exact one_ensures h.found fun i => mem_before

/-- The table of a Mach-O object, of the width its magic number says. -/
def machOTable (data : List UInt8) : SectionTable (Nat × Nat) :=
  (if field .little data 0 4 = 0xFEEDFACF then machOLayout64 else machOLayout32).table data

theorem machO_ensures {data : List UInt8} (h : 4 ≤ data.length) :
    Ensures IsObjectError (machO data) ((machOTable data).Supplies data) := by
  unfold machO machOTable
  refine .value (unpack_eq (by simpa using h)) (.value rfl ?_)
  split
  · exact machOOf_ensures machO64_fits data
  · split
    · exact machOOf_ensures machO32_fits data
    · exact objectError_ensures _

/-! ### COFF -/

theorem coffStrings_ensures (data : List UInt8) (h : CoffHeader)
    (hsymbols : h.symbolsOffset = field .little data 8 4)
    (hcount : h.symbolCount = field .little data 12 4) :
    Ensures IsObjectError (coffStrings data h) fun strings => strings = coffStringTable data := by
  unfold coffStrings coffStringTable
  rw [hsymbols, hcount]
  split
  · next hnone => exact .pure (if_pos hnone).symm
  · next hsome =>
    refine (region_ensures _ _ _).bind fun s ⟨hinside, hs⟩ => ?_
    have hlength : s.length = 4 := by rw [hs, length_slice hinside]
    refine .value (unpack_eq (by simp [hlength])) (.value rfl ?_)
    split
    · exact objectError_ensures _
    · refine (region_ensures _ _ _).weaken fun strings ⟨_, hstrings⟩ => ?_
      rw [hstrings, hs, field_slice (by decide)]
      exact (if_neg hsome).symm

theorem nameOffsetError_ensures {α : Type} {c : Except Error α} {Q : α → Prop}
    (h : Ensures (fun e => e = .valueError ∨ IsObjectError e) c Q) :
    Ensures IsObjectError (nameOffsetError c) Q := by
  cases c with
  | ok a => exact .pure (h.ok a rfl)
  | error e =>
      rcases h.raises e rfl with rfl | ⟨message, rfl⟩
      · exact objectError_ensures _
      · exact objectError_ensures _

theorem coffName_ensures (strings raw : List UInt8) :
    Ensures IsObjectError (coffName strings raw) fun name =>
      name = ".grevir_irq_plan" ↔ coffNameOf strings raw = planName := by
  cases raw with
  | nil =>
      have hne : ([] : List UInt8) ≠ planName := by decide
      exact .pure (iff_of_false (by decide) hne)
  | cons c digits =>
      unfold coffName coffNameOf
      simp only
      split
      · refine nameOffsetError_ensures ?_
        cases hn : intOf digits with
        | none =>
            rw [intAt, hn]
            exact .throw (.inl rfl)
        | some n =>
            refine .value (a := n) (by rw [intAt, hn]; rfl) ?_
            exact ⟨(cstring_ensures strings n).ok, fun e he => .inr ((cstring_ensures strings n).raises e he)⟩
      · exact decodeAscii_ensures _ _

theorem coffFind_ensures {data : List UInt8} {sectionsOffset i : Nat}
    {found : List (List UInt8 × Nat)} (hoffset : sectionsOffset = 20 + field .little data 16 2)
    (h : Found (coffTable data) data (List.range i) found) :
    Ensures IsObjectError (coffFind data (coffStringTable data) sectionsOffset found i)
      (Found (coffTable data) data (List.range (i + 1))) := by
  rw [List.range_succ]
  unfold coffFind
  refine (region_ensures _ _ _).bind fun s ⟨hinside, hs⟩ => ?_
  have hlength : s.length = 40 := by rw [hs, length_slice hinside]
  have hentry : sectionsOffset + i * 40 = coffEntry data i := by rw [hoffset, coffEntry]
  have hraw : s.take 8 = slice data (coffEntry data i) 8 := by
    rw [hs, ← hentry]
    exact @slice_slice data _ 40 0 8 (by decide)
  have hfield : ∀ {place size}, place + size ≤ 40 →
      field .little s place size = field .little data (coffEntry data i + place) size := by
    intro place size hle
    rw [hs, field_slice hle, hentry]
  rw [hraw]
  refine (coffName_ensures _ _).bind fun name hname => ?_
  have hplan : (coffTable data).isPlan i ↔ name = ".grevir_irq_plan" :=
    decide_eq_true_iff.trans hname.symm
  split
  · next hne => exact .pure (h.skip (by simpa using mt hplan.mp hne))
  · next heq =>
    refine .value (unpack_eq (by simp [hlength])) (.value rfl ?_)
    refine .value (unpack_eq (by simp [hlength])) (.value rfl ?_)
    refine (region_ensures _ _ _).bind fun payload ⟨hfits, hpayload⟩ => ?_
    rw [hfield (by decide), hfield (by decide)] at hfits hpayload
    rw [hfield (by decide)]
    exact .pure (h.keep (hplan.mpr (not_not.mp heq)) ⟨hfits, hpayload, fun hzero hne => hne hzero⟩)

theorem coff_ensures (data : List UInt8) :
    Ensures IsObjectError (coff data) ((coffTable data).Supplies data) := by
  unfold coff
  refine (region_ensures _ _ _).bind fun _ ⟨hinside, _⟩ => ?_
  refine .value (unpack_eq (by simpa using hinside)) (.value rfl ?_)
  split
  · exact objectError_ensures _
  refine (region_ensures _ _ _).bind fun _ _ => ?_
  refine (coffStrings_ensures data _ rfl rfl).bind fun strings hstrings => ?_
  rw [hstrings]
  refine (Ensures.foldlM_range (fun i found => Found (coffTable data) data (List.range i) found) _
    found_nil fun i _ found h => coffFind_ensures rfl h).bind fun found h => ?_
  exact one_ensures h fun i => List.mem_range

/-! ### Any object -/

/-- **The object supplies `p` as its plan section**, whatever its format. -/
def SuppliesPlan (data p : List UInt8) : Prop :=
  if isElf data then (elfTable data).Supplies data p
  else if 4 ≤ data.length ∧ (field .little data 0 4 = 0xFEEDFACE ∨ field .little data 0 4 = 0xFEEDFACF)
    then (machOTable data).Supplies data p
  else (coffTable data).Supplies data p

theorem extract_ensures (data : List UInt8) :
    Ensures IsObjectError (extractInterruptPlan data) (SuppliesPlan data) := by
  unfold extractInterruptPlan SuppliesPlan
  split
  · exact elf_ensures data
  split
  · next hlength =>
    refine .value (unpack_eq (by simpa using hlength)) (.value rfl ?_)
    have hlength' : 4 ≤ data.length := hlength
    simp only [hlength', true_and]
    split
    · exact machO_ensures hlength
    · exact coff_ensures data
  · next hlength =>
    have hlength' : ¬ 4 ≤ data.length := hlength
    simp only [hlength', false_and, if_false]
    exact coff_ensures data

/-- **Every byte string is refused as an object, or supplies what is answered.** -/
theorem extract_exact (data : List UInt8) :
    (∃ message, extractInterruptPlan data = .error (.objectSection message)) ∨
      ∃ p, extractInterruptPlan data = .ok p ∧ SuppliesPlan data p := by
  have h := extract_ensures data
  cases heq : extractInterruptPlan data with
  | ok p => exact .inr ⟨p, rfl, h.ok p heq⟩
  | error e =>
      obtain ⟨message, rfl⟩ := h.raises e heq
      exact .inl ⟨message, rfl⟩

/-! ### An object with a plan section -/

/-- The header of a plan section in a COFF object, by its long name. -/
def coffPlanHeader (payload : List UInt8) : List UInt8 :=
  [47, 52, 0, 0, 0, 0, 0, 0, 0, 0, 0, 0, 0, 0, 0, 0] ++ Codec.le 4 payload.length
    ++ [81, 0, 0, 0, 0, 0, 0, 0, 0, 0, 0, 0, 0, 0, 0, 0, 0, 0, 0, 0]

/-- The string table with the name of the plan section. -/
def coffPlanNames : List UInt8 := [21, 0, 0, 0] ++ planName ++ [0]

/-- A COFF object with nothing but a plan section. -/
def coffObject (payload : List UInt8) : List UInt8 :=
  [0x64, 0x86, 1, 0, 0, 0, 0, 0, 60, 0, 0, 0, 0, 0, 0, 0, 0, 0, 0, 0]
    ++ coffPlanHeader payload ++ coffPlanNames ++ payload

theorem planName_eq : planName =
    [46, 103, 114, 101, 118, 105, 114, 95, 105, 114, 113, 95, 112, 108, 97, 110] := by decide

theorem region_eq {data : List UInt8} {offset size : Nat} (h : offset + size ≤ data.length) :
    region data offset size = .ok (slice data offset size) := by
  rw [region, if_neg (by omega)]
  rfl

theorem length_coffPlanHeader (payload : List UInt8) : (coffPlanHeader payload).length = 40 := by
  simp [coffPlanHeader]

theorem length_coffObject (payload : List UInt8) :
    (coffObject payload).length = 81 + payload.length := by
  simp [coffObject, coffPlanNames, length_coffPlanHeader, planName_eq]
  omega

theorem coffStrings_coffObject (payload : List UInt8) :
    coffStrings (coffObject payload) ⟨0x8664, 1, 60, 0, 0⟩ = .ok coffPlanNames := by
  have hlength := length_coffObject payload
  have hsize : region (coffObject payload) 60 4 = .ok [21, 0, 0, 0] := region_eq (by omega)
  have htable : region (coffObject payload) 60 21 = .ok coffPlanNames := by
    rw [region_eq (by omega), slice, coffObject, coffPlanHeader, coffPlanNames, planName_eq]
    simp [Codec.le]
  rw [coffStrings, if_neg (by simp)]
  exact except_bind_eq_ok.mpr ⟨_, hsize, except_bind_eq_ok.mpr ⟨_, rfl,
    except_bind_eq_ok.mpr ⟨_, rfl, htable⟩⟩⟩

/-- The one turn of the loop finds the plan section. -/
theorem coffFind_coffObject {payload : List UInt8} (h : payload.length < 2 ^ 32) :
    coffFind (coffObject payload) coffPlanNames 20 [] 0 = .ok [(payload, 0)] := by
  have hlength := length_coffObject payload
  have hheader := length_coffPlanHeader payload
  have hsection : region (coffObject payload) 20 40 = .ok (coffPlanHeader payload) :=
    region_eq (by omega)
  have hname : coffName coffPlanNames [47, 52] = .ok ".grevir_irq_plan" := rfl
  have hplace : unpack .little [4, 4] (coffPlanHeader payload) 16 = .ok [payload.length, 81] := by
    have hsize : Codec.fromLe (Codec.le 4 payload.length) = payload.length := by
      rw [Codec.fromLe_le]
      exact Nat.mod_eq_of_lt h
    have hslice : slice (coffPlanHeader payload) 16 4 = Codec.le 4 payload.length := by
      simp [coffPlanHeader, slice]
    rw [unpack_eq (by simp [hheader])]
    show Except.ok [Codec.fromLe (slice (coffPlanHeader payload) 16 4), _] = _
    rw [hslice, hsize]
    simp [field, slice, coffPlanHeader, number, Codec.fromLe]
  have hrelocations : unpack .little [2] (coffPlanHeader payload) 32 = .ok [0] := by
    rw [unpack_eq (by simp [hheader])]
    simp [fields, field, slice, coffPlanHeader, number, Codec.fromLe, Codec.le]
  have hpayload : region (coffObject payload) 81 payload.length = .ok payload := by
    rw [region_eq (by omega), slice]
    simp [coffObject, coffPlanHeader, coffPlanNames, planName_eq, Codec.le]
  exact except_bind_eq_ok.mpr ⟨_, hsection, except_bind_eq_ok.mpr ⟨_, hname,
    except_bind_eq_ok.mpr ⟨_, hplace, except_bind_eq_ok.mpr ⟨_, rfl,
    except_bind_eq_ok.mpr ⟨_, hrelocations, except_bind_eq_ok.mpr ⟨_, rfl,
    except_bind_eq_ok.mpr ⟨_, hpayload, rfl⟩⟩⟩⟩⟩⟩⟩

/-- **What an object has in its plan section is extracted**, whatever it is. -/
theorem extract_coffObject {payload : List UInt8} (hne : payload ≠ [])
    (h : payload.length < 2 ^ 32) : extractInterruptPlan (coffObject payload) = .ok payload := by
  have hlength := length_coffObject payload
  have hmagic : unpack .little [4] (coffObject payload) 0 = .ok [0x18664] := by
    rw [unpack_eq (by simp; omega)]
    simp [fields, field, slice, coffObject, number, Codec.fromLe]
  have hheader : unpack .little [2, 2, 4, 4, 4, 2, 2] (coffObject payload) 0 =
      .ok [0x8664, 1, 0, 60, 0, 0, 0] := by
    rw [unpack_eq (by simp; omega)]
    simp [fields, field, slice, coffObject, number, Codec.fromLe]
  have hcoff : coff (coffObject payload) = .ok payload := by
    refine except_bind_eq_ok.mpr ⟨_, region_eq (by omega), except_bind_eq_ok.mpr ⟨_, hheader,
      except_bind_eq_ok.mpr ⟨_, rfl, ?_⟩⟩⟩
    rw [if_neg (by simp)]
    refine except_bind_eq_ok.mpr ⟨_, region_eq (by simp; omega), except_bind_eq_ok.mpr
      ⟨_, coffStrings_coffObject payload, except_bind_eq_ok.mpr
      ⟨_, except_bind_eq_ok.mpr ⟨_, coffFind_coffObject h, rfl⟩, ?_⟩⟩⟩
    rw [one, if_neg (by simp), if_neg hne]
    rfl
  have hnot : isElf (coffObject payload) = false := rfl
  rw [extractInterruptPlan, hnot, if_neg Bool.false_ne_true, if_pos (by omega)]
  refine except_bind_eq_ok.mpr ⟨_, hmagic, except_bind_eq_ok.mpr ⟨_, rfl, ?_⟩⟩
  rw [if_neg (by simp)]
  exact hcoff

end Grevir.Irqgen
