import Grevir.Irqgen.PlanSection

/-!
# Irqgen — Objects

What an object must be by its format for its sections to be there to read, what the adapter supports of
each format, and that no well-formed object is refused for anything but its plan section and these
limits.

* `ElfLayout.WellFormed`, `MachOLayout.WellFormed`, `CoffWellFormed`: the three formats.
* `ElfLayout.Supported`, `CoffSupported`: the adapter's own limits.  Of Mach-O it has none.
* `extract_complete`: of a well-formed object, the plan section is answered exactly if the object is
  supported, there is one, with contents, and no relocation is recorded against it.
-/

namespace Grevir.Irqgen

open Fields

/-! ### Well-formed objects -/

/-- A name stands in a string table, and ends there. -/
structure NameIn (strings : List UInt8) (offset : Nat) : Prop where
  inside : offset < strings.length
  ends : 0 ∈ strings.drop offset

/-- A name of ASCII characters. -/
def AsciiName (name : List UInt8) : Prop := ∀ b ∈ name, b.toNat < 128

/-- The size of a header, and of an entry of the section table. -/
def ElfLayout.headerSize (l : ElfLayout) : Nat := l.namesIndex + 2

def ElfLayout.entryBytes (l : ElfLayout) : Nat := l.info + 4 + 2 * l.word

/-- The string table with the names of the sections. -/
def ElfLayout.strings (l : ElfLayout) (order : ByteOrder) (data : List UInt8) : List UInt8 :=
  let names := l.header order data (field order data l.namesIndex 2)
  slice data names.offset names.size

/-- A section table that is in the file, with the names of the sections, if they have any.  The first
section is the null section.  Where the header does not have room for the number of sections it says
0, and its index of the names is out of range. -/
structure ElfLayout.WellFormed (l : ElfLayout) (order : ByteOrder) (data : List UInt8) : Prop where
  header : l.headerSize ≤ data.length
  entry : field order data l.count 2 ≠ 0 → l.entryBytes ≤ field order data l.entrySize 2
  table : field order data l.tableOffset l.word +
    field order data l.entrySize 2 * field order data l.count 2 ≤ data.length
  null : field order data l.count 2 ≠ 0 → (l.header order data 0).size = 0
  inside : field order data l.namesIndex 2 < field order data l.count 2 →
    (l.header order data (field order data l.namesIndex 2)).offset +
      (l.header order data (field order data l.namesIndex 2)).size ≤ data.length
  named : field order data l.namesIndex 2 ≠ 0 →
    field order data l.namesIndex 2 < field order data l.count 2 →
    ∀ i < field order data l.count 2, NameIn (l.strings order data) (l.header order data i).name

/-- **What the adapter supports of ELF**: the header itself counts the sections and says where their names
are, and the names are ASCII. -/
structure ElfLayout.Supported (l : ElfLayout) (order : ByteOrder) (data : List UInt8) : Prop where
  names : field order data l.namesIndex 2 ≠ 0
  counted : field order data l.namesIndex 2 < field order data l.count 2
  ascii : ∀ i < field order data l.count 2,
    AsciiName (cstringAt (l.strings order data) (l.header order data i).name)

/-- The size of a load command. -/
def MachOLayout.commandSize (l : MachOLayout) (data : List UInt8) (c : Nat) : Nat :=
  field .little data (l.command data c + 4) 4

/-- Load commands that are in the file, each with the headers of its sections. -/
structure MachOLayout.WellFormed (l : MachOLayout) (data : List UInt8) : Prop where
  header : l.headerSize ≤ data.length
  commands : l.headerSize + field .little data 20 4 ≤ data.length
  command : ∀ c < field .little data 16 4, 8 ≤ l.commandSize data c ∧
    l.command data c + l.commandSize data c ≤ l.headerSize + field .little data 20 4
  segment : ∀ c < field .little data 16 4, field .little data (l.command data c) 4 = l.segment →
    l.sections + l.sectionCount data c * l.sectionSize ≤ l.commandSize data c

/-- A short name, or a slash and the place of a long one in decimal digits. -/
def CoffNamed (strings raw : List UInt8) : Prop :=
  match raw with
  | [] => True
  | c :: digits =>
      c = 47 → digits ≠ [] ∧ (∀ d ∈ digits, isDigitByte d) ∧ NameIn strings (decimalValue digits)

/-- The name field of a section header, before its padding. -/
def coffRawName (data : List UInt8) (i : Nat) : List UInt8 := untilZero (slice data (coffEntry data i) 8)

/-- A section table that is in the file, with the names of the sections, and a string table after the
symbols if there are any. -/
structure CoffWellFormed (data : List UInt8) : Prop where
  header : 20 ≤ data.length
  table : 20 + field .little data 16 2 + field .little data 2 2 * 40 ≤ data.length
  strings : field .little data 8 4 ≠ 0 →
    4 ≤ field .little data (field .little data 8 4 + field .little data 12 4 * 18) 4 ∧
      field .little data 8 4 + field .little data 12 4 * 18 +
        field .little data (field .little data 8 4 + field .little data 12 4 * 18) 4 ≤ data.length
  named : ∀ i < field .little data 2 2, CoffNamed (coffStringTable data) (coffRawName data i)

/-- **What the adapter supports of COFF**: the machines i386, AMD64 and ARM64, and ASCII names. -/
structure CoffSupported (data : List UInt8) : Prop where
  machine : field .little data 0 2 ∈ [0x14C, 0x8664, 0xAA64]
  ascii : ∀ i < field .little data 2 2,
    AsciiName (coffNameOf (coffStringTable data) (coffRawName data i))

/-! ### What is read -/

theorem head_fields (order : ByteOrder) (data : List UInt8) (offset size : Nat) :
    head (fields order data offset [size]) = .ok (field order data offset size) := rfl

theorem elfCounts_fields (order : ByteOrder) (data : List UInt8) (offset : Nat) :
    elfCounts (fields order data offset [2, 2, 2]) =
      .ok (field order data offset 2, field order data (offset + 2) 2, field order data (offset + 2 + 2) 2) :=
  rfl

theorem coffHeader_fields (data : List UInt8) :
    coffHeader (fields .little data 0 [2, 2, 4, 4, 4, 2, 2]) =
      .ok ⟨field .little data 0 2, field .little data 2 2, field .little data 8 4, field .little data 12 4,
        field .little data 16 2⟩ := rfl

/-! ### What is found -/

section Plans

variable {ι : Type} (t : SectionTable ι) (data : List UInt8) (relocations : ι → Nat)

/-- The plan sections among some: their contents, and how many relocations they have. -/
def SectionTable.plans (is : List ι) : List (List UInt8 × Nat) :=
  (is.filter t.isPlan).map fun i => (slice data (t.offset i) (t.size i), relocations i)

variable {t data relocations}

theorem plans_skip {is : List ι} {i : ι} (h : t.isPlan i = false) :
    t.plans data relocations (is ++ [i]) = t.plans data relocations is := by
  rw [SectionTable.plans, List.filter_append, List.filter_singleton, h]
  exact congrArg _ (List.append_nil _)

theorem plans_keep {is : List ι} {i : ι} (h : t.isPlan i = true) :
    t.plans data relocations (is ++ [i]) =
      t.plans data relocations is ++ [(slice data (t.offset i) (t.size i), relocations i)] := by
  rw [SectionTable.plans, List.filter_append, List.filter_singleton, h, List.map_append]
  rfl

/-- **The one plan section is answered**, of all the sections. -/
theorem one_plans {p : List UInt8} (h : t.Supplies data p) {is : List ι} (hdistinct : is.Nodup)
    (his : ∀ i, i ∈ is ↔ t.present i) (hrelocations : ∀ i, t.present i → ¬ t.relocated i → relocations i = 0) :
    one (t.plans data relocations is) = .ok p := by
  obtain ⟨i, hi, hplan, hunique, hnot, -, rfl, hne⟩ := h
  have hfilter : is.filter t.isPlan = [i] := by
    refine List.perm_singleton.mp ((List.perm_ext_iff_of_nodup (hdistinct.filter _)
      (List.nodup_singleton i)).mpr fun j => ?_)
    rw [List.mem_filter, List.mem_singleton]
    constructor
    · exact fun hj => hunique j ((his j).mp hj.1) hj.2
    · rintro rfl
      exact ⟨(his _).mpr hi, hplan⟩
  rw [SectionTable.plans, hfilter, List.map_singleton, hrelocations i hi hnot, one, if_neg (by simp),
    if_neg hne]
  rfl

/-- A plan section is in the file. -/
theorem SectionTable.Supplies.inside {p : List UInt8} (h : t.Supplies data p) {j : ι} (hj : t.present j)
    (hplan : t.isPlan j = true) : t.offset j + t.size j ≤ data.length := by
  obtain ⟨i, -, -, hunique, -, hinside, -⟩ := h
  rwa [hunique j hj hplan]

end Plans

theorem exists_decodeAscii {name : List UInt8} {message : String} :
    (∃ text, decodeAscii name message = .ok text) ↔ AsciiName name := by
  have hall : (name.all fun b => b.toNat < 128) = true ↔ AsciiName name := by simp [AsciiName]
  rw [decodeAscii, ← hall]
  constructor
  · rintro ⟨text, htext⟩
    split at htext
    · assumption
    · cases htext
  · intro h
    exact ⟨_, if_pos h⟩

/-- A name that is in a table is read if it is ASCII. -/
theorem exists_cstring {strings : List UInt8} {offset : Nat} (h : NameIn strings offset) :
    (∃ name, cstring strings offset = .ok name) ↔ AsciiName (cstringAt strings offset) := by
  obtain ⟨hinside, hends⟩ := h
  rw [cstring, if_neg (by omega), Int.toNat_natCast, if_neg (not_not.mpr hends)]
  exact exists_decodeAscii

/-! ### ELF -/

/-- A class reads a header and an entry of the format's sizes. -/
structure ElfClass.Sized (k : ElfClass) (l : ElfLayout) : Prop where
  header : k.headerSize = l.headerSize
  entry : k.sectionFormat.sum = l.entryBytes

theorem elf32_sized : elf32.Sized elfLayout32 := ⟨rfl, rfl⟩

theorem elf64_sized : elf64.Sized elfLayout64 := ⟨rfl, rfl⟩

section Elf

variable {k : ElfClass} {l : ElfLayout} {order : ByteOrder} {data p : List UInt8}

/-- How many relocation sections are for a section. -/
def ElfLayout.relocations (l : ElfLayout) (order : ByteOrder) (data : List UInt8) : Nat → Nat :=
  elfRelocations ((List.range (field order data l.count 2)).map (l.header order data))

/-- One turn of the loop, where all the section headers have been read. -/
theorem elfFind_plans (hp : (l.table order data).Supplies data p) {i : Nat}
    (hi : i < field order data l.count 2)
    (hnamed : ∃ name, cstring (l.strings order data) (l.header order data i).name = .ok name) :
    elfFind data (l.strings order data)
      ((List.range (field order data l.count 2)).map (l.header order data))
      ((l.table order data).plans data (l.relocations order data) (List.range i)) i =
      .ok ((l.table order data).plans data (l.relocations order data) (List.range (i + 1))) := by
  rw [List.range_succ]
  obtain ⟨name, hname⟩ := hnamed
  refine except_bind_eq_ok.mpr ⟨_, sectionAt_map hi, except_bind_eq_ok.mpr ⟨name, hname, ?_⟩⟩
  have hiff : (l.table order data).isPlan i = true ↔ name = ".grevir_irq_plan" :=
    decide_eq_true_iff.trans ((cstring_ensures _ _).ok _ hname).symm
  by_cases heq : name = ".grevir_irq_plan"
  · rw [if_neg (not_not.mpr heq), plans_keep (hiff.mpr heq)]
    exact except_bind_eq_ok.mpr ⟨_, region_eq (hp.inside hi (hiff.mpr heq)), rfl⟩
  · rw [if_pos heq, plans_skip (by simpa using mt hiff.mp heq)]
    rfl

/-- **Of a well-formed object, the reader comes as far as the names**, if the header says where they are. -/
theorem elfOf_eq_ok (hk : k.Fits l) (hsized : k.Sized l) (h : l.WellFormed order data) :
    elfOf k order data = .ok p ↔ field order data l.namesIndex 2 < field order data l.count 2 ∧
      ∃ found, (List.range (field order data l.count 2)).foldlM (elfFind data (l.strings order data)
        ((List.range (field order data l.count 2)).map (l.header order data))) [] = .ok found ∧
          one found = .ok p := by
  obtain ⟨⟨htable, hword⟩, ⟨hsize, hcount, hnames⟩, htableInside, hcountsInside, hentry⟩ := hk
  have hheader := h.header
  rw [← hsized.header] at hheader
  unfold elfOf
  rw [except_bind_of_ok (region_eq (by omega)), except_bind_of_ok (unpack_eq (by simp; omega)),
    except_bind_of_ok (head_fields _ _ _ _), except_bind_of_ok (unpack_eq (by simp; omega)),
    except_bind_of_ok (elfCounts_fields _ _ _)]
  simp only [htable, hword, hsize, hcount, hnames, hsized.entry]
  by_cases hlt : field order data l.namesIndex 2 < field order data l.count 2
  · have hsections : ((List.range (field order data l.count 2)).mapM fun i => do
        elfSection (← unpack order k.sectionFormat data
          (field order data l.tableOffset l.word + i * field order data l.entrySize 2))) =
        .ok ((List.range (field order data l.count 2)).map (l.header order data)) := by
      rw [mapM_eq_ok, List.forall₂_map_right_iff, List.forall₂_same]
      intro i hi
      have hmul : (i + 1) * field order data l.entrySize 2 ≤
          field order data l.entrySize 2 * field order data l.count 2 := by
        rw [Nat.mul_comm]
        exact Nat.mul_le_mul_left _ (List.mem_range.mp hi)
      rw [Nat.succ_mul] at hmul
      have htableIn := h.table
      have hentryIn := h.entry (by omega)
      rw [← hsized.entry] at hentryIn
      exact except_bind_eq_ok.mpr ⟨_, unpack_eq (by omega), hentry _ _ _⟩
    rw [if_neg (by omega), if_neg (Nat.not_lt.mpr (h.entry (by omega))), except_bind_of_ok (region_eq h.table),
      except_bind_of_ok hsections, except_bind_of_ok (sectionAt_map hlt),
      except_bind_of_ok (region_eq (h.inside hlt)), except_bind_eq_ok, and_iff_right hlt]
    rfl
  · rw [if_pos (by omega)]
    exact ⟨nofun, fun hand => absurd hand.1 hlt⟩

/-- **A well-formed object that is read is supported.** -/
theorem elfOf_supported (hk : k.Fits l) (hsized : k.Sized l) (h : l.WellFormed order data)
    (hok : elfOf k order data = .ok p) : l.Supported order data := by
  obtain ⟨hlt, found, hloop, -⟩ := (elfOf_eq_ok hk hsized h).mp hok
  have hread : ∀ i < field order data l.count 2,
      ∃ name, cstring (l.strings order data) (l.header order data i).name = .ok name := by
    intro i hi
    obtain ⟨_, _, hturn⟩ := exists_turn_of_foldlM hloop i (List.mem_range.mpr hi)
    rw [elfFind, except_bind_of_ok (sectionAt_map hi)] at hturn
    obtain ⟨name, hname, -⟩ := except_bind_eq_ok.mp hturn
    exact ⟨name, hname⟩
  have hnames : field order data l.namesIndex 2 ≠ 0 := by
    intro hzero
    -- the null section has no contents, so the first name is not there
    have hcount : field order data l.count 2 ≠ 0 := by omega
    have hempty : l.strings order data = [] := by
      rw [ElfLayout.strings, hzero, h.null hcount, slice, List.take_zero]
    obtain ⟨name, hname⟩ := hread 0 (by omega)
    rw [hempty, cstring, if_pos (.inr (by simp))] at hname
    cases hname
  exact ⟨hnames, hlt, fun i hi => (exists_cstring (h.named hnames hlt i hi)).mp (hread i hi)⟩

theorem elfOf_complete (hk : k.Fits l) (hsized : k.Sized l) (h : l.WellFormed order data)
    (hs : l.Supported order data) (hp : (l.table order data).Supplies data p) :
    elfOf k order data = .ok p := by
  have hloop := foldlM_range_eq_ok (n := field order data l.count 2)
    (g := fun i => (l.table order data).plans data (l.relocations order data) (List.range i))
    fun i hi => elfFind_plans hp hi ((exists_cstring (h.named hs.names hs.counted i hi)).mpr (hs.ascii i hi))
  refine (elfOf_eq_ok hk hsized h).mpr ⟨hs.counted, _, hloop, ?_⟩
  refine one_plans hp List.nodup_range (fun i => List.mem_range) fun i _ hnot => ?_
  rw [ElfLayout.relocations, elfRelocations, List.countP_eq_zero]
  intro s hs hcounted
  obtain ⟨j, hj, rfl⟩ := List.mem_map.mp hs
  exact hnot ⟨j, List.mem_range.mp hj, of_decide_eq_true hcounted⟩

end Elf

/-- The identification of an object says its class and its byte order. -/
structure ElfIdentified (data : List UInt8) : Prop where
  width : data[4]? = some 1 ∨ data[4]? = some 2
  order : data[5]? = some 1 ∨ data[5]? = some 2

def ElfWellFormed (data : List UInt8) : Prop :=
  ElfIdentified data ∧ (if data[4]? = some 1 then elfLayout32 else elfLayout64).WellFormed
    (if data[5]? = some 1 then .little else .big) data

def ElfSupported (data : List UInt8) : Prop :=
  (if data[4]? = some 1 then elfLayout32 else elfLayout64).Supported
    (if data[5]? = some 1 then .little else .big) data

theorem elf_complete {data p : List UInt8} (h : ElfWellFormed data) :
    (elf data = .ok p → ElfSupported data) ∧
      (ElfSupported data → (elfTable data).Supplies data p → elf data = .ok p) := by
  obtain ⟨⟨hwidth, horder⟩, hformed⟩ := h
  have hlength : 52 ≤ data.length := by
    have hheader := hformed.header
    split at hheader
    · exact hheader
    · exact le_trans (by decide) hheader
  have hfour : data[4]? = some data[4] := List.getElem?_eq_getElem (by omega)
  have hfive : data[5]? = some data[5] := List.getElem?_eq_getElem (by omega)
  rw [ElfSupported, elfTable]
  simp only [hfour, hfive, Option.some.injEq] at hwidth horder hformed ⊢
  have hnot : ¬ ((data[4] ≠ 1 ∧ data[4] ≠ 2) ∨ data[5] ≠ 1 ∧ data[5] ≠ 2) := by tauto
  unfold elf
  rw [if_neg (by omega), except_bind_of_ok (byteAt_eq (by omega)), except_bind_of_ok (byteAt_eq (by omega)),
    if_neg hnot]
  by_cases h32 : data[4] = 1
  · simp only [if_pos h32] at hformed ⊢
    exact ⟨elfOf_supported elf32_fits elf32_sized hformed, elfOf_complete elf32_fits elf32_sized hformed⟩
  · simp only [if_neg h32] at hformed ⊢
    exact ⟨elfOf_supported elf64_fits elf64_sized hformed, elfOf_complete elf64_fits elf64_sized hformed⟩

/-! ### Mach-O -/

section MachO

variable {k : MachOClass} {l : MachOLayout} {data p : List UInt8}

/-- How many relocations a section header says. -/
def MachOLayout.relocationCount (l : MachOLayout) (data : List UInt8) (i : Nat × Nat) : Nat :=
  field .little data (l.entry data i + l.relocations) 4

/-- The sections of a load command are in it. -/
theorem entry_inside (h : l.WellFormed data) {c i : Nat} (hc : c < field .little data 16 4)
    (hi : i < l.sectionCount data c) : l.entry data (c, i) + l.sectionSize ≤ data.length := by
  have hsegment : field .little data (l.command data c) 4 = l.segment := by
    by_contra hne
    rw [MachOLayout.sectionCount, if_neg hne] at hi
    exact Nat.not_lt_zero _ hi
  have hmul : (i + 1) * l.sectionSize ≤ l.sectionCount data c * l.sectionSize :=
    Nat.mul_le_mul_right _ hi
  rw [Nat.succ_mul] at hmul
  have htable := h.segment c hc hsegment
  have hcommand := (h.command c hc).2
  have hcommands := h.commands
  show l.command data c + l.sections + i * l.sectionSize + l.sectionSize ≤ data.length
  omega

/-- One turn of the loop over the sections of a load command. -/
theorem machOFind_plans (hk : k.Fits l) (h : l.WellFormed data) (hp : (l.table data).Supplies data p)
    {c i : Nat} (hc : c < field .little data 16 4) (hi : i < l.sectionCount data c)
    (is : List (Nat × Nat)) :
    machOFind k data (l.command data c) ((l.table data).plans data (l.relocationCount data) is) i =
      .ok ((l.table data).plans data (l.relocationCount data) (is ++ [(c, i)])) := by
  obtain ⟨-, ⟨-, hsegment, hsection⟩, -, hsum, hentry⟩ := hk
  have hinside := entry_inside h hc hi
  have hplan : (l.table data).isPlan (c, i) = true ↔
      untilZero (slice data (l.entry data (c, i)) 16) = machOName := decide_eq_true_iff
  unfold machOFind
  simp only [hsegment, hsection]
  have hname : region data (l.command data c + l.sections + i * l.sectionSize) 16 =
      .ok (slice data (l.entry data (c, i)) 16) := region_eq (by
    have hinside' : l.command data c + l.sections + i * l.sectionSize + l.sectionSize ≤ data.length :=
      hinside
    omega)
  refine except_bind_eq_ok.mpr ⟨_, hname, ?_⟩
  by_cases heq : untilZero (slice data (l.entry data (c, i)) 16) = machOName
  · rw [if_neg (not_not.mpr heq), plans_keep (hplan.mpr heq)]
    have hend : l.command data c + l.sections + i * l.sectionSize + l.sectionSize ≤ data.length := hinside
    exact except_bind_eq_ok.mpr ⟨_, unpack_eq (by omega), except_bind_eq_ok.mpr ⟨_, hentry data _,
      except_bind_eq_ok.mpr ⟨_, region_eq (hp.inside ⟨hc, hi⟩ (hplan.mpr heq)), rfl⟩⟩⟩
  · rw [if_pos heq, plans_skip (by simpa using mt hplan.mp heq)]
    rfl

/-- One turn of the loop over the load commands. -/
theorem machOCommand_plans (hk : k.Fits l) (h : l.WellFormed data)
    (hp : (l.table data).Supplies data p) {c : Nat} (hc : c < field .little data 16 4) :
    machOCommand k data (field .little data 20 4)
      (l.command data c, (l.table data).plans data (l.relocationCount data) (l.before data c)) c =
      .ok (l.command data (c + 1),
        (l.table data).plans data (l.relocationCount data) (l.before data (c + 1))) := by
  have hk' := hk
  obtain ⟨⟨hheader, -⟩, ⟨hsegment, hsections, hsectionSize⟩, ⟨hcount, hcountInside⟩, -⟩ := hk'
  obtain ⟨hsize, hend⟩ := h.command c hc
  have hcommands := h.commands
  rw [MachOLayout.commandSize] at hsize hend
  unfold machOCommand
  refine except_bind_eq_ok.mpr ⟨_, region_eq (by omega), except_bind_eq_ok.mpr
    ⟨_, unpack_eq (by simp; omega), except_bind_eq_ok.mpr ⟨_, rfl, ?_⟩⟩⟩
  simp only [hheader, hsegment, hsections, hsectionSize, hcount]
  rw [if_neg (by omega), MachOLayout.before_succ]
  by_cases heq : field .little data (l.command data c) 4 = l.segment
  · have hsectionCount : l.sectionCount data c = field .little data (l.command data c + l.count) 4 :=
      if_pos heq
    have htable := h.segment c hc heq
    rw [MachOLayout.commandSize] at htable
    have hloop := foldlM_range_eq_ok (n := l.sectionCount data c) (f := machOFind k data (l.command data c))
      (g := fun i => (l.table data).plans data (l.relocationCount data)
        (l.before data c ++ (List.range i).map fun j => (c, j))) fun i hi => by
          rw [List.range_succ, List.map_append, ← List.append_assoc]
          exact machOFind_plans hk h hp hc hi _
    rw [List.range_zero, List.map_nil, List.append_nil] at hloop
    rw [if_pos heq, if_neg (by omega)]
    refine except_bind_eq_ok.mpr ⟨_, unpack_eq (by simp; omega), except_bind_eq_ok.mpr ⟨_, rfl, ?_⟩⟩
    rw [← hsectionCount, if_neg (by omega)]
    exact except_bind_eq_ok.mpr ⟨_, hloop, rfl⟩
  · have hnone : l.sectionCount data c = 0 := if_neg heq
    rw [if_neg heq, hnone, List.range_zero, List.map_nil, List.append_nil]
    rfl

theorem nodup_before (l : MachOLayout) (data : List UInt8) (n : Nat) : (l.before data n).Nodup := by
  induction n with
  | zero => exact List.nodup_nil
  | succ n ih =>
      rw [MachOLayout.before_succ]
      refine ih.append (List.nodup_range.map fun i j h => (Prod.mk.inj h).2) fun i hi hi' => ?_
      obtain ⟨j, -, rfl⟩ := List.mem_map.mp hi'
      exact absurd (mem_before.mp hi).1 (Nat.lt_irrefl n)

theorem machOOf_complete (hk : k.Fits l) (h : l.WellFormed data) (hp : (l.table data).Supplies data p) :
    machOOf k data = .ok p := by
  obtain ⟨hheader, hsize⟩ := hk.header
  have hinside := h.header
  have hloop := foldlM_range_eq_ok (n := field .little data 16 4)
    (f := machOCommand k data (field .little data 20 4))
    (g := fun c => (l.command data c,
      (l.table data).plans data (l.relocationCount data) (l.before data c)))
    fun c hc => machOCommand_plans hk h hp hc
  unfold machOOf
  refine except_bind_eq_ok.mpr ⟨_, region_eq (by omega), except_bind_eq_ok.mpr
    ⟨_, unpack_eq (by simp; omega), except_bind_eq_ok.mpr ⟨_, rfl, ?_⟩⟩⟩
  simp only [hheader]
  refine except_bind_eq_ok.mpr ⟨_, region_eq h.commands, except_bind_eq_ok.mpr ⟨_, hloop, ?_⟩⟩
  exact one_plans hp (nodup_before l data _) (fun i => mem_before) fun i _ hnot => not_not.mp hnot

end MachO

def MachOWellFormed (data : List UInt8) : Prop :=
  (if field .little data 0 4 = 0xFEEDFACF then machOLayout64 else machOLayout32).WellFormed data

theorem machO_complete {data p : List UInt8} (h : MachOWellFormed data)
    (hmagic : field .little data 0 4 = 0xFEEDFACE ∨ field .little data 0 4 = 0xFEEDFACF)
    (hlength : 4 ≤ data.length) (hp : (machOTable data).Supplies data p) : machO data = .ok p := by
  rw [MachOWellFormed] at h
  rw [machOTable] at hp
  unfold machO
  refine except_bind_eq_ok.mpr ⟨_, unpack_eq (by simpa using hlength), except_bind_eq_ok.mpr ⟨_, rfl, ?_⟩⟩
  by_cases h64 : field .little data 0 4 = 0xFEEDFACF
  · rw [if_pos h64] at h hp
    rw [if_pos h64]
    exact machOOf_complete machO64_fits h hp
  · rw [if_neg h64] at h hp
    rw [if_neg h64, if_pos (hmagic.resolve_right h64)]
    exact machOOf_complete machO32_fits h hp

/-! ### COFF -/

section Coff

variable {data p : List UInt8}

theorem coffStrings_complete (h : CoffWellFormed data) {header : CoffHeader}
    (hsymbols : header.symbolsOffset = field .little data 8 4)
    (hcount : header.symbolCount = field .little data 12 4) :
    coffStrings data header = .ok (coffStringTable data) := by
  unfold coffStrings coffStringTable
  rw [hsymbols, hcount]
  by_cases hnone : field .little data 8 4 = 0
  · rw [if_pos hnone, if_pos hnone]
    rfl
  · obtain ⟨hsize, hinside⟩ := h.strings hnone
    rw [if_neg hnone, if_neg hnone]
    have hlength : (slice data (field .little data 8 4 + field .little data 12 4 * 18) 4).length = 4 :=
      length_slice (by omega)
    refine except_bind_eq_ok.mpr ⟨_, region_eq (by omega), except_bind_eq_ok.mpr
      ⟨_, unpack_eq (by simp [hlength]), except_bind_eq_ok.mpr ⟨_, rfl, ?_⟩⟩⟩
    rw [field_slice (by decide), Nat.add_zero, if_neg (by omega)]
    exact region_eq hinside

/-- A name is read if it is ASCII. -/
theorem exists_coffName {strings raw : List UInt8} (h : CoffNamed strings raw) :
    (∃ name, coffName strings raw = .ok name) ↔ AsciiName (coffNameOf strings raw) := by
  cases raw with
  | nil => exact iff_of_true ⟨_, rfl⟩ nofun
  | cons c digits =>
      rw [CoffNamed] at h
      rw [coffName, coffNameOf]
      by_cases hslash : c = 47
      · obtain ⟨hne, hdigits, hin⟩ := h hslash
        have hint : intAt digits = .ok (decimalValue digits : Int) := by
          rw [intAt, intOf_digits hne hdigits]
          rfl
        rw [if_pos hslash, if_pos hslash, intOf_digits hne hdigits, except_bind_of_ok hint]
        refine Iff.trans (b := ∃ name, cstring strings (decimalValue digits) = .ok name) ⟨?_, ?_⟩
          (exists_cstring hin)
        · rintro ⟨name, hname⟩
          cases hread : cstring strings (decimalValue digits) with
          | ok name' => exact ⟨name', rfl⟩
          | error e => cases e <;> simp [hread, nameOffsetError, objectError] at hname
        · rintro ⟨name, hname⟩
          exact ⟨name, by rw [hname]; rfl⟩
      · rw [if_neg hslash, if_neg hslash]
        exact exists_decodeAscii

/-- How many relocations a section header says. -/
def coffRelocationCount (data : List UInt8) (i : Nat) : Nat := field .little data (coffEntry data i + 32) 2

/-- The header of a section is read. -/
theorem coffSection_eq (h : CoffWellFormed data) {i : Nat} (hi : i < field .little data 2 2) :
    region data (20 + field .little data 16 2 + i * 40) 40 = .ok (slice data (coffEntry data i) 40) ∧
      (slice data (coffEntry data i) 40).length = 40 ∧
      untilZero ((slice data (coffEntry data i) 40).take 8) = coffRawName data i := by
  have htable := h.table
  have hinside : coffEntry data i + 40 ≤ data.length := by
    rw [coffEntry]
    omega
  refine ⟨region_eq hinside, length_slice hinside, ?_⟩
  exact congrArg untilZero (@slice_slice data _ 40 0 8 (by decide))

/-- One turn of the loop over the sections. -/
theorem coffFind_plans (h : CoffWellFormed data) (hp : (coffTable data).Supplies data p) {i : Nat}
    (hi : i < field .little data 2 2)
    (hnamed : ∃ name, coffName (coffStringTable data) (coffRawName data i) = .ok name) :
    coffFind data (coffStringTable data) (20 + field .little data 16 2)
      ((coffTable data).plans data (coffRelocationCount data) (List.range i)) i =
      .ok ((coffTable data).plans data (coffRelocationCount data) (List.range (i + 1))) := by
  obtain ⟨hsection, hlength, hraw⟩ := coffSection_eq h hi
  obtain ⟨name, hname⟩ := hnamed
  have hplan : (coffTable data).isPlan i = true ↔ name = ".grevir_irq_plan" :=
    decide_eq_true_iff.trans ((coffName_ensures _ _).ok _ hname).symm
  rw [← hraw] at hname
  rw [List.range_succ]
  refine except_bind_eq_ok.mpr ⟨_, hsection, except_bind_eq_ok.mpr ⟨name, hname, ?_⟩⟩
  by_cases heq : name = ".grevir_irq_plan"
  · rw [if_neg (not_not.mpr heq), plans_keep (hplan.mpr heq)]
    have hfield : ∀ {place size}, place + size ≤ 40 →
        field .little (slice data (coffEntry data i) 40) place size =
          field .little data (coffEntry data i + place) size := fun hle => field_slice hle
    refine except_bind_eq_ok.mpr ⟨_, unpack_eq (by simp [hlength]), except_bind_eq_ok.mpr ⟨_, rfl,
      except_bind_eq_ok.mpr ⟨_, unpack_eq (by simp [hlength]), except_bind_eq_ok.mpr ⟨_, rfl, ?_⟩⟩⟩⟩
    rw [hfield (by decide), hfield (by decide), hfield (by decide)]
    exact except_bind_eq_ok.mpr ⟨_, region_eq (hp.inside hi (hplan.mpr heq)), rfl⟩
  · rw [if_pos heq, plans_skip (by simpa using mt hplan.mp heq)]
    rfl

/-- **Of a well-formed object, the reader comes as far as the sections**, if the machine is one of its own. -/
theorem coff_eq_ok (h : CoffWellFormed data) :
    coff data = .ok p ↔ (field .little data 0 2 ∈ [0x14C, 0x8664, 0xAA64] ∧ field .little data 2 2 ≠ 0) ∧
      ∃ found, (List.range (field .little data 2 2)).foldlM
        (coffFind data (coffStringTable data) (20 + field .little data 16 2)) [] = .ok found ∧
          one found = .ok p := by
  have hheader := h.header
  unfold coff
  rw [except_bind_of_ok (region_eq (by omega)), except_bind_of_ok (unpack_eq (by simpa using hheader)),
    except_bind_of_ok (coffHeader_fields data)]
  by_cases hmachine : field .little data 0 2 ∈ [0x14C, 0x8664, 0xAA64] ∧ field .little data 2 2 ≠ 0
  · rw [if_neg fun hor => hor.elim (fun hno => hno hmachine.1) hmachine.2,
      except_bind_of_ok (region_eq h.table), except_bind_of_ok (coffStrings_complete h rfl rfl),
      except_bind_eq_ok, and_iff_right hmachine]
  · rw [if_pos (by tauto)]
    exact ⟨nofun, fun hand => absurd hand.1 hmachine⟩

/-- **A well-formed object that is read is supported.** -/
theorem coff_supported (h : CoffWellFormed data) (hok : coff data = .ok p) : CoffSupported data := by
  obtain ⟨⟨hmachine, -⟩, found, hloop, -⟩ := (coff_eq_ok h).mp hok
  refine ⟨hmachine, fun i hi => (exists_coffName (h.named i hi)).mp ?_⟩
  obtain ⟨_, _, hturn⟩ := exists_turn_of_foldlM hloop i (List.mem_range.mpr hi)
  obtain ⟨hsection, -, hraw⟩ := coffSection_eq h hi
  rw [coffFind, except_bind_of_ok hsection, hraw] at hturn
  obtain ⟨name, hname, -⟩ := except_bind_eq_ok.mp hturn
  exact ⟨name, hname⟩

theorem coff_complete (h : CoffWellFormed data) (hs : CoffSupported data)
    (hp : (coffTable data).Supplies data p) : coff data = .ok p := by
  have hloop := foldlM_range_eq_ok (n := field .little data 2 2)
    (g := fun i => (coffTable data).plans data (coffRelocationCount data) (List.range i))
    fun i hi => coffFind_plans h hp hi ((exists_coffName (h.named i hi)).mpr (hs.ascii i hi))
  have hcount : field .little data 2 2 ≠ 0 := by
    obtain ⟨i, hi, -⟩ := hp
    exact Nat.ne_zero_of_lt hi
  refine (coff_eq_ok h).mpr ⟨⟨hs.machine, hcount⟩, _, hloop, ?_⟩
  exact one_plans hp List.nodup_range (fun i => List.mem_range) fun i _ hnot => not_not.mp hnot

end Coff

/-! ### Any object -/

/-- An object that is well formed by its format. -/
def WellFormedObject (data : List UInt8) : Prop :=
  if isElf data then ElfWellFormed data
  else if 4 ≤ data.length ∧ (field .little data 0 4 = 0xFEEDFACE ∨ field .little data 0 4 = 0xFEEDFACF)
    then MachOWellFormed data
  else CoffWellFormed data

/-- An object of the kind that the adapter supports. -/
def SupportedObject (data : List UInt8) : Prop :=
  if isElf data then ElfSupported data
  else if 4 ≤ data.length ∧ (field .little data 0 4 = 0xFEEDFACE ∨ field .little data 0 4 = 0xFEEDFACF)
    then True
  else CoffSupported data

theorem extract_of_wellFormed {data p : List UInt8} (h : WellFormedObject data) :
    (extractInterruptPlan data = .ok p → SupportedObject data) ∧
      (SupportedObject data → SuppliesPlan data p → extractInterruptPlan data = .ok p) := by
  rw [WellFormedObject] at h
  rw [SupportedObject, SuppliesPlan, extractInterruptPlan]
  by_cases helf : isElf data = true
  · simp only [if_pos helf] at h ⊢
    exact elf_complete h
  · simp only [if_neg helf] at h ⊢
    by_cases hmach :
      4 ≤ data.length ∧ (field .little data 0 4 = 0xFEEDFACE ∨ field .little data 0 4 = 0xFEEDFACF)
    · have hlength : data.length ≥ 4 := hmach.1
      simp only [if_pos hmach, if_pos hlength] at h ⊢
      refine ⟨fun _ => trivial, fun _ hp => ?_⟩
      rw [except_bind_of_ok (unpack_eq (by simpa using hmach.1)), except_bind_of_ok (head_fields _ _ _ _),
        if_pos hmach.2]
      exact machO_complete h hmach.2 hmach.1 hp
    · simp only [if_neg hmach] at h ⊢
      have hread : (if data.length ≥ 4 then do
          let magic ← head (← unpack .little [4] data 0)
          if magic = 0xFEEDFACE ∨ magic = 0xFEEDFACF then machO data else coff data
        else coff data) = coff data := by
        split
        · next hlength =>
          rw [except_bind_of_ok (unpack_eq (by simpa using hlength)), except_bind_of_ok (head_fields _ _ _ _),
            if_neg fun hmagic => hmach ⟨hlength, hmagic⟩]
        · rfl
      rw [hread]
      exact ⟨coff_supported h, coff_complete h⟩

/-- **Of a well-formed object, the one plan section is what is answered**, if the object is supported; no
such object is refused for anything else. -/
theorem extract_complete {data : List UInt8} (h : WellFormedObject data) (p : List UInt8) :
    extractInterruptPlan data = .ok p ↔ SupportedObject data ∧ SuppliesPlan data p := by
  obtain ⟨hsupported, hcomplete⟩ := extract_of_wellFormed (p := p) h
  constructor
  · exact fun hok => ⟨hsupported hok, (extract_ensures data).ok p hok⟩
  · exact fun hand => hcomplete hand.1 hand.2

/-- The object with a plan section of one byte, for some machine. -/
def objectFor (machine : List UInt8) : List UInt8 := machine ++ (coffObject [7]).drop 2

theorem objectFor_wellFormed {machine : List UInt8} (h : machine = [0x64, 0x86] ∨ machine = [0xC4, 0x01]) :
    WellFormedObject (objectFor machine) := by
  have hcoff : CoffWellFormed (objectFor machine) := by
    refine ⟨?_, ?_, fun _ => ?_, fun i hi => ?_⟩
    · rcases h with rfl | rfl <;> decide
    · rcases h with rfl | rfl <;> decide
    · rcases h with rfl | rfl <;> decide
    · have hcount : field .little (objectFor machine) 2 2 = 1 := by rcases h with rfl | rfl <;> decide
      obtain rfl : i = 0 := by omega
      have hname : coffRawName (objectFor machine) 0 = [47, 52] := by rcases h with rfl | rfl <;> decide
      have hstrings : coffStringTable (objectFor machine) = coffPlanNames := by
        rcases h with rfl | rfl <;> decide
      rw [hname, hstrings]
      exact fun _ => ⟨by decide, by decide +kernel, by decide, by decide⟩
  rw [WellFormedObject, if_neg (by rcases h with rfl | rfl <;> decide),
    if_neg (by rcases h with rfl | rfl <;> decide)]
  exact hcoff

/-- AMD64 is supported, and the plan is answered; ARM Thumb-2 is not. -/
theorem extract_complete_coffObject :
    SupportedObject (coffObject [7]) ∧ SuppliesPlan (coffObject [7]) [7] ∧
      ¬ ∃ p, extractInterruptPlan (objectFor [0xC4, 0x01]) = .ok p := by
  have hextract : extractInterruptPlan (objectFor [0x64, 0x86]) = .ok [7] :=
    extract_coffObject (List.cons_ne_nil _ _) (by decide)
  obtain ⟨hsupported, hsupplies⟩ := (extract_complete (objectFor_wellFormed (.inl rfl)) [7]).mp hextract
  refine ⟨hsupported, hsupplies, ?_⟩
  rintro ⟨p, hp⟩
  obtain ⟨hmachine, -⟩ := (extract_complete (objectFor_wellFormed (.inr rfl)) p).mp hp
  rw [SupportedObject, if_neg (by decide), if_neg (by decide)] at hmachine
  exact absurd hmachine.machine (by decide)

end Grevir.Irqgen
