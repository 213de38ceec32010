import Grevir.Support.Codec
import Grevir.Interrupt.Plan

/-!
# Interrupt — ProbeRecord

The encoder of the probe record.  It reserves the bytes it has counted, then writes magic, schema,
total length, the two counts, the texts and words of the plan and a checksum of all that; a write
outside the buffer or an endless loop ends constant evaluation, so either is `none` here.

* `layout_eq_some`: the layout succeeds when every text fits its length byte, and then writes
  exactly the bytes it reserved.
* `checksum_mod`: the low 32 bits of the checksum do not depend on the width of `unsigned long`.
-/

namespace Grevir.Interrupt

open Codec

/-- The width of the compiler's `unsigned long`. -/
inductive UnsignedLong where
  | bits32
  | bits64
  deriving DecidableEq

def UnsignedLong.bits : UnsignedLong → Nat
  | .bits32 => 32
  | .bits64 => 64

def encodedTextSize (value : Text) : Nat := 1 + value.length

def demandSize (demand : Demand Text) : Nat :=
  encodedTextSize demand.event.instance' + encodedTextSize demand.event.request
    + encodedTextSize demand.event.kind + encodedTextSize demand.handler
    + encodedTextSize demand.context + encodedTextSize demand.delivery

def bindingSize (binding : BindingRecord Text) : Nat :=
  encodedTextSize binding.event.instance' + encodedTextSize binding.event.request
    + encodedTextSize binding.event.kind + encodedTextSize binding.owner
    + encodedTextSize binding.configuration + encodedTextSize binding.source
    + encodedTextSize binding.selector + encodedTextSize binding.entry
    + encodedTextSize binding.snapshotPolicy + encodedTextSize binding.acknowledgePolicy + 3

/-- `probe_record_size`. -/
def probeRecordSize (p : PlanContent Text) : Nat :=
  -- magic, schema, total length, demand and binding counts, then checksum
  let size := 4 + 2 + 4 + 2 + 2 + 4
  let size := size + encodedTextSize p.backend
  let size := size + encodedTextSize p.target
  let size := size + encodedTextSize p.board
  let size := size + encodedTextSize p.compiler
  let size := size + encodedTextSize p.application
  let size := size + (2 + encodedTextSize p.policy)
  let size := p.demands.foldl (fun size demand => size + demandSize demand) size
  p.bindings.foldl (fun size binding => size + bindingSize binding) size

/-! ### Writing -/

section Write

variable (length : Nat)

/-- `output.bytes[cursor++] = value & 0xff`. -/
def byte (value : Nat) : Writer Unit := fun out =>
  if out.length < length then some ((), out ++ [UInt8.ofNat (value % 256)]) else none

def word (value : Nat) : Writer Unit := do
  byte length value
  byte length (value >>> 8)

def dword (value : Nat) : Writer Unit := do
  byte length value
  byte length (value >>> 8)
  byte length (value >>> 16)
  byte length (value >>> 24)

/-- A text: its length in one byte, then its bytes. -/
def string (value : Text) : Writer Unit :=
  if value.length > 255 then failure
  else do
    byte length value.length
    value.forM fun character => byte length character.toNat

def writeDemand (demand : Demand Text) : Writer Unit := do
  string length demand.event.instance'
  string length demand.event.request
  string length demand.event.kind
  string length demand.handler
  string length demand.context
  string length demand.delivery

def writeBinding (binding : BindingRecord Text) : Writer Unit := do
  string length binding.event.instance'
  string length binding.event.request
  string length binding.event.kind
  string length binding.owner
  string length binding.configuration
  string length binding.source
  string length binding.selector
  string length binding.entry
  string length binding.snapshotPolicy
  string length binding.acknowledgePolicy
  word length binding.dispatchOrder
  byte length (if binding.sharedSource then 1 else 0)

/-- Everything before the checksum. -/
def writePlan (p : PlanContent Text) : Writer Unit := do
  byte length 71
  byte length 73
  byte length 82
  byte length 81
  word length 4
  dword length length
  word length p.demands.length
  word length p.bindings.length
  string length p.backend
  string length p.target
  string length p.board
  string length p.compiler
  string length p.application
  word length p.capacity
  string length p.policy
  p.demands.forM (writeDemand length)
  p.bindings.forM (writeBinding length)

end Write

/-- One turn of the checksum loop, in an `unsigned long` of `bits` bits. -/
def checksumStep (bits : Nat) (checksum : Nat) (b : UInt8) : Nat :=
  (checksum ^^^ b.toNat) * 16777619 % 2 ^ bits

def checksum (bits : Nat) (written : List UInt8) : Nat :=
  written.foldl (checksumStep bits) 2166136261

/-- The record as it is laid out, without the ceiling on its size. -/
def layout (long : UnsignedLong) (p : PlanContent Text) : Option (List UInt8) := do
  let length := probeRecordSize p
  let (_, written) ← writePlan length p []
  let (_, output) ← dword length (checksum long.bits written) written
  if output.length ≠ length then none else some output

/-- `encode_probe_record`. -/
def encodeProbeRecord (long : UnsignedLong) (p : PlanContent Text) : Option (List UInt8) :=
  if probeRecordSize p ≤ 65535 then layout long p else none

/-! ### What is written -/

def textBytes (value : Text) : List UInt8 := le 1 value.length ++ value

def demandBytes (demand : Demand Text) : List UInt8 := demand.texts.flatMap textBytes

def bindingBytes (binding : BindingRecord Text) : List UInt8 :=
  binding.event.texts.flatMap textBytes ++ binding.texts.flatMap textBytes
    ++ le 2 binding.dispatchOrder ++ le 1 (if binding.sharedSource then 1 else 0)

/-- The record before its checksum, with some total length. -/
def contentBytes (length : Nat) (p : PlanContent Text) : List UInt8 :=
  [71, 73, 82, 81] ++ le 2 4 ++ le 4 length ++ le 2 p.demands.length ++ le 2 p.bindings.length
    ++ p.header.flatMap textBytes ++ le 2 p.capacity ++ textBytes p.policy
    ++ p.demands.flatMap demandBytes ++ p.bindings.flatMap bindingBytes

def planBytes (p : PlanContent Text) : List UInt8 := contentBytes (probeRecordSize p) p

/-- The length byte holds the length. -/
def TextFits (value : Text) : Prop := value.length ≤ 255

instance decidableTextFits (value : Text) : Decidable (TextFits value) :=
  inferInstanceAs (Decidable (_ ≤ _))

/-- Every text fits its length byte. -/
structure Fits (p : PlanContent Text) : Prop where
  header : ∀ t ∈ p.header, TextFits t
  policy : TextFits p.policy
  demands : ∀ d ∈ p.demands, ∀ t ∈ d.texts, TextFits t
  bindings : ∀ b ∈ p.bindings, (∀ t ∈ b.event.texts, TextFits t) ∧ ∀ t ∈ b.texts, TextFits t

section Write

variable {n : Nat}

theorem byte_writes (value : Nat) : Writes n (byte n value) True (le 1 value) := by
  intro out hout out'
  have hv : UInt8.ofNat (value % 256) = UInt8.ofNat value := by
    rw [← UInt8.toNat_inj, UInt8.toNat_ofNat', UInt8.toNat_ofNat', Nat.mod_mod]
  unfold byte
  by_cases h : out.length < n
  · simp [h, hv, le, Nat.succ_le_of_lt h, eq_comm]
  · rw [if_neg h]
    exact iff_of_false (fun hx => by cases hx) fun hx => h hx.2.1

theorem word_writes (value : Nat) : Writes n (word n value) True (le 2 value) :=
  ((byte_writes value).seq (byte_writes (value >>> 8))).congr (by simp)
    (by simp [le, Nat.shiftRight_eq_div_pow])

theorem dword_writes (value : Nat) : Writes n (dword n value) True (le 4 value) :=
  ((byte_writes value).seq ((byte_writes (value >>> 8)).seq ((byte_writes (value >>> 16)).seq
    (byte_writes (value >>> 24))))).congr (by simp)
    (by simp [le, Nat.shiftRight_eq_div_pow, Nat.div_div_eq_div_mul])

theorem string_writes (value : Text) :
    Writes n (string n value) (TextFits value) (textBytes value) := by
  unfold string TextFits
  by_cases h : value.length > 255
  · rw [if_pos h]
    exact fun out _ out' => iff_of_false (fun hx => by cases hx) fun hx => absurd hx.1 (by omega)
  · rw [if_neg h]
    have hle : value.length ≤ 255 := Nat.le_of_not_gt h
    refine Writes.congr ((byte_writes value.length).seq
      (.forM (fun character => byte_writes character.toNat) value)) (by simp [hle]) ?_
    rw [textBytes]
    congr 1
    simp [le]

/-- Texts one after another. -/
theorem strings_writes {q : Writer Unit} {ok : Prop} {bs : List UInt8} {texts : List Text}
    (value : Text) (h : Writes n q ((∀ t ∈ texts, TextFits t) ∧ ok)
      (texts.flatMap textBytes ++ bs)) :
    Writes n (do string n value; q) ((∀ t ∈ value :: texts, TextFits t) ∧ ok)
      ((value :: texts).flatMap textBytes ++ bs) :=
  ((string_writes value).seq h).congr (by rw [List.forall_mem_cons, and_assoc])
    (by rw [List.flatMap_cons, List.append_assoc])

theorem strings_writes_nil {q : Writer Unit} {ok : Prop} {bs : List UInt8}
    (h : Writes n q ok bs) :
    Writes n q ((∀ t ∈ ([] : List Text), TextFits t) ∧ ok) (([] : List Text).flatMap textBytes ++ bs) :=
  h.congr (by simp) rfl

/-- The last text of some. -/
theorem string_writes_last (value : Text) :
    Writes n (string n value) ((∀ t ∈ [value], TextFits t) ∧ True)
      ([value].flatMap textBytes ++ []) :=
  (string_writes value).congr (by simp) (by simp)

theorem writeDemand_writes (demand : Demand Text) :
    Writes n (writeDemand n demand) (∀ t ∈ demand.texts, TextFits t)
      (demandBytes demand) := by
  have h := strings_writes demand.event.instance' (strings_writes demand.event.request
    (strings_writes demand.event.kind (strings_writes demand.handler
      (strings_writes demand.context (string_writes_last (n := n) demand.delivery)))))
  exact h.congr (and_iff_left trivial) (List.append_nil _)

theorem writeBinding_writes (binding : BindingRecord Text) :
    Writes n (writeBinding n binding)
      ((∀ t ∈ binding.event.texts, TextFits t) ∧ ∀ t ∈ binding.texts, TextFits t)
      (bindingBytes binding) := by
  have htail := (word_writes (n := n) binding.dispatchOrder).seq
    (byte_writes (if binding.sharedSource then 1 else 0))
  have h := strings_writes binding.event.instance' (strings_writes binding.event.request
    (strings_writes binding.event.kind (strings_writes binding.owner
      (strings_writes binding.configuration (strings_writes binding.source
        (strings_writes binding.selector (strings_writes binding.entry
          (strings_writes binding.snapshotPolicy
            (strings_writes binding.acknowledgePolicy (strings_writes_nil htail))))))))))
  refine h.congr ?_ ?_
  · show (∀ t ∈ binding.event.texts ++ binding.texts, TextFits t) ∧ True ∧ True ↔ _
    rw [List.forall_mem_append, and_self, and_true]
  · show (binding.event.texts ++ binding.texts).flatMap textBytes ++ _ = _
    rw [bindingBytes, List.flatMap_append, List.append_assoc, List.append_assoc, List.append_assoc]

theorem writePlan_writes (p : PlanContent Text) (hn : probeRecordSize p = n) :
    Writes n (writePlan n p) (Fits p) (planBytes p) := by
  have hlists := (Writes.forM (writeDemand_writes (n := n)) p.demands).seq
    (Writes.forM writeBinding_writes p.bindings)
  have hrest := (word_writes (n := n) p.capacity).seq ((string_writes p.policy).seq hlists)
  have hheader := strings_writes p.backend (strings_writes p.target (strings_writes p.board
    (strings_writes p.compiler (strings_writes p.application (strings_writes_nil hrest)))))
  have hcounts := (dword_writes (n := n) n).seq ((word_writes p.demands.length).seq
    ((word_writes p.bindings.length).seq hheader))
  refine ((byte_writes 71).seq ((byte_writes 73).seq ((byte_writes 82).seq ((byte_writes 81).seq
    ((word_writes 4).seq hcounts))))).congr ?_ ?_
  · simp only [true_and]
    exact ⟨fun ⟨h, h', hd, hb⟩ => ⟨h, h', hd, hb⟩, fun h => ⟨h.header, h.policy, h.demands, h.bindings⟩⟩
  · rw [planBytes, contentBytes, hn]
    simp only [List.append_assoc]
    rfl

end Write

/-! ### The whole record -/

theorem length_textBytes (value : Text) : (textBytes value).length = encodedTextSize value := by
  rw [textBytes, List.length_append, length_le, encodedTextSize]

theorem length_demandBytes (demand : Demand Text) :
    (demandBytes demand).length = demandSize demand := by
  simp only [demandBytes, Demand.texts, EventIdentity.texts, List.cons_append, List.nil_append,
    List.flatMap_cons, List.flatMap_nil, List.length_append, length_textBytes, List.length_nil,
    demandSize]
  omega

theorem length_bindingBytes (binding : BindingRecord Text) :
    (bindingBytes binding).length = bindingSize binding := by
  simp only [bindingBytes, BindingRecord.texts, EventIdentity.texts, List.flatMap_cons,
    List.flatMap_nil, List.length_append, length_textBytes, List.length_nil, length_le, bindingSize]
  omega

/-- A loop that adds up sizes. -/
theorem foldl_size {α : Type} {f : α → Nat} {enc : α → List UInt8}
    (h : ∀ a, (enc a).length = f a) (as : List α) (size : Nat) :
    as.foldl (fun size a => size + f a) size = size + (as.flatMap enc).length := by
  induction as generalizing size with
  | nil => rfl
  | cons a as ih =>
      rw [List.foldl_cons, ih, List.flatMap_cons, List.length_append, h, Nat.add_assoc]

/-- **The bytes reserved are the bytes of the plan and four for the checksum.** -/
theorem probeRecordSize_eq (length : Nat) (p : PlanContent Text) :
    probeRecordSize p = (contentBytes length p).length + 4 := by
  simp only [probeRecordSize, foldl_size length_demandBytes, foldl_size length_bindingBytes]
  simp only [contentBytes, PlanContent.header, List.flatMap_cons, List.flatMap_nil,
    List.length_append, length_textBytes, List.length_cons, List.length_nil, length_le]
  omega

/-- The record of a plan. -/
def recordBytes (long : UnsignedLong) (p : PlanContent Text) : List UInt8 :=
  planBytes p ++ le 4 (checksum long.bits (planBytes p))

theorem length_recordBytes (long : UnsignedLong) (p : PlanContent Text) :
    (recordBytes long p).length = probeRecordSize p := by
  rw [recordBytes, List.length_append, length_le, planBytes, ← probeRecordSize_eq]

/-- **The layout succeeds when every text fits, and fills the buffer.** -/
theorem layout_eq_some {long : UnsignedLong} {p : PlanContent Text} {b : List UInt8} :
    layout long p = some b ↔ Fits p ∧ b = recordBytes long p := by
  have hplan := writePlan_writes p rfl [] (Nat.zero_le _)
  simp only [List.length_nil, Nat.zero_add, List.nil_append] at hplan
  have hle : (planBytes p).length ≤ probeRecordSize p := by
    exact (Nat.le_add_right _ 4).trans_eq (probeRecordSize_eq _ p).symm
  simp only [layout, Option.bind_eq_bind, Option.bind_eq_some_iff, Prod.exists]
  constructor
  · rintro ⟨⟨⟩, written, hw, ⟨⟩, output, ho, h⟩
    obtain ⟨hfits, -, rfl⟩ := (hplan written).mp hw
    obtain ⟨-, -, rfl⟩ := (dword_writes _ _ hle output).mp ho
    split at h
    · cases h
    · exact ⟨hfits, (Option.some.inj h).symm⟩
  · rintro ⟨hfits, rfl⟩
    refine ⟨(), _, (hplan _).mpr ⟨hfits, hle, rfl⟩, (), _, (dword_writes _ _ hle _).mpr
      ⟨trivial, ?_, rfl⟩, ?_⟩
    · rw [length_le, planBytes, ← probeRecordSize_eq]
    · exact if_neg (not_not.mpr (length_recordBytes long p))

/-- A turn of the loop keeps the low 32 bits apart from the others. -/
theorem checksumStep_mod (long : UnsignedLong) (c : Nat) (b : UInt8) :
    checksumStep long.bits c b % 2 ^ 32 = checksumStep 32 (c % 2 ^ 32) b := by
  have hdvd : 2 ^ 32 ∣ 2 ^ long.bits := by
    cases long
    · exact Nat.dvd_refl _
    · exact Nat.pow_dvd_pow 2 (by decide)
  have hb : b.toNat % 2 ^ 32 = b.toNat := Nat.mod_eq_of_lt (b.toNat_lt.trans (by decide))
  calc checksumStep long.bits c b % 2 ^ 32
      = (c ^^^ b.toNat) * 16777619 % 2 ^ 32 := Nat.mod_mod_of_dvd _ hdvd
    _ = (c ^^^ b.toNat) % 2 ^ 32 * 16777619 % 2 ^ 32 := (Nat.mod_mul_mod _ _ _).symm
    _ = checksumStep 32 (c % 2 ^ 32) b := by rw [Nat.xor_mod_two_pow, hb, checksumStep]

/-- **The checksum's low 32 bits do not depend on the width.** -/
theorem checksum_mod (long : UnsignedLong) (written : List UInt8) :
    checksum long.bits written % 2 ^ 32 = checksum 32 written := by
  have hfold : ∀ c, written.foldl (checksumStep long.bits) c % 2 ^ 32 =
      written.foldl (checksumStep 32) (c % 2 ^ 32) := by
    induction written with
    | nil => exact fun c => rfl
    | cons b bs ih =>
        intro c
        rw [List.foldl_cons, List.foldl_cons, ih, checksumStep_mod]
  exact hfold 2166136261

end Grevir.Interrupt
