import Grevir.Interrupt.ProbeRecord
import Grevir.Irqgen.Validate

/-!
# Irqgen — Record

The decoder against the encoder: `decode` reads exactly the records the encoder lays out, whatever
the width of the target's `unsigned long`.

* `readContent_reads`: what the reader takes before the checksum.
* `decode_answers`: what the decoder answers, for any bytes.
-/

namespace Grevir.Irqgen

open Codec Interrupt Json

/-! ### Numbers and texts -/

theorem require_reads {P : Prop} [Decidable P] (message : String) :
    Reads Error.IsPlanError (require P message : Codec.Reader Error Unit) (fun _ => P)
      fun _ => [] := by
  by_cases h : P
  · rw [require, if_pos h]
    refine ⟨fun input b rest => ?_, fun input e he => by cases he⟩
    show Except.ok ((), input) = .ok (b, rest) ↔ _
    simp [h, eq_comm]
  · rw [require, if_neg h]
    refine ⟨fun input b rest => iff_of_false (fun hx => by cases hx) fun hx => h hx.2.1, ?_⟩
    intro input e he
    cases he
    exact ⟨message, rfl⟩

namespace Reader

theorem take_reads (size : Nat) :
    Reads Error.IsPlanError (take size) (fun raw => raw.length = size) fun raw => raw where
  reads input raw rest := by
    unfold take
    split
    · next h =>
      refine iff_of_false (fun hx => by cases hx) ?_
      rintro ⟨-, hlen, rfl⟩
      rw [List.length_append] at h
      omega
    · next h =>
      rw [Except.ok.injEq, Prod.mk.injEq]
      constructor
      · rintro ⟨rfl, rfl⟩
        exact ⟨trivial, List.length_take_of_le (Nat.le_of_not_gt h), (List.take_append_drop ..).symm⟩
      · rintro ⟨-, rfl, rfl⟩
        exact ⟨List.take_left, List.drop_left⟩
  raises input e he := by
    unfold take at he
    split at he
    · cases he
      exact ⟨_, rfl⟩
    · cases he

/-- A number of `size` bytes. -/
theorem number_reads (size : Nat) :
    Reads Error.IsPlanError (do unpack size (← take size)) (· < 256 ^ size) (le size) where
  reads input n rest := by
    rw [bind_eq_ok]
    constructor
    · rintro ⟨raw, mid, hraw, hn⟩
      obtain ⟨-, hlen, rfl⟩ := ((take_reads size).reads input raw mid).mp hraw
      rw [unpack, if_pos hlen] at hn
      cases hn
      rw [← hlen]
      exact ⟨trivial, fromLe_lt raw, by rw [le_fromLe]⟩
    · rintro ⟨-, hlt, rfl⟩
      refine ⟨le size n, rest, ((take_reads size).reads _ _ _).mpr
        ⟨trivial, length_le size n, rfl⟩, ?_⟩
      rw [unpack, if_pos (length_le size n), fromLe_le, Nat.mod_eq_of_lt hlt]
      rfl
  raises input e he := by
    rcases bind_eq_error.mp he with he | ⟨raw, mid, hraw, he⟩
    · exact (take_reads size).raises input e he
    · rw [unpack, if_pos (((take_reads size).reads input raw mid).mp hraw).2.1] at he
      cases he

theorem byte_eq : byte = (do unpack 1 (← take 1)) := by
  funext input
  show (take 1 input >>= _) = (take 1 input >>= _)
  cases h : take 1 input with
  | error e => rfl
  | ok x =>
      obtain ⟨raw, mid⟩ := x
      have hlen := ((take_reads 1).reads input raw mid).mp h
      obtain ⟨b, rfl⟩ := List.length_eq_one_iff.mp hlen.2.1
      rfl

theorem byte_reads : Reads Error.IsPlanError byte (· < 256) (le 1) := by
  rw [byte_eq]
  exact number_reads 1

theorem word_reads : Reads Error.IsPlanError word (· < 2 ^ 16) (le 2) := number_reads 2

theorem dword_reads : Reads Error.IsPlanError dword (· < 2 ^ 32) (le 4) := number_reads 4

/-- Bytes that are the encoding of the string. -/
theorem utf8_exact {n : Nat} {raw : List UInt8} (hlen : raw.length = n) :
    Exact Error.IsPlanError (fun s => (True ∧ (Utf8.bytes s).length = n) ∧ Utf8.bytes s = raw)
      (utf8 raw) (fun _ => True) fun _ => [] := by
  unfold utf8
  cases h : Utf8.decode raw with
  | some value =>
      refine .pure fun s => ?_
      have hraw : Utf8.bytes value = raw := Utf8.decode_eq_some.mp h
      rw [← hraw] at hlen ⊢
      constructor
      · exact fun hs => Utf8.bytes_injective hs.2
      · rintro rfl
        exact ⟨⟨trivial, hlen⟩, rfl⟩
  | none =>
      refine ⟨fun input s rest => iff_of_false (fun hx => by cases hx) ?_, fun input e he => ?_⟩
      · rintro ⟨⟨-, hs⟩, -⟩
        rw [Utf8.decode_eq_some.mpr hs] at h
        cases h
      · cases he
        exact ⟨_, rfl⟩

theorem text_reads : Reads Error.IsPlanError text (fun s => TextFits (Utf8.bytes s))
    fun s => textBytes (Utf8.bytes s) := by
  have hraw : ∀ n, Exact Error.IsPlanError (fun s => True ∧ (Utf8.bytes s).length = n)
      (do utf8 (← take n)) (fun _ => True) fun s => Utf8.bytes s := fun n =>
    (Exact.field Utf8.bytes (take_reads n) fun _ => utf8_exact).congr (by simp) (by simp)
  refine (Exact.field (fun s => (Utf8.bytes s).length) byte_reads fun n _ => hraw n).congr ?_ ?_
  · intro s
    simp only [TextFits, true_and, and_true]
    omega
  · exact fun s _ _ => rfl

end Reader

section Fields

variable {β : Type} {C : β → Prop} {okQ : β → Prop} {encQ : β → List UInt8}

/-- A text, then others. -/
theorem textField {q : String → Codec.Reader Error β} {texts : β → List Text} (proj : β → String)
    (hq : ∀ s, Exact Error.IsPlanError (fun b => C b ∧ proj b = s) (q s)
      (fun b => (∀ t ∈ texts b, TextFits t) ∧ okQ b)
      fun b => (texts b).flatMap textBytes ++ encQ b) :
    Exact Error.IsPlanError C (Reader.text >>= q)
      (fun b => (∀ t ∈ Utf8.bytes (proj b) :: texts b, TextFits t) ∧ okQ b)
      fun b => (Utf8.bytes (proj b) :: texts b).flatMap textBytes ++ encQ b :=
  (Exact.field proj Reader.text_reads fun s _ => hq s).congr
    (fun b => by rw [List.forall_mem_cons, and_assoc (a := TextFits _)])
    fun b _ _ => by rw [List.flatMap_cons, List.append_assoc]

theorem textField_nil {q : Codec.Reader Error β} (hq : Exact Error.IsPlanError C q okQ encQ) :
    Exact Error.IsPlanError C q (fun b => (∀ t ∈ ([] : List Text), TextFits t) ∧ okQ b)
      fun b => ([] : List Text).flatMap textBytes ++ encQ b :=
  hq.congr (by simp) fun _ _ _ => rfl

end Fields

/-! ### Events, demands and bindings -/

theorem readEvent_reads : Reads Error.IsPlanError readEvent
    (fun e => ∀ t ∈ (e.map Utf8.bytes).texts, TextFits t)
    fun e => (e.map Utf8.bytes).texts.flatMap textBytes := by
  refine Exact.reshape (textField EventIdentity.instance' fun i =>
    textField EventIdentity.request fun r => textField EventIdentity.kind fun k =>
    textField_nil (.pure ?_)) ?_ ?_
  · rintro ⟨i', r', k'⟩
    simp [and_assoc]
  · exact fun e => and_iff_left trivial
  · exact fun e => List.append_nil _

theorem readDemand_reads : Reads Error.IsPlanError readDemand
    (fun d => ∀ t ∈ (d.map Utf8.bytes).texts, TextFits t)
    fun d => demandBytes (d.map Utf8.bytes) := by
  refine Exact.reshape (Exact.field Demand.event readEvent_reads fun e _ =>
    textField Demand.handler fun h => textField Demand.context fun c =>
    textField Demand.delivery fun d => textField_nil (.pure ?_)) ?_ ?_
  · rintro ⟨e', h', c', d'⟩
    simp [and_assoc]
  · intro d
    rw [and_true, ← List.forall_mem_append]
    rfl
  · intro d
    rw [List.append_nil, ← List.flatMap_append]
    rfl

theorem readFlag_reads : Reads Error.IsPlanError readFlag (fun _ => True)
    fun flag => le 1 (if flag then 1 else 0) := by
  refine Exact.reshape (Exact.field (fun flag : Bool => if flag then 1 else 0) Reader.byte_reads
    fun n _ => .check (require_reads _) (P := n = 0 ∨ n = 1) ?_ fun hn => .pure ?_) ?_ ?_
  · rintro (_ | _) ⟨-, rfl⟩
    · exact .inl rfl
    · exact .inr rfl
  · rintro (_ | _) <;> rcases hn with rfl | rfl <;> simp
  · rintro (_ | _) <;> simp
  · exact fun flag => List.append_nil _

theorem readBinding_reads : Reads Error.IsPlanError readBinding
    (fun b => ((∀ t ∈ (b.map Utf8.bytes).event.texts, TextFits t) ∧
      ∀ t ∈ (b.map Utf8.bytes).texts, TextFits t) ∧ b.dispatchOrder < 2 ^ 16)
    fun b => bindingBytes (b.map Utf8.bytes) := by
  refine Exact.reshape (Exact.field BindingRecord.event readEvent_reads fun e _ =>
    textField BindingRecord.owner fun o => textField BindingRecord.configuration fun c =>
    textField BindingRecord.source fun s => textField BindingRecord.selector fun sel =>
    textField BindingRecord.entry fun en => textField BindingRecord.snapshotPolicy fun sn =>
    textField BindingRecord.acknowledgePolicy fun ack => textField_nil
    (.field BindingRecord.dispatchOrder Reader.word_reads fun n _ =>
      .field BindingRecord.sharedSource readFlag_reads fun flag _ => .pure ?_)) ?_ ?_
  · rintro ⟨e', o', c', s', sel', en', sn', ack', n', flag'⟩
    simp [and_assoc]
  · intro b
    simp only [and_true, and_assoc]
    rfl
  · intro b
    rw [bindingBytes, List.append_nil]
    simp only [List.append_assoc]
    rfl

/-! ### The record -/

/-- The content a record can carry. -/
structure Carried (p : PlanContent String) : Prop where
  fits : Fits (p.map Utf8.bytes)
  demandCount : p.demands.length < 2 ^ 16
  bindingCount : p.bindings.length < 2 ^ 16
  capacity : p.capacity < 2 ^ 16
  dispatchOrder : ∀ b ∈ p.bindings, b.dispatchOrder < 2 ^ 16

/-- **The reader takes exactly the content's bytes, with the length of its data in them.** -/
theorem readContent_reads (data : List UInt8) :
    Reads Error.IsPlanError (readContent data) (fun p => data.length < 2 ^ 32 ∧ Carried p)
      fun p => contentBytes data.length (p.map Utf8.bytes) := by
  refine Exact.reshape (.field (fun _ => [71, 73, 82, 81]) (Reader.take_reads 4) fun magic _ =>
    .check (require_reads _) (fun _ h => h.2.symm) fun _ =>
    .field (fun _ => SCHEMA) Reader.word_reads fun schema _ =>
    .check (require_reads _) (fun _ h => h.2.symm) fun _ =>
    .field (fun _ => data.length) Reader.dword_reads fun length _ =>
    .check (require_reads _) (fun _ h => h.2.symm) fun _ =>
    .field (fun p => p.demands.length) Reader.word_reads fun demandCount _ =>
    .field (fun p => p.bindings.length) Reader.word_reads fun bindingCount _ =>
    textField PlanContent.backend fun backend => textField PlanContent.target fun target =>
    textField PlanContent.board fun board => textField PlanContent.compiler fun compiler =>
    textField PlanContent.application fun application => textField_nil
    (.field PlanContent.capacity Reader.word_reads fun capacity _ =>
      .field PlanContent.policy Reader.text_reads fun policy _ =>
      .counted PlanContent.demands readDemand_reads ?_ fun demands hdemands =>
      .counted PlanContent.bindings readBinding_reads ?_ fun bindings hbindings => .pure ?_)) ?_ ?_
  · exact fun p h => h.1.1.1.1.1.1.1.1.2
  · exact fun p h => h.1.1.1.1.1.1.1.1.2
  · intro p
    simp only [and_assoc]
    constructor
    · rintro ⟨-, -, -, -, -, -, rfl, rfl, rfl, rfl, rfl, rfl, rfl, rfl, rfl⟩
      rfl
    · rintro rfl
      simp [*]
  · intro p
    constructor
    · rintro ⟨-, -, hlen, hds, hbs, hheader, hc, hp, hd, hb, -⟩
      exact ⟨hlen, ⟨hheader, hp, List.forall_mem_map.mpr hd,
        List.forall_mem_map.mpr fun b h => (hb b h).1⟩, hds, hbs, hc, fun b h => (hb b h).2⟩
    · rintro ⟨hlen, ⟨hheader, hp, hd, hb⟩, hds, hbs, hc, ho⟩
      exact ⟨rfl, by decide, hlen, hds, hbs, hheader, hc, hp, List.forall_mem_map.mp hd,
        fun b h => ⟨List.forall_mem_map.mp hb b h, ho b h⟩, trivial⟩
  · intro p
    simp only [contentBytes, PlanContent.map, List.length_map, List.flatMap_map, List.append_assoc,
      List.append_nil]
    rfl

/-- The masked checksum of the decoder is the encoder's in 32 bits. -/
theorem checksum_eq (data : List UInt8) : checksum data = Interrupt.checksum 32 data := by
  have hstep : (fun (actual : Nat) (b : UInt8) => ((actual ^^^ b.toNat) * 16777619) &&& 0xffffffff) =
      checksumStep 32 := by
    funext actual b
    exact Nat.and_two_pow_sub_one_eq_mod _ 32
  rw [checksum, hstep, Interrupt.checksum]

/-- The checksum written in four bytes, whatever the width it was computed in. -/
theorem le_checksum (long : UnsignedLong) (data : List UInt8) :
    le 4 (Interrupt.checksum long.bits data) = le 4 (checksum data) := by
  have hmod : ∀ n, le 4 n = le 4 (n % 2 ^ 32) := fun n => by
    have h := le_fromLe (le 4 n)
    rw [length_le, fromLe_le] at h
    exact h.symm
  rw [hmod, checksum_mod, checksum_eq]

theorem checksum_lt (data : List UInt8) : checksum data < 2 ^ 32 := by
  rw [checksum_eq, ← checksum_mod .bits32 data]
  exact Nat.mod_lt _ (by decide)

/-- What a reader answers on one input. -/
theorem answers_of_reads {β : Type} {p : Codec.Reader Error β} {ok : β → Prop}
    {enc : β → List UInt8} (h : Reads Error.IsPlanError p ok enc) (input : List UInt8) :
    Answers Error.IsPlanError (p input) fun x => ok x.1 ∧ input = enc x.1 ++ x.2 where
  ok_iff x := by rw [h.reads input x.1 x.2, true_and]
  raises := h.raises input

/-- The record less its checksum. -/
theorem take_planBytes {data left : List UInt8} {p : PlanContent Text}
    (hdata : data = contentBytes data.length p ++ left) (hleft : left.length = 4) :
    data.take (data.length - 4) = contentBytes data.length p := by
  have hlen : data.length = (contentBytes data.length p).length + 4 := by
    rw [← hleft, ← List.length_append]
    exact congrArg List.length hdata
  calc data.take (data.length - 4)
      = (contentBytes data.length p ++ left).take (data.length - 4) :=
        congrArg (List.take _) hdata
    _ = contentBytes data.length p := List.take_left' (by omega)

variable {F : Type} [PyFloat F] (sha256 : List UInt8 → String) (json : Value F → List UInt8)

/-- **Of any bytes, the decoder answers the plan of the valid content the record was laid out for, and
else raises `PlanError`.** -/
theorem decode_answers (long : UnsignedLong) (data : List UInt8) :
    Answers Error.IsPlanError (decode sha256 json data) fun v =>
      ∃ p, (data.length < 2 ^ 32 ∧ Carried p) ∧ data = recordBytes long (p.map Utf8.bytes) ∧
        Valid p ∧ v = planValue sha256 json p := by
  refine Answers.congr ((answers_of_reads (readContent_reads data) data).bind fun x _ =>
    Answers.check (require_answers _) fun _ =>
    (answers_of_reads Reader.dword_reads x.2).bind fun y _ =>
    Answers.check (require_answers _) fun _ =>
    validatePlan_answers sha256 json (planValue sha256 json x.1)) fun v => ?_
  constructor
  · rintro ⟨⟨p, left⟩, ⟨hcarried, hdata⟩, hleft, ⟨expected, rest⟩, ⟨-, hrest⟩, hsum, ⟨q, hrep, hvalid⟩,
      rfl⟩
    cases hrep.eq
    simp only at hcarried hdata hleft hrest hsum hvalid
    have hlen : data.length = probeRecordSize (p.map Utf8.bytes) := by
      rw [probeRecordSize_eq data.length, ← hleft, ← List.length_append]
      exact congrArg List.length hdata
    have hplan : contentBytes data.length (p.map Utf8.bytes) = planBytes (p.map Utf8.bytes) := by
      rw [planBytes, hlen]
    have hsum' : expected = checksum (planBytes (p.map Utf8.bytes)) := by
      rw [hsum, take_planBytes hdata hleft, hplan]
    have hnil : rest = [] := by
      have h := congrArg List.length hrest
      rw [hleft, List.length_append, length_le] at h
      exact List.length_eq_zero_iff.mp (by omega)
    refine ⟨p, hcarried, ?_, hvalid, rfl⟩
    rw [recordBytes, le_checksum, ← hsum', ← hplan]
    rw [hrest, hnil, List.append_nil] at hdata
    exact hdata
  · rintro ⟨p, hcarried, hdata, hvalid, rfl⟩
    have hlen : data.length = probeRecordSize (p.map Utf8.bytes) := by
      rw [hdata, length_recordBytes]
    have hplan : contentBytes data.length (p.map Utf8.bytes) = planBytes (p.map Utf8.bytes) := by
      rw [planBytes, hlen]
    have hdata' : data = contentBytes data.length (p.map Utf8.bytes) ++
        le 4 (checksum (planBytes (p.map Utf8.bytes))) := by
      rw [hplan, ← le_checksum long]
      exact hdata
    have hsum : checksum (planBytes (p.map Utf8.bytes)) =
        checksum (data.take (data.length - 4)) := by
      rw [take_planBytes hdata' (length_le 4 _), hplan]
    generalize checksum (planBytes (p.map Utf8.bytes)) = expected at hdata' hsum
    have hlt : expected < 2 ^ 32 := hsum ▸ checksum_lt _
    exact ⟨(p, le 4 expected), ⟨hcarried, hdata'⟩, length_le 4 _, (expected, []),
      ⟨hlt, (List.append_nil _).symm⟩, hsum, ⟨p, .planValue sha256 json hvalid, hvalid⟩, rfl⟩

/-- **The decoder accepts exactly the image of the encoder's layout.** -/
theorem decode_accepts_encoder_image (long : UnsignedLong) (data : List UInt8) :
    (∀ p, decode sha256 json data = .ok (planValue sha256 json p) ↔
      validatePlan sha256 json (planValue sha256 json p) = .ok (planValue sha256 json p) ∧
        p.demands.length < 2 ^ 16 ∧ p.bindings.length < 2 ^ 16 ∧
        probeRecordSize (p.map Utf8.bytes) < 2 ^ 32 ∧
        layout long (p.map Utf8.bytes) = some data ∧
        data.length = probeRecordSize (p.map Utf8.bytes)) ∧
    ((∃ p, decode sha256 json data = .ok (planValue sha256 json p)) ∨
      ∃ message, decode sha256 json data = .error (.plan message)) := by
  have hanswers := decode_answers sha256 json long data
  constructor
  · intro p
    rw [hanswers.ok_iff, validatePlan_planValue, layout_eq_some]
    constructor
    · rintro ⟨q, ⟨hlt, hcarried⟩, rfl, hvalid, heq⟩
      have hrep := Represents.planValue sha256 json hvalid
      rw [← heq] at hrep
      cases hrep.eq
      rw [length_recordBytes] at hlt
      exact ⟨hvalid, hcarried.demandCount, hcarried.bindingCount, hlt, ⟨hcarried.fits, rfl⟩,
        length_recordBytes long _⟩
    · rintro ⟨hvalid, hds, hbs, hlt, ⟨hfits, rfl⟩, hlen⟩
      refine ⟨p, ⟨hlen ▸ hlt, hfits, hds, hbs, ?_, fun b hb => ?_⟩, rfl, hvalid, rfl⟩
      · exact hvalid.capacity_lt
      · exact (hvalid.bindings b hb).dispatchOrder.trans_lt (by decide)
  · cases h : decode sha256 json data with
    | ok v =>
        obtain ⟨p, -, -, -, rfl⟩ := (hanswers.ok_iff v).mp h
        exact .inl ⟨p, rfl⟩
    | error e =>
        obtain ⟨message, rfl⟩ := hanswers.raises e h
        exact .inr ⟨message, rfl⟩

end Grevir.Irqgen
