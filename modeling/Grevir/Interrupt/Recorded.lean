import Grevir.Interrupt.ProbeRecord

/-!
# Interrupt — Recorded

What a probe record says of a plan: all of it, but for the deferred capacity and the dispatch orders,
of which it keeps the low 16 bits.

* `recorded_eq_of_encode`: plans of one record say the same.
* `encode_recorded`: what a record says has that record.
-/

namespace Grevir.Interrupt

open Codec

variable {T : Type}

/-- The dispatch order as the record's word holds it. -/
def BindingRecord.recorded (b : BindingRecord T) : BindingRecord T :=
  { b with dispatchOrder := b.dispatchOrder % 2 ^ 16 }

/-- **What the record of a plan says.** -/
def PlanContent.recorded (p : PlanContent T) : PlanContent T :=
  { p with
    capacity := p.capacity % 2 ^ 16
    bindings := p.bindings.map BindingRecord.recorded }

theorem recorded_eq_self {p : PlanContent T} (hcapacity : p.capacity < 2 ^ 16)
    (horders : ∀ b ∈ p.bindings, b.dispatchOrder < 2 ^ 16) : p.recorded = p := by
  have hbindings : p.bindings.map BindingRecord.recorded = p.bindings :=
    (List.map_congr_left fun b hb => by
      rw [BindingRecord.recorded, Nat.mod_eq_of_lt (horders b hb), id]).trans (List.map_id _)
  rw [PlanContent.recorded, Nat.mod_eq_of_lt hcapacity, hbindings]

/-! ### The record of what a record says -/

theorem le_mod (k n : Nat) : le k (n % 256 ^ k) = le k n := by
  have h := le_fromLe (le k n)
  rwa [length_le, fromLe_le] at h

theorem bindingBytes_recorded (b : BindingRecord Text) :
    bindingBytes b.recorded = bindingBytes b := by
  have horder : le 2 (b.dispatchOrder % 2 ^ 16) = le 2 b.dispatchOrder := le_mod 2 _
  rw [bindingBytes, bindingBytes, BindingRecord.recorded, ← horder]
  rfl

theorem contentBytes_recorded (length : Nat) (p : PlanContent Text) :
    contentBytes length p.recorded = contentBytes length p := by
  have hcapacity : le 2 (p.capacity % 2 ^ 16) = le 2 p.capacity := le_mod 2 _
  have hbindings : (p.bindings.map BindingRecord.recorded).flatMap bindingBytes =
      p.bindings.flatMap bindingBytes := by
    rw [List.flatMap_map]
    exact List.flatMap_congr fun b _ => bindingBytes_recorded b
  simp only [contentBytes, PlanContent.recorded, hcapacity, hbindings, List.length_map]
  rfl

theorem probeRecordSize_recorded (p : PlanContent Text) :
    probeRecordSize p.recorded = probeRecordSize p := by
  rw [probeRecordSize_eq 0, probeRecordSize_eq 0, contentBytes_recorded]

theorem fits_recorded {p : PlanContent Text} : Fits p.recorded ↔ Fits p := by
  constructor
  · intro h
    exact ⟨h.header, h.policy, h.demands, List.forall_mem_map.mp h.bindings⟩
  · intro h
    exact ⟨h.header, h.policy, h.demands, List.forall_mem_map.mpr h.bindings⟩

theorem recordBytes_recorded (long : UnsignedLong) (p : PlanContent Text) :
    recordBytes long p.recorded = recordBytes long p := by
  rw [recordBytes, recordBytes, planBytes, planBytes, probeRecordSize_recorded,
    contentBytes_recorded]

/-- **What a record says has that record.** -/
theorem encode_recorded (long : UnsignedLong) (p : PlanContent Text) :
    encodeProbeRecord long p.recorded = encodeProbeRecord long p := by
  have hlayout : layout long p.recorded = layout long p := by
    refine Option.ext fun b => ?_
    rw [layout_eq_some, layout_eq_some, fits_recorded, recordBytes_recorded]
  rw [encodeProbeRecord, encodeProbeRecord, probeRecordSize_recorded, hlayout]

/-! ### Plans of one record -/

theorem textBytes_delimits : Delimits TextFits textBytes := by
  intro a b rest rest' ha hb heq
  rw [textBytes, textBytes, List.append_assoc, List.append_assoc] at heq
  obtain ⟨hlen, heq⟩ := le_delimits 1 _ _ _ _ (Nat.lt_succ_of_le ha) (Nat.lt_succ_of_le hb) heq
  exact List.append_inj heq hlen

theorem demandBytes_delimits :
    Delimits (fun d : Demand Text => ∀ t ∈ d.texts, TextFits t) demandBytes := by
  intro d d' rest rest' hd hd' heq
  obtain ⟨htexts, hrest⟩ := textBytes_delimits.flatMap hd hd' rfl heq
  refine ⟨?_, hrest⟩
  obtain ⟨⟨i, r, k⟩, h, c, v⟩ := d
  obtain ⟨⟨i', r', k'⟩, h', c', v'⟩ := d'
  simpa [Demand.texts, EventIdentity.texts, and_assoc] using htexts

/-- A binding with a dispatch order of 16 bits, whose texts fit. -/
def BindingFits (b : BindingRecord Text) : Prop :=
  ((∀ t ∈ b.event.texts, TextFits t) ∧ ∀ t ∈ b.texts, TextFits t) ∧ b.dispatchOrder < 2 ^ 16

theorem bindingBytes_delimits : Delimits BindingFits bindingBytes := by
  intro b b' rest rest' hb hb' heq
  rw [bindingBytes, bindingBytes] at heq
  simp only [List.append_assoc] at heq
  obtain ⟨hevent, heq⟩ := textBytes_delimits.flatMap hb.1.1 hb'.1.1 rfl heq
  obtain ⟨htexts, heq⟩ := textBytes_delimits.flatMap hb.1.2 hb'.1.2 rfl heq
  obtain ⟨horder, heq⟩ := le_delimits 2 _ _ _ _ hb.2 hb'.2 heq
  have hbit : ∀ f : Bool, (if f then 1 else 0) < 256 ^ 1 := by decide
  obtain ⟨hshared, hrest⟩ := le_delimits 1 _ _ _ _ (hbit _) (hbit _) heq
  refine ⟨?_, hrest⟩
  have hflag : b.sharedSource = b'.sharedSource := by
    revert hshared
    cases b.sharedSource <;> cases b'.sharedSource <;> decide
  obtain ⟨⟨i, r, k⟩, o, c, s, sel, e, sn, ack, n, f⟩ := b
  obtain ⟨⟨i', r', k'⟩, o', c', s', sel', e', sn', ack', n', f'⟩ := b'
  simp only [EventIdentity.texts, BindingRecord.texts, List.cons.injEq, and_true] at hevent htexts
  obtain ⟨rfl, rfl, rfl⟩ := hevent
  obtain ⟨rfl, rfl, rfl, rfl, rfl, rfl, rfl⟩ := htexts
  cases horder
  cases hflag
  rfl

/-- A plan whose texts, counts and words all fit. -/
structure PlanFits (p : PlanContent Text) : Prop where
  texts : Fits p
  demandCount : p.demands.length < 2 ^ 16
  bindingCount : p.bindings.length < 2 ^ 16
  capacity : p.capacity < 2 ^ 16
  orders : ∀ b ∈ p.bindings, b.dispatchOrder < 2 ^ 16

theorem contentBytes_injective {length length' : Nat} {p q : PlanContent Text} (hp : PlanFits p)
    (hq : PlanFits q) {rest rest' : List UInt8}
    (heq : contentBytes length p ++ rest = contentBytes length' q ++ rest') : p = q := by
  simp only [contentBytes, List.append_assoc] at heq
  obtain ⟨-, heq⟩ := List.append_inj heq rfl
  obtain ⟨-, heq⟩ := List.append_inj heq rfl
  obtain ⟨-, heq⟩ := List.append_inj heq (by rw [length_le, length_le])
  obtain ⟨hdemands, heq⟩ := le_delimits 2 _ _ _ _ hp.demandCount hq.demandCount heq
  obtain ⟨hbindings, heq⟩ := le_delimits 2 _ _ _ _ hp.bindingCount hq.bindingCount heq
  obtain ⟨hheader, heq⟩ := textBytes_delimits.flatMap hp.texts.header hq.texts.header rfl heq
  obtain ⟨hcapacity, heq⟩ := le_delimits 2 _ _ _ _ hp.capacity hq.capacity heq
  obtain ⟨hpolicy, heq⟩ := textBytes_delimits _ _ _ _ hp.texts.policy hq.texts.policy heq
  obtain ⟨hds, heq⟩ := demandBytes_delimits.flatMap hp.texts.demands hq.texts.demands hdemands heq
  obtain ⟨hbs, -⟩ := bindingBytes_delimits.flatMap
    (fun b hb => ⟨hp.texts.bindings b hb, hp.orders b hb⟩)
    (fun b hb => ⟨hq.texts.bindings b hb, hq.orders b hb⟩) hbindings heq
  obtain ⟨ba, ta, bo, co, ap, n, t, ds, bs⟩ := p
  obtain ⟨ba', ta', bo', co', ap', n', t', ds', bs'⟩ := q
  simp only [PlanContent.header, List.cons.injEq, and_true] at hheader
  obtain ⟨rfl, rfl, rfl, rfl, rfl⟩ := hheader
  cases hcapacity
  cases hpolicy
  cases hds
  cases hbs
  rfl

theorem length_le_flatMap {α : Type} {enc : α → List UInt8} (h : ∀ a, 1 ≤ (enc a).length)
    (as : List α) : as.length ≤ (as.flatMap enc).length := by
  induction as with
  | nil => exact le_refl 0
  | cons a as ih =>
      rw [List.flatMap_cons, List.length_append, List.length_cons]
      have := h a
      omega

theorem encode_eq_some {long : UnsignedLong} {p : PlanContent Text} {b : List UInt8} :
    encodeProbeRecord long p = some b ↔
      probeRecordSize p ≤ 65535 ∧ Fits p ∧ b = recordBytes long p := by
  unfold encodeProbeRecord
  split
  · next h => rw [layout_eq_some, and_iff_right h]
  · next h => exact iff_of_false (fun hx => by cases hx) fun hx => h hx.1

/-- Where the record is not too large, so are not the counts. -/
theorem planFits_recorded {p : PlanContent Text} (hsize : probeRecordSize p ≤ 65535)
    (hfits : Fits p) : PlanFits p.recorded := by
  rw [probeRecordSize_eq 0] at hsize
  have hds := @length_le_flatMap _ demandBytes (fun d => by
    rw [length_demandBytes, demandSize, encodedTextSize]
    omega) p.demands
  have hbs := @length_le_flatMap _ bindingBytes (fun b => by
    rw [length_bindingBytes, bindingSize, encodedTextSize]
    omega) p.bindings
  simp only [contentBytes, List.length_append] at hsize
  refine ⟨fits_recorded.mpr hfits, ?_, ?_, Nat.mod_lt _ (by decide), ?_⟩
  · show p.demands.length < _
    omega
  · show (p.bindings.map _).length < _
    rw [List.length_map]
    omega
  · exact List.forall_mem_map.mpr fun b _ => Nat.mod_lt _ (by decide)

/-- **Plans of one record say the same.** -/
theorem recorded_eq_of_encode {long long' : UnsignedLong} {p q : PlanContent Text} {b : List UInt8}
    (hp : encodeProbeRecord long p = some b) (hq : encodeProbeRecord long' q = some b) :
    p.recorded = q.recorded := by
  obtain ⟨hsize, hfits, rfl⟩ := encode_eq_some.mp hp
  obtain ⟨hsize', hfits', heq⟩ := encode_eq_some.mp hq
  rw [recordBytes, recordBytes, planBytes, planBytes, ← contentBytes_recorded,
    ← contentBytes_recorded _ q] at heq
  exact contentBytes_injective (planFits_recorded hsize hfits) (planFits_recorded hsize' hfits') heq

end Grevir.Interrupt
