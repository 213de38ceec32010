import Grevir.Irqgen.Directory
import Grevir.Irqgen.Outputs

/-!
# Irqgen — Ready

The ready marker: what `_emit` writes, and what `verify_ready` accepts with it.

* `readMarker_jsonBytes`: a marker reads back as it was written, its keys in order.
* `checkReady_answers`: the marker, plan and outputs `verify_ready` accepts together.  It refuses all
  others with a `PlanError`.
-/

namespace Grevir.Irqgen

open Interrupt Json

/-! ### Text files -/

theorem universalNewlines_eq_self {cs : List Char} (h : '\r' ∉ cs) : universalNewlines cs = cs := by
  induction cs with
  | nil => rfl
  | cons c cs ih =>
      rw [List.mem_cons, not_or] at h
      rw [universalNewlines, ih h.2]
      · exact fun _ hc => absurd hc.symm h.1
      · exact fun hc => absurd hc.symm h.1

theorem carriage_notMem_universalNewlines (cs : List Char) : '\r' ∉ universalNewlines cs := by
  induction cs using universalNewlines.induct with
  | case1 => simp [universalNewlines]
  | case2 cs ih => simp [universalNewlines, ih]
  | case3 cs hcs ih =>
      rw [universalNewlines]
      · simp [ih]
      · exact hcs
  | case4 c cs hpair hreturn ih =>
      rw [universalNewlines, List.mem_cons, not_or]
      · exact ⟨fun hc => hreturn hc.symm, ih⟩
      · exact hpair
      · exact hreturn

theorem universalNewlines_idem (cs : List Char) :
    universalNewlines (universalNewlines cs) = universalNewlines cs :=
  universalNewlines_eq_self (carriage_notMem_universalNewlines cs)

theorem readText_bytes (s : String) :
    readText (some (Utf8.bytes s)) = .ok (String.ofList (universalNewlines s.toList)) := by
  show decodeText (Utf8.bytes s) = _
  rw [decodeText, Utf8.decode_bytes]
  rfl

/-- An attempt is read back as it was written, line end and all. -/
theorem readText_attempt {attempt : String} (h : '\r' ∉ attempt.toList) :
    readText (some (Utf8.bytes (attempt ++ "\n"))) = .ok (attempt ++ "\n") := by
  have hline : '\r' ∉ (attempt ++ "\n").toList := by
    rw [String.toList_append, List.mem_append, not_or]
    exact ⟨h, by decide⟩
  rw [readText_bytes, universalNewlines_eq_self hline, String.ofList_toList]

theorem dropWhile_eq_self {α : Type} {p : α → Bool} {as : List α} (h : ∀ a ∈ as, p a = false) :
    as.dropWhile p = as := by
  cases as with
  | nil => rfl
  | cons a as => rw [List.dropWhile_cons_of_neg (by simp [h a])]

/-- Stripping an attempt without spaces takes the line end off. -/
theorem strip_attempt {attempt : String} (h : ∀ c ∈ attempt.toList, isSpaceChar c = false) :
    strip (attempt ++ "\n") = attempt := by
  have hline : "\n".toList = ['\n'] := rfl
  have hspace : isSpaceChar '\n' = true := by decide
  rw [strip, String.toList_append, hline]
  cases hcs : attempt.toList with
  | nil => exact (String.toList_inj.mp (by rw [hcs]; decide)).symm
  | cons c cs =>
      have hreverse : ∀ x ∈ (c :: cs).reverse, isSpaceChar x = false := fun x hx =>
        h x (by rw [hcs]; exact List.mem_reverse.mp hx)
      rw [List.cons_append, List.dropWhile_cons_of_neg (by simp [h c (by simp [hcs])]),
        ← List.cons_append, List.reverse_append, List.reverse_singleton, List.singleton_append,
        List.dropWhile_cons_of_pos hspace, dropWhile_eq_self hreverse, List.reverse_reverse, ← hcs,
        String.ofList_toList]

section Marker

variable {F : Type} [FloatText F]

/-- **A marker reads back as it was written.** -/
theorem readMarker_jsonBytes {v : Value F} (h : Plain v) :
    readMarker (some (jsonBytes v)) = .ok (sortKeys v) := by
  have hline : '\r' ∉ dumps 0 v ++ ['\n'] := by
    rw [List.mem_append, not_or]
    refine ⟨fun hmem => ?_, by decide⟩
    rcases printable_dumps h 0 _ hmem with hc | hc
    · exact absurd hc (by decide)
    · exact absurd hc (by decide)
  rw [readMarker, jsonBytes, readText_bytes, String.toList_ofList, universalNewlines_eq_self hline]
  show loadsText (String.ofList (dumps 0 v ++ ['\n'])) = _
  rw [loadsText, String.toList_ofList, loads_dumps h]
  rfl

/-- The ready marker of a plan with this content. -/
def readyValue (args : EmitArgs) (p : PlanContent String) (fingerprint digest identity : String) :
    Value F :=
  .dict [
    ("attempt", .str args.attempt),
    ("backend", .str args.backend),
    ("target", .str p.target),
    ("board", .str p.board),
    ("compiler", .str p.compiler),
    ("emitter", .str EMITTER),
    ("protocol", .int SCHEMA),
    ("plan_fingerprint", .str fingerprint),
    ("plan_sha256", .str digest),
    ("output_identity", .str identity)]

omit [FloatText F] in
theorem plain_readyValue (args : EmitArgs) (p : PlanContent String)
    (fingerprint digest identity : String) :
    Plain (readyValue args p fingerprint digest identity : Value F) := by
  refine .dict (show readyFields.Nodup by decide) ?_
  simp only [List.forall_mem_cons]
  exact ⟨.str _, .str _, .str _, .str _, .str _, .str _, .int _, .str _, .str _, .str _, by simp⟩

variable [PyFloat F] (sha256 : List UInt8 → String)

theorem readyMarker_eq {v : Value F} {p : PlanContent String} (h : Represents sha256 jsonBytes v p)
    (args : EmitArgs) (planBytes header source : List UInt8) :
    readyMarker sha256 args v planBytes header source =
      .ok (readyValue args p (sha256 (jsonBytes (unsigned v))) (sha256 planBytes)
        (outputIdentity sha256 header source)) := by
  have hheader := h.header
  simp only [headerFields, PlanContent.header, List.forall₂_cons] at hheader
  obtain ⟨-, htarget, hboard, hcompiler, -⟩ := hheader
  rw [readyMarker, htarget, hboard, hcompiler, h.schema, h.fingerprint]
  rfl

/-! ### What is accepted -/

/-- **A marker, a plan and its outputs that go together**, for what is expected of them. -/
structure Ready (args : VerifyArgs) (marker : Value F) (recordedAttempt : String)
    (planBytes header source : List UInt8) : Prop where
  fields : marker.hasFields readyFields
  attempt : HasText marker "attempt" recordedAttempt ∧ recordedAttempt ≠ "" ∧
    ∀ a ∈ args.attempt, recordedAttempt = a
  identity : ∀ field ∈ args.expected, HasText marker field.1 field.2
  emitter : HasText marker "emitter" EMITTER
  protocol : ∃ protocol, marker.item "protocol" = .ok protocol ∧ protocol.eq (.int SCHEMA)
  plan : ∃ plan : Value F, parseCanonical sha256 planBytes = .ok plan ∧
    (∀ field ∈ args.expected, HasText plan field.1 field.2) ∧
    ∃ fingerprint, HasText plan "fingerprint" fingerprint ∧
      HasText marker "plan_fingerprint" fingerprint
  planBytes : HasText marker "plan_sha256" (sha256 planBytes)
  outputs : HasText marker "output_identity" (outputIdentity sha256 header source)

omit [FloatText F] [PyFloat F] in
theorem checkAttempt_answers (args : VerifyArgs) (recordedAttempt : String) (v : Value F) :
    Answers Error.IsPlanError (checkAttempt args recordedAttempt v) fun _ =>
      v = .str recordedAttempt ∧ recordedAttempt ≠ "" ∧ ∀ a ∈ args.attempt, recordedAttempt = a := by
  cases v with
  | str attempt =>
      refine (require_answers _).congr fun _ => ?_
      rw [Value.str.injEq]
      constructor
      · rintro ⟨hne, rfl, hattempt⟩
        exact ⟨rfl, hne, hattempt⟩
      · rintro ⟨rfl, hne, hattempt⟩
        exact ⟨hne, rfl, hattempt⟩
  | _ => exact (Answers.throw ⟨_, rfl⟩).congr fun _ => by simp

omit [FloatText F] in
theorem checkIdentity_answers {v : Value F} {names : List String} (h : v.hasFields names)
    {fields : List (String × Value F)} (hfields : ∀ field ∈ fields, field.1 ∈ names)
    (message : String) :
    Answers Error.IsPlanError (checkIdentity v fields message) fun _ =>
      ∀ field ∈ fields, ∃ w, v.item field.1 = .ok w ∧ w.eq field.2 :=
  Answers.forM fun field hfield =>
    ((item_answers h (hfields field hfield)).bind fun _ _ => require_answers message)

omit [FloatText F] in
/-- A field that is to have some text. -/
theorem exists_eq_str {v : Value F} {field t : String} :
    (∃ w, v.item field = .ok w ∧ w.eq (.str t)) ↔ HasText v field t := by
  simp only [eq_str]
  constructor
  · rintro ⟨_, hw, rfl⟩
    exact hw
  · exact fun h => ⟨_, h, rfl⟩

/-- **What `verify_ready` accepts, of all it may read.** -/
theorem checkReady_answers (args : VerifyArgs) (marker : Value F) (recordedAttempt : String)
    (planBytes header source : List UInt8) :
    Answers Error.IsPlanError (checkReady sha256 args marker recordedAttempt planBytes header source)
      fun _ => Ready sha256 args marker recordedAttempt planBytes header source := by
  have hplanFields : ∀ plan : Value F, (∃ p, Represents sha256 jsonBytes plan p ∧ Valid p) →
      plan.hasFields planFields := fun plan ⟨p, hrep, _⟩ => hrep.fields
  have hexpected : ∀ names : List String, "backend" ∈ names → "target" ∈ names → "board" ∈ names →
      "compiler" ∈ names →
      ∀ field ∈ args.expected.map fun field => (field.1, (Value.str field.2 : Value F)),
        field.1 ∈ names := by
    intro names h₁ h₂ h₃ h₄
    simp only [VerifyArgs.expected, List.map_cons, List.map_nil, List.forall_mem_cons]
    exact ⟨h₁, h₂, h₃, h₄, by simp⟩
  unfold checkReady
  refine Answers.congr (Answers.check (require_answers _) fun hfields =>
    (item_answers hfields (by decide)).bind fun attempt _ =>
    Answers.check (checkAttempt_answers args recordedAttempt attempt) fun _ =>
    Answers.check (checkIdentity_answers hfields ?_ _) fun _ =>
    (parseCanonical_answers sha256 planBytes).bind fun plan hplan =>
    Answers.check (checkIdentity_answers (hplanFields plan hplan.2.1) ?_ _) fun _ =>
    (item_answers (hplanFields plan hplan.2.1) (by decide)).bind fun fingerprint _ =>
    checkIdentity_answers hfields ?_ _) fun _ => ?_
  · rw [List.forall_mem_append]
    exact ⟨hexpected _ (by decide) (by decide) (by decide) (by decide), by simp [readyFields]⟩
  · exact hexpected _ (by decide) (by decide) (by decide) (by decide)
  · simp [readyFields]
  · simp only [List.forall_mem_append, List.forall_mem_map, List.forall_mem_cons, exists_eq_str,
      List.not_mem_nil, false_imp_iff, implies_true, and_true]
    constructor
    · rintro ⟨hfields, attempt, hattempt, ⟨rfl, hne, hrequested⟩, ⟨hidentity, hemitter, hprotocol⟩,
        plan, hplan, hplanIdentity, fingerprint, hfp, hmarkerFp, hdigest, houtputs⟩
      obtain ⟨p, hrep, -⟩ := hplan.2.1
      cases hfp.symm.trans hrep.fingerprint
      exact ⟨hfields, ⟨hattempt, hne, hrequested⟩, hidentity, hemitter, hprotocol,
        ⟨plan, ((parseCanonical_answers sha256 planBytes).ok_iff plan).mpr hplan, hplanIdentity, _,
          hrep.fingerprint, exists_eq_str.mp hmarkerFp⟩, hdigest, houtputs⟩
    · rintro ⟨hfields, ⟨hattempt, hne, hrequested⟩, hidentity, hemitter, hprotocol,
        ⟨plan, hplan, hplanIdentity, fingerprint, hfp, hmarkerFp⟩, hdigest, houtputs⟩
      exact ⟨hfields, _, hattempt, ⟨rfl, hne, hrequested⟩, ⟨hidentity, hemitter, hprotocol⟩, plan,
        ((parseCanonical_answers sha256 planBytes).ok_iff plan).mp hplan, hplanIdentity, _, hfp,
        exists_eq_str.mpr hmarkerFp, hdigest, houtputs⟩

end Marker

end Grevir.Irqgen
