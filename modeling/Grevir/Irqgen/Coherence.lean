import Grevir.Irqgen.Commands
import Grevir.Irqgen.Guards
import Grevir.Irqgen.PlanSection

/-!
# Irqgen — Coherence

Any number of commands on one output directory, one action of any of them at a time, each stopping
where it likes, while plans, headers and sources are changed from outside.  The marker carries the
digests of the plan and of both outputs, and is written by `_emit` alone, so what `verify_ready` read
together was emitted together.

* `Emitted.agrees`: a marker tells the plan, the header and the source it was emitted with.
* `verified_outputs_coherent`: what `verify_ready` has read when it answers, under every schedule.
-/

namespace Grevir.Irqgen

open Interrupt Json Programs Utf8

/-- **A digest without collisions, in hexadecimal.** -/
structure Digest (sha256 : List UInt8 → String) : Prop where
  injective : Function.Injective sha256
  hexadecimal : ∀ data, ∀ c ∈ (sha256 data).toList, c ∈ "0123456789abcdef".toList

theorem Digest.nulFree {sha256 : List UInt8 → String} (h : Digest sha256) (data : List UInt8) :
    NulFree (sha256 data) := fun hmem => absurd (h.hexadecimal data _ hmem) (by decide)

/-- What may be changed from outside: all files but the marker, which may be deleted. -/
def external (file : File) (value : Option (List UInt8)) : Bool := file ≠ .marker || value.isNone

section Emitted

variable {F : Type} [PyFloat F] [FloatText F] {sha256 : List UInt8 → String}

namespace OutputSet

/-- What the marker of some outputs says. -/
theorem Emitted.marker {args : EmitArgs} {o : OutputSet} (h : o.Emitted F sha256 args)
    {marker : Value F} (hread : readMarker (some o.marker) = .ok marker) :
    HasText marker "attempt" args.attempt ∧ HasText marker "backend" args.backend ∧
      HasText marker "plan_sha256" (sha256 o.plan) ∧
      HasText marker "output_identity" (outputIdentity sha256 o.header o.source) := by
  obtain ⟨v, p, plan, -, -, -, -, -, -, hmarker⟩ := h.outputs
  rw [hmarker, readMarker_jsonBytes (plain_readyValue args p _ _ _)] at hread
  cases hread
  have htext : ∀ {field t}, HasText (readyValue args p (sha256 (jsonBytes (unsigned v)))
      (sha256 o.plan) (outputIdentity sha256 o.header o.source) : Value F) field t → _ :=
    fun h => HasText.sortKeys h (plain_readyValue args p _ _ _)
  exact ⟨htext rfl, htext rfl, htext rfl, htext rfl⟩

/-- **A marker tells the plan, the header and the source it was emitted with.** -/
theorem Emitted.agrees (hdigest : Digest sha256) {args : EmitArgs} {expects : VerifyArgs}
    {o o' : OutputSet} (h : o.Emitted F sha256 args) {marker : Value F}
    (haccepted : o'.Accepted sha256 expects marker) (hmarker : o.marker = o'.marker) :
    args.backend = expects.backend ∧ o.plan = o'.plan ∧ o.header = o'.header ∧
      o.source = o'.source := by
  obtain ⟨hread, text, htext, hready⟩ := haccepted
  obtain ⟨-, hbackend, hplan, houtputs⟩ := h.marker (hmarker ▸ hread)
  obtain ⟨v, p, plan, -, hrep, hvalid, -, hplanOf, hemit, -⟩ := h.outputs
  obtain ⟨hheader, hsource⟩ :=
    emit_nulFree hdigest.nulFree hrep hvalid hplanOf args.applicationHeader.2 hemit
  have hparts : o.header ++ 0 :: o.source = o'.header ++ 0 :: o'.source :=
    hdigest.injective (houtputs.unique hready.outputs)
  exact ⟨hbackend.unique (hready.identity ("backend", _) (by simp [VerifyArgs.expected])),
    hdigest.injective (hplan.unique hready.planBytes), separated hheader hsource hparts⟩

end OutputSet

/-! ### Who writes the marker -/

/-- **A marker that some command wrote is that of outputs which a command emitted**, all its actions
done. -/
theorem exists_emitted {p : Process (Command.run F sha256)} {data : List UInt8}
    (h : .write .marker (some data) ∈ p.log) :
    ∃ (args : EmitArgs) (o : OutputSet) (present : Option (List UInt8)), p.command = .emit args ∧
      o.Emitted F sha256 args ∧ o.marker = data ∧
      p.log = o.emission args.backend present := by
  obtain ⟨command, log, rest, hran⟩ := p
  cases command with
  | plan args =>
      obtain ⟨q, hq, -⟩ := ran_map hran
      rcases ran_planCommand hq with ⟨_, -, rfl, -⟩ | ⟨rfl | rfl | rfl, -⟩ <;> simp at h
  | emit args =>
      obtain ⟨q, hq, -⟩ := ran_map hran
      rcases ran_emitCommand hq with ⟨o, present, hemitted, rfl, -⟩ | ⟨rfl | ⟨rest, hquiet, rfl⟩, -⟩
      · refine ⟨args, o, present, rfl, hemitted, ?_, rfl⟩
        simp only [OutputSet.emission, List.mem_cons, Event.write.injEq, reduceCtorEq, false_and,
          and_false, true_and, Option.some.injEq, false_or, or_false, List.not_mem_nil] at h
        exact h.symm
      · cases h
      · rcases List.mem_cons.mp h with heq | hmem
        · cases heq
        · rcases hquiet _ _ hmem with ⟨b, hb⟩ | ⟨b, hb⟩ <;> cases hb
  | verify args =>
      obtain ⟨q, hq, -⟩ := ran_map hran
      exact (hq.writes (verifyReady_writes args) _ _ h).elim

/-- **What was read goes together**: a command emitted it all from this plan, in this attempt and for
what is expected. -/
structure OutputSet.Coherent (processes : List (Process (Command.run F sha256))) (args : VerifyArgs)
    (marker : Value F) (o : OutputSet) : Prop where
  emitted : ∃ e ∈ processes, ∃ eargs, e.command = .emit eargs ∧
    .read (.plan args.backend) (some o.plan) ∈ e.log ∧
    .write (.header args.backend) (some o.header) ∈ e.log ∧
    .write (.source args.backend) (some o.source) ∈ e.log ∧
    ∃ (v : Value F) (plan : Plan), parseCanonical sha256 o.plan = .ok v ∧ planOf v = .ok plan ∧
      emit plan eargs.applicationHeader = .ok (o.header, o.source)
  read : readMarker (some o.marker) = .ok marker
  attempt : ∃ text, readText (some o.attempt) = .ok text ∧ HasText marker "attempt" (strip text) ∧
    ∀ a ∈ args.attempt, strip text = a
  identity : ∃ v : Value F, parseCanonical sha256 o.plan = .ok v ∧
    ∀ field ∈ args.expected, HasText v field.1 field.2

/-- **Whatever `verify_ready` accepts goes together, under every schedule** of plans, emits and changes
from outside. -/
theorem verified_outputs_coherent (hdigest : Digest sha256) {files : Files}
    (hmarker : files .marker = none) (actions : List (Action Command File (List UInt8)))
    {p : Process (Command.run F sha256)} {args : VerifyArgs} {marker : Value F}
    (hp : p ∈ ((machine (Command.run F sha256) external).run ⟨files, []⟩ actions).1.processes)
    (hcommand : p.command = .verify args) (hdone : p.rest = .done (some marker)) :
    ∃ o : OutputSet, p.log = o.reads args.backend ∧ o.Coherent
      ((machine (Command.run F sha256) external).run ⟨files, []⟩ actions).1.processes args marker := by
  have htraced : ((machine (Command.run F sha256) external).run ⟨files, []⟩ actions).1.Traced .marker :=
    traced (fun _ => rfl) hmarker actions
  obtain ⟨command, log, rest, hran⟩ := p
  cases hcommand
  cases hdone
  obtain ⟨q, hq, heq⟩ := ran_map hran
  have hqdone : q = .done marker := by
    cases q <;> cases heq
    rfl
  rw [hqdone] at hq
  obtain ⟨o, rfl, haccepted⟩ := ran_verifyReady.mp hq
  obtain ⟨e, he, hwrite⟩ := htraced.read _ hp o.marker (by simp [OutputSet.reads])
  obtain ⟨eargs, o', present, hemit, hemitted, hsame, hlog⟩ := exists_emitted hwrite
  obtain ⟨hbackend, hplan, hheader, hsource⟩ := hemitted.agrees hdigest haccepted hsame
  obtain ⟨v, _, plan, hv, -, -, -, hplanOf, houtputs, -⟩ := hemitted.outputs
  obtain ⟨hread, text, htext, hready⟩ := haccepted
  obtain ⟨v', hv', hidentity, -⟩ := hready.plan
  rw [hplan] at hv
  rw [hheader, hsource] at houtputs
  refine ⟨o, rfl, ⟨e, he, eargs, hemit, ?_, ?_, ?_, v, plan, hv, hplanOf, houtputs⟩, hread,
    ⟨text, htext, hready.attempt.1, hready.attempt.2.2⟩, v', hv', hidentity⟩
  all_goals rw [hlog, hbackend]; simp [OutputSet.emission, hplan, hheader, hsource]

end Emitted

/-! ### The timer's application -/

/-- The bytes in hexadecimal, for a digest. -/
def hexDigest (data : List UInt8) : String :=
  String.ofList (data.flatMap fun b => [Nat.digitChar (b.toNat / 16), Nat.digitChar (b.toNat % 16)])

theorem digitChar_hexadecimal {n : Nat} (h : n < 16) : n.digitChar ∈ "0123456789abcdef".toList := by
  revert h
  revert n
  decide

theorem digitChar_injective {m n : Nat} (hm : m < 16) (hn : n < 16) (h : m.digitChar = n.digitChar) :
    m = n := by
  revert h
  revert hn
  revert n
  revert hm
  revert m
  decide

theorem digest_hexDigest : Digest hexDigest := by
  have hlow : ∀ b : UInt8, b.toNat / 16 < 16 ∧ b.toNat % 16 < 16 := fun b => by
    have := b.toNat_lt
    omega
  constructor
  · intro as bs h
    have hdigits := String.ofList_injective h
    clear h
    induction as generalizing bs with
    | nil =>
        cases bs with
        | nil => rfl
        | cons b bs => simp at hdigits
    | cons a as ih =>
        cases bs with
        | nil => simp at hdigits
        | cons b bs =>
            simp only [List.flatMap_cons, List.cons_append, List.nil_append, List.cons.injEq] at hdigits
            obtain ⟨hhigh, hrest, htail⟩ := hdigits
            have h₁ := digitChar_injective (hlow a).1 (hlow b).1 hhigh
            have h₂ := digitChar_injective (hlow a).2 (hlow b).2 hrest
            rw [ih htail, UInt8.toNat_inj.mp (show a.toNat = b.toNat by omega)]
  · intro data c hc
    rw [hexDigest, String.toList_ofList, List.mem_flatMap] at hc
    obtain ⟨b, -, hc⟩ := hc
    rcases List.mem_pair.mp hc with rfl | rfl
    · exact digitChar_hexadecimal (hlow b).1
    · exact digitChar_hexadecimal (hlow b).2

/-- The timer's commands, in some attempt. -/
def timerPlanArgs (object : List UInt8) (attempt : String) : PlanArgs :=
  ⟨object, attempt, "avr", "atmega328p", "uno", "gcc"⟩

def timerEmitArgs (attempt : String) : EmitArgs := ⟨attempt, "avr", "gcc", ⟨"blink.hpp", by decide⟩⟩

def timerVerifyArgs (attempt : String) : VerifyArgs :=
  ⟨"avr", "atmega328p", "uno", "gcc", some attempt⟩

/-- The record of the timer's plan under some name. -/
def timerRecordNamed (name : String) : List UInt8 :=
  recordBytes .bits32 ((timerPlanNamed name).map Utf8.bytes)

/-- A name the timer's application can have. -/
structure TimerName (name : String) : Prop where
  identifier : identifier name
  carried : Carried (timerPlanNamed name)
  length : probeRecordSize ((timerPlanNamed name).map Utf8.bytes) < 2 ^ 32

theorem timerName_blink : TimerName "blink" :=
  ⟨by decide, ⟨⟨by decide, by decide, by decide, by decide⟩, by decide, by decide, by decide,
    by decide⟩, by decide⟩

section Timer

variable (sha256 : List UInt8 → String) {attempt name : String}

theorem timerRecordNamed_length (h : TimerName name) : (timerRecordNamed name).length < 2 ^ 32 := by
  rw [timerRecordNamed, length_recordBytes]
  exact h.length

theorem extract_timer (h : TimerName name) :
    extractInterruptPlan (coffObject (timerRecordNamed name)) = .ok (timerRecordNamed name) :=
  extract_coffObject (by simp [timerRecordNamed, recordBytes, planBytes, contentBytes])
    (timerRecordNamed_length h)

theorem decode_timer (h : TimerName name) : decode sha256 jsonBytes (timerRecordNamed name) =
    .ok (planValue sha256 jsonBytes (timerPlanNamed name) : Value Empty) :=
  ((decode_answers sha256 _ .bits32 _).ok_iff _).mpr
    ⟨_, ⟨timerRecordNamed_length h, h.carried⟩, rfl, timerPlanNamed_valid h.identifier, rfl⟩

theorem plans_timer (h : TimerName name) (attempt : String) :
    (timerPlanArgs (coffObject (timerRecordNamed name)) attempt).Plans Empty sha256
      (timerPlanNamed name) :=
  ⟨⟨_, extract_timer h, decode_timer sha256 h⟩, timerPlanNamed_valid h.identifier, rfl, rfl, rfl, rfl⟩

/-- The directory after the timer's plan command. -/
def timerPlanned (name attempt : String) (s : Files) : Files :=
  (timerPlanArgs (coffObject (timerRecordNamed name)) attempt).planned Empty sha256
    (timerPlanNamed name) s

theorem timerPlanned_attempt (name attempt : String) (s : Files) :
    timerPlanned sha256 name attempt s .attempt = some (bytes (attempt ++ "\n")) := rfl

theorem timerPlanned_plan (name attempt : String) (s : Files) :
    timerPlanned sha256 name attempt s (.plan "avr") =
      some (jsonBytes (planValue sha256 jsonBytes (timerPlanNamed name) : Value Empty)) := rfl

theorem exec_timerPlan (h : TimerName name) (attempt : String) (s : Files) :
    (planCommand Empty sha256 (timerPlanArgs (coffObject (timerRecordNamed name)) attempt)).exec 3 s =
      (timerPlanned sha256 name attempt s, .done ()) :=
  exec_planCommand (plans_timer sha256 h attempt) s

/-- **The timer's plan is emitted and accepted**, whichever command left it there. -/
theorem exec_timerEmit (hname : TimerName name)
    (hattempt : ∀ c ∈ attempt.toList, isSpaceChar c = false) (hne : attempt ≠ "")
    {recorded : List UInt8} (hread : readText (some recorded) = .ok (attempt ++ "\n")) {s : Files}
    (hrecorded : s .attempt = some recorded)
    (hplan : s (.plan "avr") =
      some (jsonBytes (planValue sha256 jsonBytes (timerPlanNamed name) : Value Empty))) :
    ∃ s' marker, (emitCommand Empty sha256 (timerEmitArgs attempt)).exec 7 s = (s', .done ()) ∧
      (verifyReady Empty sha256 (timerVerifyArgs attempt)).exec 5 s' = (s', .done marker) ∧
      s' (.plan "avr") = s (.plan "avr") := by
  have hvalid := timerPlanNamed_valid hname.identifier
  obtain ⟨outputs, houtputs⟩ := emit_timer sha256 (jsonBytes : Value Empty → _) name
  have hrequested : ∀ a ∈ (timerVerifyArgs attempt).attempt, attempt = a := by
    rintro a ⟨⟩
    rfl
  have haccepted : (OutputSet.of Empty sha256 (timerEmitArgs attempt) (timerPlanNamed name)
      recorded outputs.1 outputs.2).Accepted sha256 (timerVerifyArgs attempt)
      (OutputSet.markerOf Empty sha256 (timerEmitArgs attempt) (timerPlanNamed name) outputs.1
        outputs.2) :=
    accepted_of hvalid hread (strip_attempt hattempt) hne hrequested rfl rfl rfl rfl rfl
  have hemit : (emitCommand Empty sha256 (timerEmitArgs attempt)).exec 7 s = _ :=
    exec_emitCommand hrecorded hread hplan hvalid rfl rfl houtputs
  refine ⟨_, _, hemit, exec_verifyReady haccepted ?_ ?_ ?_ ?_ ?_, ?_⟩
  all_goals simp [OutputSet.written, OutputSet.of, timerEmitArgs, timerVerifyArgs, hrecorded, hplan]

/-- The timer's plan is planned, emitted and accepted in an empty directory. -/
theorem exec_timerFirst :
    ∃ s marker, (emitCommand Empty sha256 (timerEmitArgs "first")).exec 7
        (timerPlanned sha256 "blink" "first" fun _ => none) = (s, .done ()) ∧
      (verifyReady Empty sha256 (timerVerifyArgs "first")).exec 5 s = (s, .done marker) := by
  obtain ⟨s, marker, hemit, hverify, -⟩ := exec_timerEmit sha256 timerName_blink
    (List.forall_iff_forall_mem.mp (by decide)) (by decide) (readText_attempt (by decide))
    (timerPlanned_attempt sha256 "blink" "first" fun _ => none) (timerPlanned_plan _ _ _ _)
  exact ⟨s, marker, hemit, hverify⟩

end Timer

theorem verified_outputs_coherent_timer :
    ∃ (actions : List (Action Command File (List UInt8)))
      (p : Process (Command.run Empty hexDigest)) (marker : Value Empty) (o : OutputSet),
      p.command = .verify (timerVerifyArgs "first") ∧ p.rest = .done (some marker) ∧
      o.Coherent ((machine (Command.run Empty hexDigest) external).run ⟨fun _ => none, []⟩
        actions).1.processes (timerVerifyArgs "first") marker := by
  have hplan := exec_timerPlan hexDigest timerName_blink "first" fun _ => none
  obtain ⟨s₂, marker, hemit, hverify⟩ := exec_timerFirst hexDigest
  let x : System (Command.run Empty hexDigest) := ⟨fun _ => none, []⟩
  have hplanRun : (Command.run Empty hexDigest
      (.plan (timerPlanArgs (coffObject (timerRecordNamed "blink")) "first"))).exec 3 x.store =
        (timerPlanned hexDigest "blink" "first" fun _ => none, .done none) :=
    (exec_map _ _ _ _).trans (by rw [hplan]; rfl)
  have hemitRun : (Command.run Empty hexDigest (.emit (timerEmitArgs "first"))).exec 7
      (timerPlanned hexDigest "blink" "first" fun _ => none) = (s₂, .done none) :=
    (exec_map _ _ _ _).trans (by rw [hemit]; rfl)
  have hverifyRun : (Command.run Empty hexDigest (.verify (timerVerifyArgs "first"))).exec 5 s₂ =
      (s₂, .done (some marker)) := (exec_map _ _ _ _).trans (by rw [hverify]; rfl)
  obtain ⟨_, p₁, h₁, -, -⟩ := exists_run_alone external
    (congrArg Prod.fst (Runs.Machine.run_nil _ x)) hplanRun
  obtain ⟨_, p₂, h₂, -, -⟩ := exists_run_alone external h₁ hemitRun
  obtain ⟨actions, p, h, hcommand, hrest⟩ := exists_run_alone external h₂ hverifyRun
  obtain ⟨o, -, hcoherent⟩ := @verified_outputs_coherent Empty _ _ hexDigest digest_hexDigest
    (fun _ => none) rfl actions p _ marker (by rw [h]; simp) hcommand hrest
  exact ⟨actions, p, marker, o, hcommand, hrest, hcoherent⟩

end Grevir.Irqgen
