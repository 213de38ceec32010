import Grevir.Irqgen.Coherence
import Grevir.Irqgen.Stages

/-!
# Irqgen — Transaction

One generation attempt: the marker is deleted, then `_plan` and `_emit` run as processes of their own
and `verify_ready` in the driver.  A process may be stopped after any of its actions, the last one
too, and then does not exit with 0.

* `transaction`: `main` of `transaction.py`.
* `all_or_nothing_iff`: a transaction that fails leaves no marker, and one that succeeds leaves outputs
  that are accepted, unless `_emit` is stopped between its last action and its exit.
-/

namespace Grevir.Irqgen

open Interrupt Json Programs

/-- `uuid.uuid4().hex`. -/
abbrev Uuid := { s : String // s.length = 32 ∧ ∀ c ∈ s.toList, c ∈ "0123456789abcdef".toList }

structure TransactionArgs where
  /-- What the file `--object` names has in it. -/
  object : List UInt8
  backend : String
  target : String
  board : String
  compiler : String
  applicationHeader : Argument

/-- The arguments of the stages, in an attempt. -/
def TransactionArgs.plan (args : TransactionArgs) (attempt : Uuid) : PlanArgs :=
  ⟨args.object, attempt.1, args.backend, args.target, args.board, args.compiler⟩

def TransactionArgs.emit (args : TransactionArgs) (attempt : Uuid) : EmitArgs :=
  ⟨attempt.1, args.backend, args.compiler, args.applicationHeader⟩

def TransactionArgs.verify (args : TransactionArgs) (attempt : Uuid) : VerifyArgs :=
  ⟨args.backend, args.target, args.board, args.compiler, some attempt.1⟩

/-- What becomes of a process: how many actions it can do, and whether it exits with 0 once it is
through. -/
structure Ending where
  actions : Nat
  exits : Bool

/-- `subprocess.run`: the directory then, and whether the return code is 0. -/
def runProcess (p : Script Unit) (ending : Ending) (s : Files) : Files × Bool :=
  let r := p.exec ending.actions s
  (r.1, r.2.isDone && ending.exits)

/-- `if result.returncode != 0: return result.returncode`. -/
def onSuccess (r : Files × Bool) (next : Files → Files × Bool) : Files × Bool :=
  if r.2 then next r.1 else (r.1, false)

theorem onSuccess_true (s : Files) (next : Files → Files × Bool) :
    onSuccess (s, true) next = next s := rfl

theorem runProcess_eq {p : Script Unit} {ending : Ending} {s s' : Files} {q : Script Unit}
    (h : p.exec ending.actions s = (s', q)) :
    runProcess p ending s = (s', q.isDone && ending.exits) := by
  rw [runProcess, h]

section Transaction

variable (F : Type) [PyFloat F] [FloatText F] (sha256 : List UInt8 → String)

/-- The driver's own check: the marker is deleted if the outputs are not accepted. -/
def checkOutputs (args : VerifyArgs) (verifying : Nat) (s : Files) : Files × Bool :=
  let r := (verifyReady F sha256 args).exec verifying s
  if r.2.isDone then (r.1, true) else (Function.update r.1 .marker none, false)

/-- `main`: the directory then, and whether it returns 0. -/
def transaction (args : TransactionArgs) (attempt : Uuid) (planning emitting : Ending)
    (verifying : Nat) (s : Files) : Files × Bool :=
  let s := Function.update s .marker none
  onSuccess (runProcess (planCommand F sha256 (args.plan attempt)) planning s) fun s =>
    onSuccess (runProcess (emitCommand F sha256 (args.emit attempt)) emitting s) fun s =>
      checkOutputs F sha256 (args.verify attempt) verifying s

/-- **All or nothing**: no marker, or one that is accepted again with the plan of the object. -/
structure AllOrNothing (args : TransactionArgs) (attempt : Uuid) (r : Files × Bool) : Prop where
  nothing : r.2 = false → r.1 .marker = none
  all : r.2 = true → ∃ (marker : Value F) (ready data : List UInt8) (v : Value F),
    r.1 .marker = some ready ∧
    (verifyReady F sha256 (args.verify attempt)).exec 5 r.1 = (r.1, .done marker) ∧
    r.1 (.plan args.backend) = some data ∧ planText F sha256 args.object = .ok data ∧
    parseCanonical sha256 data = .ok v ∧
    ∀ field ∈ (args.plan attempt).expected, HasText v field.1 field.2

/-- The plan of the object can be emitted. -/
def Generates (args : TransactionArgs) (attempt : Uuid) : Prop :=
  ∃ p, (args.plan attempt).Plans F sha256 p ∧ ∃ outputs,
    Irqgen.emit (readPlan sha256 (jsonBytes : Value F → _) p) args.applicationHeader = .ok outputs

/-- **`_emit` is stopped after its last action**, the marker written, and does not exit with 0. -/
structure StoppedLate (args : TransactionArgs) (attempt : Uuid) (planning emitting : Ending) :
    Prop where
  generates : Generates F sha256 args attempt
  planned : 3 ≤ planning.actions ∧ planning.exits = true
  emitted : 7 ≤ emitting.actions
  stopped : emitting.exits = false

variable {F sha256}

theorem Uuid.read (attempt : Uuid) :
    readText (some (Utf8.bytes (attempt.1 ++ "\n"))) = .ok (attempt.1 ++ "\n") :=
  readText_attempt fun hmem => absurd (attempt.2.2 _ hmem) (by decide)

/-- The driver accepts the outputs, or deletes the marker. -/
theorem checkOutputs_allOrNothing {args : TransactionArgs} {attempt : Uuid} {p : PlanContent String}
    (hp : (args.plan attempt).Plans F sha256 p) (n : Nat) {s : Files}
    (hplan : s (.plan args.backend) = some (jsonBytes (planValue sha256 jsonBytes p : Value F))) :
    AllOrNothing F sha256 args attempt (checkOutputs F sha256 (args.verify attempt) n s) := by
  obtain ⟨s', q, hexec⟩ : ∃ s' q, (verifyReady F sha256 (args.verify attempt)).exec n s = (s', q) :=
    ⟨_, _, rfl⟩
  obtain ⟨rfl, haccepted⟩ := exec_verify (args.verify attempt) n s hexec
  rw [checkOutputs, hexec]
  cases hdone : q.isDone with
  | false => exact ⟨fun _ => by simp, nofun⟩
  | true =>
      obtain ⟨marker, rfl⟩ := isDone_iff.mp hdone
      obtain ⟨o, haccepted, hin⟩ := haccepted marker rfl
      have hagain := exec_verifyReady haccepted hin.marker hin.attempt hin.plan hin.header hin.source
      obtain ⟨-, _, -, hready⟩ := haccepted
      obtain ⟨v, hv, hidentity, -⟩ := hready.plan
      have hsame : o.plan = jsonBytes (planValue sha256 jsonBytes p : Value F) :=
        Option.some.inj (hin.plan.symm.trans hplan)
      exact ⟨nofun, fun _ => ⟨marker, o.marker, o.plan, v, hin.marker, hagain, hin.plan,
        hp.text.trans (by rw [hsame]), hv, hidentity⟩⟩

/-- What `_emit` makes of the plan of some content. -/
theorem emitted_planValue {args : EmitArgs} {o : OutputSet} {p : PlanContent String}
    (h : o.Emitted F sha256 args) (hvalid : Valid p)
    (hplan : o.plan = jsonBytes (planValue sha256 jsonBytes p : Value F)) :
    Irqgen.emit (readPlan sha256 (jsonBytes : Value F → _) p) args.applicationHeader =
      .ok (o.header, o.source) := by
  obtain ⟨v, _, plan, hv, -, -, -, hplanOf, hemit, -⟩ := h.outputs
  rw [hplan, parseCanonical_planValue hvalid] at hv
  cases hv
  rw [planOf_sortKeys sha256 hvalid] at hplanOf
  cases hplanOf
  exact hemit

/-- **After `_plan`, all or nothing is done where `_emit` is not stopped late.** -/
theorem emitting_allOrNothing {args : TransactionArgs} {attempt : Uuid} {planning emitting : Ending}
    (h : ¬ StoppedLate F sha256 args attempt planning emitting) {p : PlanContent String}
    (hp : (args.plan attempt).Plans F sha256 p)
    (hplanned : 3 ≤ planning.actions ∧ planning.exits = true) (verifying : Nat) {s : Files}
    (hmarker : s .marker = none)
    (hplan : s (.plan args.backend) = some (jsonBytes (planValue sha256 jsonBytes p : Value F))) :
    AllOrNothing F sha256 args attempt
      (onSuccess (runProcess (emitCommand F sha256 (args.emit attempt)) emitting s)
        (checkOutputs F sha256 (args.verify attempt) verifying)) := by
  obtain ⟨s', q, hemitting⟩ : ∃ s' q, (emitCommand F sha256 (args.emit attempt)).exec
    emitting.actions s = (s', q) := ⟨_, _, rfl⟩
  rw [runProcess_eq hemitting]
  rcases exec_emit _ _ _ hemitting with ⟨o, hemitted, -, hfile, hactions, rfl, rfl⟩ | ⟨hq, hs⟩
  · cases hexits : emitting.exits with
    | false =>
        have hsame := Option.some.inj (hfile.symm.trans hplan)
        have hlate : StoppedLate F sha256 args attempt planning emitting :=
          ⟨⟨p, hp, _, emitted_planValue hemitted hp.valid hsame⟩, hplanned, hactions, hexits⟩
        exact absurd hlate h
    | true =>
        refine checkOutputs_allOrNothing hp verifying ?_
        simp [OutputSet.written, hplan]
  · rw [hq, Bool.false_and]
    refine ⟨fun _ => ?_, fun h => absurd h Bool.false_ne_true⟩
    rcases hs with rfl | hcleared
    · exact hmarker
    · exact hcleared.marker

/-- **Where `_emit` is not stopped late, the transaction is all or nothing.** -/
theorem transaction_allOrNothing {args : TransactionArgs} {attempt : Uuid}
    {planning emitting : Ending} (h : ¬ StoppedLate F sha256 args attempt planning emitting)
    (verifying : Nat) (s : Files) :
    AllOrNothing F sha256 args attempt
      (transaction F sha256 args attempt planning emitting verifying s) := by
  obtain ⟨s', q, hplanning⟩ : ∃ s' q, (planCommand F sha256 (args.plan attempt)).exec
    planning.actions (Function.update s .marker none) = (s', q) := ⟨_, _, rfl⟩
  rw [transaction, runProcess_eq hplanning]
  rcases exec_plan _ _ _ hplanning with ⟨p, hp, hactions, rfl, rfl⟩ | ⟨hq, hs⟩
  · cases hexits : planning.exits with
    | false =>
        refine ⟨fun _ => ?_, nofun⟩
        simp [onSuccess, PlanArgs.planned, PlanArgs.recorded]
    | true =>
        refine emitting_allOrNothing h hp ⟨hactions, hexits⟩ verifying ?_ (Function.update_self _ _ _)
        simp [PlanArgs.planned, PlanArgs.recorded]
  · rw [hq, Bool.false_and]
    refine ⟨fun _ => ?_, nofun⟩
    rcases hs with rfl | rfl | rfl <;> simp [onSuccess, PlanArgs.recorded]

/-- **Where `_emit` is stopped late, the transaction fails and leaves a marker.** -/
theorem transaction_stoppedLate {args : TransactionArgs} {attempt : Uuid}
    {planning emitting : Ending} (h : StoppedLate F sha256 args attempt planning emitting)
    (verifying : Nat) (s : Files) :
    (transaction F sha256 args attempt planning emitting verifying s).2 = false ∧
      (transaction F sha256 args attempt planning emitting verifying s).1 .marker ≠ none := by
  obtain ⟨⟨p, hp, outputs, houtputs⟩, ⟨hplanning, hexits⟩, hemitting, hstopped⟩ := h
  have hplan := exec_planCommand hp (Function.update s .marker none)
  have hplanned := (Program.exec_of_le hplanning (by rw [hplan]; rfl)).trans hplan
  have hrecorded : (args.plan attempt).planned F sha256 p (Function.update s .marker none) .attempt =
      some (Utf8.bytes (attempt.1 ++ "\n")) := by
    simp [PlanArgs.planned, PlanArgs.recorded, TransactionArgs.plan]
  have hfile : (args.plan attempt).planned F sha256 p (Function.update s .marker none)
      (.plan (args.emit attempt).backend) =
      some (jsonBytes (planValue sha256 jsonBytes p : Value F)) := Function.update_self _ _ _
  have hemit := exec_emitCommand hrecorded attempt.read hfile hp.valid hp.backend hp.compiler houtputs
  have hemitted := (Program.exec_of_le hemitting (by rw [hemit]; rfl)).trans hemit
  rw [transaction, runProcess_eq hplanned, hexits, Program.isDone, Bool.and_self, onSuccess_true,
    runProcess_eq hemitted, hstopped]
  refine ⟨rfl, ?_⟩
  simp [onSuccess, OutputSet.written]

/-- **A transaction is all or nothing exactly when `_emit` is not stopped late.** -/
theorem all_or_nothing_iff (F : Type) [PyFloat F] [FloatText F] (sha256 : List UInt8 → String)
    (args : TransactionArgs) (attempt : Uuid) (planning emitting : Ending) (verifying : Nat)
    (s : Files) :
    AllOrNothing F sha256 args attempt
        (transaction F sha256 args attempt planning emitting verifying s) ↔
      ¬ StoppedLate F sha256 args attempt planning emitting := by
  refine ⟨fun h hlate => ?_, fun h => transaction_allOrNothing h verifying s⟩
  obtain ⟨hfailed, hmarker⟩ := transaction_stoppedLate hlate verifying s
  exact hmarker (h.nothing hfailed)

end Transaction

/-! ### A process stopped late -/

theorem timerHeader_nulFree : Utf8.NulFree "blink.hpp" := by decide

def timerTransaction : TransactionArgs :=
  ⟨coffObject (timerRecordNamed "blink"), "avr", "atmega328p", "uno", "gcc",
    ⟨"blink.hpp", timerHeader_nulFree⟩⟩

def timerUuid : Uuid :=
  ⟨"0123456789abcdef0123456789abcdef", by decide, List.forall_iff_forall_mem.mp (by decide)⟩

/-- `_emit` has written the marker and is stopped before it exits: the driver returns what it was
stopped by, and the marker stays. -/
theorem stopped_late_leaves_marker :
    ¬ AllOrNothing Empty hexDigest timerTransaction timerUuid
      (transaction Empty hexDigest timerTransaction timerUuid ⟨3, true⟩ ⟨7, false⟩ 5
        fun _ => none) := by
  intro h
  obtain ⟨outputs, houtputs⟩ := emit_timer hexDigest (jsonBytes : Value Empty → _) "blink"
  have hplans := plans_timer hexDigest timerName_blink timerUuid.1
  have hlate : StoppedLate Empty hexDigest timerTransaction timerUuid ⟨3, true⟩ ⟨7, false⟩ :=
    ⟨⟨_, hplans, outputs, houtputs⟩, ⟨le_refl 3, rfl⟩, le_refl 7, rfl⟩
  obtain ⟨hfailed, hmarker⟩ := transaction_stoppedLate hlate 5 fun _ => none
  exact hmarker (h.nothing hfailed)

end Grevir.Irqgen
