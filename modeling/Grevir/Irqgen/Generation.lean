import Grevir.Irqgen.Transaction

/-!
# Irqgen — Generation

When a generation attempt succeeds, and with what.  Nothing in the directory beforehand matters, neither
to whether it succeeds nor to the plan, the header and the source it leaves.

* `transaction_exact`: a transaction succeeds exactly when the object's plan can be emitted and no stage
  is stopped, and leaves the same outputs then, wherever and whenever it is run.
-/

namespace Grevir.Irqgen

open Interrupt Json Programs

section Generation

variable (F : Type) [PyFloat F] [FloatText F] (sha256 : List UInt8 → String)

/-- The plan of the object can be emitted, and each stage is let run through. -/
structure Succeeds (args : TransactionArgs) (attempt : Uuid) (planning emitting : Ending)
    (verifying : Nat) : Prop where
  generates : Generates F sha256 args attempt
  planned : 3 ≤ planning.actions ∧ planning.exits = true
  emitted : 7 ≤ emitting.actions ∧ emitting.exits = true
  verified : 5 ≤ verifying

/-- The directory after a transaction that succeeded. -/
def TransactionArgs.generated (args : TransactionArgs) (attempt : Uuid) (p : PlanContent String)
    (header source : List UInt8) (s : Files) : Files :=
  (OutputSet.of F sha256 (args.emit attempt) p (Utf8.bytes (attempt.1 ++ "\n")) header source).written
    args.backend ((args.plan attempt).planned F sha256 p (Function.update s .marker none))

variable {F sha256} {args : TransactionArgs} {attempt : Uuid} {planning emitting : Ending}
  {verifying : Nat} {p : PlanContent String} {header source : List UInt8} {s : Files}

/-- What `verify_ready` answers it has read five files for. -/
theorem five_le_of_verified {args : VerifyArgs} {n : Nat} {marker : Value F} {s' : Files}
    (h : (verifyReady F sha256 args).exec n s = (s', .done marker)) : 5 ≤ n := by
  obtain ⟨log, hlength, hran, -⟩ := (verifyReady F sha256 args).exec_ran n s
  rw [h] at hran
  obtain ⟨o, rfl, -⟩ := ran_verifyReady.mp hran
  exact hlength

theorem Uuid.strip (attempt : Uuid) : strip (attempt.1 ++ "\n") = attempt.1 := by
  refine strip_attempt fun c hc => ?_
  have hhex : ∀ c ∈ "0123456789abcdef".toList, isSpaceChar c = false :=
    List.forall_iff_forall_mem.mp (by decide)
  exact hhex c (attempt.2.2 c hc)

theorem Uuid.ne_empty (attempt : Uuid) : attempt.1 ≠ "" := by
  intro h
  have hlength := attempt.2.1
  rw [h] at hlength
  cases hlength

/-- What a transaction writes for a plan it accepts in the end. -/
theorem accepted_generated (hp : (args.plan attempt).Plans F sha256 p) :
    (OutputSet.of F sha256 (args.emit attempt) p (Utf8.bytes (attempt.1 ++ "\n")) header
      source).Accepted sha256 (args.verify attempt)
      (OutputSet.markerOf F sha256 (args.emit attempt) p header source) := by
  refine accepted_of hp.valid attempt.read attempt.strip attempt.ne_empty ?_ hp.backend.symm hp.backend
    hp.target hp.board hp.compiler
  intro a ha
  exact Option.some.inj ha

/-- **A transaction that is not stopped** writes the outputs of the object's plan. -/
theorem transaction_generated (hp : (args.plan attempt).Plans F sha256 p)
    (houtputs : Irqgen.emit (readPlan sha256 (jsonBytes : Value F → _) p) args.applicationHeader =
      .ok (header, source))
    (hplanning : 3 ≤ planning.actions ∧ planning.exits = true)
    (hemitting : 7 ≤ emitting.actions ∧ emitting.exits = true) (hverifying : 5 ≤ verifying) (s : Files) :
    transaction F sha256 args attempt planning emitting verifying s =
      (args.generated F sha256 attempt p header source s, true) := by
  have hplan := exec_planCommand hp (Function.update s .marker none)
  have hplanned := (Program.exec_of_le hplanning.1 (by rw [hplan]; rfl)).trans hplan
  have hrecorded : (args.plan attempt).planned F sha256 p (Function.update s .marker none) .attempt =
      some (Utf8.bytes (attempt.1 ++ "\n")) := by
    simp [PlanArgs.planned, PlanArgs.recorded, TransactionArgs.plan]
  have hfile : (args.plan attempt).planned F sha256 p (Function.update s .marker none)
      (.plan (args.emit attempt).backend) =
      some (jsonBytes (planValue sha256 jsonBytes p : Value F)) := Function.update_self _ _ _
  have hemit := exec_emitCommand hrecorded attempt.read hfile hp.valid hp.backend hp.compiler houtputs
  have hemitted := (Program.exec_of_le hemitting.1 (by rw [hemit]; rfl)).trans hemit
  have haccepted : (OutputSet.of F sha256 (args.emit attempt) p (Utf8.bytes (attempt.1 ++ "\n")) header
      source).Accepted sha256 (args.verify attempt)
      (OutputSet.markerOf F sha256 (args.emit attempt) p header source) := accepted_generated hp
  have hin : (OutputSet.of F sha256 (args.emit attempt) p (Utf8.bytes (attempt.1 ++ "\n")) header
      source).In (args.generated F sha256 attempt p header source s) args.backend :=
    OutputSet.in_written hrecorded hfile
  have hverify := exec_verifyReady haccepted hin.marker hin.attempt hin.plan hin.header hin.source
  have hverified := (Program.exec_of_le hverifying (by rw [hverify]; rfl)).trans hverify
  rw [transaction, runProcess_eq hplanned, hplanning.2, Program.isDone, Bool.and_self, onSuccess_true,
    runProcess_eq hemitted, hemitting.2, Program.isDone, Bool.and_self, onSuccess_true, checkOutputs]
  exact congrArg (fun r => if r.2.isDone then (r.1, true) else (Function.update r.1 .marker none, false))
    hverified

omit [PyFloat F] in
/-- The outputs a transaction leaves, and what it leaves alone. -/
theorem generated_outputs (s : Files) :
    let r := args.generated F sha256 attempt p header source s
    r (.plan args.backend) = some (jsonBytes (planValue sha256 jsonBytes p : Value F)) ∧
      r (.header args.backend) = some header ∧ r (.source args.backend) = some source ∧
      ∀ backend ≠ args.backend, r (.plan backend) = s (.plan backend) ∧
        r (.header backend) = s (.header backend) ∧ r (.source backend) = s (.source backend) := by
  refine ⟨?_, ?_, ?_, fun backend hbackend => ⟨?_, ?_, ?_⟩⟩
  all_goals
    simp [TransactionArgs.generated, OutputSet.written, OutputSet.of, PlanArgs.planned,
      PlanArgs.recorded, TransactionArgs.plan, *]

/-- A transaction that succeeds was not stopped, and had a plan to emit. -/
theorem succeeds_of_transaction (h : (transaction F sha256 args attempt planning emitting verifying s).2 = true) :
    Succeeds F sha256 args attempt planning emitting verifying := by
  obtain ⟨s₁, q₁, hplanning⟩ : ∃ s' q, (planCommand F sha256 (args.plan attempt)).exec
    planning.actions (Function.update s .marker none) = (s', q) := ⟨_, _, rfl⟩
  rw [transaction, runProcess_eq hplanning] at h
  rcases exec_plan _ _ _ hplanning with ⟨p, hp, hplanned, rfl, rfl⟩ | ⟨hq, -⟩
  · cases hexits : planning.exits with
    | false => simp [onSuccess, Program.isDone, hexits] at h
    | true =>
        rw [hexits, Program.isDone, Bool.and_self, onSuccess_true] at h
        obtain ⟨s₂, q₂, hemitting⟩ : ∃ s' q, (emitCommand F sha256 (args.emit attempt)).exec
          emitting.actions ((args.plan attempt).planned F sha256 p (Function.update s .marker none)) =
            (s', q) := ⟨_, _, rfl⟩
        rw [runProcess_eq hemitting] at h
        rcases exec_emit _ _ _ hemitting with ⟨o, hemitted, -, hfile, hactions, rfl, rfl⟩ | ⟨hq, -⟩
        · cases hexits' : emitting.exits with
          | false => simp [onSuccess, Program.isDone, hexits'] at h
          | true =>
              rw [hexits', Program.isDone, Bool.and_self, onSuccess_true, checkOutputs] at h
              have hsame : o.plan = jsonBytes (planValue sha256 jsonBytes p : Value F) :=
                Option.some.inj (hfile.symm.trans (Function.update_self _ _ _))
              obtain ⟨s₃, q₃, hverifying⟩ : ∃ s' q, (verifyReady F sha256 (args.verify attempt)).exec
                verifying (o.written (args.emit attempt).backend
                  ((args.plan attempt).planned F sha256 p (Function.update s .marker none))) = (s', q) :=
                ⟨_, _, rfl⟩
              rw [hverifying] at h
              cases hdone : q₃.isDone with
              | false => simp [hdone] at h
              | true =>
                  obtain ⟨marker, rfl⟩ := isDone_iff.mp hdone
                  exact ⟨⟨p, hp, _, emitted_planValue hemitted hp.valid hsame⟩, ⟨hplanned, hexits⟩,
                    ⟨hactions, hexits'⟩, five_le_of_verified hverifying⟩
        · simp [onSuccess, hq] at h
  · simp [onSuccess, hq] at h

/-- **A generation attempt is exact and reproducible**: it succeeds exactly when the object's plan can be
emitted and each stage is let run through, whatever was in the directory; and what succeeds, in this or
any other directory and attempt, leaves the same plan, header and source, and those of other backends
as they were. -/
theorem transaction_exact (F : Type) [PyFloat F] [FloatText F] (sha256 : List UInt8 → String)
    (args : TransactionArgs) (attempt : Uuid) (planning emitting : Ending) (verifying : Nat) (s : Files) :
    ((transaction F sha256 args attempt planning emitting verifying s).2 = true ↔
      Succeeds F sha256 args attempt planning emitting verifying) ∧
    (Generates F sha256 args attempt → ∃ plan header source : List UInt8,
      ∀ (attempt' : Uuid) (planning' emitting' : Ending) (verifying' : Nat) (s' : Files),
        let r := transaction F sha256 args attempt' planning' emitting' verifying' s'
        r.2 = true → r.1 (.plan args.backend) = some plan ∧ r.1 (.header args.backend) = some header ∧
          r.1 (.source args.backend) = some source ∧ ∀ backend ≠ args.backend,
            r.1 (.plan backend) = s' (.plan backend) ∧ r.1 (.header backend) = s' (.header backend) ∧
              r.1 (.source backend) = s' (.source backend)) := by
  constructor
  · refine ⟨succeeds_of_transaction, fun h => ?_⟩
    obtain ⟨p, hp, outputs, houtputs⟩ := h.generates
    rw [transaction_generated hp houtputs h.planned h.emitted h.verified]
  · rintro ⟨p, hp, outputs, houtputs⟩
    refine ⟨jsonBytes (planValue sha256 jsonBytes p : Value F), outputs.1, outputs.2, ?_⟩
    intro attempt' planning' emitting' verifying' s' r hr
    have hsucceeds := succeeds_of_transaction hr
    have hp' : (args.plan attempt').Plans F sha256 p :=
      ⟨hp.decoded, hp.valid, hp.backend, hp.target, hp.board, hp.compiler⟩
    have heq : r = (args.generated F sha256 attempt' p outputs.1 outputs.2 s', true) :=
      transaction_generated hp' houtputs hsucceeds.planned hsucceeds.emitted hsucceeds.verified s'
    rw [heq]
    exact generated_outputs s'

end Generation

end Grevir.Irqgen
