import Grevir.Irqgen.Generation

/-!
# Irqgen — ArduinoBuild

`arduino-build`: a sketch is probed, its bindings are generated, and the sketch is built with them; the
firmware is then published in an output directory that all builds share, with a marker that lists it.
A build works in a fresh directory of its own, which no other build sees, so that what it does there is
a computation.  In the output directory it may be stopped after any action.

* `generate_eq_ok`: what a build that has verified its bindings works with.
* `exec_main`: what becomes of the output directory in one build.
* `firmware_marker_vouches`: after any builds, each stopped where it may be, a marker is that of the last
  build that began, which published what the marker lists.
-/

namespace Grevir.Irqgen

open Interrupt Json Programs

def FIRMWARE_READY : String := "grevir_irq_firmware_ready.json"

/-! ### A build -/

inductive BuildError where
  | raised (error : Error)
  /-- `subprocess.CalledProcessError` -/
  | calledProcess

/-- An entry of a compilation database: the name of its file, and its argument vector, if it has one. -/
structure DatabaseEntry where
  name : String
  arguments : Option (List String)

/-- The files of a directory. -/
structure Export where
  files : List (String × List UInt8)
  nodup : (files.map Prod.fst).Nodup

/-- What `arduino-cli` and the compiler answer; none where they fail.  The last one compiles the sketch
with a generated header and source. -/
structure ArduinoTools where
  database : Option (List DatabaseEntry)
  probe : List String → Option (Store String (List UInt8))
  strict : List UInt8 → List UInt8 → Option Export

/-- The arguments of a build, and what it finds at its paths.  The application header is a path in its
POSIX form. -/
structure BuildArgs where
  sketchIsDirectory : Bool
  applicationHeader : Argument
  applicationHeaderIsFile : Bool
  buildProperties : List String
  backend : String
  target : String
  board : String
  compiler : String

/-- A build: what it is called with, what it calls, and the attempt it makes. -/
structure Build where
  args : BuildArgs
  tools : ArduinoTools
  attempt : Uuid
  planning : Ending
  emitting : Ending

/-- A path that is relative and does not go up. -/
def insideSketch (path : String) : Bool :=
  path.toList.head? ≠ some '/' && "..".toList ∉ path.toList.splitOn '/'

/-- The checks before anything is touched. -/
def BuildArgs.check (args : BuildArgs) : Except Error Unit := do
  require args.sketchIsDirectory "Arduino sketch directory is missing"
  require (insideSketch args.applicationHeader.1) "application header must be inside the staged sketch"
  require args.applicationHeaderIsFile "application header is missing from the sketch"
  require (args.buildProperties.all fun value =>
      !"compiler.cpp.extra_flags=".toList.isPrefixOf value.toList)
    "use --cpp-flags for compiler.cpp.extra_flags"

def raised {α : Type} (c : Except Error α) : Except BuildError α := c.mapError .raised

/-- `_run`. -/
def called {α : Type} : Option α → Except BuildError α
  | some a => .ok a
  | none => .error .calledProcess

/-- The last path after an `-o`. -/
def objectPath (arguments : List String) : Option String :=
  (arguments.zip arguments.tail).foldl (fun path pair => if pair.1 = "-o" then some pair.2 else path)
    none

/-- The probe object, compiled by the one entry of the database that is the probe's. -/
def ArduinoTools.probeObject (tools : ArduinoTools) : Except BuildError (List UInt8) := do
  let database ← called tools.database
  match database.filter fun entry => entry.name = "grevir_irq_probe.cpp" with
  | [entry] =>
      match entry.arguments with
      | none => raised (throw (.plan "Arduino compilation database lacks argument vector"))
      | some arguments => do
          let files ← called (tools.probe (arguments ++ ["-fno-lto"]))
          match objectPath arguments >>= files with
          | some object => return object
          | none => raised (throw (.plan "target probe object was not produced"))
  | _ => raised (throw (.plan "Arduino compilation database lacks one interrupt probe"))

/-- What `plan`, `emit` and `verify_ready` are called with. -/
def BuildArgs.transaction (args : BuildArgs) (object : List UInt8) : TransactionArgs :=
  ⟨object, args.backend, args.target, args.board, args.compiler, args.applicationHeader⟩

/-- `sorted(private_export.iterdir())`. -/
def Export.sorted (e : Export) : List (String × List UInt8) :=
  e.files.mergeSort fun file file' => file.1 ≤ file'.1

section Build

variable (F : Type) [PyFloat F] [FloatText F] (sha256 : List UInt8 → String)

/-- The bindings directory, and the marker that was verified. -/
def generate (args : TransactionArgs) (attempt : Uuid) (planning emitting : Ending) :
    Except BuildError (Files × Value F) :=
  let planned := runProcess (planCommand F sha256 (args.plan attempt)) planning fun _ => none
  if planned.2 then
    let emitted := runProcess (emitCommand F sha256 (args.emit attempt)) emitting planned.1
    if emitted.2 then
      match (verifyReady F sha256 (args.verify attempt)).complete emitted.1 with
      | (files, .ok marker) => .ok (files, marker)
      | (_, .error error) => .error (.raised error)
    else .error .calledProcess
  else .error .calledProcess

variable {F} in
/-- `firmware_ready`. -/
def Build.firmwareReady (b : Build) (fingerprint : Value F) (exported : Export) : Value F :=
  .dict [
    ("attempt", .str b.attempt.1),
    ("binding_plan", fingerprint),
    ("backend", .str b.args.backend),
    ("target", .str b.args.target),
    ("board", .str b.args.board),
    ("compiler", .str b.args.compiler),
    ("artifacts", .dict (exported.sorted.map fun file => (file.1, .str (sha256 file.2))))]

/-- A build once the marker is withdrawn. -/
def Build.publish (b : Build) : Program String (List UInt8) BuildError Unit := do
  let object ← ofExcept b.tools.probeObject
  let generated ← ofExcept
    (generate F sha256 (b.args.transaction object) b.attempt b.planning b.emitting)
  let header ← ofExcept (raised (readBytes (generated.1 (.header b.args.backend))))
  let source ← ofExcept (raised (readBytes (generated.1 (.source b.args.backend))))
  let exported ← ofExcept (called (b.tools.strict header source))
  replaceAll exported.sorted
  ofExcept (raised (require (exported.files ≠ []) "Arduino build produced no firmware artifacts"))
  let fingerprint ← ofExcept (raised (generated.2.item "plan_fingerprint"))
  replace FIRMWARE_READY (some (jsonBytes (b.firmwareReady sha256 fingerprint exported)))

/-- **`main`.** -/
def Build.main (b : Build) : Program String (List UInt8) BuildError Unit := do
  ofExcept (raised b.args.check)
  replace FIRMWARE_READY none
  b.publish F sha256

/-- Builds one after another, each stopped after some number of actions.  It is recorded whether the
build completed. -/
def builds : Runs.Machine (Store String (List UInt8)) (Build × Nat) ((Build × Nat) × Bool) where
  step s x :=
    let r := (x.1.main F sha256).exec x.2 s
    (r.1, some (x, r.2.isDone))

end Build

/-! ### The bindings of a build -/

section Bindings

variable {F : Type} [PyFloat F] [FloatText F] {sha256 : List UInt8 → String} {args : TransactionArgs}
  {attempt : Uuid} {planning emitting : Ending}

theorem unmarked_empty : Function.update (fun _ : File => (none : Option (List UInt8))) .marker none =
    fun _ => none := by
  funext file
  simp [Function.update_apply]

/-- The bindings are generated as by a transaction in an empty directory. -/
theorem transaction_of_generate {files : Files} {marker : Value F}
    (h : generate F sha256 args attempt planning emitting = .ok (files, marker)) :
    ∃ n, transaction F sha256 args attempt planning emitting n (fun _ => none) = (files, true) ∧
      (verifyReady F sha256 (args.verify attempt)).exec n files = (files, .done marker) := by
  dsimp only [generate] at h
  split at h
  next hplanned =>
    split at h
    next hemitted =>
      split at h
      next files' marker' hcomplete =>
        cases h
        obtain ⟨n, hn⟩ := Program.exists_exec_of_complete hcomplete
        obtain ⟨rfl, -⟩ := exec_verify _ _ _ hn
        refine ⟨n, ?_, hn⟩
        rw [transaction, unmarked_empty, onSuccess, if_pos hplanned, onSuccess, if_pos hemitted, checkOutputs]
        exact congrArg (fun r => if r.2.isDone then (r.1, true)
          else (Function.update r.1 .marker none, false)) hn
      next files' error hcomplete => cases h
    next hemitted => cases h
  next hplanned => cases h

/-- A transaction that succeeds in an empty directory generates bindings. -/
theorem generate_of_transaction {n : Nat} {r : Files × Bool}
    (h : transaction F sha256 args attempt planning emitting n (fun _ => none) = r) (hr : r.2 = true) :
    ∃ marker, generate F sha256 args attempt planning emitting = .ok (r.1, marker) := by
  rw [transaction, unmarked_empty] at h
  cases hplanned : (runProcess (planCommand F sha256 (args.plan attempt)) planning fun _ => none).2 with
  | false =>
      rw [onSuccess, if_neg (by simp [hplanned])] at h
      rw [← h] at hr
      cases hr
  | true =>
      rw [onSuccess, if_pos hplanned] at h
      cases hemitted : (runProcess (emitCommand F sha256 (args.emit attempt)) emitting
          (runProcess (planCommand F sha256 (args.plan attempt)) planning fun _ => none).1).2 with
      | false =>
          rw [onSuccess, if_neg (by simp [hemitted])] at h
          rw [← h] at hr
          cases hr
      | true =>
          rw [onSuccess, if_pos hemitted, checkOutputs] at h
          split at h
          next hverified =>
            obtain ⟨marker, hmarker⟩ := isDone_iff.mp hverified
            refine ⟨marker, ?_⟩
            have hcomplete := Program.complete_of_exec (Prod.ext rfl hmarker)
            rw [generate, if_pos hplanned, if_pos hemitted, hcomplete, ← h]
          next hverified =>
            rw [← h] at hr
            cases hr

/-- **What a build works with once its bindings are verified**: the outputs of the plan of its object,
and the plan's fingerprint. -/
theorem generate_eq_ok {files : Files} {marker : Value F}
    (h : generate F sha256 args attempt planning emitting = .ok (files, marker)) :
    ∃ p header source, (3 ≤ planning.actions ∧ planning.exits = true) ∧
      (7 ≤ emitting.actions ∧ emitting.exits = true) ∧ (args.plan attempt).Plans F sha256 p ∧
      emit (readPlan sha256 (jsonBytes : Value F → _) p) args.applicationHeader = .ok (header, source) ∧
      files (.header args.backend) = some header ∧ files (.source args.backend) = some source ∧
      marker.item "plan_fingerprint" =
        .ok (.str (readPlan sha256 (jsonBytes : Value F → _) p).fingerprint) := by
  obtain ⟨n, htransaction, hverified⟩ := transaction_of_generate h
  have hsucceeds := succeeds_of_transaction (by rw [htransaction])
  obtain ⟨p, hp, outputs, houtputs⟩ := hsucceeds.generates
  have hfiles : files = args.generated F sha256 attempt p outputs.1 outputs.2 fun _ => none := by
    have hgenerated := transaction_generated hp houtputs hsucceeds.planned hsucceeds.emitted
      hsucceeds.verified fun _ => none
    rw [htransaction] at hgenerated
    exact congrArg Prod.fst hgenerated
  obtain ⟨hplan, hheader, hsource, -⟩ := @generated_outputs F _ sha256 args attempt p outputs.1
    outputs.2 fun _ => none
  rw [← hfiles] at hplan hheader hsource
  refine ⟨p, outputs.1, outputs.2, hsucceeds.planned, hsucceeds.emitted, hp, houtputs, hheader, hsource,
    ?_⟩
  obtain ⟨-, hverify⟩ := exec_verify _ _ _ hverified
  obtain ⟨o, ⟨-, _, -, hready⟩, hin⟩ := hverify marker rfl
  obtain ⟨v, hv, -, fingerprint, hfingerprint, hmarker⟩ := hready.plan
  have hsame : o.plan = jsonBytes (planValue sha256 jsonBytes p : Value F) :=
    Option.some.inj (hin.plan.symm.trans hplan)
  rw [hsame, parseCanonical_planValue hp.valid] at hv
  cases hv
  have hread : HasText (planValue sha256 (jsonBytes : Value F → _) p) "fingerprint"
      (readPlan sha256 (jsonBytes : Value F → _) p).fingerprint := rfl
  have hplain := plain_planValue sha256 (jsonBytes : Value F → List UInt8) p
  rw [(hread.sortKeys hplain).unique hfingerprint]
  exact hmarker

end Bindings

/-! ### What a build publishes -/

section Publish

variable {F : Type} [PyFloat F] [FloatText F] {sha256 : List UInt8 → String} {b : Build}
  {p : PlanContent String} {header source : List UInt8} {exported : Export}

/-- No build exports a file with the marker's name. -/
def Build.NamesFirmware (b : Build) : Prop :=
  ∀ header source exported, b.tools.strict header source = some exported →
    FIRMWARE_READY ∉ exported.files.map Prod.fst

/-- **What a build works with**: the plan of its probe object, the bindings emitted for it, and the
firmware the sketch with these bindings was built to.  Neither process is stopped. -/
structure Build.Works (F : Type) [PyFloat F] [FloatText F] (sha256 : List UInt8 → String) (b : Build)
    (p : PlanContent String) (header source : List UInt8) (exported : Export) : Prop where
  probed : ∃ object, b.tools.probeObject = .ok object ∧
    ((b.args.transaction object).plan b.attempt).Plans F sha256 p
  emitted : emit (readPlan sha256 (jsonBytes : Value F → _) p) b.args.applicationHeader =
    .ok (header, source)
  built : b.tools.strict header source = some exported
  artifacts : exported.files ≠ []
  planning : 3 ≤ b.planning.actions ∧ b.planning.exits = true
  emitting : 7 ≤ b.emitting.actions ∧ b.emitting.exits = true

variable (F sha256) in
/-- The marker of a build that worked with this. -/
def Build.marker (b : Build) (p : PlanContent String) (exported : Export) : Value F :=
  b.firmwareReady sha256 (.str (readPlan sha256 (jsonBytes : Value F → _) p).fingerprint) exported

theorem Export.sorted_perm (e : Export) : e.sorted.Perm e.files := List.mergeSort_perm _ _

omit [PyFloat F] in
theorem Build.plain_marker (b : Build) (p : PlanContent String) (exported : Export) :
    Plain (b.marker F sha256 p exported) := by
  have hkeys : (exported.sorted.map fun file => (file.1, (.str (sha256 file.2) : Value F))).map Prod.fst =
      exported.sorted.map Prod.fst := by
    rw [List.map_map]
    rfl
  have hartifacts : Plain (.dict (exported.sorted.map fun file =>
      (file.1, (.str (sha256 file.2) : Value F)))) := by
    refine .dict ?_ ?_
    · rw [hkeys]
      exact (exported.sorted_perm.map Prod.fst).nodup_iff.mpr exported.nodup
    · intro item hitem
      obtain ⟨file, -, rfl⟩ := List.mem_map.mp hitem
      exact .str _
  refine .dict (show ["attempt", "binding_plan", "backend", "target", "board", "compiler",
    "artifacts"].Nodup by decide) ?_
  simp only [List.forall_mem_cons]
  exact ⟨.str _, .str _, .str _, .str _, .str _, .str _, hartifacts, by simp⟩

theorem raised_eq_ok {α : Type} {c : Except Error α} {a : α} (h : raised c = .ok a) : c = .ok a := by
  cases c with
  | error e => cases h
  | ok a' =>
      cases h
      rfl

theorem called_eq_ok {α : Type} {c : Option α} {a : α} (h : called c = .ok a) : c = some a := by
  cases c with
  | none => cases h
  | some a' =>
      cases h
      rfl

/-- **What a build has published**: nothing under the marker's name, or all of its firmware and then
the marker. -/
theorem ran_publish (hnames : b.NamesFirmware) {log : List (Event String (List UInt8))}
    {q : Program String (List UInt8) BuildError Unit} (h : Ran (b.publish F sha256) log q) :
    (q.isDone = false ∧ ∀ value, .write FIRMWARE_READY value ∉ log) ∨
      (q.isDone = true ∧ ∃ p header source exported, b.Works F sha256 p header source exported ∧
        log = replacements exported.sorted ++
          [.write FIRMWARE_READY (some (jsonBytes (b.marker F sha256 p exported)))]) := by
  rw [Build.publish] at h
  rcases ran_ofExcept.mp h with ⟨e, -, rfl, rfl⟩ | ⟨object, hobject, h⟩
  · exact .inl ⟨rfl, by simp⟩
  rcases ran_ofExcept.mp h with ⟨e, -, rfl, rfl⟩ | ⟨⟨files, marker⟩, hgenerate, h⟩
  · exact .inl ⟨rfl, by simp⟩
  obtain ⟨p, header, source, hplanning, hemitting, hp, hemit, hheader, hsource, hfingerprint⟩ :=
    generate_eq_ok hgenerate
  rcases ran_ofExcept.mp h with ⟨e, -, rfl, rfl⟩ | ⟨header', hheader', h⟩
  · exact .inl ⟨rfl, by simp⟩
  rcases ran_ofExcept.mp h with ⟨e, -, rfl, rfl⟩ | ⟨source', hsource', h⟩
  · exact .inl ⟨rfl, by simp⟩
  obtain rfl : header = header' :=
    Except.ok.inj ((congrArg readBytes hheader).symm.trans (raised_eq_ok hheader'))
  obtain rfl : source = source' :=
    Except.ok.inj ((congrArg readBytes hsource).symm.trans (raised_eq_ok hsource'))
  rcases ran_ofExcept.mp h with ⟨e, -, rfl, rfl⟩ | ⟨exported, hexported, h⟩
  · exact .inl ⟨rfl, by simp⟩
  have hstrict := called_eq_ok hexported
  have hquiet : ∀ value, .write FIRMWARE_READY value ∉ replacements exported.sorted := by
    intro value hmem
    obtain ⟨file, hfile, heq⟩ := List.mem_map.mp hmem
    injection heq with hname
    exact hnames header source exported hstrict
      (hname ▸ List.mem_map_of_mem (exported.sorted_perm.mem_iff.mp hfile))
  rcases ran_replaceAll h with ⟨hlead, hq⟩ | ⟨rest, rfl, hrest⟩
  · refine .inl ⟨?_, fun value hmem => hquiet value (hlead.subset hmem)⟩
    cases q with
    | done a => exact absurd rfl (hq a)
    | _ => rfl
  rcases ran_ofExcept.mp hrest with ⟨e, -, rfl, rfl⟩ | ⟨_, hrequire, hmarker⟩
  · exact .inl ⟨rfl, by simpa using hquiet⟩
  have hartifacts := require_eq_ok.mp (raised_eq_ok hrequire)
  rw [hfingerprint] at hmarker
  rcases ran_replace_last.mp hmarker with ⟨rfl, rfl⟩ | ⟨rfl, rfl⟩
  · exact .inl ⟨rfl, by simpa using hquiet⟩
  · exact .inr ⟨rfl, p, header, source, exported, ⟨⟨object, hobject, hp⟩, hemit, hstrict, hartifacts,
      hplanning, hemitting⟩, rfl⟩

/-- **A build that is not stopped publishes what it works with.** -/
theorem exec_publish (h : b.Works F sha256 p header source exported) {n : Nat}
    (hn : exported.files.length + 1 ≤ n) (s : Store String (List UInt8)) :
    ((b.publish F sha256).exec n s).2.isDone = true := by
  obtain ⟨object, hobject, hp⟩ := h.probed
  have htransaction := transaction_generated hp h.emitted h.planning h.emitting (le_refl 5) fun _ => none
  obtain ⟨marker, hgenerate⟩ := generate_of_transaction htransaction rfl
  obtain ⟨p', -, -, -, -, -, -, -, -, hfingerprint⟩ := generate_eq_ok hgenerate
  obtain ⟨-, hheader, hsource, -⟩ := @generated_outputs F _ sha256 (b.args.transaction object) b.attempt
    p header source fun _ => none
  rw [show (b.args.transaction object).backend = b.args.backend from rfl] at hheader hsource
  obtain ⟨text, hpublish⟩ : ∃ text, b.publish F sha256 =
      replaceAll exported.sorted >>= fun _ => replace FIRMWARE_READY (some text) := by
    refine ⟨jsonBytes (b.marker F sha256 p' exported), ?_⟩
    rw [Build.publish, hobject]
    simp only [ofExcept_ok]
    rw [hgenerate]
    simp only [ofExcept_ok]
    rw [show readBytes _ = .ok header from congrArg readBytes hheader,
      show readBytes _ = .ok source from congrArg readBytes hsource]
    simp only [raised, Except.mapError, ofExcept_ok]
    rw [h.built, called, ofExcept_ok, require_eq_ok.mpr h.artifacts, hfingerprint]
    rfl
  obtain ⟨s', hs'⟩ := exec_replaceAll (ε := BuildError) exported.sorted
    (fun _ => replace FIRMWARE_READY (some text)) 1 s
  have hlength : exported.sorted.length + 1 ≤ n := by rwa [exported.sorted_perm.length_eq]
  rw [hpublish, Program.exec_of_le hlength (by rw [hs']; rfl), hs']
  rfl

/-- **The directory vouches for a build**: the marker in it reads back as that build's, and the firmware
the marker lists is there. -/
structure Build.Vouched (F : Type) [PyFloat F] [FloatText F] (sha256 : List UInt8 → String) (b : Build)
    (s : Store String (List UInt8)) : Prop where
  vouched : ∃ p header source exported, b.Works F sha256 p header source exported ∧
    readMarker (s FIRMWARE_READY) = .ok (sortKeys (b.marker F sha256 p exported)) ∧
    ∀ file ∈ exported.files, s file.1 = some file.2

/-- A directory with all of a build's firmware and then its marker vouches for the build. -/
theorem Build.Works.vouched {s s' : Store String (List UInt8)}
    (h : b.Works F sha256 p header source exported) (hnames : b.NamesFirmware)
    (hlog : Replays s (replacements exported.sorted ++
      [.write FIRMWARE_READY (some (jsonBytes (b.marker F sha256 p exported)))]) s') :
    b.Vouched F sha256 s' := by
  have hnodup : (exported.sorted.map Prod.fst).Nodup :=
    (exported.sorted_perm.map Prod.fst).nodup_iff.mpr exported.nodup
  have hfiles := hlog.replaced hnodup fun file hfile value hmem => by
    injection List.mem_singleton.mp hmem with hname
    exact hnames header source exported h.built
      (hname ▸ List.mem_map_of_mem (exported.sorted_perm.mem_iff.mp hfile))
  have hmarker : s' FIRMWARE_READY = some (jsonBytes (b.marker F sha256 p exported)) :=
    hlog.last
  refine ⟨p, header, source, exported, h, ?_, fun file hfile => ?_⟩
  · rw [hmarker]
    exact readMarker_jsonBytes (b.plain_marker p exported)
  · exact hfiles file (exported.sorted_perm.mem_iff.mpr hfile)

end Publish

/-! ### Builds one after another -/

section Builds

variable {F : Type} [PyFloat F] [FloatText F] {sha256 : List UInt8 → String} {b : Build}

/-- A build that does nothing to the output directory: it is stopped at once, or its arguments are
refused. -/
def Idle (x : Build × Nat) : Prop := x.2 = 0 ∨ ∃ e, x.1.args.check = .error e

/-- **A build that completes**: its arguments are accepted, it has firmware to publish, and it is let run
through. -/
structure Build.Completes (F : Type) [PyFloat F] [FloatText F] (sha256 : List UInt8 → String) (b : Build)
    (n : Nat) : Prop where
  accepted : b.args.check = .ok ()
  published : ∃ p header source exported, b.Works F sha256 p header source exported ∧
    exported.files.length + 2 ≤ n

/-- The last build of the history that did not stay idle, and it completed. -/
def LastCompleted (history : List ((Build × Nat) × Bool)) (b : Build) : Prop :=
  ∃ before n after, history = before ++ ((b, n), true) :: after ∧ ∀ x ∈ after, Idle x.1

theorem main_of_error {e : Error} (h : b.args.check = .error e) :
    b.main F sha256 = .fail (.raised e) := by
  rw [Build.main, h]
  rfl

theorem main_of_ok (h : b.args.check = .ok ()) :
    b.main F sha256 = replace FIRMWARE_READY none >>= fun _ => b.publish F sha256 := by
  rw [Build.main, h]
  rfl

/-- **What becomes of the output directory in a build**: it is left alone, its marker is withdrawn, or it
vouches for the build. -/
theorem exec_main (hnames : b.NamesFirmware) (n : Nat) (s : Store String (List UInt8)) :
    let r := (b.main F sha256).exec n s
    (Idle (b, n) ∧ r.1 = s ∧ r.2.isDone = false) ∨
      (¬ Idle (b, n) ∧ r.1 FIRMWARE_READY = none ∧ r.2.isDone = false) ∨
      (¬ Idle (b, n) ∧ b.Vouched F sha256 r.1 ∧ r.2.isDone = true) := by
  cases hcheck : b.args.check with
  | error e =>
      left
      rw [main_of_error hcheck, Program.exec_stopped rfl]
      exact ⟨.inr ⟨e, hcheck⟩, rfl, rfl⟩
  | ok _ =>
      rw [main_of_ok hcheck]
      cases n with
      | zero => exact .inl ⟨.inl rfl, rfl, rfl⟩
      | succ n =>
          right
          have hbegins : ¬ Idle (b, n + 1) := by
            rintro (h | ⟨e, h⟩)
            · cases h
            · rw [hcheck] at h
              cases h
          obtain ⟨log, -, hran, hreplays⟩ := (b.publish F sha256).exec_ran n
            (Function.update s FIRMWARE_READY none)
          rw [exec_replace]
          rcases ran_publish hnames hran with ⟨hq, hquiet⟩ | ⟨hq, p, header, source, exported, hworks, rfl⟩
          · exact .inl ⟨hbegins, (hreplays.frame hquiet).trans (Function.update_self _ _ _), hq⟩
          · exact .inr ⟨hbegins, hworks.vouched hnames hreplays, hq⟩

/-- **When a build completes.** -/
theorem isDone_main_iff (hnames : b.NamesFirmware) (n : Nat) (s : Store String (List UInt8)) :
    ((b.main F sha256).exec n s).2.isDone = true ↔ b.Completes F sha256 n := by
  cases hcheck : b.args.check with
  | error e =>
      rw [main_of_error hcheck, Program.exec_stopped rfl]
      constructor
      · intro h
        cases h
      · intro h
        rw [h.accepted] at hcheck
        cases hcheck
  | ok _ =>
      rw [main_of_ok hcheck]
      cases n with
      | zero =>
          constructor
          · intro h
            cases h
          · rintro ⟨-, _, _, _, _, -, hn⟩
            cases hn
      | succ n =>
          rw [exec_replace]
          constructor
          · intro h
            obtain ⟨log, hlength, hran, -⟩ := (b.publish F sha256).exec_ran n
              (Function.update s FIRMWARE_READY none)
            rcases ran_publish hnames hran with ⟨hq, -⟩ | ⟨-, p, header, source, exported, hworks, rfl⟩
            · rw [hq] at h
              cases h
            · refine ⟨hcheck, p, header, source, exported, hworks, ?_⟩
              rw [List.length_append, replacements, List.length_map,
                exported.sorted_perm.length_eq] at hlength
              exact Nat.succ_le_succ hlength
          · rintro ⟨-, p, header, source, exported, hworks, hn⟩
            exact exec_publish hworks (Nat.le_of_succ_le_succ hn) _

/-- The last completed build of a history one build longer. -/
theorem lastCompleted_snoc {history : List ((Build × Nat) × Bool)} {x : Build × Nat} {completed : Bool} :
    LastCompleted (history ++ [(x, completed)]) b ↔
      (completed = true ∧ x.1 = b) ∨ (Idle x ∧ LastCompleted history b) := by
  constructor
  · rintro ⟨before, n, after, heq, hafter⟩
    rcases Runs.split_snoc (o := some (x, completed)) heq with ⟨hx, -, -⟩ | ⟨after', rfl, hhistory⟩
    · cases hx
      exact .inl ⟨rfl, rfl⟩
    · right
      refine ⟨hafter (x, completed) (by simp), before, n, after', hhistory, fun y hy => ?_⟩
      exact hafter y (List.mem_append_left _ hy)
  · rintro (⟨rfl, rfl⟩ | ⟨hidle, before, n, after, rfl, hafter⟩)
    · exact ⟨history, x.2, [], rfl, by simp⟩
    · refine ⟨before, n, after ++ [(x, completed)], by simp, fun y hy => ?_⟩
      rcases List.mem_append.mp hy with hy | hy
      · exact hafter y hy
      · rw [List.mem_singleton.mp hy]
        exact hidle

/-- **The marker of a directory vouches for the history**: it is there only if the last build that did
not stay idle completed, and then the directory vouches for that build. -/
structure Vouching (F : Type) [PyFloat F] [FloatText F] (sha256 : List UInt8 → String)
    (s : Store String (List UInt8)) (history : List ((Build × Nat) × Bool)) : Prop where
  marked : s FIRMWARE_READY ≠ none → ∃ b, LastCompleted history b
  vouched : ∀ b, LastCompleted history b → b.Vouched F sha256 s
  completed : ∀ x ∈ history, x.2 = true ↔ x.1.1.Completes F sha256 x.1.2

theorem Vouching.step {s : Store String (List UInt8)} {history : List ((Build × Nat) × Bool)}
    (h : Vouching F sha256 s history) {x : Build × Nat} (hnames : x.1.NamesFirmware) :
    Vouching F sha256 ((builds F sha256).step s x).1
      (history ++ ((builds F sha256).step s x).2.toList) := by
  obtain ⟨b, n⟩ := x
  show Vouching F sha256 ((b.main F sha256).exec n s).1
    (history ++ [((b, n), ((b.main F sha256).exec n s).2.isDone)])
  have hcompleted : ∀ x ∈ history ++ [((b, n), ((b.main F sha256).exec n s).2.isDone)],
      x.2 = true ↔ x.1.1.Completes F sha256 x.1.2 := by
    intro x hx
    rcases List.mem_append.mp hx with hx | hx
    · exact h.completed x hx
    · rw [List.mem_singleton.mp hx]
      exact isDone_main_iff hnames n s
  rcases @exec_main F _ _ sha256 b hnames n s with
    ⟨hidle, hs, hq⟩ | ⟨hbegins, hs, hq⟩ | ⟨hbegins, hs, hq⟩
  · rw [hs]
    rw [hq] at hcompleted ⊢
    refine ⟨fun hmarker => ?_, fun b' hb' => ?_, hcompleted⟩
    · obtain ⟨b', hb'⟩ := h.marked hmarker
      exact ⟨b', lastCompleted_snoc.mpr (.inr ⟨hidle, hb'⟩)⟩
    · rcases lastCompleted_snoc.mp hb' with ⟨htrue, -⟩ | ⟨-, hb'⟩
      · cases htrue
      · exact h.vouched b' hb'
  · rw [hq] at hcompleted ⊢
    refine ⟨fun hmarker => absurd hs hmarker, fun b' hb' => ?_, hcompleted⟩
    rcases lastCompleted_snoc.mp hb' with ⟨htrue, -⟩ | ⟨hidle, -⟩
    · cases htrue
    · exact absurd hidle hbegins
  · rw [hq] at hcompleted ⊢
    refine ⟨fun _ => ⟨b, lastCompleted_snoc.mpr (.inl ⟨rfl, rfl⟩)⟩, fun b' hb' => ?_, hcompleted⟩
    rcases lastCompleted_snoc.mp hb' with ⟨-, rfl⟩ | ⟨hidle, -⟩
    · exact hs
    · exact absurd hidle hbegins

/-- **A firmware marker vouches for the last build**: after any builds in a directory without a marker,
each stopped after any number of actions, there is a marker exactly if the last build that did not stay
idle completed; and then the marker is that build's, of the plan of its own probe object, and all the
firmware it lists is there, built with the bindings of that plan.  The builds that completed are those
that were accepted, had firmware, and were let run through. -/
theorem firmware_marker_vouches (F : Type) [PyFloat F] [FloatText F] (sha256 : List UInt8 → String)
    {s : Store String (List UInt8)} (hs : s FIRMWARE_READY = none) {attempts : List (Build × Nat)}
    (hnames : ∀ x ∈ attempts, x.1.NamesFirmware) :
    let r := (builds F sha256).run s attempts
    (r.1 FIRMWARE_READY ≠ none ↔ ∃ b, LastCompleted r.2 b) ∧
      (∀ b, LastCompleted r.2 b → b.Vouched F sha256 r.1) ∧
      ∀ x ∈ r.2, x.2 = true ↔ x.1.1.Completes F sha256 x.1.2 := by
  intro r
  have hvouching : Vouching F sha256 r.1 r.2 := by
    show Vouching F sha256 ((builds F sha256).run s attempts).1 ((builds F sha256).run s attempts).2
    clear r
    induction attempts using List.reverseRecOn with
    | nil =>
        refine ⟨fun hmarker => absurd hs hmarker, fun b ⟨before, n, after, heq, _⟩ => ?_, by simp⟩
        simp at heq
    | append_singleton attempts x ih =>
        rw [Runs.Machine.run_snoc]
        exact (ih fun y hy => hnames y (List.mem_append_left _ hy)).step (hnames x (by simp))
  refine ⟨⟨hvouching.marked, fun ⟨b, hb⟩ => ?_⟩, hvouching.vouched, hvouching.completed⟩
  obtain ⟨p, header, source, exported, -, hread, -⟩ := (hvouching.vouched b hb).vouched
  intro hnone
  rw [hnone] at hread
  cases hread

end Builds

/-! ### The timer's build -/

def timerExport : Export := ⟨[("blink.hex", [])], List.nodup_singleton _⟩

def timerTools : ArduinoTools where
  database := some [⟨"blink.cpp", none⟩,
    ⟨"grevir_irq_probe.cpp", some ["avr-g++", "-o", "grevir_irq_probe.cpp.o"]⟩]
  probe _ := some fun path =>
    if path = "grevir_irq_probe.cpp.o" then some (coffObject (timerRecordNamed "blink")) else none
  strict _ _ := some timerExport

def timerBuild : Build where
  args := ⟨true, ⟨"blink.hpp", timerHeader_nulFree⟩, true, [], "avr", "atmega328p", "uno", "gcc"⟩
  tools := timerTools
  attempt := timerUuid
  planning := ⟨3, true⟩
  emitting := ⟨7, true⟩

theorem timerBuild_namesFirmware : timerBuild.NamesFirmware := by
  intro header source exported h
  cases h
  decide

theorem timerBuild_completes : timerBuild.Completes Empty hexDigest 3 := by
  obtain ⟨outputs, houtputs⟩ := emit_timer hexDigest (jsonBytes : Value Empty → _) "blink"
  refine ⟨by decide, timerPlanNamed "blink", outputs.1, outputs.2, timerExport, ?_, le_refl 3⟩
  exact {
    probed := ⟨_, rfl, plans_timer hexDigest timerName_blink timerUuid.1⟩
    emitted := houtputs
    built := rfl
    artifacts := List.cons_ne_nil _ _
    planning := ⟨le_refl 3, rfl⟩
    emitting := ⟨le_refl 7, rfl⟩ }

/-- A build that is stopped before it has written the marker, and one that is let run through. -/
theorem firmware_marker_vouches_timer :
    let r := (builds Empty hexDigest).run (fun _ => none) [(timerBuild, 2), (timerBuild, 3)]
    timerBuild.Completes Empty hexDigest 3 ∧
    (r.1 FIRMWARE_READY ≠ none ↔ ∃ b, LastCompleted r.2 b) ∧
      (∀ b, LastCompleted r.2 b → b.Vouched Empty hexDigest r.1) ∧
      ∀ x ∈ r.2, x.2 = true ↔ x.1.1.Completes Empty hexDigest x.1.2 := by
  refine ⟨timerBuild_completes, firmware_marker_vouches Empty hexDigest rfl fun x hx => ?_⟩
  have hbuild : x.1 = timerBuild := by
    rcases List.mem_pair.mp hx with rfl | rfl
    · rfl
    · rfl
  rw [hbuild]
  exact timerBuild_namesFirmware

end Grevir.Irqgen
