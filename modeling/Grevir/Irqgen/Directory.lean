import Grevir.Support.Programs
import Grevir.Irqgen.Emit
import Grevir.Irqgen.ObjectSection

/-!
# Irqgen — Directory

The commands on an output directory, as programs over its files.  A file is read, replaced or deleted
at once, since `_write` replaces a file by a complete one; between two such actions a command may be
stopped, and others may run.  `GREVIR_IRQGEN_FAIL_AT` stops a command where it may be stopped anyway.

* `planCommand`, `emitCommand`: `_plan` and `_emit`.
* `verifyReady`: `verify_ready`.
-/

namespace Grevir.Irqgen

open Interrupt Json Programs

/-- The files of an output directory, some of them by the backend they are for. -/
inductive File where
  | marker
  | attempt
  | plan (backend : String)
  | header (backend : String)
  | source (backend : String)
  deriving DecidableEq

def File.name : File → String
  | .marker => "grevir_irq_ready.json"
  | .attempt => ".grevir_irq_attempt"
  | .plan backend => "grevir_generated_irq_plan_" ++ backend ++ ".json"
  | .header backend => "grevir_generated_irq_bindings_" ++ backend ++ ".hpp"
  | .source backend => "grevir_generated_irq_bindings_" ++ backend ++ ".cpp"

/-- Files by their bytes. -/
abbrev Files := Store File (List UInt8)

abbrev Script (α : Type) := Program File (List UInt8) Error α

/-! ### Reading a file -/

/-- What a text file read with universal newlines says. -/
def universalNewlines : List Char → List Char
  | [] => []
  | '\r' :: '\n' :: cs => '\n' :: universalNewlines cs
  | '\r' :: cs => '\n' :: universalNewlines cs
  | c :: cs => c :: universalNewlines cs

/-- `path.read_bytes()`. -/
def readBytes : Option (List UInt8) → Except Error (List UInt8)
  | some data => .ok data
  | none => .error .osError

/-- The text of a file opened in text mode. -/
def decodeText (data : List UInt8) : Except Error String :=
  match Utf8.decode data with
  | some text => return String.ofList (universalNewlines text.toList)
  | none => throw .unicodeError

/-- `path.read_text()`. -/
def readText (file : Option (List UInt8)) : Except Error String := do
  decodeText (← readBytes file)

/-- `c.isspace()`. -/
def isSpaceChar (c : Char) : Bool :=
  let n := c.toNat
  (9 ≤ n && n ≤ 13) || (28 ≤ n && n ≤ 32) || n = 0x85 || n = 0xa0 || n = 0x1680
    || (0x2000 ≤ n && n ≤ 0x200a) || n = 0x2028 || n = 0x2029 || n = 0x202f || n = 0x205f
    || n = 0x3000

/-- `text.strip()`. -/
def strip (text : String) : String :=
  String.ofList <|
    ((text.toList.dropWhile isSpaceChar).reverse.dropWhile isSpaceChar).reverse

/-! ### The arguments of the commands -/

structure PlanArgs where
  /-- What the file `--object` names has in it. -/
  object : List UInt8
  attempt : String
  backend : String
  target : String
  board : String
  compiler : String

/-- An argument of a command line, which has no NUL in it. -/
abbrev Argument := { s : String // Utf8.NulFree s }

structure EmitArgs where
  attempt : String
  backend : String
  compiler : String
  applicationHeader : Argument

structure VerifyArgs where
  backend : String
  target : String
  board : String
  compiler : String
  attempt : Option String

/-- The fields a plan was to have, with their values. -/
def PlanArgs.expected (args : PlanArgs) : List (String × String) :=
  [("backend", args.backend), ("target", args.target), ("board", args.board),
    ("compiler", args.compiler)]

def VerifyArgs.expected (args : VerifyArgs) : List (String × String) :=
  [("backend", args.backend), ("target", args.target), ("board", args.board),
    ("compiler", args.compiler)]

section Commands

variable (F : Type) [PyFloat F] [FloatText F] (sha256 : List UInt8 → String)

/-! ### `_plan` -/

/-- `_plan`. -/
def planCommand (args : PlanArgs) : Script Unit := do
  replace .marker none
  replace .attempt (some (Utf8.bytes (args.attempt ++ "\n")))
  let record ← ofExcept (extractInterruptPlan args.object)
  let plan : Value F ← ofExcept (decode sha256 jsonBytes record)
  ofExcept <| args.expected.forM fun field => do
    require ((← plan.item field.1).eq (.str field.2))
      ("interrupt " ++ field.1 ++ " differs from build configuration")
  let backend ← ofExcept (textItem plan "backend")
  let data ← ofExcept (canonicalBytes sha256 plan)
  replace (.plan backend) (some data)

/-! ### `_emit` -/

variable {F} in
/-- The ready marker. -/
def readyMarker (args : EmitArgs) (plan : Value F) (planBytes header source : List UInt8) :
    Except Error (Value F) := do
  let target ← plan.item "target"
  let board ← plan.item "board"
  let compiler ← plan.item "compiler"
  let protocol ← plan.item "schema"
  let fingerprint ← plan.item "fingerprint"
  return .dict [
    ("attempt", .str args.attempt),
    ("backend", .str args.backend),
    ("target", target),
    ("board", board),
    ("compiler", compiler),
    ("emitter", .str EMITTER),
    ("protocol", protocol),
    ("plan_fingerprint", fingerprint),
    ("plan_sha256", .str (sha256 planBytes)),
    ("output_identity", .str (outputIdentity sha256 header source))]

/-- `_emit`. -/
def emitCommand (args : EmitArgs) : Script Unit := do
  replace .marker none
  let present ← load .attempt
  ofExcept (require present.isSome "interrupt generation attempt mismatch")
  let attempt ← load .attempt
  ofExcept <| do
    require ((← readText attempt) = args.attempt ++ "\n") "interrupt generation attempt mismatch"
  let planFile ← load (.plan args.backend)
  let planBytes ← ofExcept (readBytes planFile)
  let plan : Value F ← ofExcept (parseCanonical sha256 planBytes)
  ofExcept <| do
    require ((← plan.item "backend").eq (.str args.backend))
      "interrupt emitter backend differs from plan"
    require ((← plan.item "compiler").eq (.str args.compiler))
      "interrupt emitter compiler differs from plan"
  let outputs ← ofExcept (do emit (← planOf plan) args.applicationHeader)
  replace (.header args.backend) (some outputs.1)
  replace (.source args.backend) (some outputs.2)
  let ready ← ofExcept (readyMarker sha256 args plan planBytes outputs.1 outputs.2)
  replace .marker (some (jsonBytes ready))

/-! ### `verify_ready` -/

variable {F}

def readyFields : List String :=
  ["attempt", "backend", "target", "board", "compiler", "emitter", "protocol", "plan_fingerprint",
    "plan_sha256", "output_identity"]

/-- Where a file cannot be read, the outputs are not complete. -/
def complete {α : Type} : Except Error α → Except Error α
  | .ok a => .ok a
  | .error _ => .error (.plan "interrupt output set is incomplete")

/-- `json.loads(text)`. -/
def loadsText (text : String) : Except Error (Value F) :=
  match loads text.toList with
  | some value => return value
  | none => throw (.plan "interrupt output set is incomplete")

/-- `json.loads(path.read_text())`. -/
def readMarker (file : Option (List UInt8)) : Except Error (Value F) := do
  loadsText (← readText file)

def checkAttempt (args : VerifyArgs) (recordedAttempt : String) : Value F → Except Error Unit
  | .str attempt =>
      require (attempt ≠ "" ∧ attempt = recordedAttempt ∧ ∀ a ∈ args.attempt, attempt = a)
        "interrupt generation attempt differs"
  | _ => throw (.plan "interrupt generation attempt differs")

/-- Some fields of a marker or a plan have these values. -/
def checkIdentity (value : Value F) (fields : List (String × Value F)) (message : String) :
    Except Error Unit :=
  fields.forM fun field => do require ((← value.item field.1).eq field.2) message

/-- The checks of `verify_ready`, on all it has read. -/
def checkReady (args : VerifyArgs) (marker : Value F) (recordedAttempt : String)
    (planBytes header source : List UInt8) : Except Error Unit := do
  require (marker.hasFields readyFields) "interrupt ready marker fields differ"
  checkAttempt args recordedAttempt (← marker.item "attempt")
  let expected : List (String × Value F) := args.expected.map fun field => (field.1, .str field.2)
  checkIdentity marker (expected ++ [("emitter", .str EMITTER), ("protocol", .int SCHEMA)])
    "interrupt ready marker identity differs"
  let plan : Value F ← parseCanonical sha256 planBytes
  checkIdentity plan expected "interrupt plan identity differs"
  checkIdentity marker [
      ("plan_fingerprint", ← plan.item "fingerprint"),
      ("plan_sha256", .str (sha256 planBytes)),
      ("output_identity", .str (outputIdentity sha256 header source))]
    "interrupt generated outputs differ from ready marker"

variable (F) in
/-- `verify_ready`. -/
def verifyReady (args : VerifyArgs) : Script (Value F) := do
  let markerFile ← load .marker
  let marker : Value F ← ofExcept (complete (readMarker markerFile))
  let attemptFile ← load .attempt
  let recordedAttempt ← ofExcept (complete (strip <$> readText attemptFile))
  let planFile ← load (.plan args.backend)
  let planBytes ← ofExcept (complete (readBytes planFile))
  let headerFile ← load (.header args.backend)
  let header ← ofExcept (complete (readBytes headerFile))
  let sourceFile ← load (.source args.backend)
  let source ← ofExcept (complete (readBytes sourceFile))
  ofExcept (checkReady sha256 args marker recordedAttempt planBytes header source)
  return marker

/-! ### Commands -/

inductive Command where
  | plan (args : PlanArgs)
  | emit (args : EmitArgs)
  | verify (args : VerifyArgs)

variable (F) in
/-- A command, which answers the marker if it answers anything. -/
def Command.run : Command → Script (Option (Value F))
  | .plan args => (fun _ => none) <$> planCommand F sha256 args
  | .emit args => (fun _ => none) <$> emitCommand F sha256 args
  | .verify args => some <$> verifyReady F sha256 args

end Commands

end Grevir.Irqgen
