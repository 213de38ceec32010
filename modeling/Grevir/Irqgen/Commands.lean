import Grevir.Irqgen.Ready
import Grevir.Irqgen.Record

/-!
# Irqgen — Commands

What each command has done, wherever it stopped, and what it does when nothing stops it.

* `ran_planCommand`, `ran_emitCommand`: a command that stopped early has left the marker deleted.
* `ran_verifyReady`: what `verify_ready` has read when it answers.
* `exec_planCommand`, `exec_emitCommand`, `exec_verifyReady`: the three of them on valid content.
-/

namespace Grevir.Irqgen

open Interrupt Json Programs

/-- The contents of the files that are installed together. -/
structure OutputSet where
  marker : List UInt8
  attempt : List UInt8
  plan : List UInt8
  header : List UInt8
  source : List UInt8

/-- What `verify_ready` reads, in order. -/
def OutputSet.reads (o : OutputSet) (backend : String) : List (Event File (List UInt8)) :=
  [.read .marker (some o.marker), .read .attempt (some o.attempt), .read (.plan backend) (some o.plan),
    .read (.header backend) (some o.header), .read (.source backend) (some o.source)]

/-- What `_emit` reads and writes, in order. -/
def OutputSet.emission (o : OutputSet) (backend : String) (present : Option (List UInt8)) :
    List (Event File (List UInt8)) :=
  [.write .marker none, .read .attempt present, .read .attempt (some o.attempt),
    .read (.plan backend) (some o.plan), .write (.header backend) (some o.header),
    .write (.source backend) (some o.source), .write .marker (some o.marker)]

/-- Nothing but headers and sources is written. -/
def Quiet (log : List (Event File (List UInt8))) : Prop :=
  ∀ key value, .write key value ∈ log → (∃ b, key = .header b) ∨ ∃ b, key = .source b

section Commands

variable {F : Type} [PyFloat F] [FloatText F] (sha256 : List UInt8 → String)

theorem require_eq_ok {P : Prop} [Decidable P] {message : String} :
    (require P message : Except Error Unit) = .ok () ↔ P :=
  (require_answers message).ok_iff ()

omit [FloatText F] in
/-- A field that is to have some text, read and compared. -/
theorem expects_iff {v : Value F} {field t message : String} :
    (do require ((← v.item field).eq (.str t)) message : Except Error Unit) = .ok () ↔
      HasText v field t := by
  rw [except_bind_eq_ok, ← exists_eq_str]
  simp only [require_eq_ok]

/-! ### `_plan` -/

variable (F) in
/-- `canonical_bytes(decode(extract_interrupt_plan(object)))`. -/
def planText (object : List UInt8) : Except Error (List UInt8) := do
  let record ← extractInterruptPlan object
  let plan : Value F ← decode sha256 jsonBytes record
  canonicalBytes sha256 plan

variable {sha256} {log : List (Event File (List UInt8))}

variable (F sha256) in
/-- The object has a record of valid content for what is expected. -/
structure PlanArgs.Plans (args : PlanArgs) (p : PlanContent String) : Prop where
  decoded : ∃ record, extractInterruptPlan args.object = .ok record ∧
    decode sha256 jsonBytes record = .ok (planValue sha256 jsonBytes p : Value F)
  valid : Valid p
  backend : p.backend = args.backend
  target : p.target = args.target
  board : p.board = args.board
  compiler : p.compiler = args.compiler

theorem canonicalBytes_planValue {p : PlanContent String} (h : Valid p) :
    canonicalBytes sha256 (planValue sha256 (jsonBytes : Value F → _) p) =
      .ok (jsonBytes (planValue sha256 (jsonBytes : Value F → _) p)) :=
  ((canonicalBytes_answers sha256 _).ok_iff _).mpr ⟨⟨p, .planValue sha256 _ h, h⟩, rfl⟩

theorem PlanArgs.Plans.text {args : PlanArgs} {p : PlanContent String}
    (h : args.Plans F sha256 p) :
    planText F sha256 args.object = .ok (jsonBytes (planValue sha256 jsonBytes p : Value F)) := by
  obtain ⟨record, hrecord, hdecode⟩ := h.decoded
  exact except_bind_eq_ok.mpr ⟨_, hrecord, except_bind_eq_ok.mpr
    ⟨_, hdecode, canonicalBytes_planValue h.valid⟩⟩

/-- **What `_plan` has done**, wherever it stopped. -/
theorem ran_planCommand {args : PlanArgs} {q : Script Unit}
    (h : Ran (planCommand F sha256 args) log q) :
    (∃ p, args.Plans F sha256 p ∧
      log = [.write .marker none, .write .attempt (some (Utf8.bytes (args.attempt ++ "\n"))),
        .write (.plan args.backend) (some (jsonBytes (planValue sha256 jsonBytes p : Value F)))] ∧
      q = .done ()) ∨
    (log = [] ∨ log = [.write .marker none] ∨
      log = [.write .marker none, .write .attempt (some (Utf8.bytes (args.attempt ++ "\n")))]) ∧
        ∀ a, q ≠ .done a := by
  unfold planCommand at h
  rcases ran_replace.mp h with ⟨rfl, rfl⟩ | ⟨log₁, rfl, h₁⟩
  · exact .inr ⟨.inl rfl, nofun⟩
  rcases ran_replace.mp h₁ with ⟨rfl, rfl⟩ | ⟨log₂, rfl, h₂⟩
  · exact .inr ⟨.inr (.inl rfl), nofun⟩
  rcases ran_ofExcept.mp h₂ with ⟨_, -, rfl, rfl⟩ | ⟨record, hrecord, h₃⟩
  · exact .inr ⟨.inr (.inr rfl), nofun⟩
  rcases ran_ofExcept.mp h₃ with ⟨_, -, rfl, rfl⟩ | ⟨plan, hplan, h₄⟩
  · exact .inr ⟨.inr (.inr rfl), nofun⟩
  rcases ran_ofExcept.mp h₄ with ⟨_, -, rfl, rfl⟩ | ⟨_, hexpected, h₅⟩
  · exact .inr ⟨.inr (.inr rfl), nofun⟩
  rcases ran_ofExcept.mp h₅ with ⟨_, -, rfl, rfl⟩ | ⟨backend, hbackend, h₆⟩
  · exact .inr ⟨.inr (.inr rfl), nofun⟩
  rcases ran_ofExcept.mp h₆ with ⟨_, -, rfl, rfl⟩ | ⟨data, hdata, h₇⟩
  · exact .inr ⟨.inr (.inr rfl), nofun⟩
  rcases ran_replace_last.mp h₇ with ⟨rfl, rfl⟩ | ⟨rfl, rfl⟩
  · exact .inr ⟨.inr (.inr rfl), nofun⟩
  -- nothing stopped it
  obtain ⟨p, -, -, hvalid, rfl⟩ := ((decode_answers sha256 jsonBytes .bits32 record).ok_iff plan).mp hplan
  have hfield : ∀ field ∈ args.expected,
      HasText (planValue sha256 jsonBytes p : Value F) field.1 field.2 :=
    fun field hmem => expects_iff.mp (forM_eq_ok.mp hexpected field hmem)
  simp only [PlanArgs.expected, List.forall_mem_cons] at hfield
  obtain ⟨hb, ht, hbo, hc, -⟩ := hfield
  cases hb.unique (textItem_eq_ok.mp hbackend)
  rw [canonicalBytes_planValue hvalid] at hdata
  cases hdata
  have htext : ∀ {field t t'}, (planValue sha256 (jsonBytes : Value F → _) p).item field = .ok (.str t) →
      HasText (planValue sha256 (jsonBytes : Value F → _) p) field t' → t = t' :=
    fun h h' => HasText.unique h h'
  exact .inl ⟨p, ⟨⟨record, hrecord, hplan⟩, hvalid, htext rfl hb, htext rfl ht, htext rfl hbo,
    htext rfl hc⟩, rfl, rfl⟩

/-! ### `_emit` -/

variable (F sha256) in
/-- **These outputs were emitted for this plan, in this attempt.** -/
structure OutputSet.Emitted (args : EmitArgs) (o : OutputSet) : Prop where
  attempt : readText (some o.attempt) = .ok (args.attempt ++ "\n")
  outputs : ∃ (v : Value F) (p : PlanContent String) (plan : Plan),
    parseCanonical sha256 o.plan = .ok v ∧ Represents sha256 jsonBytes v p ∧ Valid p ∧
    p.backend = args.backend ∧ planOf v = .ok plan ∧
    emit plan args.applicationHeader = .ok (o.header, o.source) ∧
    o.marker = jsonBytes (readyValue args p (sha256 (jsonBytes (unsigned v))) (sha256 o.plan)
      (outputIdentity sha256 o.header o.source) : Value F)

theorem Quiet.nil : Quiet [] := nofun

theorem Quiet.read {key : File} {value : Option (List UInt8)} (h : Quiet log) :
    Quiet (.read key value :: log) := by
  intro key' value' hmem
  rcases List.mem_cons.mp hmem with heq | hmem
  · cases heq
  · exact h key' value' hmem

theorem Quiet.write {backend : String} {value : Option (List UInt8)} {key : File}
    (hkey : key = .header backend ∨ key = .source backend) (h : Quiet log) :
    Quiet (.write key value :: log) := by
  intro key' value' hmem
  rcases List.mem_cons.mp hmem with heq | hmem
  · cases heq
    exact hkey.imp (fun h => ⟨_, h⟩) fun h => ⟨_, h⟩
  · exact h key' value' hmem

theorem readBytes_eq_ok {file : Option (List UInt8)} {data : List UInt8} :
    readBytes file = .ok data ↔ file = some data := by
  cases file <;> simp [readBytes]

theorem readText_eq_ok {file : Option (List UInt8)} {text : String} (h : readText file = .ok text) :
    ∃ data, file = some data := by
  obtain ⟨data, hdata, -⟩ := except_bind_eq_ok.mp h
  exact ⟨data, readBytes_eq_ok.mp hdata⟩

/-- **What `_emit` has done**, wherever it stopped. -/
theorem ran_emitCommand {args : EmitArgs} {q : Script Unit}
    (h : Ran (emitCommand F sha256 args) log q) :
    (∃ (o : OutputSet) (present : Option (List UInt8)), o.Emitted F sha256 args ∧
      log = o.emission args.backend present ∧ q = .done ()) ∨
    (log = [] ∨ ∃ rest, Quiet rest ∧ log = .write .marker none :: rest) ∧ ∀ a, q ≠ .done a := by
  unfold emitCommand at h
  rcases ran_replace.mp h with ⟨rfl, rfl⟩ | ⟨log₁, rfl, h₁⟩
  · exact .inr ⟨.inl rfl, nofun⟩
  rcases ran_load.mp h₁ with ⟨rfl, rfl⟩ | ⟨present, log₂, rfl, h₂⟩
  · exact .inr ⟨.inr ⟨_, .nil, rfl⟩, nofun⟩
  rcases ran_ofExcept.mp h₂ with ⟨_, -, rfl, rfl⟩ | ⟨_, -, h₃⟩
  · exact .inr ⟨.inr ⟨_, Quiet.nil.read, rfl⟩, nofun⟩
  rcases ran_load.mp h₃ with ⟨rfl, rfl⟩ | ⟨attempt, log₄, rfl, h₄⟩
  · exact .inr ⟨.inr ⟨_, Quiet.nil.read, rfl⟩, nofun⟩
  rcases ran_ofExcept.mp h₄ with ⟨_, -, rfl, rfl⟩ | ⟨_, hattempt, h₅⟩
  · exact .inr ⟨.inr ⟨_, Quiet.nil.read.read, rfl⟩, nofun⟩
  rcases ran_load.mp h₅ with ⟨rfl, rfl⟩ | ⟨planFile, log₆, rfl, h₆⟩
  · exact .inr ⟨.inr ⟨_, Quiet.nil.read.read, rfl⟩, nofun⟩
  rcases ran_ofExcept.mp h₆ with ⟨_, -, rfl, rfl⟩ | ⟨planBytes, hplanBytes, h₇⟩
  · exact .inr ⟨.inr ⟨_, Quiet.nil.read.read.read, rfl⟩, nofun⟩
  rcases ran_ofExcept.mp h₇ with ⟨_, -, rfl, rfl⟩ | ⟨v, hv, h₈⟩
  · exact .inr ⟨.inr ⟨_, Quiet.nil.read.read.read, rfl⟩, nofun⟩
  rcases ran_ofExcept.mp h₈ with ⟨_, -, rfl, rfl⟩ | ⟨_, hidentity, h₉⟩
  · exact .inr ⟨.inr ⟨_, Quiet.nil.read.read.read, rfl⟩, nofun⟩
  rcases ran_ofExcept.mp h₉ with ⟨_, -, rfl, rfl⟩ | ⟨outputs, houtputs, h₁₀⟩
  · exact .inr ⟨.inr ⟨_, Quiet.nil.read.read.read, rfl⟩, nofun⟩
  rcases ran_replace.mp h₁₀ with ⟨rfl, rfl⟩ | ⟨log₁₁, rfl, h₁₁⟩
  · exact .inr ⟨.inr ⟨_, Quiet.nil.read.read.read, rfl⟩, nofun⟩
  have hheader : Quiet [.write (.header args.backend) (some outputs.1)] :=
    Quiet.nil.write (.inl (Eq.refl (File.header args.backend)))
  rcases ran_replace.mp h₁₁ with ⟨rfl, rfl⟩ | ⟨log₁₂, rfl, h₁₂⟩
  · exact .inr ⟨.inr ⟨_, hheader.read.read.read, rfl⟩, nofun⟩
  have hsource : Quiet [.write (.header args.backend) (some outputs.1),
      .write (.source args.backend) (some outputs.2)] :=
    .write (.inl (Eq.refl (File.header args.backend)))
      (Quiet.nil.write (.inr (Eq.refl (File.source args.backend))))
  rcases ran_ofExcept.mp h₁₂ with ⟨_, -, rfl, rfl⟩ | ⟨ready, hready, h₁₃⟩
  · exact .inr ⟨.inr ⟨_, hsource.read.read.read, rfl⟩, nofun⟩
  rcases ran_replace_last.mp h₁₃ with ⟨rfl, rfl⟩ | ⟨rfl, rfl⟩
  · exact .inr ⟨.inr ⟨_, hsource.read.read.read, rfl⟩, nofun⟩
  -- nothing stopped it
  obtain ⟨text, htext, heq⟩ := except_bind_eq_ok.mp hattempt
  obtain ⟨attemptBytes, rfl⟩ := readText_eq_ok htext
  obtain ⟨p, hrep, hvalid⟩ := (((parseCanonical_answers sha256 planBytes).ok_iff v).mp hv).2.1
  obtain ⟨w, hw, hrest⟩ := except_bind_eq_ok.mp hidentity
  obtain ⟨_, hbackend, -⟩ := except_bind_eq_ok.mp hrest
  have hexpected : HasText v "backend" args.backend :=
    exists_eq_str.mp ⟨w, hw, require_eq_ok.mp hbackend⟩
  have hheaderFields := hrep.header
  simp only [headerFields, PlanContent.header, List.forall₂_cons] at hheaderFields
  obtain ⟨plan, hplan, hemit⟩ := except_bind_eq_ok.mp houtputs
  rw [readyMarker_eq sha256 hrep] at hready
  cases hready
  let o : OutputSet :=
    ⟨jsonBytes (readyValue args p (sha256 (jsonBytes (unsigned v))) (sha256 planBytes)
      (outputIdentity sha256 outputs.1 outputs.2) : Value F), attemptBytes, planBytes, outputs.1, outputs.2⟩
  refine .inl ⟨o, present, ⟨?_, v, p, plan, hv, hrep, hvalid, hheaderFields.1.unique hexpected, hplan,
    hemit, rfl⟩, ?_, rfl⟩
  · rw [htext, require_eq_ok.mp heq]
  · rw [readBytes_eq_ok.mp hplanBytes]
    rfl

/-! ### `verify_ready` -/

variable (sha256) in
/-- `verify_ready` accepts these outputs and answers their marker. -/
structure OutputSet.Accepted (args : VerifyArgs) (marker : Value F) (o : OutputSet) : Prop where
  read : readMarker (some o.marker) = .ok marker
  ready : ∃ text, readText (some o.attempt) = .ok text ∧
    Ready sha256 args marker (strip text) o.plan o.header o.source

theorem complete_eq_ok {α : Type} {c : Except Error α} {a : α} : complete c = .ok a ↔ c = .ok a := by
  cases c <;> simp [complete]

/-- **What `verify_ready` has read when it answers.** -/
theorem ran_verifyReady {args : VerifyArgs} {marker : Value F} :
    Ran (verifyReady F sha256 args) log (.done marker) ↔
      ∃ o : OutputSet, log = o.reads args.backend ∧ o.Accepted sha256 args marker := by
  constructor
  · intro h
    unfold verifyReady at h
    rcases ran_load.mp h with ⟨-, hq⟩ | ⟨markerFile, log₁, rfl, h₁⟩
    · cases hq
    rcases ran_ofExcept.mp h₁ with ⟨_, -, -, hq⟩ | ⟨m, hm, h₂⟩
    · cases hq
    rcases ran_load.mp h₂ with ⟨-, hq⟩ | ⟨attemptFile, log₃, rfl, h₃⟩
    · cases hq
    rcases ran_ofExcept.mp h₃ with ⟨_, -, -, hq⟩ | ⟨recordedAttempt, hattempt, h₄⟩
    · cases hq
    rcases ran_load.mp h₄ with ⟨-, hq⟩ | ⟨planFile, log₅, rfl, h₅⟩
    · cases hq
    rcases ran_ofExcept.mp h₅ with ⟨_, -, -, hq⟩ | ⟨planBytes, hplan, h₆⟩
    · cases hq
    rcases ran_load.mp h₆ with ⟨-, hq⟩ | ⟨headerFile, log₇, rfl, h₇⟩
    · cases hq
    rcases ran_ofExcept.mp h₇ with ⟨_, -, -, hq⟩ | ⟨header, hheader, h₈⟩
    · cases hq
    rcases ran_load.mp h₈ with ⟨-, hq⟩ | ⟨sourceFile, log₉, rfl, h₉⟩
    · cases hq
    rcases ran_ofExcept.mp h₉ with ⟨_, -, -, hq⟩ | ⟨source, hsource, h₁₀⟩
    · cases hq
    rcases ran_ofExcept.mp h₁₀ with ⟨_, -, -, hq⟩ | ⟨_, hready, h₁₁⟩
    · cases hq
    obtain ⟨rfl, hq⟩ := ran_pure.mp h₁₁
    cases hq
    rw [complete_eq_ok] at hm hattempt hplan hheader hsource
    obtain ⟨markerText, hmarkerText, -⟩ := except_bind_eq_ok.mp hm
    obtain ⟨markerBytes, rfl⟩ := readText_eq_ok hmarkerText
    obtain ⟨text, htext, heq⟩ := except_bind_eq_ok.mp hattempt
    cases heq
    obtain ⟨attemptBytes, rfl⟩ := readText_eq_ok htext
    rw [readBytes_eq_ok] at hplan hheader hsource
    rw [hplan, hheader, hsource]
    exact ⟨⟨markerBytes, attemptBytes, planBytes, header, source⟩, rfl, hm, text, htext,
      ((checkReady_answers sha256 args marker (strip text) planBytes header source).ok_iff ()).mp hready⟩
  · rintro ⟨o, rfl, hread, text, htext, hready⟩
    have hstrip : complete (strip <$> readText (some o.attempt)) = .ok (strip text) := by
      rw [htext]
      rfl
    have hcheck := ((checkReady_answers sha256 args marker (strip text) o.plan o.header o.source).ok_iff
      ()).mpr hready
    exact ran_load.mpr <| .inr ⟨_, _, rfl, ran_ofExcept.mpr <| .inr ⟨marker, complete_eq_ok.mpr hread,
      ran_load.mpr <| .inr ⟨_, _, rfl, ran_ofExcept.mpr <| .inr ⟨_, hstrip,
      ran_load.mpr <| .inr ⟨_, _, rfl, ran_ofExcept.mpr <| .inr ⟨o.plan, rfl,
      ran_load.mpr <| .inr ⟨_, _, rfl, ran_ofExcept.mpr <| .inr ⟨o.header, rfl,
      ran_load.mpr <| .inr ⟨_, _, rfl, ran_ofExcept.mpr <| .inr ⟨o.source, rfl,
      ran_ofExcept.mpr <| .inr ⟨(), hcheck, ran_pure.mpr ⟨rfl, rfl⟩⟩⟩⟩⟩⟩⟩⟩⟩⟩⟩⟩

/-- `verify_ready` writes nothing. -/
theorem verifyReady_writes (args : VerifyArgs) :
    (verifyReady F sha256 args).Writes fun _ _ => False := by
  unfold verifyReady
  exact writes_load fun _ => writes_ofExcept fun _ _ => writes_load fun _ => writes_ofExcept fun _ _ =>
    writes_load fun _ => writes_ofExcept fun _ _ => writes_load fun _ => writes_ofExcept fun _ _ =>
    writes_load fun _ => writes_ofExcept fun _ _ => writes_ofExcept fun _ _ => writes_pure _

/-! ### With nothing in the way -/

/-- The directory after `_plan` has recorded its attempt. -/
def PlanArgs.recorded (args : PlanArgs) (s : Files) : Files :=
  Function.update (Function.update s .marker none) .attempt
    (some (Utf8.bytes (args.attempt ++ "\n")))

variable (F sha256) in
/-- The directory after `_plan` has written the plan of some content. -/
def PlanArgs.planned (args : PlanArgs) (p : PlanContent String) (s : Files) : Files :=
  Function.update (args.recorded s) (.plan args.backend)
    (some (jsonBytes (planValue sha256 jsonBytes p : Value F)))

theorem exec_planCommand {args : PlanArgs} {p : PlanContent String} (h : args.Plans F sha256 p)
    (s : Files) :
    (planCommand F sha256 args).exec 3 s = (args.planned F sha256 p s, .done ()) := by
  obtain ⟨record, hextract, hdecode⟩ := h.decoded
  have hexpected : (args.expected.forM fun field => do
      require ((← (planValue sha256 jsonBytes p : Value F).item field.1).eq (.str field.2))
        ("interrupt " ++ field.1 ++ " differs from build configuration")) = .ok () := by
    refine forM_eq_ok.mpr fun field hfield => expects_iff.mpr ?_
    revert field
    simp only [PlanArgs.expected, List.forall_mem_cons, ← h.backend, ← h.target, ← h.board,
      ← h.compiler]
    exact ⟨rfl, rfl, rfl, rfl, by simp⟩
  have hname : textItem (planValue sha256 (jsonBytes : Value F → _) p) "backend" =
      .ok args.backend := by
    rw [← h.backend]
    rfl
  unfold planCommand
  rw [exec_replace, exec_replace, hextract, ofExcept_ok, hdecode, ofExcept_ok, hexpected, ofExcept_ok,
    hname, ofExcept_ok, canonicalBytes_planValue h.valid, ofExcept_ok]
  rfl

variable (F sha256) in
/-- What `_emit` reads and makes of the plan of some content. -/
def OutputSet.of (args : EmitArgs) (p : PlanContent String) (attempt header source : List UInt8) :
    OutputSet :=
  let plan : Value F := planValue sha256 jsonBytes p
  { marker := jsonBytes (readyValue args p (sha256 (jsonBytes (unsigned (sortKeys plan))))
      (sha256 (jsonBytes plan)) (outputIdentity sha256 header source) : Value F)
    attempt := attempt
    plan := jsonBytes plan
    header := header
    source := source }

/-- The directory after `_emit` has written these outputs. -/
def OutputSet.written (o : OutputSet) (backend : String) (files : Files) : Files :=
  Function.update (Function.update (Function.update (Function.update files .marker none)
    (.header backend) (some o.header)) (.source backend) (some o.source)) .marker (some o.marker)

theorem parseCanonical_planValue {p : PlanContent String} (h : Valid p) :
    parseCanonical sha256 (jsonBytes (planValue sha256 jsonBytes p : Value F)) =
      .ok (sortKeys (planValue sha256 jsonBytes p : Value F)) :=
  parseCanonical_canonicalBytes sha256 h (canonicalBytes_planValue h)

theorem exec_emitCommand {args : EmitArgs} {attempt : List UInt8} {p : PlanContent String}
    {header source : List UInt8} {s : Files} (hpresent : s .attempt = some attempt)
    (hattempt : readText (some attempt) = .ok (args.attempt ++ "\n"))
    (hplan : s (.plan args.backend) = some (jsonBytes (planValue sha256 jsonBytes p : Value F)))
    (hvalid : Valid p) (hbackend : p.backend = args.backend) (hcompiler : p.compiler = args.compiler)
    (hemit : emit (readPlan sha256 (jsonBytes : Value F → _) p) args.applicationHeader =
      .ok (header, source)) :
    (emitCommand F sha256 args).exec 7 s =
      ((OutputSet.of F sha256 args p attempt header source).written args.backend s, .done ()) := by
  have hrep := Represents.sortKeys_planValue (F := F) sha256 hvalid
  have hheader := hrep.header
  simp only [headerFields, PlanContent.header, List.forall₂_cons] at hheader
  obtain ⟨hb, -, -, hc, -⟩ := hheader
  rw [hbackend] at hb
  rw [hcompiler] at hc
  have hcheck : (do
      require ((← readText (some attempt)) = args.attempt ++ "\n")
        "interrupt generation attempt mismatch" : Except Error Unit) = .ok () :=
    except_bind_eq_ok.mpr ⟨_, hattempt, require_eq_ok.mpr rfl⟩
  have hidentity : (do
      require ((← (sortKeys (planValue sha256 jsonBytes p : Value F)).item "backend").eq
        (.str args.backend)) "interrupt emitter backend differs from plan"
      require ((← (sortKeys (planValue sha256 jsonBytes p : Value F)).item "compiler").eq
        (.str args.compiler)) "interrupt emitter compiler differs from plan" : Except Error Unit) =
      .ok () :=
    except_bind_eq_ok.mpr ⟨_, hb, except_bind_eq_ok.mpr ⟨(), require_eq_ok.mpr (eq_str.mpr rfl),
      expects_iff.mpr hc⟩⟩
  have houtputs : (do
      emit (← planOf (sortKeys (planValue sha256 jsonBytes p : Value F))) args.applicationHeader :
        Except Error (List UInt8 × List UInt8)) = .ok (header, source) :=
    except_bind_eq_ok.mpr ⟨_, planOf_sortKeys sha256 hvalid, hemit⟩
  have hpresentCheck : require (some attempt).isSome "interrupt generation attempt mismatch" =
      Except.ok () := require_eq_ok.mpr rfl
  have hplanFile : Function.update s .marker none (.plan args.backend) =
      some (jsonBytes (planValue sha256 jsonBytes p : Value F)) := by
    rw [Function.update_of_ne (by simp), hplan]
  unfold emitCommand
  rw [exec_replace, exec_load, Function.update_of_ne (by decide), hpresent, hpresentCheck, ofExcept_ok,
    exec_load, Function.update_of_ne (by decide), hpresent, hcheck, ofExcept_ok, exec_load,
    hplanFile, readBytes, ofExcept_ok, parseCanonical_planValue hvalid,
    ofExcept_ok, hidentity, ofExcept_ok, houtputs, ofExcept_ok, exec_replace, exec_replace,
    readyMarker_eq sha256 hrep, ofExcept_ok]
  rfl

theorem exec_verifyReady {args : VerifyArgs} {marker : Value F} {o : OutputSet}
    (h : o.Accepted sha256 args marker) {s : Files} (hmarker : s .marker = some o.marker)
    (hattempt : s .attempt = some o.attempt) (hplan : s (.plan args.backend) = some o.plan)
    (hheader : s (.header args.backend) = some o.header)
    (hsource : s (.source args.backend) = some o.source) :
    (verifyReady F sha256 args).exec 5 s = (s, .done marker) := by
  obtain ⟨hread, text, htext, hready⟩ := h
  have hstrip : complete (strip <$> readText (some o.attempt)) = .ok (strip text) := by
    rw [htext]
    rfl
  have hcheck := ((checkReady_answers sha256 args marker (strip text) o.plan o.header o.source).ok_iff
    ()).mpr hready
  unfold verifyReady
  rw [exec_load, hmarker, complete_eq_ok.mpr hread, ofExcept_ok, exec_load, hattempt, hstrip,
    ofExcept_ok, exec_load, hplan, readBytes, complete, ofExcept_ok, exec_load, hheader, readBytes,
    complete, ofExcept_ok, exec_load, hsource, readBytes, complete, ofExcept_ok, hcheck, ofExcept_ok]
  rfl

variable (F sha256) in
/-- The marker of these outputs, as it is read back. -/
def OutputSet.markerOf (args : EmitArgs) (p : PlanContent String) (header source : List UInt8) :
    Value F :=
  sortKeys (readyValue args p
    (sha256 (jsonBytes (unsigned (sortKeys (planValue sha256 jsonBytes p : Value F)))))
    (sha256 (jsonBytes (planValue sha256 jsonBytes p : Value F))) (outputIdentity sha256 header source))

/-- **What is emitted for valid content is accepted**, by who expects it. -/
theorem accepted_of {args : EmitArgs} {p : PlanContent String} {attempt header source : List UInt8}
    {expects : VerifyArgs} (hvalid : Valid p)
    (hattempt : readText (some attempt) = .ok (args.attempt ++ "\n"))
    (hstrip : strip (args.attempt ++ "\n") = args.attempt) (hne : args.attempt ≠ "")
    (hrequested : ∀ a ∈ expects.attempt, args.attempt = a) (hemitted : args.backend = p.backend)
    (hbackend : p.backend = expects.backend) (htarget : p.target = expects.target)
    (hboard : p.board = expects.board) (hcompiler : p.compiler = expects.compiler) :
    (OutputSet.of F sha256 args p attempt header source).Accepted sha256 expects
      (OutputSet.markerOf F sha256 args p header source) := by
  have hplain : ∀ fingerprint digest identity, Plain (readyValue args p fingerprint digest identity :
      Value F) := plain_readyValue args p
  have htext : ∀ {field t}, HasText (readyValue args p
      (sha256 (jsonBytes (unsigned (sortKeys (planValue sha256 jsonBytes p : Value F)))))
      (sha256 (jsonBytes (planValue sha256 jsonBytes p : Value F)))
      (outputIdentity sha256 header source) : Value F) field t →
      HasText (OutputSet.markerOf F sha256 args p header source) field t :=
    fun h => h.sortKeys (hplain _ _ _)
  have hrep := Represents.sortKeys_planValue (F := F) sha256 hvalid
  have hheader := hrep.header
  simp only [headerFields, PlanContent.header, List.forall₂_cons] at hheader
  obtain ⟨hb, ht, hbo, hc, -⟩ := hheader
  rw [hbackend] at hb
  rw [htarget] at ht
  rw [hboard] at hbo
  rw [hcompiler] at hc
  refine ⟨readMarker_jsonBytes (hplain _ _ _), _, hattempt, ?_⟩
  rw [hstrip]
  refine ⟨?_, ⟨htext rfl, hne, hrequested⟩, ?_, htext rfl, ⟨_, item_sortKeys_eq_ok (hplain _ _ _) rfl,
    eq_int _⟩, ⟨_, parseCanonical_planValue hvalid, ?_, _, hrep.fingerprint, htext rfl⟩, htext rfl,
    htext rfl⟩
  · rw [OutputSet.markerOf, hasFields_sortKeys]
    rfl
  · simp only [VerifyArgs.expected, List.forall_mem_cons, ← hbackend, ← htarget, ← hboard, ← hcompiler]
    refine ⟨htext ?_, htext rfl, htext rfl, htext rfl, by simp⟩
    rw [← hemitted]
    rfl
  · simp only [VerifyArgs.expected, List.forall_mem_cons]
    exact ⟨hb, ht, hbo, hc, by simp⟩

end Commands

end Grevir.Irqgen
