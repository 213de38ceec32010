import Grevir.Irqgen.Stages
import Grevir.Irqgen.Coherence

/-!
# Irqgen — Attempts

Commands on one output directory, one after another, each stopped where it may be.  `_plan` records its
attempt before it reads the object, so an attempt is recorded whose plan was never written; an earlier
plan of the backend is then still there, and `_emit` takes it.

* `vouched_run`: what is in the directory once some plan command has completed.
* `attempt_vouches`: what is accepted for an attempt is the plan of its own object, where the plan command
  of that attempt and backend completed and no later attempt reads like it.
* `stale_plan_accepted`: without any one of these, another plan is accepted for the attempt.
-/

namespace Grevir.Irqgen

open Interrupt Json Programs Utf8

section Sessions

variable (F : Type) [PyFloat F] [FloatText F] (sha256 : List UInt8 → String)

/-- Commands one after another, each stopped after some number of actions.  It is recorded whether the
command completed. -/
def sessions : Runs.Machine Files (Command × Nat) (Command × Bool) where
  step s a :=
    let r := (Command.run F sha256 a.1).exec a.2 s
    (r.1, some (a.1, r.2.isDone))

end Sessions

/-- What an attempt file reads. -/
def attemptText (attempt : String) : List Char := universalNewlines (attempt ++ "\n").toList

/-- No two plan commands have the same attempt. -/
def Distinct (history : List (Command × Bool)) : Prop :=
  history.Pairwise fun x y => ∀ q q', x.1 = .plan q → y.1 = .plan q' → q.attempt ≠ q'.attempt

/-- The plan command of an attempt and a backend completed. -/
def Planned (history : List (Command × Bool)) (attempt backend : String) : Prop :=
  ∃ q : PlanArgs, (.plan q, true) ∈ history ∧ q.attempt = attempt ∧ q.backend = backend

/-- No plan command after that of an attempt has an attempt that reads like it. -/
def ReadsApart (history : List (Command × Bool)) (attempt : String) : Prop :=
  ∀ before (q : PlanArgs) completed since, history = before ++ (.plan q, completed) :: since →
    q.attempt = attempt → ∀ (q' : PlanArgs) completed', (.plan q', completed') ∈ since →
      attemptText q'.attempt ≠ attemptText attempt

/-- A plan command after which none completed. -/
def Latest (history : List (Command × Bool)) (q : PlanArgs) (completed : Bool) : Prop :=
  ∃ before since, history = before ++ (.plan q, completed) :: since ∧ ∀ q', (.plan q', true) ∉ since

theorem Distinct.unique {history : List (Command × Bool)} (h : Distinct history) {q q' : PlanArgs}
    {a b : Bool} (ha : (.plan q, a) ∈ history) (hb : (.plan q', b) ∈ history)
    (hsame : q.attempt = q'.attempt) : q = q' ∧ a = b := by
  by_contra hne
  have hsymm : Std.Symm fun x y : Command × Bool =>
      ∀ q q', x.1 = .plan q → y.1 = .plan q' → q.attempt ≠ q'.attempt :=
    ⟨fun x y hxy q q' hq hq' hsame => hxy q' q hq' hq hsame.symm⟩
  refine List.Pairwise.forall h ha hb (fun heq => hne ?_) q q' rfl rfl hsame
  cases heq
  exact ⟨rfl, rfl⟩

theorem latest_own (history : List (Command × Bool)) (q : PlanArgs) (completed : Bool) :
    Latest (history ++ [(.plan q, completed)]) q completed :=
  ⟨history, [], rfl, fun _ => List.not_mem_nil⟩

theorem Latest.snoc {history : List (Command × Bool)} {q : PlanArgs} {completed : Bool}
    (h : Latest history q completed) {x : Command × Bool} (hx : ∀ q', x ≠ (.plan q', true)) :
    Latest (history ++ [x]) q completed := by
  obtain ⟨before, since, rfl, hsince⟩ := h
  refine ⟨before, since ++ [x], by simp, fun q' hmem => ?_⟩
  rcases List.mem_append.mp hmem with hmem | hmem
  · exact hsince q' hmem
  · exact hx q' (List.mem_singleton.mp hmem).symm

/-- **The plan command of an attempt that completed is the latest**, if the latest reads like it. -/
theorem Latest.eq_of_reads {history : List (Command × Bool)} {q q' : PlanArgs} {completed : Bool}
    (h : Latest history q' completed) (hmem : (.plan q, true) ∈ history)
    (hapart : ReadsApart history q.attempt) (hreads : attemptText q'.attempt = attemptText q.attempt) :
    q' = q ∧ completed = true := by
  obtain ⟨before, since, rfl, hsince⟩ := h
  rcases List.mem_append.mp hmem with hbefore | hmem
  · obtain ⟨first, between, rfl⟩ := List.append_of_mem hbefore
    have hlater := hapart first q true (between ++ (.plan q', completed) :: since) (by simp) rfl
    exact absurd hreads (hlater q' completed (by simp))
  · rcases List.mem_cons.mp hmem with heq | hmem
    · cases heq
      exact ⟨rfl, rfl⟩
    · exact absurd hmem (hsince q)

section Vouched

variable (F : Type) [PyFloat F] [FloatText F] (sha256 : List UInt8 → String)

/-- **What holds between commands once a plan command has completed**: the attempt recorded is that of a
plan command after which none completed, its plan is there if it completed itself, and a marker is that of
outputs emitted from what is there. -/
structure Vouched (s : Files) (history : List (Command × Bool)) : Prop where
  recorded : ∃ q completed, Latest history q completed ∧
    s .attempt = some (bytes (q.attempt ++ "\n")) ∧
    (completed = true → ∃ data, planText F sha256 q.object = .ok data ∧ s (.plan q.backend) = some data)
  emitted : ∀ data, s .marker = some data → ∃ (args : EmitArgs) (o : OutputSet),
    o.Emitted F sha256 args ∧ o.marker = data ∧ s .attempt = some o.attempt ∧
      s (.plan args.backend) = some o.plan

variable {F sha256} {s s' : Files} {history : List (Command × Bool)}

/-- A command that leaves the attempt and the plans, and writes no marker. -/
theorem Vouched.keep (h : Vouched F sha256 s history) (hattempt : s' .attempt = s .attempt)
    (hplan : ∀ b, s' (.plan b) = s (.plan b)) (hmarker : s' .marker = s .marker ∨ s' .marker = none)
    {x : Command × Bool} (hx : ∀ q, x ≠ (.plan q, true)) : Vouched F sha256 s' (history ++ [x]) := by
  obtain ⟨⟨q, completed, hlatest, hrecorded, hdone⟩, hemitted⟩ := h
  refine ⟨⟨q, completed, hlatest.snoc hx, hattempt.trans hrecorded, fun hc => ?_⟩,
    fun data hdata => ?_⟩
  · obtain ⟨data, hdata, hfile⟩ := hdone hc
    exact ⟨data, hdata, (hplan _).trans hfile⟩
  · rcases hmarker with hmarker | hmarker
    · obtain ⟨args, o, ho, hsame, hattempt', hfile⟩ := hemitted data (hmarker ▸ hdata)
      exact ⟨args, o, ho, hsame, hattempt.trans hattempt', (hplan _).trans hfile⟩
    · rw [hmarker] at hdata
      cases hdata

theorem sessions_step {α : Type} {c : Command} {p : Script α} {f : α → Option (Value F)}
    (h : Command.run F sha256 c = f <$> p) (n : Nat) (s : Files) :
    (sessions F sha256).step s (c, n) = ((p.exec n s).1, some (c, (p.exec n s).2.isDone)) := by
  show (((Command.run F sha256 c).exec n s).1,
    some (c, ((Command.run F sha256 c).exec n s).2.isDone)) = _
  rw [h, exec_map, isDone_map]

/-- A plan command has completed. -/
def SomePlanned (history : List (Command × Bool)) : Prop := ∃ q, (.plan q, true) ∈ history

theorem somePlanned_snoc {x : Command × Bool} (hx : ∀ q, x ≠ (.plan q, true))
    (h : SomePlanned (history ++ [x])) : SomePlanned history := by
  obtain ⟨q, hmem⟩ := h
  rcases List.mem_append.mp hmem with hmem | hmem
  · exact ⟨q, hmem⟩
  · exact absurd (List.mem_singleton.mp hmem).symm (hx q)

/-- **One command more.** -/
theorem Vouched.step (h : SomePlanned history → Vouched F sha256 s history) (a : Command × Nat)
    (hplanned : SomePlanned (history ++ ((sessions F sha256).step s a).2.toList)) :
    Vouched F sha256 ((sessions F sha256).step s a).1
      (history ++ ((sessions F sha256).step s a).2.toList) := by
  obtain ⟨c, n⟩ := a
  cases c with
  | plan args =>
      rw [sessions_step rfl] at hplanned ⊢
      rcases @exec_plan F _ _ sha256 args n s _ _ rfl with ⟨p, hp, -, hq, hs⟩ | ⟨hq, hs⟩
      · rw [hq, hs]
        refine ⟨⟨args, true, latest_own _ _ _, ?_, fun _ => ⟨_, hp.text, ?_⟩⟩, ?_⟩
        · simp [PlanArgs.planned, PlanArgs.recorded]
        · simp [PlanArgs.planned]
        · simp [PlanArgs.planned, PlanArgs.recorded]
      · rw [hq] at hplanned ⊢
        have hvouched := h (somePlanned_snoc (by simp) hplanned)
        rcases hs with hs | hs | hs
        · rw [hs]
          exact hvouched.keep rfl (fun _ => rfl) (.inl rfl) (by simp)
        · rw [hs]
          exact hvouched.keep (by simp) (by simp) (.inr (by simp)) (by simp)
        · -- the attempt is recorded and its plan is not
          rw [hs]
          refine ⟨⟨args, false, latest_own _ _ _, by simp [PlanArgs.recorded],
            fun h => absurd h Bool.false_ne_true⟩, ?_⟩
          simp [PlanArgs.recorded]
  | emit args =>
      rw [sessions_step rfl] at hplanned ⊢
      have hvouched := h (somePlanned_snoc (by simp) hplanned)
      rcases @exec_emit F _ _ sha256 args n s _ _ rfl with
        ⟨o, hemitted, hattempt, hplan, -, hq, hs⟩ | ⟨hq, hs | ⟨hmarker, hattempt, hplan⟩⟩
      · have hin := OutputSet.in_written hattempt hplan
        obtain ⟨q, completed, hlatest, hrecorded, hdone⟩ := hvouched.recorded
        rw [hq, hs]
        refine ⟨⟨q, completed, hlatest.snoc (by simp), ?_, fun hc => ?_⟩, fun data hdata => ?_⟩
        · simpa [OutputSet.written] using hrecorded
        · simpa [OutputSet.written] using hdone hc
        · rw [hin.marker, Option.some.injEq] at hdata
          exact ⟨args, o, hemitted, hdata, hin.attempt, hin.plan⟩
      · rw [hq, hs]
        exact hvouched.keep rfl (fun _ => rfl) (.inl rfl) (by simp)
      · rw [hq]
        exact hvouched.keep hattempt hplan (.inr hmarker) (by simp)
  | verify args =>
      rw [sessions_step rfl] at hplanned ⊢
      have hvouched := h (somePlanned_snoc (by simp) hplanned)
      rw [(@exec_verify F _ _ sha256 args n s _ _ rfl).1]
      exact hvouched.keep rfl (fun _ => rfl) (.inl rfl) (by simp)

/-- **What is in the directory once a plan command has completed**, whatever was in it at first. -/
theorem vouched_run (files : Files) (commands : List (Command × Nat)) :
    SomePlanned ((sessions F sha256).run files commands).2 →
      Vouched F sha256 ((sessions F sha256).run files commands).1
        ((sessions F sha256).run files commands).2 := by
  refine (sessions F sha256).run_induct (P := fun s history => SomePlanned history →
    Vouched F sha256 s history) ?_ (fun s history a ih => Vouched.step ih a) commands
  rintro ⟨q, hmem⟩
  cases hmem

/-- **What is accepted for an attempt is the plan of its own object**, in any sequence of commands in which
the plan command of that attempt and backend completed and no later attempt reads like it. -/
theorem attempt_vouches {files : Files} (commands : List (Command × Nat))
    (hdistinct : Distinct ((sessions F sha256).run files commands).2) {args : VerifyArgs} {attempt : String}
    (hattempt : args.attempt = some attempt)
    (hplanned : Planned ((sessions F sha256).run files commands).2 attempt args.backend)
    (hapart : ReadsApart ((sessions F sha256).run files commands).2 attempt)
    {n : Nat} {s : Files} {marker : Value F}
    (haccepted : (verifyReady F sha256 args).exec n ((sessions F sha256).run files commands).1 =
      (s, .done marker)) :
    ∃ q : PlanArgs, (.plan q, true) ∈ ((sessions F sha256).run files commands).2 ∧
      q.attempt = attempt ∧
      (∀ q' completed, (.plan q', completed) ∈ ((sessions F sha256).run files commands).2 →
        q'.attempt = attempt → q' = q) ∧
      ∃ data, ((sessions F sha256).run files commands).1 (.plan args.backend) = some data ∧
        planText F sha256 q.object = .ok data := by
  obtain ⟨q, hq, rfl, hbackend⟩ := hplanned
  obtain ⟨⟨q', completed, hlatest, hwritten, hdone⟩, hemittedMarker⟩ := vouched_run files commands ⟨q, hq⟩
  obtain ⟨o, ⟨hread, text, htext, hready⟩, hin⟩ := (exec_verify args n _ haccepted).2 marker rfl
  obtain ⟨eargs, o', hemitted, ho, hrecorded, -⟩ := hemittedMarker _ hin.marker
  obtain ⟨hmarkerAttempt, -⟩ := hemitted.marker (ho ▸ hread)
  have hsame : eargs.attempt = q.attempt := by
    rw [hmarkerAttempt.unique hready.attempt.1]
    exact hready.attempt.2.2 q.attempt hattempt
  refine ⟨q, hq, rfl, fun q' completed hmem hq' => (hdistinct.unique hmem hq hq').1, ?_⟩
  -- the attempt that is recorded reads like the one that is accepted, hence is it
  have htext' := hemitted.attempt
  rw [← hrecorded, hwritten, readText_bytes] at htext'
  have hchars : attemptText q'.attempt = (q.attempt ++ "\n").toList := by
    rw [← hsame, ← Except.ok.inj htext', String.toList_ofList, attemptText]
  have hreads : attemptText q'.attempt = attemptText q.attempt := by
    rw [attemptText, attemptText, ← hchars, attemptText, universalNewlines_idem]
  obtain ⟨rfl, rfl⟩ := hlatest.eq_of_reads hq hapart hreads
  obtain ⟨data, hdata, hplanFile⟩ := hdone rfl
  exact ⟨data, hbackend ▸ hplanFile, hdata⟩

theorem sessions_cons {α : Type} {c : Command} {p : Script α} {f : α → Option (Value F)}
    (h : Command.run F sha256 c = f <$> p) {n : Nat} {q : Script α} (hexec : p.exec n s = (s', q))
    (commands : List (Command × Nat)) :
    (sessions F sha256).run s ((c, n) :: commands) =
      (((sessions F sha256).run s' commands).1,
        (c, q.isDone) :: ((sessions F sha256).run s' commands).2) := by
  rw [Runs.Machine.run_cons, sessions_step h, hexec]
  rfl

end Vouched

theorem timerName_fade : TimerName "fade" :=
  ⟨by decide, ⟨⟨by decide, by decide, by decide, by decide⟩, by decide, by decide, by decide,
    by decide⟩, by decide⟩

theorem attempt_vouches_timer :
    ∃ (q : PlanArgs) (s : Files) (marker : Value Empty),
      (verifyReady Empty hexDigest (timerVerifyArgs "first")).exec 5 s = (s, .done marker) ∧
      q.attempt = "first" ∧ ∃ data, s (.plan "avr") = some data ∧
        planText Empty hexDigest q.object = .ok data := by
  -- an earlier attempt that reads the same does no harm
  have hfade := exec_timerPlan hexDigest timerName_fade "first\r" fun _ => none
  have hblink := exec_timerPlan hexDigest timerName_blink "first"
    (timerPlanned hexDigest "fade" "first\r" fun _ => none)
  obtain ⟨s, marker, hemit, hverify, -⟩ := @exec_timerEmit hexDigest "first" _
    timerName_blink (List.forall_iff_forall_mem.mp (by decide)) (by decide) _ (readText_bytes _)
    (timerPlanned hexDigest "blink" "first" (timerPlanned hexDigest "fade" "first\r"
      fun _ => none)) rfl rfl
  let commands : List (Command × Nat) :=
    [(.plan (timerPlanArgs (coffObject (timerRecordNamed "fade")) "first\r"), 3),
      (.plan (timerPlanArgs (coffObject (timerRecordNamed "blink")) "first"), 3),
      (.emit (timerEmitArgs "first"), 7)]
  have hrun : (sessions Empty hexDigest).run (fun _ => none) commands =
      (s, [(.plan (timerPlanArgs (coffObject (timerRecordNamed "fade")) "first\r"), true),
        (.plan (timerPlanArgs (coffObject (timerRecordNamed "blink")) "first"), true),
        (.emit (timerEmitArgs "first"), true)]) := by
    rw [sessions_cons rfl hfade, sessions_cons rfl hblink, sessions_cons rfl hemit]
    rfl
  have hdistinct : Distinct ((sessions Empty hexDigest).run (fun _ => none) commands).2 := by
    rw [hrun]
    simp [Distinct, timerPlanArgs]
  have hplanned : Planned ((sessions Empty hexDigest).run (fun _ => none) commands).2 "first" "avr" := by
    rw [hrun]
    exact ⟨_, List.mem_cons_of_mem _ List.mem_cons_self, rfl, rfl⟩
  have hapart : ReadsApart ((sessions Empty hexDigest).run (fun _ => none) commands).2 "first" := by
    intro before q completed since hsplit hattempt q' completed' hmem
    rw [hrun] at hsplit
    -- the first of the plans has another attempt, and after the second there is none
    rcases List.cons_eq_append_iff.mp hsplit with ⟨-, heq⟩ | ⟨rest, -, heq⟩
    · cases heq
      exact absurd hattempt (by decide)
    · rcases List.cons_eq_append_iff.mp heq with ⟨-, heq⟩ | ⟨rest', -, heq⟩
      · cases heq
        simp at hmem
      · simp [List.cons_eq_append_iff] at heq
  obtain ⟨q, -, hattempt, -, data, hdata, htext⟩ := @attempt_vouches Empty _ _ hexDigest
    (fun _ => none) commands hdistinct (timerVerifyArgs "first") "first" rfl hplanned hapart 5 s marker
    (by rw [hrun]; exact hverify)
  rw [hrun] at hdata
  exact ⟨q, s, marker, hverify, hattempt, data, hdata, htext⟩

/-! ### Attempts that vouch for nothing -/

theorem planText_timer (sha256 : List UInt8 → String) {name : String} (h : TimerName name) :
    planText Empty sha256 (coffObject (timerRecordNamed name)) =
      .ok (jsonBytes (planValue sha256 jsonBytes (timerPlanNamed name) : Value Empty)) :=
  (plans_timer sha256 h "").text

/-- A plan's text tells the application's name. -/
theorem application_of_text (sha256 : List UInt8 → String) {p p' : PlanContent String} (h : Valid p)
    (h' : Valid p') (heq : jsonBytes (planValue sha256 jsonBytes p : Value Empty) =
      jsonBytes (planValue sha256 jsonBytes p' : Value Empty)) : p.application = p'.application := by
  have hparsed : sortKeys (planValue sha256 jsonBytes p : Value Empty) =
      sortKeys (planValue sha256 jsonBytes p') := by
    have hparse := @parseCanonical_planValue Empty _ _ sha256 _ h
    rw [heq, parseCanonical_planValue h'] at hparse
    exact (Except.ok.inj hparse).symm
  have hheader := (Represents.sortKeys_planValue (F := Empty) sha256 h).header
  have hheader' := (Represents.sortKeys_planValue (F := Empty) sha256 h').header
  simp only [headerFields, PlanContent.header, List.forall₂_cons] at hheader hheader'
  rw [hparsed] at hheader
  exact hheader.2.2.2.2.1.unique hheader'.2.2.2.2.1

/-- A plan like the timer's, of another name and another backend. -/
def mockPlan : PlanContent String := { timerPlanNamed "fade" with backend := "mock" }

theorem mockPlan_valid : Valid mockPlan :=
  { timerPlanNamed_valid timerName_fade.identifier with
    backend := by decide
    header := by decide }

/-- Its plan command. -/
def mockPlanArgs (attempt : String) : PlanArgs :=
  { timerPlanArgs (coffObject (recordBytes .bits32 (mockPlan.map bytes))) attempt with backend := "mock" }

theorem plans_mock (sha256 : List UInt8 → String) (attempt : String) :
    (mockPlanArgs attempt).Plans Empty sha256 mockPlan := by
  have hlength : (recordBytes .bits32 (mockPlan.map bytes)).length < 2 ^ 32 := by
    rw [length_recordBytes]
    decide
  have hcarried : Carried mockPlan :=
    ⟨⟨by decide, by decide, by decide, by decide⟩, by decide, by decide, by decide, by decide⟩
  refine ⟨⟨_, extract_coffObject (by simp [recordBytes, planBytes, contentBytes]) hlength, ?_⟩,
    mockPlan_valid, rfl, rfl, rfl, rfl⟩
  exact ((decode_answers sha256 _ .bits32 _).ok_iff _).mpr
    ⟨_, ⟨hlength, hcarried⟩, rfl, mockPlan_valid, rfl⟩

/-- **Something is accepted for the attempt that is not the plan of its object**, in a directory that is
empty at first and where every plan command has an attempt of its own. -/
def Misled (commands : List (Command × Nat)) (attempt : String) : Prop :=
  let run := (sessions Empty hexDigest).run (fun _ => none) commands
  Distinct run.2 ∧
  ∃ marker data, (verifyReady Empty hexDigest (timerVerifyArgs attempt)).exec 5 run.1 =
      (run.1, .done marker) ∧ run.1 (.plan "avr") = some data ∧
    ∀ q completed, (.plan q, completed) ∈ run.2 → q.attempt = attempt →
      planText Empty hexDigest q.object ≠ .ok data

/-- A plan command that is stopped once its attempt is recorded leaves an earlier plan. -/
theorem exec_emptyObject (attempt : String) (s : Files) :
    ∃ q, (planCommand Empty hexDigest (timerPlanArgs [] attempt)).exec 3 s =
      ((timerPlanArgs [] attempt).recorded s, q) := by
  unfold planCommand
  rw [exec_replace, exec_replace]
  exact ⟨_, rfl⟩

/-- The timer's plan is left there for another attempt, or for another backend. -/
theorem misled_stale {args : PlanArgs} {n : Nat} {s : Files} {q : Script Unit}
    (hexec : (planCommand Empty hexDigest args).exec n (timerPlanned hexDigest "blink" "first"
      fun _ => none) = (s, q)) (hrecorded : s .attempt = some (bytes ("second" ++ "\n")))
    (hkept : s (.plan "avr") = some (jsonBytes (planValue hexDigest jsonBytes (timerPlanNamed "blink") :
      Value Empty))) (hattempt : args.attempt = "second")
    (hother : planText Empty hexDigest args.object ≠ .ok (jsonBytes (planValue hexDigest jsonBytes
      (timerPlanNamed "blink") : Value Empty))) :
    Misled [(.plan (timerPlanArgs (coffObject (timerRecordNamed "blink")) "first"), 3), (.plan args, n),
      (.emit (timerEmitArgs "second"), 7)] "second" := by
  have hblink := exec_timerPlan hexDigest timerName_blink "first" fun _ => none
  obtain ⟨s', marker, hemit, hverify, hplan⟩ := exec_timerEmit hexDigest timerName_blink
    (List.forall_iff_forall_mem.mp (by decide)) (by decide) (readText_attempt (by decide)) hrecorded hkept
  rw [Misled, sessions_cons rfl hblink, sessions_cons rfl hexec, sessions_cons rfl hemit]
  refine ⟨by simp [Distinct, timerPlanArgs, hattempt], marker, _, hverify, hplan.trans hkept,
    fun q' completed hmem hsecond => ?_⟩
  simp only [Runs.Machine.run_nil, List.mem_cons, Prod.mk.injEq, Command.plan.injEq, reduceCtorEq,
    false_and, List.not_mem_nil, or_false] at hmem
  rcases hmem with ⟨rfl, -⟩ | ⟨rfl, -⟩
  · exact absurd hsecond (by decide)
  · exact hother

/-- A later plan that was recorded for an attempt that reads like the accepted one. -/
theorem misled_alike :
    Misled [(.plan (timerPlanArgs (coffObject (timerRecordNamed "blink")) "first"), 3),
      (.plan (timerPlanArgs (coffObject (timerRecordNamed "fade")) "first\r"), 3),
      (.emit (timerEmitArgs "first"), 7)] "first" := by
  have hblink := exec_timerPlan hexDigest timerName_blink "first" fun _ => none
  have hfade := exec_timerPlan hexDigest timerName_fade "first\r"
    (timerPlanned hexDigest "blink" "first" fun _ => none)
  obtain ⟨s, marker, hemit, hverify, hplan⟩ := @exec_timerEmit hexDigest "first" _
    timerName_fade (List.forall_iff_forall_mem.mp (by decide)) (by decide) _ (readText_bytes _)
    (timerPlanned hexDigest "fade" "first\r" (timerPlanned hexDigest "blink" "first"
      fun _ => none)) rfl rfl
  rw [Misled, sessions_cons rfl hblink, sessions_cons rfl hfade, sessions_cons rfl hemit]
  refine ⟨by simp [Distinct, timerPlanArgs], marker, _, hverify, hplan, fun q completed hmem hattempt => ?_⟩
  have hq : q = timerPlanArgs (coffObject (timerRecordNamed "blink")) "first" := by
    simp only [Runs.Machine.run_nil, List.mem_cons, Prod.mk.injEq, Command.plan.injEq,
      reduceCtorEq, false_and, List.not_mem_nil, or_false] at hmem
    rcases hmem with ⟨rfl, -⟩ | ⟨rfl, -⟩
    · rfl
    · exact absurd hattempt (by decide)
  rw [hq]
  show planText Empty hexDigest (coffObject (timerRecordNamed "blink")) ≠ _
  rw [planText_timer hexDigest timerName_blink]
  intro heq
  have hname := application_of_text hexDigest (timerPlanNamed_valid timerName_blink.identifier)
    (timerPlanNamed_valid timerName_fade.identifier) (Except.ok.inj heq)
  exact absurd hname (by decide)

/-- The plan command of the accepted attempt is stopped, or is for another backend, or it completes and a
later one has an attempt that reads the same. -/
theorem stale_plan_accepted :
    (∃ commands, Misled commands "second") ∧
      (∃ commands, Planned ((sessions Empty hexDigest).run (fun _ => none) commands).2 "second" "mock" ∧
        Misled commands "second") ∧
      ∃ commands, Planned ((sessions Empty hexDigest).run (fun _ => none) commands).2 "first" "avr" ∧
        Misled commands "first" := by
  have hblink := exec_timerPlan hexDigest timerName_blink "first" fun _ => none
  refine ⟨?_, ⟨_, ?_, misled_stale (exec_planCommand (plans_mock hexDigest "second") _) rfl rfl rfl ?_⟩,
    _, ?_, misled_alike⟩
  · obtain ⟨q, hempty⟩ :=
      exec_emptyObject "second" (timerPlanned hexDigest "blink" "first" fun _ => none)
    exact ⟨_, misled_stale hempty rfl rfl rfl nofun⟩
  · rw [sessions_cons rfl hblink, sessions_cons rfl (exec_planCommand (plans_mock hexDigest "second") _)]
    exact ⟨_, List.mem_cons_of_mem _ List.mem_cons_self, rfl, rfl⟩
  · rw [(plans_mock hexDigest "second").text]
    intro heq
    have hname := application_of_text hexDigest mockPlan_valid
      (timerPlanNamed_valid timerName_blink.identifier) (Except.ok.inj heq)
    exact absurd hname (by decide)
  · rw [sessions_cons rfl hblink]
    exact ⟨_, List.mem_cons_self, rfl, rfl⟩

end Grevir.Irqgen
