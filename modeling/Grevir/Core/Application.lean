import Grevir.Core.LifecycleOrder
import Grevir.Core.ResourceChecks

/-!
# Core — Application

An application is a list of root modules.  Its setup and its loop are two phases each: the parameter
callbacks of every module of the closure, then the module callbacks, both in the runner's order.

* `Phase`: one phase calls each module once, after all it depends on.
* `application_respects_dependencies`: the phases of setup and loop, and when there are none.
-/

namespace Grevir.Core

variable {M Name Use : Type} [Fintype M] [DecidableEq M]

namespace Application

section

variable (removeAll : RemoveAll M) (modules : M → Module M Name Use) (roots : List M)

/-- `Module::Deps`. -/
def deps (m : M) : List M := (modules m).deps

def allModules : List M := moduleClosure removeAll (deps modules) roots

/-- The list of `ModuleRunner`. -/
def moduleRunner : Except Diagnostic (List M) :=
  lifecycleOrder (deps modules) (allModules removeAll modules roots)

def runSetup : Except Diagnostic (List (Callback M)) :=
  match moduleRunner removeAll modules roots with
  | .ok order => .ok (Runner.runParamsSetup order ++ Runner.runSetup order)
  | .error e => .error e

def runLoop : Except Diagnostic (List (Callback M)) :=
  match moduleRunner removeAll modules roots with
  | .ok order => .ok (Runner.runParamsLoop order ++ Runner.runLoop order)
  | .error e => .error e

/-- `has_conflict`. -/
def hasConflict [DecidableEq Name] [DecidableEq Use] (canonicalGpio : Nat → Nat) : Bool :=
  applicationHasConflict canonicalGpio ((allModules removeAll modules roots).map modules)

end

/-! ### One phase -/

/-- The calls of one phase over the modules `all`. -/
structure Phase (deps : M → List M) (all : List M) (call : M → Callback M)
    (calls : List (Callback M)) : Prop where
  once : calls.Nodup ∧ calls.Perm (all.map call)
  dependencies_first : ∀ m ∈ all, ∀ d, Relation.TransGen (Digraph.Edge deps) m d →
    [call d, call m].Sublist calls
  reversed : ∀ m m', [m, m'].Sublist all → (∀ c ∈ all, m ∉ deps c) → (∀ c ∈ all, m' ∉ deps c) →
    [call m', call m].Sublist calls

omit [Fintype M] [DecidableEq M] in
theorem sublist_run (call : M → Callback M) {order : List M} {a b : M}
    (h : [a, b].Sublist order) : [call b, call a].Sublist (Runner.run call order) := by
  rw [Runner.run_eq]
  simpa using (h.map call).reverse

variable {removeAll : RemoveAll M} {modules : M → Module M Name Use} {roots : List M}

/-- The closure reaches what the roots reach. -/
theorem reaches_allModules {x : M} :
    Digraph.Reaches (deps modules) (allModules removeAll modules roots) x ↔
      Digraph.Reaches (deps modules) roots x := by
  constructor
  · rintro ⟨m, hm, hx⟩
    obtain ⟨r, hr, hrm⟩ := (mem_moduleClosure removeAll).mp hm
    exact ⟨r, hr, hrm.trans hx⟩
  · intro hx
    exact .of_mem ((mem_moduleClosure removeAll).mpr hx)

/-- The runner's list is not to be had where the roots reach a cycle, and only there. -/
theorem moduleRunner_error_iff : moduleRunner removeAll modules roots = .error .dependencyCycle ↔
    Digraph.Cyclic (deps modules) roots := by
  rw [moduleRunner, lifecycleOrder_error_iff]
  exact ⟨fun h => h.mono fun x hx => reaches_allModules.mp hx,
    fun h => h.mono fun x hx => reaches_allModules.mpr hx⟩

/-- The runner's list is the closure in another order. -/
theorem moduleRunner_perm {order : List M} (h : moduleRunner removeAll modules roots = .ok order) :
    order.Nodup ∧ order.Perm (allModules removeAll modules roots) := by
  obtain ⟨ho, hmem⟩ := lifecycleOrder_ok h
  refine ⟨ho.nodup, (List.perm_ext_iff_of_nodup ho.nodup (nodup_moduleClosure removeAll roots)).mpr
    fun x => ?_⟩
  rw [hmem, reaches_allModules]
  exact (mem_moduleClosure removeAll).symm

/-- **A runner's function is one phase.** -/
theorem phase_run {order : List M} (h : moduleRunner removeAll modules roots = .ok order)
    {call : M → Callback M} (hcall : Function.Injective call) :
    Phase (deps modules) (allModules removeAll modules roots) call (Runner.run call order) := by
  obtain ⟨ho, -⟩ := lifecycleOrder_ok h
  obtain ⟨hnd, hperm⟩ := moduleRunner_perm h
  have hrun : (Runner.run call order).Perm (order.map call) := by
    rw [Runner.run_eq]
    exact List.reverse_perm _
  refine ⟨⟨hrun.nodup_iff.mpr (hnd.map hcall), hrun.trans (hperm.map call)⟩,
    fun m hm d hmd => ?_, fun m m' hsub hm hm' => ?_⟩
  · exact sublist_run call (ho.sublist_of_transGen (hperm.mem_iff.mpr hm) hmd)
  · refine sublist_run call (lifecycleOrder_sublist h (nodup_moduleClosure removeAll roots) hsub ?_)
    intro c hc
    exact hm c ((mem_moduleClosure removeAll).mpr (reaches_allModules.mp hc))

/-- **Setup and loop respect every dependency.** -/
theorem application_respects_dependencies (removeAll : RemoveAll M)
    (modules : M → Module M Name Use) (roots : List M) :
    let all := allModules removeAll modules roots
    -- the closure
    (all.Nodup ∧ ∀ m, m ∈ all ↔ Digraph.Reaches (deps modules) roots m) ∧
    -- the diagnostic, for every reachable cycle and for nothing else
    (lifecycleOrder (deps modules) all = .error .dependencyCycle ↔
      Digraph.Cyclic (deps modules) roots) ∧
    -- without a cycle
    (¬ Digraph.Cyclic (deps modules) roots →
      (∃ order, lifecycleOrder (deps modules) all = .ok order ∧ order.Nodup ∧ order.Perm all ∧
        ∀ m ∈ all, ∀ d, Relation.TransGen (Digraph.Edge (deps modules)) m d →
          [m, d].Sublist order) ∧
      (∃ params calls, runSetup removeAll modules roots = .ok (params ++ calls) ∧
        Phase (deps modules) all .paramsSetup params ∧ Phase (deps modules) all .runSetup calls) ∧
      ∃ params calls, runLoop removeAll modules roots = .ok (params ++ calls) ∧
        Phase (deps modules) all .paramsLoop params ∧ Phase (deps modules) all .runLoop calls) := by
  intro all
  have hcyc : lifecycleOrder (deps modules) all = .error .dependencyCycle ↔
      Digraph.Cyclic (deps modules) roots := moduleRunner_error_iff
  refine ⟨⟨nodup_moduleClosure removeAll roots, fun m => mem_moduleClosure removeAll⟩, hcyc,
    fun hn => ?_⟩
  cases h : moduleRunner removeAll modules roots with
  | error e =>
      cases e
      exact absurd (hcyc.mp h) hn
  | ok order =>
      obtain ⟨ho, -⟩ := lifecycleOrder_ok h
      obtain ⟨hnd, hperm⟩ := moduleRunner_perm h
      refine ⟨⟨order, h, hnd, hperm, fun m hm d hmd => ?_⟩,
        ⟨Runner.runParamsSetup order, Runner.runSetup order, by rw [runSetup, h],
          phase_run h fun _ _ e => ?_, phase_run h fun _ _ e => ?_⟩,
        ⟨Runner.runParamsLoop order, Runner.runLoop order, by rw [runLoop, h],
          phase_run h fun _ _ e => ?_, phase_run h fun _ _ e => ?_⟩⟩
      · exact ho.sublist_of_transGen (hperm.mem_iff.mpr hm) hmd
      · exact Callback.paramsSetup.inj e
      · exact Callback.runSetup.inj e
      · exact Callback.paramsLoop.inj e
      · exact Callback.runLoop.inj e

end Application

end Grevir.Core
