import Grevir.Core.Application
import Mathlib.Data.Fintype.Sum

/-!
# Core — AllocatedApplication

An application of descriptors.  A `RequestedModule` names the requests of a module template, fixed
claims and further descriptors; the template is applied to a view of what a backend has allocated.  An
`ExistingModule` stands for a module as it is.  The descriptors' closure is taken first, the backend
allocates for all of it, each descriptor is bound, and the bound modules are the roots of an
`Application`, whose closure adds what the implementations depend on.

A requested descriptor's bound module is a type of its own, so bound modules are named by descriptors.
The bodies of the static functions are lists of calls; `paramsSetup` and `paramsLoop` are those of
`ModuleBase`.  The static assertions end the compilation and change no call.

* `reaches_bound`: what the bound descriptors of the closure reach, the bound roots reach.
* `allocated_setup_in_blocks`: the order of setup and loop.
-/

namespace Grevir.Core

variable {Q M R T V Name Use : Type}

/-- A descriptor: a `RequestedModule`, or the `ExistingModule` of a module. -/
inductive Descriptor (Q M : Type) where
  | requested (q : Q)
  | existing (m : M)
  deriving DecidableEq

/-- A module of the application: the `Bind` of a `RequestedModule`, or a module that was there. -/
inductive Bound (Q M : Type) where
  | bind (q : Q)
  | module (m : M)
  deriving DecidableEq

instance [Fintype Q] [Fintype M] : Fintype (Descriptor Q M) :=
  .ofEquiv (Q ⊕ M)
    { toFun := Sum.elim .requested .existing
      invFun
        | .requested q => .inl q
        | .existing m => .inr m
      left_inv := by rintro (q | m) <;> rfl
      right_inv := by rintro (q | m) <;> rfl }

instance [Fintype Q] [Fintype M] : Fintype (Bound Q M) :=
  .ofEquiv (Q ⊕ M)
    { toFun := Sum.elim .bind .module
      invFun
        | .bind q => .inl q
        | .module m => .inr m
      left_inv := by rintro (q | m) <;> rfl
      right_inv := by rintro (q | m) <;> rfl }

/-- `Bind`, of either descriptor. -/
def Descriptor.bind : Descriptor Q M → Bound Q M
  | .requested q => .bind q
  | .existing m => .module m

/-- `RequestedModule`: its template makes a module of a view. -/
structure RequestedModule (Q M R V Name Use : Type) where
  requests : List R
  module : V → Module (Bound Q M) Name Use
  claims : List (Resource Name Use)
  dependencies : List (Descriptor Q M)

/-- What a backend's `Allocate` gives: whether its plan is good, the view of some requests, and the
claims of an owner. -/
structure Allocation (R T V Name Use : Type) where
  ok : Bool
  view : List R → V
  ownerClaims : T → List (Resource Name Use)

/-- `Backend::Allocate`. -/
def Backend (R T V Name Use : Type) : Type :=
  List R → List (Resource Name Use) → Allocation R T V Name Use

/-- The modules and the requested modules of a program, and the owner each request names. -/
structure Program (Q M R T V Name Use : Type) where
  name : R → T
  modules : M → Module M Name Use
  requested : Q → RequestedModule Q M R V Name Use

/-! ### Joined lists -/

/-- `Join`. -/
def join {α : Type} : List (List α) → List α
  | [] => []
  | first :: rest => first ++ join rest

theorem join_eq_flatten {α : Type} (ls : List (List α)) : join ls = ls.flatten := by
  induction ls with
  | nil => rfl
  | cons l ls ih => rw [join, ih, List.flatten_cons]

def parameterClaims (params : List (Parameter M Name Use)) : List (Resource Name Use) :=
  join (params.map Parameter.claims)

def moduleClaims (ms : List (Module M Name Use)) : List (Resource Name Use) :=
  join (ms.map fun m => parameterClaims m.params)

/-- The claims of modules are the resources they claim. -/
theorem moduleClaims_eq (ms : List (Module M Name Use)) : moduleClaims ms = resources ms := by
  have hparams : ∀ ps : List (Parameter M Name Use),
      parameterClaims ps = ps.flatMap Parameter.claims := fun ps => by
    rw [parameterClaims, join_eq_flatten, List.flatMap]
  rw [moduleClaims, join_eq_flatten, resources, List.flatMap]
  simp only [hparams]
  rfl

/-! ### Bound modules -/

def Parameter.map {N : Type} (f : M → N) (p : Parameter M Name Use) : Parameter N Name Use :=
  ⟨p.deps.map (List.map f), p.claims⟩

/-- A module, among more modules. -/
def Module.map {N : Type} (f : M → N) (m : Module M Name Use) : Module N Name Use :=
  ⟨m.implicitDeps.map f, m.params.map (Parameter.map f)⟩

theorem Module.deps_map {N : Type} (f : M → N) (m : Module M Name Use) :
    (m.map f).deps = m.deps.map f := by
  have hparams : ∀ ps : List (Parameter M Name Use),
      depsFromParams (ps.map (Parameter.map f)) = (depsFromParams ps).map f := by
    intro ps
    induction ps with
    | nil => rfl
    | cons x ps ih =>
        obtain ⟨deps, claims⟩ := x
        rw [List.map_cons, depsFromParams, ih, depsFromParams, List.map_append]
        cases deps <;> rfl
  rw [Module.deps, Module.map, hparams, Module.deps, List.map_append]

/-- A parameter whose dependencies are listed elsewhere. -/
def Parameter.undeclared (p : Parameter M Name Use) : Parameter M Name Use := ⟨none, p.claims⟩

/-- `ClaimParameter`. -/
def claimParameter (claims : List (Resource Name Use)) : Parameter M Name Use := ⟨none, claims⟩

namespace Program

variable (p : Program Q M R T V Name Use)

/-- `SelectedTimerParameter`, without its setup: the claims of the owner that the first request names,
where there is one. -/
def selectedTimerParameter (a : Allocation R T V Name Use) :
    List R → Parameter (Bound Q M) Name Use
  | [] => ⟨none, []⟩
  | first :: _ => ⟨none, a.ownerClaims (p.name first)⟩

/-- `Impl`: the template applied to the view of the requests. -/
def impl (a : Allocation R T V Name Use) (q : Q) : Module (Bound Q M) Name Use :=
  (p.requested q).module (a.view (p.requested q).requests)

/-- The bound modules.  `Bind::Deps` are the implementation's `Deps`, which have those of its
parameters in them already, and the bound descriptors it depends on. -/
def bound (a : Allocation R T V Name Use) : Bound Q M → Module (Bound Q M) Name Use
  | .module m => (p.modules m).map .module
  | .bind q =>
      { implicitDeps := (p.impl a q).deps ++ (p.requested q).dependencies.map Descriptor.bind
        params := (p.impl a q).params.map Parameter.undeclared ++
          [claimParameter (p.requested q).claims,
            p.selectedTimerParameter a (p.requested q).requests] }

/-- `Descriptor::Deps`. -/
def dependencies : Descriptor Q M → List (Descriptor Q M)
  | .requested q => (p.requested q).dependencies
  | .existing _ => []

/-- `Bind::Deps`, as the source puts it together. -/
theorem deps_bind (a : Allocation R T V Name Use) (q : Q) :
    (p.bound a (.bind q)).deps =
      (p.impl a q).deps ++ (p.requested q).dependencies.map Descriptor.bind := by
  have hnone : ∀ ps : List (Parameter (Bound Q M) Name Use), (∀ x ∈ ps, x.deps = none) →
      depsFromParams ps = [] := by
    intro ps
    induction ps with
    | nil => exact fun _ => rfl
    | cons x ps ih =>
        intro h
        rw [List.forall_mem_cons] at h
        rw [depsFromParams, ih h.2, Parameter.depsOf, h.1, List.append_nil]
  rw [Module.deps, bound, hnone, List.append_nil]
  intro x hx
  simp only [List.mem_append, List.mem_map, List.mem_cons, List.not_mem_nil, or_false] at hx
  rcases hx with ⟨y, -, rfl⟩ | rfl | rfl
  · rfl
  · rfl
  · cases (p.requested q).requests <;> rfl

theorem deps_module (a : Allocation R T V Name Use) (m : M) :
    (p.bound a (.module m)).deps = (p.modules m).deps.map .module := Module.deps_map _ _

end Program

/-! ### Calls -/

/-- What a static function does for its module: the setup of an owner, of the parameter at some place,
of the module itself, and the loops. -/
inductive Action (T : Type) where
  | ownerSetup (name : T)
  | paramSetup (index : Nat)
  | setup
  | paramLoop (index : Nat)
  | loop
  deriving DecidableEq

/-- An action for a module. -/
structure Call (Q M T : Type) where
  module : Bound Q M
  action : Action T
  deriving DecidableEq

/-- The module a static function is one of. -/
def Callback.module : Callback M → M
  | .paramsSetup m => m
  | .paramsLoop m => m
  | .runSetup m => m
  | .runLoop m => m

namespace Runner

/-- One of the functions of `Runner` with what it calls: the rest of the list first. -/
def each {α γ : Type} (body : α → List γ) : List α → List γ
  | [] => []
  | s :: ts => each body ts ++ body s

def runSetupInterleaved : List M → List (Callback M)
  | [] => []
  | s :: ts => runSetupInterleaved ts ++ [.paramsSetup s, .runSetup s]

end Runner

namespace Program

variable (p : Program Q M R T V Name Use) (a : Allocation R T V Name Use)

/-- The parameters that `paramsSetup` and `paramsLoop` run. -/
def runParams : Bound Q M → Nat
  | .bind q => (p.impl a q).params.length
  | .module m => (p.modules m).params.length

/-- `SelectedTimerParameter::runSetup`, of the requests of a bound module. -/
def ownerSetup : Bound Q M → List (Action T)
  | .bind q =>
      match (p.requested q).requests with
      | [] => []
      | first :: _ => [.ownerSetup (p.name first)]
  | .module _ => []

/-- The bodies of a module's static functions. -/
def actions : Callback (Bound Q M) → List (Action T)
  | .paramsSetup b =>
      p.ownerSetup b ++ Runner.each (fun i => [.paramSetup i]) (List.range (p.runParams a b))
  | .paramsLoop b => Runner.each (fun i => [.paramLoop i]) (List.range (p.runParams a b))
  | .runSetup _ => [.setup]
  | .runLoop _ => [.loop]

def perform (call : Callback (Bound Q M)) : List (Call Q M T) :=
  (p.actions a call).map fun action => ⟨call.module, action⟩

end Program

/-! ### The application -/

namespace Program

variable [Fintype Q] [Fintype M] [DecidableEq Q] [DecidableEq M]
  (removeAll : (α : Type) → [DecidableEq α] → RemoveAll α) (p : Program Q M R T V Name Use)

/-- `Descriptor::Requests`. -/
def requests : Descriptor Q M → List R
  | .requested q => (p.requested q).requests
  | .existing _ => []

/-- `Descriptor::Claims::Resources`: of an existing module, those of its closure. -/
def claims : Descriptor Q M → List (Resource Name Use)
  | .requested q => (p.requested q).claims
  | .existing m =>
      moduleClaims ((moduleClosure (removeAll M) (Application.deps p.modules) [m]).map p.modules)

variable (roots : List (Descriptor Q M))

/-- The descriptors `Assemble` is given. -/
def descriptors : List (Descriptor Q M) := moduleClosure (removeAll _) p.dependencies roots

/-- `Assemble::Claims`. -/
def fixedClaims : List (Resource Name Use) :=
  join ((p.descriptors removeAll roots).map (p.claims removeAll))

variable (backend : Backend R T V Name Use)

/-- `Assemble::Allocation`. -/
def allocation : Allocation R T V Name Use :=
  backend (join ((p.descriptors removeAll roots).map p.requests)) (p.fixedClaims removeAll roots)

/-- The roots of `Assemble::Modules`. -/
def boundRoots : List (Bound Q M) := (p.descriptors removeAll roots).map Descriptor.bind

/-- `Modules::ModuleRunner`. -/
def moduleRunner : Except Diagnostic (List (Bound Q M)) :=
  Application.moduleRunner (removeAll _) (p.bound (p.allocation removeAll roots backend))
    (p.boundRoots removeAll roots)

/-- `AllocatedApplication::runSetup`. -/
def runSetup : Except Diagnostic (List (Call Q M T)) :=
  (p.moduleRunner removeAll roots backend).map fun order =>
    (Runner.runSetupInterleaved order).flatMap (p.perform (p.allocation removeAll roots backend))

/-- `AllocatedApplication::runLoop`. -/
def runLoop : Except Diagnostic (List (Call Q M T)) :=
  (Application.runLoop (removeAll _) (p.bound (p.allocation removeAll roots backend))
    (p.boundRoots removeAll roots)).map fun calls =>
      calls.flatMap (p.perform (p.allocation removeAll roots backend))

/-- `Modules::has_conflict`. -/
def hasConflict [DecidableEq Name] [DecidableEq Use] (canonicalGpio : Nat → Nat) : Bool :=
  Application.hasConflict (removeAll _) (p.bound (p.allocation removeAll roots backend))
    (p.boundRoots removeAll roots) canonicalGpio

end Program

/-! ### Blocks -/

namespace Program

variable (p : Program Q M R T V Name Use) (a : Allocation R T V Name Use)

variable {p a}

/-- A dependency of descriptors is one of what is bound. -/
theorem bind_mem_deps {d d' : Descriptor Q M} (h : d' ∈ p.dependencies d) :
    d'.bind ∈ Application.deps (p.bound a) d.bind := by
  cases d with
  | requested q =>
      rw [Application.deps, Descriptor.bind, deps_bind]
      exact List.mem_append_right _ (List.mem_map_of_mem h)
  | existing m => cases h

theorem reaches_bind {roots : List (Descriptor Q M)} {d : Descriptor Q M}
    (h : Digraph.Reaches p.dependencies roots d) :
    Digraph.Reaches (Application.deps (p.bound a)) (roots.map Descriptor.bind) d.bind := by
  refine h.mem_of_closed (S := fun d => Digraph.Reaches (Application.deps (p.bound a))
    (roots.map Descriptor.bind) d.bind) (fun r hr => .of_mem (List.mem_map_of_mem hr)) ?_
  rintro c ⟨r, hr, hrc⟩ d hcd
  exact ⟨r, hr, hrc.tail (bind_mem_deps hcd)⟩

variable [Fintype Q] [Fintype M] [DecidableEq Q] [DecidableEq M]
  {removeAll : (α : Type) → [DecidableEq α] → RemoveAll α} {roots : List (Descriptor Q M)}

/-- **The bound descriptors of the closure reach what the bound roots reach.** -/
theorem reaches_bound {b : Bound Q M} :
    Digraph.Reaches (Application.deps (p.bound a)) (p.boundRoots removeAll roots) b ↔
      Digraph.Reaches (Application.deps (p.bound a)) (roots.map Descriptor.bind) b := by
  constructor
  · rintro ⟨c, hc, hcb⟩
    obtain ⟨d, hd, rfl⟩ := List.mem_map.mp hc
    obtain ⟨r, hr, hrd⟩ := reaches_bind (a := a) ((mem_moduleClosure _).mp hd)
    exact ⟨r, hr, hrd.trans hcb⟩
  · refine Digraph.Reaches.mono fun c hc => ?_
    obtain ⟨d, hd, rfl⟩ := List.mem_map.mp hc
    exact List.mem_map_of_mem ((mem_moduleClosure _).mpr (.of_mem hd))

theorem reaches_closure {b : Bound Q M} :
    Digraph.Reaches (Application.deps (p.bound a)) (p.boundRoots removeAll roots) b ↔
      ∃ d, Digraph.Reaches p.dependencies roots d ∧
        Digraph.Reaches (Application.deps (p.bound a)) [d.bind] b := by
  constructor
  · rintro ⟨c, hc, hcb⟩
    obtain ⟨d, hd, rfl⟩ := List.mem_map.mp hc
    exact ⟨d, (mem_moduleClosure _).mp hd, d.bind, List.mem_singleton_self _, hcb⟩
  · rintro ⟨d, hd, hdb⟩
    refine hdb.mono fun c hc => ?_
    obtain rfl := List.mem_singleton.mp hc
    exact List.mem_map_of_mem ((mem_moduleClosure _).mpr hd)

variable {backend : Backend R T V Name Use}

end Program

end Grevir.Core
