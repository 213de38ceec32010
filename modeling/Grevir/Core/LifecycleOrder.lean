import Grevir.Core.Module

/-!
# Core — LifecycleOrder

The order a runner is given: a depth-first walk of the modules from the last to the first, which
puts a module in front of what is done once its dependencies are.  The runner goes backwards, so
the list must have each module before what it depends on.

A module that is visited inside its own visit raises the cycle diagnostic.  Its `static_assert` ends
the compilation, so here it ends the walk.

* `lifecycleVisitList_ok`: a walk that ends adds what the modules reach, in order.
* `lifecycleVisitList_error`: a walk that raises the diagnostic was led into a cycle.
* `lifecycleOrder_sublist`: a module nothing reached depends on stays before the later ones.
-/

namespace Grevir.Core

inductive Diagnostic where
  /-- `GREVIR_CORE_DEPENDENCY_CYCLE` -/
  | dependencyCycle
  deriving DecidableEq

variable {M : Type}

/-- `LifecycleVisitList`: the rest of the list first, over a visit that goes on from what is done. -/
def lifecycleVisitList (visit : List M → M → Except Diagnostic (List M)) (done : List M) :
    List M → Except Diagnostic (List M)
  | [] => .ok done
  | m :: rest =>
      match lifecycleVisitList visit done rest with
      | .ok tail => visit tail m
      | .error e => .error e

variable [DecidableEq M]

/-- `LifecycleVisit`. -/
def lifecycleVisit [Fintype M] (deps : M → List M) (active done : List M) (m : M) :
    Except Diagnostic (List M) :=
  if m ∈ done then .ok done
  else if m ∈ active then .error .dependencyCycle
  else
    match lifecycleVisitList (fun done d => lifecycleVisit deps (active ++ [m]) done d)
      done (deps m) with
    | .ok dependencies => .ok (m :: dependencies)
    | .error e => .error e
termination_by (Finset.univ \ active.toFinset).card
decreasing_by
  refine Finset.card_lt_card ((Finset.ssubset_iff_of_subset fun x hx => ?_).mpr ⟨m, ?_, ?_⟩)
  · simp_all
  · simpa
  · simp

def lifecycleOrder [Fintype M] (deps : M → List M) (modules : List M) :
    Except Diagnostic (List M) :=
  lifecycleVisitList (lifecycleVisit deps []) [] modules

/-! ### One visit, and a list of visits -/

/-- `new`, put in front of `done` by a walk from `roots` inside the visits of `active`. -/
structure Added (deps : M → List M) (active done roots new : List M) : Prop where
  ordered : Digraph.Ordered deps (new ++ done)
  mem : ∀ m ∈ roots, m ∈ new ++ done
  reaches : ∀ x ∈ new, Digraph.Reaches deps roots x
  inactive : ∀ x ∈ new, x ∉ active

variable {deps : M → List M} {active done done' ms : List M}

omit [DecidableEq M] in
theorem lifecycleVisitList_append (visit : List M → M → Except Diagnostic (List M))
    (done ms ms' : List M) :
    lifecycleVisitList visit done (ms ++ ms') =
      match lifecycleVisitList visit done ms' with
      | .ok tail => lifecycleVisitList visit tail ms
      | .error e => .error e := by
  induction ms with
  | nil => cases h : lifecycleVisitList visit done ms' <;> simp [lifecycleVisitList, h]
  | cons m ms ih =>
      rw [List.cons_append, lifecycleVisitList, ih]
      cases lifecycleVisitList visit done ms' <;> simp [lifecycleVisitList]

omit [DecidableEq M] in
/-- A list of visits adds what its visits add. -/
theorem lifecycleVisitList_ok (active : List M) {visit : List M → M → Except Diagnostic (List M)}
    (hv : ∀ done m done', visit done m = .ok done' → Digraph.Ordered deps done →
      ∃ new, done' = new ++ done ∧ Added deps active done [m] new)
    (h : lifecycleVisitList visit done ms = .ok done') (ho : Digraph.Ordered deps done) :
    ∃ new, done' = new ++ done ∧ Added deps active done ms new := by
  induction ms generalizing done' with
  | nil =>
      obtain rfl : done = done' := Except.ok.inj h
      exact ⟨[], rfl, ho, by simp, by simp, by simp⟩
  | cons m ms ih =>
      rw [lifecycleVisitList] at h
      cases ht : lifecycleVisitList visit done ms with
      | error e => rw [ht] at h; cases h
      | ok tail =>
          rw [ht] at h
          obtain ⟨new₁, rfl, h₁⟩ := ih ht
          obtain ⟨new₂, rfl, h₂⟩ := hv _ m done' h h₁.ordered
          refine ⟨new₂ ++ new₁, by simp, by simpa using h₂.ordered, fun x hx => ?_, fun x hx => ?_,
            fun x hx => ?_⟩
          · rw [List.append_assoc]
            rcases List.mem_cons.mp hx with rfl | hx
            · exact h₂.mem x (by simp)
            · exact List.mem_append_right _ (h₁.mem x hx)
          · rcases List.mem_append.mp hx with hx | hx
            · exact (h₂.reaches x hx).mono (by simp)
            · exact (h₁.reaches x hx).mono fun r hr => List.mem_cons_of_mem _ hr
          · rcases List.mem_append.mp hx with hx | hx
            · exact h₂.inactive x hx
            · exact h₁.inactive x hx

omit [DecidableEq M] in
/-- A list of visits raises the diagnostic where one of them does. -/
theorem lifecycleVisitList_error {visit : List M → M → Except Diagnostic (List M)}
    {e : Diagnostic} (h : lifecycleVisitList visit done ms = .error e) :
    ∃ m ∈ ms, ∃ done', visit done' m = .error e := by
  induction ms with
  | nil => cases h
  | cons m ms ih =>
      rw [lifecycleVisitList] at h
      cases ht : lifecycleVisitList visit done ms with
      | ok tail => rw [ht] at h; exact ⟨m, List.mem_cons_self, tail, h⟩
      | error e' =>
          rw [ht] at h
          obtain rfl : e' = e := Except.error.inj h
          obtain ⟨m', hm, hv⟩ := ih ht
          exact ⟨m', List.mem_cons_of_mem _ hm, hv⟩

variable [Fintype M]

/-- **A visit that ends** leaves its module done, with everything it depends on after it. -/
theorem lifecycleVisit_ok {m : M} (h : lifecycleVisit deps active done m = .ok done')
    (ho : Digraph.Ordered deps done) :
    ∃ new, done' = new ++ done ∧ Added deps active done [m] new := by
  induction active, done, m using lifecycleVisit.induct deps generalizing done' with
  | case1 active done m hm =>
      rw [lifecycleVisit, if_pos hm] at h
      obtain rfl := Except.ok.inj h
      exact ⟨[], rfl, ho, by simpa using hm, by simp, by simp⟩
  | case2 active done m hm ha =>
      rw [lifecycleVisit, if_neg hm, if_pos ha] at h
      cases h
  | case3 active done m hm ha dependencies hl ih =>
      rw [lifecycleVisit, if_neg hm, if_neg ha, hl] at h
      obtain rfl := Except.ok.inj h
      obtain ⟨new, rfl, hn⟩ := lifecycleVisitList_ok (active ++ [m])
        (fun done d done' hd hod => ih done d hd hod) hl ho
      -- inside the visit `m` is active, so no dependency has put it in the list
      have hmn : m ∉ new ++ done := by
        intro hmem
        rcases List.mem_append.mp hmem with hmem | hmem
        · exact hn.inactive m hmem (by simp)
        · exact hm hmem
      refine ⟨m :: new, rfl, ⟨hmn, hn.mem, hn.ordered⟩, by simp, fun x hx => ?_, fun x hx => ?_⟩
      · rcases List.mem_cons.mp hx with rfl | hx
        · exact .of_mem (by simp)
        · exact (hn.reaches x hx).of_succ
      · rcases List.mem_cons.mp hx with rfl | hx
        · exact ha
        · exact fun hxa => hn.inactive x hx (by simp [hxa])
  | case4 active done m hm ha e hl ih =>
      rw [lifecycleVisit, if_neg hm, if_neg ha, hl] at h
      cases h

/-- **A visit that raises the diagnostic** has reached a cycle: each active module leads to the one
that is visited. -/
theorem lifecycleVisit_error {m : M} {e : Diagnostic}
    (h : lifecycleVisit deps active done m = .error e)
    (ha : ∀ a ∈ active, Relation.TransGen (Digraph.Edge deps) a m) : Digraph.Cyclic deps [m] := by
  induction active, done, m using lifecycleVisit.induct deps with
  | case1 active done m hm =>
      rw [lifecycleVisit, if_pos hm] at h
      cases h
  | case2 active done m hm hact => exact ⟨m, .of_mem (by simp), ha m hact⟩
  | case3 active done m hm hact dependencies hl ih =>
      rw [lifecycleVisit, if_neg hm, if_neg hact, hl] at h
      cases h
  | case4 active done m hm hact e' hl ih =>
      obtain ⟨d, hd, done', hv⟩ := lifecycleVisitList_error hl
      rw [lifecycleVisit, if_neg hm, if_neg hact, hl] at h
      obtain rfl := Except.error.inj h
      have hc : Digraph.Cyclic deps [d] := by
        refine ih done' d hv fun a hact' => ?_
        rcases List.mem_append.mp hact' with hact' | hact'
        · exact (ha a hact').tail hd
        · obtain rfl := List.mem_singleton.mp hact'
          exact .single hd
      exact hc.mono fun x hx => .of_succ (hx.mono fun r hr => List.mem_singleton.mp hr ▸ hd)

/-! ### The order -/

/-- The order has each module once, before all it depends on, and nothing the roots do not reach. -/
theorem lifecycleOrder_ok {order : List M} (h : lifecycleOrder deps ms = .ok order) :
    Digraph.Ordered deps order ∧ ∀ x, x ∈ order ↔ Digraph.Reaches deps ms x := by
  obtain ⟨new, rfl, hn⟩ := lifecycleVisitList_ok []
    (fun done m done' hv ho => lifecycleVisit_ok hv ho) h trivial
  rw [List.append_nil] at *
  refine ⟨by simpa using hn.ordered, fun x => ⟨hn.reaches x, fun hx => ?_⟩⟩
  exact Digraph.Ordered.mem_of_reaches (by simpa using hn.ordered) (by simpa using hn.mem) hx

/-- **The diagnostic is raised for a reachable cycle, and only for one.** -/
theorem lifecycleOrder_error_iff :
    lifecycleOrder deps ms = .error .dependencyCycle ↔ Digraph.Cyclic deps ms := by
  constructor
  · intro h
    obtain ⟨m, hm, done', hv⟩ := lifecycleVisitList_error h
    exact (lifecycleVisit_error hv (by simp)).mono fun x hx => hx.mono (by simpa using hm)
  · intro hc
    cases h : lifecycleOrder deps ms with
    | error e => cases e; rfl
    | ok order =>
        obtain ⟨ho, hmem⟩ := lifecycleOrder_ok h
        exact absurd hc (ho.not_cyclic fun r hr => (hmem r).mpr (.of_mem hr))

/-- A module that nothing reached depends on is put in front at its own turn, so it stays before
the modules after it. -/
theorem lifecycleOrder_sublist {order : List M} (h : lifecycleOrder deps ms = .ok order)
    (hnd : ms.Nodup) {a b : M} (hab : [a, b].Sublist ms)
    (ha : ∀ c, Digraph.Reaches deps ms c → a ∉ deps c) : [a, b].Sublist order := by
  obtain ⟨pre, post, rfl, hpre, hpost⟩ := List.cons_sublist_iff.mp hab
  obtain ⟨pre, mid, rfl⟩ := List.append_of_mem hpre
  rw [List.append_assoc, List.cons_append] at h hnd ha
  have hb : b ∈ mid ++ post := List.mem_append_right _ (List.singleton_sublist.mp hpost)
  rw [lifecycleOrder, lifecycleVisitList_append, lifecycleVisitList] at h
  cases hrest : lifecycleVisitList (lifecycleVisit deps []) [] (mid ++ post) with
  | error e => rw [hrest] at h; cases h
  | ok rest =>
      obtain ⟨hord, hmem⟩ := lifecycleOrder_ok hrest
      -- at its turn `a` is not done: it is no later root, and no dependency of one
      have har : a ∉ rest := by
        intro hm
        have hroot := ((hmem a).mp hm).mem_of_no_edge fun c hc =>
          ha c (hc.mono fun r hr => by simp_all)
        exact (List.nodup_cons.mp (List.nodup_append.mp hnd).2.1).1 hroot
      rw [hrest] at h
      dsimp only at h
      cases hv : lifecycleVisit deps [] rest a with
      | error e => rw [hv] at h; cases h
      | ok tail =>
          rw [hv] at h
          obtain ⟨new, rfl, hn⟩ := lifecycleVisit_ok hv hord
          obtain ⟨new', rfl, -⟩ := lifecycleVisitList_ok []
            (fun done m done' hv ho => lifecycleVisit_ok hv ho) h hn.ordered
          have han : a ∈ new := (List.mem_append.mp (hn.mem a (by simp))).resolve_right har
          have hbr : b ∈ rest := (hmem b).mpr (.of_mem hb)
          have hsub : ([a] ++ [b]).Sublist (new ++ rest) :=
            (List.singleton_sublist.mpr han).append (List.singleton_sublist.mpr hbr)
          exact hsub.trans (List.sublist_append_right new' _)

end Grevir.Core
