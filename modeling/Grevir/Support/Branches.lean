import Grevir.Support.Digraph
import Mathlib.Data.Fintype.Basic
import Mathlib.Data.Fintype.EquivFin
import Mathlib.Order.WellFounded

/-!
# Support — Branches

The ways from a node of a directed graph to its sinks.  A way is the list of the positions it takes,
one in each node's list of successors, so that two ways to one sink are told apart, and so are two
edges between the same two nodes.

* `Leads`: a way and the sink at its end.
* `DepthFirst`: all ways with their ends, in the order of a depth-first search that goes from left to
  right.
* `DepthFirst.down`, `DepthFirst.cons`: the ways from a node are those from its successors, in order.
* `exists_leads_iff`: there is a way to each sink that is reached.
* `Settles`: a computation of bounded depth that has its result from some depth on.
* `none_of_cyclic`: one that has none, since it goes down along a cycle.
-/

namespace Branches

open Digraph

variable {α : Type*} (succ : α → List α)

/-! ### Ways -/

/-- The positions `way` lead from a node to a sink. -/
inductive Leads : α → List Nat → α → Prop
  | sink {a : α} : succ a = [] → Leads a [] a
  | down {a b sink : α} {i : Nat} {way : List Nat} :
      (succ a)[i]? = some b → Leads b way sink → Leads a (i :: way) sink

/-- The same, from a node that the first position takes from a list. -/
def LeadsAmong (nodes : List α) : List Nat → α → Prop
  | [], _ => False
  | i :: way, sink => ∃ b, nodes[i]? = some b ∧ Leads succ b way sink

variable {succ} {a b sink : α} {nodes : List α} {way : List Nat}

/-- A node with successors leads where they lead. -/
theorem leads_iff_among (h : succ a ≠ []) :
    Leads succ a way sink ↔ LeadsAmong succ (succ a) way sink := by
  constructor
  · intro hleads
    cases hleads with
    | sink hempty => exact absurd hempty h
    | down hb hleads => exact ⟨_, hb, hleads⟩
  · intro hamong
    cases way with
    | nil => exact hamong.elim
    | cons i way =>
        obtain ⟨b, hb, hleads⟩ := hamong
        exact .down hb hleads

/-- **There is a way to each sink that is reached.** -/
theorem exists_leads_iff :
    (∃ way, Leads succ a way sink) ↔ succ sink = [] ∧ Relation.ReflTransGen (Edge succ) a sink := by
  constructor
  · rintro ⟨way, h⟩
    induction h with
    | sink hempty => exact ⟨hempty, .refl⟩
    | down hb _ ih => exact ⟨ih.1, .head (List.mem_of_getElem? hb) ih.2⟩
  · rintro ⟨hempty, hreach⟩
    induction hreach using Relation.ReflTransGen.head_induction_on with
    | refl => exact ⟨[], .sink hempty⟩
    | head hab _ ih =>
        obtain ⟨i, hi⟩ := List.mem_iff_getElem?.mp hab
        obtain ⟨way, hway⟩ := ih
        exact ⟨i :: way, .down hi hway⟩

/-! ### Depth first -/

/-- The list of all ways of `B`, each with its end, in the lexicographic order of the ways. -/
structure DepthFirst (B : List Nat → α → Prop) (branches : List (List Nat × α)) : Prop where
  order : branches.Pairwise fun x y => x.1 < y.1
  mem_iff : ∀ way sink, (way, sink) ∈ branches ↔ B way sink

namespace DepthFirst

variable {B : List Nat → α → Prop} {branches rest : List (List Nat × α)}

theorem congr {B' : List Nat → α → Prop} (hB : ∀ way sink, B way sink ↔ B' way sink)
    (h : DepthFirst B branches) : DepthFirst B' branches :=
  ⟨h.order, fun way sink => (h.mem_iff way sink).trans (hB way sink)⟩

theorem mem_ends_iff (h : DepthFirst B branches) {e : α} :
    e ∈ branches.map Prod.snd ↔ ∃ way, B way e := by
  rw [List.mem_map]
  constructor
  · rintro ⟨⟨way, e⟩, hmem, rfl⟩
    exact ⟨way, (h.mem_iff way e).mp hmem⟩
  · rintro ⟨way, hway⟩
    exact ⟨(way, e), (h.mem_iff way e).mpr hway, rfl⟩

theorem of_sink (h : succ a = []) : DepthFirst (Leads succ a) [([], a)] where
  order := List.pairwise_singleton _ _
  mem_iff way sink := by
    rw [List.mem_singleton, Prod.mk.injEq]
    constructor
    · rintro ⟨rfl, rfl⟩
      exact .sink h
    · intro hway
      cases hway with
      | sink => exact ⟨rfl, rfl⟩
      | down hb => rw [h] at hb; cases hb

/-- The ways from a node with successors are those from its successors. -/
theorem down (h : succ a ≠ []) (hdown : DepthFirst (LeadsAmong succ (succ a)) branches) :
    DepthFirst (Leads succ a) branches :=
  hdown.congr fun _ _ => (leads_iff_among h).symm

theorem nil : DepthFirst (LeadsAmong succ []) [] where
  order := List.Pairwise.nil
  mem_iff way sink := by
    refine ⟨fun hmem => absurd hmem List.not_mem_nil, fun hway => ?_⟩
    match way, hway with
    | _ :: _, ⟨b, hb, _⟩ => cases hb

/-- The same way, one node further right. -/
def shift : List Nat → List Nat
  | [] => []
  | i :: way => (i + 1) :: way

theorem shift_lt {p q : List Nat} (h : p < q) : shift p < shift q := by
  cases p with
  | nil =>
      cases q with
      | nil => exact h
      | cons j q => exact List.nil_lt_cons _ _
  | cons i p =>
      cases q with
      | nil => exact absurd h (List.not_lt_nil _)
      | cons j q =>
          rw [List.cons_lt_cons_iff] at h
          rw [shift, shift, List.cons_lt_cons_iff, Nat.succ_lt_succ_iff, Nat.succ_inj]
          exact h

theorem mem_shift_iff (hrest : DepthFirst (LeadsAmong succ nodes) rest) {way : List Nat} :
    (way, sink) ∈ rest.map (Prod.map shift id) ↔
      ∃ i way', way = (i + 1) :: way' ∧ LeadsAmong succ nodes (i :: way') sink := by
  rw [List.mem_map]
  constructor
  · rintro ⟨⟨p, e⟩, hmem, heq⟩
    obtain ⟨rfl, rfl⟩ := Prod.mk.inj heq
    have hleads := (hrest.mem_iff p e).mp hmem
    cases p with
    | nil => exact hleads.elim
    | cons i p => exact ⟨i, p, rfl, hleads⟩
  · rintro ⟨i, p, rfl, hleads⟩
    exact ⟨(i :: p, sink), (hrest.mem_iff _ _).mpr hleads, rfl⟩

/-- **The ways from the first node stand before those from the rest.** -/
theorem cons (h : DepthFirst (Leads succ a) branches)
    (hrest : DepthFirst (LeadsAmong succ nodes) rest) :
    DepthFirst (LeadsAmong succ (a :: nodes))
      (branches.map (Prod.map (0 :: ·) id) ++ rest.map (Prod.map shift id)) where
  order := by
    rw [List.pairwise_append, List.pairwise_map, List.pairwise_map]
    refine ⟨h.order.imp fun hlt => List.cons_lt_cons_iff.mpr (.inr ⟨rfl, hlt⟩),
      hrest.order.imp shift_lt, ?_⟩
    rintro x hx ⟨q, e⟩ hq
    obtain ⟨x, -, rfl⟩ := List.mem_map.mp hx
    obtain ⟨j, q, rfl, -⟩ := hrest.mem_shift_iff.mp hq
    exact List.cons_lt_cons_iff.mpr (.inl (Nat.succ_pos j))
  mem_iff way sink := by
    rw [List.mem_append, hrest.mem_shift_iff]
    constructor
    · rintro (hfirst | ⟨i, way, rfl, hlater⟩)
      · obtain ⟨⟨p, e⟩, hmem, heq⟩ := List.mem_map.mp hfirst
        obtain ⟨rfl, rfl⟩ := Prod.mk.inj heq
        exact ⟨a, rfl, (h.mem_iff p e).mp hmem⟩
      · exact hlater
    · intro hway
      match way, hway with
      | 0 :: way, ⟨b, hb, hleads⟩ =>
          obtain rfl := Option.some.inj hb
          exact .inl (List.mem_map_of_mem ((h.mem_iff way sink).mpr hleads))
      | (i + 1) :: way, hlater => exact .inr ⟨i, way, rfl, hlater⟩

theorem ends_cons (branches rest : List (List Nat × α)) :
    (branches.map (Prod.map (0 :: ·) id) ++ rest.map (Prod.map shift id)).map Prod.snd =
      branches.map Prod.snd ++ rest.map Prod.snd := by
  rw [List.map_append, List.map_map, List.map_map]
  rfl

end DepthFirst

/-! ### Acyclic graphs -/

/-- A finite graph without a cycle can be gone down. -/
theorem wellFounded_of_acyclic [Finite α] (h : ∀ a, ¬ Relation.TransGen (Edge succ) a a) :
    WellFounded fun b a => Edge succ a b := by
  have htrans : WellFounded (Relation.TransGen fun b a => Edge succ a b) := by
    have hirrefl : Std.Irrefl (Relation.TransGen fun b a => Edge succ a b) :=
      ⟨fun a hcycle => h a (Relation.transGen_swap.mp hcycle)⟩
    exact Finite.wellFounded_of_trans_of_irrefl _
  exact Subrelation.wf (r := Relation.TransGen fun b a => Edge succ a b)
    (fun hba => .single hba) htrans

/-- Where no cycle is reached, a finite graph can be gone down. -/
theorem acc_of_not_cyclic [Finite α] (h : ¬ Cyclic succ [a]) :
    Acc (fun b a => Edge succ a b) a := by
  let below (y x : {x // Reaches succ [a] x}) : Prop := Relation.TransGen (Edge succ) x.1 y.1
  have htrans : IsTrans _ below := ⟨fun _ _ _ hyx hzy => hzy.trans hyx⟩
  have hirrefl : Std.Irrefl below := ⟨fun x hcycle => h ⟨x.1, x.2, hcycle⟩⟩
  have hwf : WellFounded below := Finite.wellFounded_of_trans_of_irrefl _
  suffices hacc : ∀ x : {x // Reaches succ [a] x}, Acc (fun b a => Edge succ a b) x.1 from
    hacc ⟨a, .of_mem (List.mem_singleton_self a)⟩
  intro x
  induction x using hwf.induction with
  | h x ih =>
      refine ⟨_, fun b hb => ?_⟩
      obtain ⟨r, hr, hrx⟩ := x.2
      exact ih ⟨b, r, hr, hrx.tail hb⟩ (.single hb)

/-! ### Bounded depth -/

/-- A computation of bounded depth has the result `x` from some depth on. -/
def Settles {β : Type*} (f : Nat → Option β) (x : β) : Prop :=
  ∃ depth, ∀ n, depth ≤ n → f n = some x

namespace Settles

variable {β γ : Type*} {f : Nat → Option β} {x : β}

theorem of_forall (h : ∀ n, f n = some x) : Settles f x := ⟨0, fun n _ => h n⟩

/-- One more level. -/
theorem of_succ (h : Settles (fun n => f (n + 1)) x) : Settles f x := by
  obtain ⟨depth, hdepth⟩ := h
  refine ⟨depth + 1, fun n hn => ?_⟩
  obtain ⟨m, rfl⟩ := Nat.exists_eq_add_of_le' hn
  exact hdepth (m + depth) (Nat.le_add_left depth m)

theorem bind {g : β → Nat → Option γ} {y : γ} (hf : Settles f x) (hg : Settles (g x) y) :
    Settles (fun n => (f n).bind fun x => g x n) y := by
  obtain ⟨depth, hdepth⟩ := hf
  obtain ⟨depth', hdepth'⟩ := hg
  refine ⟨max depth depth', fun n hn => ?_⟩
  show (f n).bind _ = _
  rw [hdepth n (le_of_max_le_left hn)]
  exact hdepth' n (le_of_max_le_right hn)

end Settles

/-- **A computation of bounded depth that goes down along the edges has no result over a cycle.** -/
theorem none_of_cyclic {β : Type*} {f : Nat → α → Option β}
    (hdown : ∀ depth a x, f depth a = some x → ∀ b ∈ succ a, ∃ depth' < depth, ∃ y, f depth' b = some y)
    (h : Cyclic succ [a]) (depth : Nat) : f depth a = none := by
  induction depth using Nat.strong_induction_on generalizing a with
  | h depth ih =>
      obtain ⟨b, hb, hcyclic⟩ := h.exists_succ
      cases hf : f depth a with
      | none => rfl
      | some x =>
          obtain ⟨depth', hlt, y, hy⟩ := hdown depth a x hf b hb
          rw [ih depth' hlt hcyclic] at hy
          cases hy

end Branches
