import Mathlib.Logic.Relation
import Mathlib.Data.List.Nodup

/-!
# Support — Digraph

A directed graph given by the list of each node's successors, and lists of its nodes in which every
successor stands after the node it is a successor of.

* `Ordered.mem_of_reaches`: such a list has with a node everything the node reaches.
* `Ordered.sublist_of_transGen`: a node stands before everything it reaches by a step or more.
* `Ordered.acyclic`: no node of such a list reaches itself.
-/

namespace Digraph

variable {α : Type*} (succ : α → List α)

def Edge (a b : α) : Prop := b ∈ succ a

/-- A root reaches `x`. -/
def Reaches (roots : List α) (x : α) : Prop :=
  ∃ r ∈ roots, Relation.ReflTransGen (Edge succ) r x

/-- The roots reach a cycle. -/
def Cyclic (roots : List α) : Prop :=
  ∃ x, Reaches succ roots x ∧ Relation.TransGen (Edge succ) x x

/-- Nothing stands twice, and each successor of a node stands after it. -/
def Ordered : List α → Prop
  | [] => True
  | a :: l => a ∉ l ∧ (∀ b ∈ succ a, b ∈ l) ∧ Ordered l

variable {succ}

/-! ### Reachability -/

theorem Reaches.of_mem {roots : List α} {x : α} (h : x ∈ roots) : Reaches succ roots x :=
  ⟨x, h, .refl⟩

/-- What the successors of a node reach, the node reaches. -/
theorem Reaches.of_succ {a x : α} (h : Reaches succ (succ a) x) : Reaches succ [a] x := by
  obtain ⟨b, hb, hx⟩ := h
  exact ⟨a, List.mem_singleton_self a, .head hb hx⟩

theorem Reaches.mono {roots roots' : List α} {x : α} (hs : ∀ r ∈ roots, r ∈ roots')
    (h : Reaches succ roots x) : Reaches succ roots' x := by
  obtain ⟨r, hr, hx⟩ := h
  exact ⟨r, hs r hr, hx⟩

/-- A set that holds the roots and every successor of its own holds what the roots reach. -/
theorem Reaches.mem_of_closed {roots : List α} {x : α} {S : α → Prop} (hr : ∀ r ∈ roots, S r)
    (hc : ∀ a, S a → ∀ b ∈ succ a, S b) (h : Reaches succ roots x) : S x := by
  obtain ⟨r, hroot, hx⟩ := h
  induction hx with
  | refl => exact hr r hroot
  | tail _ hab ih => exact hc _ ih _ hab

/-- Reached, but by no edge: a root. -/
theorem Reaches.mem_of_no_edge {roots : List α} {x : α} (h : Reaches succ roots x)
    (hx : ∀ c, Reaches succ roots c → x ∉ succ c) : x ∈ roots := by
  obtain ⟨r, hr, hrx⟩ := h
  rcases Relation.ReflTransGen.cases_tail hrx with rfl | ⟨c, hrc, hcx⟩
  · exact hr
  · exact absurd hcx (hx c ⟨r, hr, hrc⟩)

theorem Cyclic.mono {roots roots' : List α} (hs : ∀ x, Reaches succ roots x → Reaches succ roots' x)
    (h : Cyclic succ roots) : Cyclic succ roots' := by
  obtain ⟨x, hx, hc⟩ := h
  exact ⟨x, hs x hx, hc⟩

theorem Cyclic.of_succ {a b : α} (hab : Edge succ a b) (h : Cyclic succ [b]) : Cyclic succ [a] :=
  h.mono fun _ hx => .of_succ (hx.mono fun _ hr => List.mem_singleton.mp hr ▸ hab)

/-- Who reaches a cycle has a successor that does. -/
theorem Cyclic.exists_succ {a : α} (h : Cyclic succ [a]) : ∃ b ∈ succ a, Cyclic succ [b] := by
  obtain ⟨x, ⟨r, hr, hrx⟩, hcycle⟩ := h
  obtain rfl := List.mem_singleton.mp hr
  rcases Relation.ReflTransGen.cases_head hrx with rfl | ⟨b, hrb, hbx⟩
  · obtain ⟨b, hrb, hbr⟩ := Relation.TransGen.head'_iff.mp hcycle
    exact ⟨b, hrb, _, ⟨b, List.mem_singleton_self b, hbr⟩, hcycle⟩
  · exact ⟨b, hrb, x, ⟨b, List.mem_singleton_self b, hbx⟩, hcycle⟩

/-! ### Ordered lists -/

namespace Ordered

variable {l l' : List α} {a b : α}

theorem nodup (h : Ordered succ l) : l.Nodup := by
  induction l with
  | nil => exact List.nodup_nil
  | cons a l ih => exact List.nodup_cons.mpr ⟨h.1, ih h.2.2⟩

theorem of_append (h : Ordered succ (l ++ l')) : Ordered succ l' := by
  induction l with
  | nil => exact h
  | cons a l ih => exact ih h.2.2

theorem mem_of_edge (h : Ordered succ l) (ha : a ∈ l) (hab : b ∈ succ a) : b ∈ l := by
  induction l with
  | nil => cases ha
  | cons c l ih =>
      rcases List.mem_cons.mp ha with rfl | ha
      · exact List.mem_cons_of_mem _ (h.2.1 b hab)
      · exact List.mem_cons_of_mem _ (ih h.2.2 ha)

theorem mem_of_reaches {roots : List α} (h : Ordered succ l) (hr : ∀ r ∈ roots, r ∈ l)
    (hx : Reaches succ roots b) : b ∈ l :=
  hx.mem_of_closed hr fun _ ha _ hab => h.mem_of_edge ha hab

/-- **A node stands before everything it reaches.** -/
theorem sublist_of_transGen (h : Ordered succ l) (ha : a ∈ l)
    (hab : Relation.TransGen (Edge succ) a b) : [a, b].Sublist l := by
  induction l with
  | nil => cases ha
  | cons c l ih =>
      rcases List.mem_cons.mp ha with rfl | ha
      · obtain ⟨d, had, hdb⟩ := Relation.TransGen.head'_iff.mp hab
        have hb : b ∈ l := h.2.2.mem_of_reaches h.2.1 ⟨d, had, hdb⟩
        exact (List.singleton_sublist.mpr hb).cons_cons a
      · exact (ih h.2.2 ha).cons c

theorem acyclic (h : Ordered succ l) (ha : a ∈ l) : ¬ Relation.TransGen (Edge succ) a a := by
  intro hc
  have := (h.sublist_of_transGen ha hc).nodup h.nodup
  simp at this

/-- A list in order with the roots in it shows that they reach no cycle. -/
theorem not_cyclic {roots : List α} (h : Ordered succ l) (hr : ∀ r ∈ roots, r ∈ l) :
    ¬ Cyclic succ roots := by
  rintro ⟨x, hx, hc⟩
  exact h.acyclic (h.mem_of_reaches hr hx) hc

end Ordered

end Digraph
