import Grevir.Event.Fifo

/-!
# Event — Ownership

Callbacks run one at a time, on the task whose `prepare` opened the queue.

* `Owned`: what the context has recorded is the token of the last `prepare` that returned true, and
  the call in progress is that task's.
* `Ledger`: each `dispatch` call against what the history shows of it.  `Entry` is one call's part:
  it has started one callback for each it has counted, and one more while it is inside one.

The context records a token and compares with it, and no two tasks have one token.
-/

namespace Grevir.Event

variable {Task Token Owner Event : Type}

/-! ### The owner -/

/-- The bound owner and the call in progress are of the task of the last `prepare` that returned
true. -/
structure Owned (token : Task → Token) (h : List (Label Task Event))
    (m : Mailbox (Option Token) Event) (o : Option (Task × Activation Event)) : Prop where
  bound : m.ready = true ∨ o.isSome = true →
    ∃ h₁ t l, h = h₁ ++ .prepared t true :: l ∧ NoPrepare l ∧ m.owner = some (token t)
  by_owner : ∀ t a, o = some (t, a) → m.owner = some (token t)

section Owner

variable [DecidableEq Event] {B : Board Task Token Owner Event}
variable {m m' : Mailbox Owner Event} {o o' : Option (Task × Activation Event)}
variable {h : List (Label Task Event)} {x : Label Task Event}

/-- Only a `prepare` that returns true binds. -/
theorem Effect.owner_eq (he : Effect B m o x m' o') (hx : ∀ u, x ≠ .prepared u true) :
    m'.owner = m.owner := by
  cases he with
  | prepare t =>
      by_cases hp : (m.ready || m.dispatching) = true
      · rw [Mailbox.prepare, if_pos hp]
      · exact absurd (by rw [Mailbox.prepare, if_neg hp]) (hx t)
  | post t e => unfold Mailbox.post; split_ifs <;> rfl
  | _ => rfl

theorem Effect.owner_bind {t : Task} (he : Effect B m o (.prepared t true) m' o') :
    m'.owner = B.context.bind (B.context.currentToken t) m.owner := by
  generalize hx : Label.prepared t true = x at he
  cases he with
  | prepare u =>
      obtain ⟨rfl, hr⟩ := Label.prepared.inj hx
      by_cases hp : (m.ready || m.dispatching) = true
      · rw [Mailbox.prepare, if_pos hp] at hr; cases hr
      · rw [Mailbox.prepare, if_neg hp]
  | _ => cases hx

/-- Only a `prepare` that returns true opens a session, and a call enters an open one. -/
theorem Effect.open_of_open (he : Effect B m o x m' o') (hx : ∀ u, x ≠ .prepared u true)
    (hr : m'.ready = true ∨ o'.isSome = true) : m.ready = true ∨ o.isSome = true := by
  cases he with
  | prepare t =>
      by_cases hp : (m.ready || m.dispatching) = true
      · rwa [Mailbox.prepare, if_pos hp] at hr
      · exact absurd (by rw [Mailbox.prepare, if_neg hp]) (hx t)
  | post t e =>
      revert hr
      unfold Mailbox.post
      split_ifs <;> exact id
  | stop t => exact .inr (hr.resolve_left (by simp [Mailbox.stop]))
  | enter t a ho hb hready hw => exact .inl hready
  | drain t a ho ha hm => exact .inr (by simp [ho])
  | remove t a e rest ho ha hready hw => exact .inl hready
  | invoke t a r e ho ha he => exact .inr (by simp [ho])
  | resume t a ho ha => exact .inr (by simp [ho])
  | leave t a ho ha => exact .inr (by simp [ho])
  | overrun t | clearOverrun t | dispatch t call budget | refuse t call | invokeNull t a r =>
      exact hr

/-- The call in progress stays with its task; a new one passed the owner test. -/
theorem Effect.in_progress (he : Effect B m o x m' o') {t : Task} {a : Activation Event}
    (ho' : o' = some (t, a)) :
    (∃ a', o = some (t, a')) ∨ B.context.isOwner (B.context.currentToken t) m.owner = true := by
  cases he with
  | enter u b ho hb hready hw => cases ho'; exact .inr hw
  | drain u b ho | remove u b e rest ho | invoke u b r e ho | resume u b ho =>
      cases ho'; exact .inl ⟨_, ho⟩
  | leave u b ho ha => cases ho'
  | prepare u | stop u | post u e | overrun u | clearOverrun u | dispatch u call budget
  | refuse u call | invokeNull u b r => exact .inl ⟨a, ho'⟩

end Owner

section Recording

variable [DecidableEq Event] [DecidableEq Token] {token : Task → Token}
variable {B : Board Task Token (Option Token) Event}
variable {m m' : Mailbox (Option Token) Event} {o o' : Option (Task × Activation Event)}
variable {h : List (Label Task Event)} {x : Label Task Event}

/-- **A step keeps the owner's account.** -/
theorem Owned.step (hB : B.context = recordingContext token) (hw : Owned token h m o)
    (hd : m.dispatching = o.isSome) (he : Effect B m o x m' o') : Owned token (h ++ [x]) m' o' := by
  by_cases hx : ∃ u, x = .prepared u true
  · obtain ⟨u, rfl⟩ := hx
    have hbind := he.owner_bind
    obtain ⟨-, -, rfl, -⟩ := he.opens hd
    rw [hB] at hbind
    exact ⟨fun _ => ⟨h, u, [], rfl, fun v hv => by simp at hv, hbind⟩, fun t a ho => by cases ho⟩
  · push Not at hx
    refine ⟨fun hr => ?_, fun t a ho' => ?_⟩
    · obtain ⟨h₁, t, l, rfl, hn, ho⟩ := hw.bound (he.open_of_open hx hr)
      refine ⟨h₁, t, l ++ [x], by simp, fun u hu => ?_, (he.owner_eq hx).trans ho⟩
      rcases List.mem_append.mp hu with hu | hu
      · exact hn u hu
      · exact hx u (List.mem_singleton.mp hu).symm
    · rw [he.owner_eq hx]
      rcases he.in_progress ho' with ⟨a', ho⟩ | hown
      · exact hw.by_owner t a' ho
      · rw [hB] at hown
        simpa [recordingContext] using hown

end Recording

/-! ### One call and the history -/

/-- The call a label is about. -/
def Label.call : Label Task Event → Option Nat
  | .called _ d _ | .entered _ d | .removed _ d _ | .invoked _ d _ | .invokedNull _ d
  | .resumed _ d | .drained _ d | .returned _ d _ => some d
  | _ => none

/-- The callback the call is inside, counted. -/
def Activation.inside (a : Activation Event) : Nat :=
  match a.point with
  | .callback => 1
  | _ => 0

/-- How many callbacks call `d` has started. -/
def startedBy (d : Nat) (h : List (Label Task Event)) : Nat :=
  h.countP fun
    | .invoked _ d' _ => d' = d
    | _ => false

theorem startedBy_snoc (d : Nat) (h : List (Label Task Event)) (x : Label Task Event) :
    startedBy d (h ++ [x]) = startedBy d h + startedBy d [x] := List.countP_append

theorem startedBy_single {d : Nat} {x : Label Task Event} (hx : ∀ t e, x ≠ .invoked t d e) :
    startedBy d [x] = 0 := by
  cases x with
  | invoked t d' e =>
      have hne : d' ≠ d := fun e' => hx t e (by rw [e'])
      simp [startedBy, hne]
  | _ => rfl

/-- What the history shows of a call that has not returned. -/
structure Entry (h : List (Label Task Event)) (t : Task) (a : Activation Event) : Prop where
  called : ∀ u b, .called u a.call b ∈ h ↔ u = t ∧ b = a.budget
  started : startedBy a.call h = a.handled + a.inside
  entered : .entered t a.call ∈ h ↔ a.inProgress = true
  unentered : a.point = .enter → a.handled = 0
  running : a.inProgress = true → a.point ≠ .leave → a.handled < a.budget
  handled_le : a.handled ≤ a.budget
  drained : a.point = .leave → a.handled < a.budget → .drained t a.call ∈ h

variable {h : List (Label Task Event)} {x : Label Task Event} {t : Task} {a : Activation Event}

/-- A label that shows no section of the call leaves its entry alone. -/
theorem Entry.quiet (he : Entry h t a) (hc : ∀ u b, x ≠ .called u a.call b)
    (hi : ∀ u e, x ≠ .invoked u a.call e) (hn : ∀ u, x ≠ .entered u a.call) :
    Entry (h ++ [x]) t a where
  called u b := by
    rw [← he.called u b, List.mem_append, List.mem_singleton]
    exact or_iff_left fun e => hc u b e.symm
  started := by rw [startedBy_snoc, startedBy_single hi, Nat.add_zero, he.started]
  entered := by
    rw [← he.entered, List.mem_append, List.mem_singleton]
    exact or_iff_left fun e => hn t e.symm
  unentered := he.unentered
  running := he.running
  handled_le := he.handled_le
  drained hp hl := List.mem_append_left _ (he.drained hp hl)

/-- A label of another call leaves the entry alone. -/
theorem Entry.other (he : Entry h t a) (hx : x.call ≠ some a.call) : Entry (h ++ [x]) t a :=
  he.quiet (fun _ _ e => hx (by rw [e]; rfl)) (fun _ _ e => hx (by rw [e]; rfl))
    (fun _ e => hx (by rw [e]; rfl))

/-- The entry of a call that moves on, when what the label shows fits where it goes. -/
theorem Entry.move (he : Entry h t a) {a' : Activation Event} (hcall : a'.call = a.call)
    (hbudget : a'.budget = a.budget) (hc : ∀ u b, x ≠ .called u a.call b)
    (hstart : a.handled + a.inside + startedBy a.call [x] = a'.handled + a'.inside)
    (hp' : a'.inProgress = true) (hent : a.inProgress = true ∨ x = .entered t a.call)
    (hrun : a'.point ≠ .leave → a'.handled < a'.budget) (hle : a'.handled ≤ a'.budget)
    (hdr : a'.point = .leave → a'.handled < a'.budget → x = .drained t a.call) :
    Entry (h ++ [x]) t a' where
  called u b := by
    rw [hcall, hbudget, ← he.called u b, List.mem_append, List.mem_singleton]
    exact or_iff_left fun e => hc u b e.symm
  started := by rw [hcall, startedBy_snoc, he.started, hstart]
  entered := by
    rw [hcall, List.mem_append, List.mem_singleton, he.entered]
    exact iff_of_true (hent.imp_right Eq.symm) hp'
  unentered hp := by simp [Activation.inProgress, hp] at hp'
  running _ := hrun
  handled_le := hle
  drained hp hl := by rw [hcall]; exact List.mem_append_right _ (by simp [hdr hp hl])

/-! ### All calls -/

/-- The calls that have not returned, against the history. -/
structure Ledger (frames : Task → List (Activation Event)) (calls : Nat)
    (h : List (Label Task Event)) : Prop where
  known : ∀ y ∈ h, ∀ d, y.call = some d → d < calls
  entries : ∀ t, ∀ a ∈ frames t, a.call < calls ∧ Entry h t a
  one_stack : ∀ t u, ∀ a ∈ frames t, ∀ b ∈ frames u, a.call = b.call → t = u
  stacked : ∀ t, (frames t).Pairwise fun a b => b.call < a.call

variable {frames : Task → List (Activation Event)} {calls : Nat}

theorem Ledger.initial :
    Ledger (fun _ => []) 0 ([] : List (Label Task Event)) where
  known y hy := by cases hy
  entries t a ha := by cases ha
  one_stack t u a ha := by cases ha
  stacked t := List.Pairwise.nil

/-- The calls of a history one label longer. -/
theorem Ledger.known_snoc (hl : Ledger frames calls h) {n : Nat} (hle : calls ≤ n)
    (hx : ∀ d, x.call = some d → d < n) : ∀ y ∈ h ++ [x], ∀ d, y.call = some d → d < n := by
  intro y hy d hd
  rcases List.mem_append.mp hy with hy | hy
  · exact Nat.lt_of_lt_of_le (hl.known y hy d hd) hle
  · exact hx d (List.mem_singleton.mp hy ▸ hd)

/-- A label of no call. -/
theorem Ledger.quiet (hl : Ledger frames calls h) (hx : x.call = none) :
    Ledger frames calls (h ++ [x]) where
  known := hl.known_snoc (le_refl calls) (by simp [hx])
  entries t a ha :=
    have ⟨hlt, he⟩ := hl.entries t a ha
    ⟨hlt, he.other (by rw [hx]; simp)⟩
  one_stack := hl.one_stack
  stacked := hl.stacked

variable [DecidableEq Task]

/-- The innermost call moves on or returns; every other call's entry is as it was. -/
theorem Ledger.top (hl : Ledger frames calls h) {below F : List (Activation Event)}
    (hs : frames t = a :: below) (hx : x.call = some a.call)
    (hF : F = below ∨ ∃ a', F = a' :: below ∧ a'.call = a.call ∧ Entry (h ++ [x]) t a') :
    Ledger (Function.update frames t F) calls (h ++ [x]) := by
  have hst := hl.stacked t
  rw [hs, List.pairwise_cons] at hst
  have ha : a ∈ frames t := by simp [hs]
  have hsub : ∀ b ∈ F, (b ∈ below ∨ b.call = a.call ∧ Entry (h ++ [x]) t b) := by
    rintro b hb
    rcases hF with rfl | ⟨a', rfl, hc, he⟩
    · exact .inl hb
    · rcases List.mem_cons.mp hb with rfl | hb
      · exact .inr ⟨hc, he⟩
      · exact .inl hb
  -- a call of the new stacks is a call of the old ones, of the same number
  have hold : ∀ u, ∀ b ∈ Function.update frames t F u, ∃ b' ∈ frames u, b'.call = b.call := by
    intro u b hb
    by_cases hu : u = t
    · subst hu
      rw [Function.update_self] at hb
      rcases hsub b hb with hb | ⟨hc, -⟩
      · exact ⟨b, by simp [hs, hb], rfl⟩
      · exact ⟨a, ha, hc.symm⟩
    · rw [Function.update_of_ne hu] at hb
      exact ⟨b, hb, rfl⟩
  refine ⟨hl.known_snoc (le_refl calls) fun d hd => ?_, fun u b hb => ⟨?_, ?_⟩,
    fun u v b hb c hc hbc => ?_, fun u => ?_⟩
  · rw [hx] at hd
    cases hd
    exact (hl.entries t a ha).1
  · obtain ⟨b', hb', e⟩ := hold u b hb
    exact e ▸ (hl.entries u b' hb').1
  · by_cases hu : u = t
    · subst hu
      rw [Function.update_self] at hb
      rcases hsub b hb with hb | ⟨-, he⟩
      · refine (hl.entries u b (by simp [hs, hb])).2.other ?_
        rw [hx]
        exact fun e => (hst.1 b hb).ne' (Option.some.inj e)
      · exact he
    · rw [Function.update_of_ne hu] at hb
      refine (hl.entries u b hb).2.other ?_
      rw [hx]
      exact fun e => hu (hl.one_stack u t b hb a ha (Option.some.inj e).symm)
  · obtain ⟨b', hb', e⟩ := hold u b hb
    obtain ⟨c', hc', e'⟩ := hold v c hc
    exact hl.one_stack u v b' hb' c' hc' (e.trans (hbc.trans e'.symm))
  · by_cases hu : u = t
    · subst hu
      rw [Function.update_self]
      rcases hF with rfl | ⟨a', rfl, hc, -⟩
      · exact hst.2
      · exact List.pairwise_cons.mpr ⟨fun b hb => hc ▸ hst.1 b hb, hst.2⟩
    · rw [Function.update_of_ne hu]
      exact hl.stacked u

/-- A new call has no history. -/
theorem Ledger.push (hl : Ledger frames calls h) (t : Task) (budget : Nat) :
    Ledger (Function.update frames t (⟨calls, budget, 0, .enter⟩ :: frames t)) (calls + 1)
      (h ++ [.called t calls budget]) := by
  have hold : ∀ u, ∀ b ∈ Function.update frames t (⟨calls, budget, 0, .enter⟩ :: frames t) u,
      (u = t ∧ b = ⟨calls, budget, 0, .enter⟩) ∨ b ∈ frames u := by
    intro u b hb
    by_cases hu : u = t
    · subst hu
      rw [Function.update_self, List.mem_cons] at hb
      exact hb.imp_left fun e => ⟨rfl, e⟩
    · rw [Function.update_of_ne hu] at hb
      exact .inr hb
  have hnone : ∀ y ∈ h, y.call ≠ some calls := fun y hy e =>
    absurd (hl.known y hy _ e) (lt_irrefl _)
  refine ⟨hl.known_snoc (Nat.le_succ calls) fun d hd => ?_, fun u b hb => ?_,
    fun u v b hb c hc hbc => ?_, fun u => ?_⟩
  · cases hd
    exact Nat.lt_succ_self _
  · rcases hold u b hb with ⟨rfl, rfl⟩ | hb
    · refine ⟨Nat.lt_succ_self _, fun v b => ?_, ?_, ?_, fun _ => rfl, fun hp => ?_,
        Nat.zero_le _, fun hp => ?_⟩
      · rw [List.mem_append, List.mem_singleton]
        refine (or_iff_right fun hm => hnone _ hm rfl).trans ?_
        simp
      · rw [startedBy_snoc, startedBy_single (by simp)]
        refine List.countP_eq_zero.mpr fun y hy => ?_
        cases y with
        | invoked v d e =>
            simp only [decide_eq_true_eq]
            rintro rfl
            exact hnone _ hy rfl
        | _ => simp
      · refine iff_of_false (fun hm => ?_) (by simp [Activation.inProgress])
        rcases List.mem_append.mp hm with hm | hm
        · exact hnone _ hm rfl
        · simp at hm
      · cases hp
      · cases hp
    · obtain ⟨hlt, he⟩ := hl.entries u b hb
      refine ⟨Nat.lt_succ_of_lt hlt, he.other fun e => ?_⟩
      exact hlt.ne' (Option.some.inj e)
  · rcases hold u b hb with ⟨rfl, rfl⟩ | hb' <;> rcases hold v c hc with ⟨rfl, rfl⟩ | hc'
    · rfl
    · exact absurd hbc (hl.entries v c hc').1.ne'
    · exact absurd hbc (hl.entries u b hb').1.ne
    · exact hl.one_stack u v b hb' c hc' hbc
  · by_cases hu : u = t
    · subst hu
      rw [Function.update_self]
      exact List.pairwise_cons.mpr ⟨fun b hb => (hl.entries u b hb).1, hl.stacked u⟩
    · rw [Function.update_of_ne hu]
      exact hl.stacked u

variable [DecidableEq Event] {B : Board Task Token Owner Event} {s : System B}

/-- **A step keeps the ledger.** -/
theorem Ledger.step (hl : Ledger s.frames s.calls h) {s' : System B} (hs : s.Step x s') :
    Ledger s'.frames s'.calls (h ++ [x]) := by
  cases hs with
  | prepare t hu | stop t hu | post t e | overrun t | clearOverrun t => exact hl.quiet rfl
  | dispatch t budget hu => exact hl.push t budget
  | refuse t a below hs ha hr => exact hl.top hs rfl (.inl rfl)
  | leave t a below hs ha => exact hl.top hs rfl (.inl rfl)
  | enter t a below q hs ha hb hq =>
      obtain ⟨-, he⟩ := hl.entries t a (by simp [hs])
      have hn : a.next = .loop := by
        rw [Activation.next, he.unentered ha, if_pos (Nat.pos_of_ne_zero hb)]
      refine hl.top hs rfl (.inr ⟨_, rfl, rfl, he.move rfl rfl (by simp) ?_ ?_ (.inr rfl) ?_ ?_ ?_⟩)
      · simp [Activation.inside, ha, hn, startedBy]
      · simp [Activation.inProgress, hn]
      · exact fun _ => by simpa [he.unentered ha] using Nat.pos_of_ne_zero hb
      · exact he.handled_le
      · simp [hn]
  | drain t a below hs ha hq =>
      obtain ⟨-, he⟩ := hl.entries t a (by simp [hs])
      refine hl.top hs rfl (.inr ⟨_, rfl, rfl, he.move rfl rfl (by simp) ?_ rfl (.inl ?_)
        (by simp) he.handled_le (fun _ _ => rfl)⟩)
      · simp [Activation.inside, ha, startedBy]
      · simp [Activation.inProgress, ha]
  | remove t a below record q hs ha hq =>
      obtain ⟨-, he⟩ := hl.entries t a (by simp [hs])
      have hp : a.inProgress = true := by simp [Activation.inProgress, ha]
      refine hl.top hs rfl (.inr ⟨_, rfl, rfl, he.move rfl rfl (by simp) ?_ rfl (.inl hp)
        (fun _ => he.running hp (by simp [ha])) he.handled_le (by simp)⟩)
      simp [Activation.inside, ha, startedBy]
  | invoke t a below record e hs ha hr =>
      obtain ⟨-, he⟩ := hl.entries t a (by simp [hs])
      have hp : a.inProgress = true := by simp [Activation.inProgress, ha]
      refine hl.top hs rfl (.inr ⟨_, rfl, rfl, he.move rfl rfl (by simp) ?_ rfl (.inl hp)
        (fun _ => he.running hp (by simp [ha])) he.handled_le (by simp)⟩)
      simp [Activation.inside, ha, startedBy]
  | invokeNull t a below record hs ha hr =>
      refine ⟨hl.known_snoc (le_refl s.calls) fun d hd => ?_, fun u b hb => ?_, hl.one_stack,
        hl.stacked⟩
      · cases hd
        exact (hl.entries t a (by simp [hs])).1
      · obtain ⟨hlt, he⟩ := hl.entries u b hb
        exact ⟨hlt, he.quiet (by simp) (by simp) (by simp)⟩
  | resume t a below hs ha =>
      obtain ⟨-, he⟩ := hl.entries t a (by simp [hs])
      have hp : a.inProgress = true := by simp [Activation.inProgress, ha]
      have hlt : a.handled < a.budget := he.running hp (by simp [ha])
      refine hl.top hs rfl (.inr ⟨_, rfl, rfl, he.move rfl rfl (by simp) ?_ ?_ (.inl hp) ?_ hlt ?_⟩)
      · by_cases hn : a.handled + 1 < a.budget <;> simp [Activation.inside, ha, hn, startedBy]
      · by_cases hn : a.handled + 1 < a.budget <;> simp [Activation.inProgress, hn]
      · by_cases hn : a.handled + 1 < a.budget <;> simp [hn]
      · by_cases hn : a.handled + 1 < a.budget <;> simp [hn]

theorem ledger (owner : Owner) (as : List (Action Task Event)) :
    Ledger (System.after B owner as).1.frames (System.after B owner as).1.calls
      (System.after B owner as).2 := by
  refine (System.machine B).run_induct (P := fun s h => Ledger s.frames s.calls h) .initial
    (fun s h c hl => ?_) as
  show Ledger (s.step c).1.frames (s.step c).1.calls (h ++ (s.step c).2.toList)
  rcases s.step_cases c with hn | ⟨x, s', hx, hs⟩
  · rw [hn]
    simpa using hl
  · rw [hx]
    exact hl.step hs

/-! ### Callbacks on the owner's task -/

/-- What a call has done when it returns. -/
theorem Ledger.returned (hl : Ledger s.frames s.calls h) {d n : Nat} {s' : System B}
    (hs : s.Step (.returned t d n) s') :
    startedBy d h = n ∧ ∃ b, (∀ u b', .called u d b' ∈ h ↔ u = t ∧ b' = b) ∧ n ≤ b ∧
      (.entered t d ∈ h → s'.queue.dispatching = false ∧ (n < b → .drained t d ∈ h)) := by
  generalize hx : Label.returned t d n = x at hs
  cases hs with
  | refuse u a below hf ha hr =>
      obtain ⟨rfl, rfl, rfl⟩ := Label.returned.inj hx
      obtain ⟨-, he⟩ := hl.entries t a (by simp [hf])
      have hst := he.started
      rw [he.unentered ha] at hst
      refine ⟨by simpa [Activation.inside, ha] using hst, a.budget, he.called, Nat.zero_le _,
        fun hm => ?_⟩
      rw [he.entered] at hm
      simp [Activation.inProgress, ha] at hm
  | leave u a below hf ha =>
      obtain ⟨rfl, rfl, rfl⟩ := Label.returned.inj hx
      obtain ⟨-, he⟩ := hl.entries t a (by simp [hf])
      exact ⟨by simpa [Activation.inside, ha] using he.started, a.budget, he.called, he.handled_le,
        fun _ => ⟨rfl, he.drained ha⟩⟩
  | _ => cases hx

theorem owned [DecidableEq Token] {token : Task → Token}
    {B : Board Task Token (Option Token) Event} (hB : B.context = recordingContext token)
    (owner : Option Token) (as : List (Action Task Event)) :
    ∃ m o, Tracks (System.after B owner as).1 m o ∧ Accounts B (System.after B owner as).2 m o ∧
      Owned token (System.after B owner as).2 m o := by
  refine tracks_induct (P := fun h m o => Accounts B h m o ∧ Owned token h m o) owner
    ⟨.initial owner, fun hr => ?_, fun t a ho => ?_⟩ (fun h m o x m' o' ⟨ha, hw⟩ hd hc he => ?_) as
  · rcases hr with hr | hr <;> cases hr
  · cases ho
  · exact ⟨ha.step hd hc he, hw.step hB ha.in_progress he⟩

/-- **Callbacks never overlap, never nest and run only on the owner**, after every schedule, under a
context that records and compares tokens no two tasks share. -/
theorem callbacks_run_singly_on_owner [DecidableEq Token] (token : Task → Token)
    (htoken : Function.Injective token) (B : Board Task Token (Option Token) Event)
    (hB : B.context = recordingContext token) (owner : Option Token)
    (as : List (Action Task Event)) :
    let s := (System.after B owner as).1
    let h := (System.after B owner as).2
    -- at most one call is between setting and clearing `dispatching_`
    (∀ t, (s.frames t).countP Activation.inProgress ≤ 1) ∧
    (∀ t u, ∀ a ∈ s.frames t, ∀ b ∈ s.frames u, a.inProgress = true → b.inProgress = true →
      t = u ∧ a = b) ∧
    (s.queue.dispatching = true ↔ ∃ t, ∃ a ∈ s.frames t, a.inProgress = true) ∧
    -- that call starts every callback, on the task of the last `prepare` that returned true
    (∀ c t d e s', s.step c = (s', some (.invoked t d e)) →
      (∃ a ∈ s.frames t, a.call = d ∧ a.inProgress = true) ∧
        (∀ u, ∀ b ∈ s.frames u, b.point ≠ .callback) ∧
          ∃ h₁ l, h = h₁ ++ .prepared t true :: l ∧ NoPrepare l) ∧
    -- the owner stays while the queue is ready or a call is in progress
    (∀ c, s.queue.ready = true ∨ (∃ t, ∃ a ∈ s.frames t, a.inProgress = true) →
      (s.step c).1.queue.owner = s.queue.owner) ∧
    -- a call that returns
    (∀ c t d n s', s.step c = (s', some (.returned t d n)) →
      startedBy d h = n ∧ ∃ b, (∀ u b', .called u d b' ∈ h ↔ u = t ∧ b' = b) ∧ n ≤ b ∧
        (.entered t d ∈ h → s'.queue.dispatching = false ∧ (n < b → .drained t d ∈ h))) ∧
    (∀ c t d s', s.step c = (s', some (.drained t d)) →
      s.queue.ready = false ∨ s.queue.held = []) := by
  obtain ⟨m, o, ht, ha, hw⟩ := owned hB owner as
  intro s h
  refine ⟨ht.countP_le, fun t u a hma b hmb hpa hpb => ?_, ?_, fun c t d e s' hc => ?_,
    fun c hr => ?_, fun c t d n s' hc => ?_, fun c t d s' hc => ?_⟩
  · have := ht.eq_of_inProgress hma hpa
    rw [ht.eq_of_inProgress hmb hpb] at this
    simpa [eq_comm] using this
  · rw [ht.represents.dispatching_eq, ht.dispatching, ht.isSome_iff]
  · have hs := System.step_some hc
    generalize hx : Label.invoked t d e = x at hs
    cases hs with
    | invoke t' a below record e' hf har he =>
        obtain ⟨rfl, rfl, rfl⟩ := Label.invoked.inj hx
        have hm : a ∈ s.frames t := by simp [hf]
        have hp : a.inProgress = true := by simp [Activation.inProgress, har]
        have ho := ht.eq_of_inProgress hm hp
        refine ⟨⟨a, hm, rfl, hp⟩, ht.not_callback ho har, ?_⟩
        obtain ⟨h₁, u, l, e, hn, hown⟩ := hw.bound (.inr (by rw [ho]; rfl))
        obtain rfl : t = u := htoken (Option.some.inj ((hw.by_owner t a ho).symm.trans hown))
        exact ⟨h₁, l, e, hn⟩
    | _ => cases hx
  · rcases s.step_cases c with hn | ⟨x, s', hx, hs⟩
    · rw [hn]
    · rw [hx]
      obtain ⟨m', o', he, ht'⟩ := ht.step hs
      rw [ht'.represents.owner_eq, ht.represents.owner_eq]
      refine he.owner_eq fun u e => ?_
      subst e
      obtain ⟨hf, hn, -⟩ := he.opens ha.in_progress
      rw [ht.represents.ready_eq, hf, ← ht.isSome_iff, hn] at hr
      simp at hr
  · exact (ledger owner as).returned (System.step_some hc)
  · obtain ⟨m', o', he, -⟩ := ht.step (System.step_some hc)
    generalize hx : Label.drained t d = x at he
    cases he with
    | drain t' a ho har hm =>
        rw [ht.represents.ready_eq, ht.represents.held_eq]
        exact hm.imp_right fun hw => by rw [hw]; rfl
    | _ => cases hx

/-- A board of two tasks, each its own token, with one place in the ring. -/
def twoTasks : Board Bool Bool (Option Bool) Unit where
  eventQueueCapacity := 1
  capacity_valid := rfl
  context := recordingContext id
  delivery _ := .stream
  intBits := 16
  intBits_eq := .inl rfl

/-- The second task posts, and the first, which prepared, runs the callback. -/
theorem callbacks_run_singly_on_owner_twoTasks :
    let p := System.after twoTasks none
      [.prepare true, .post false (), .dispatch true 1, .advance true, .advance true]
    (p.1.step (.advance true)).2 = some (.invoked true 0 ()) ∧
      ∃ h₁ l, p.2 = h₁ ++ .prepared true true :: l ∧ NoPrepare l :=
  have h := callbacks_run_singly_on_owner id Function.injective_id twoTasks rfl none
    [.prepare true, .post false (), .dispatch true 1, .advance true, .advance true]
  ⟨rfl, (h.2.2.2.1 (.advance true) true 0 () _ rfl).2.2⟩

end Grevir.Event
