import Grevir.Support.Runs
import Mathlib.Logic.Function.Basic

/-!
# Support — Programs

Programs over a store that others use too.  An action of a program reads the value under one key or
replaces it, at once; between two actions anything may happen.  A program is the tree of what it does
next, for every value it may read.

* `Ran`: what a program has done and what it has left, with a rule for each way a program is written.
* `Program.Writes`: what a program may write, whatever it reads.
* `System`: any number of programs side by side, each stopping where it likes, and changes to the
  store from outside.
* `traced`: under a key that is not changed from outside, what is read was written.
* `exec`, `exec_ran`: one program by itself, for a number of actions, and what it has done then.
* `complete`: one program by itself to its end.
* `ran_replaceAll`, `Replays.replaced`: values under different keys, replaced one after another.
-/

namespace Programs

/-- A value or none under every key. -/
abbrev Store (K V : Type) := K → Option V

inductive Program (K V ε α : Type) where
  | done (result : α)
  | fail (error : ε)
  | read (key : K) (next : Option V → Program K V ε α)
  | write (key : K) (value : Option V) (next : Program K V ε α)

/-- An action as it took place. -/
inductive Event (K V : Type) where
  | read (key : K) (value : Option V)
  | write (key : K) (value : Option V)

variable {K V ε α β : Type}

namespace Program

def bind (f : α → Program K V ε β) : Program K V ε α → Program K V ε β
  | .done a => f a
  | .fail e => .fail e
  | .read k next => .read k fun v => (next v).bind f
  | .write k v next => .write k v (next.bind f)

instance monad : Monad (Program K V ε) where
  pure := .done
  bind p f := p.bind f

end Program

/-- The value under a key. -/
def load (key : K) : Program K V ε (Option V) := .read key .done

/-- The value under a key replaced; `none` deletes it. -/
def replace (key : K) (value : Option V) : Program K V ε Unit := .write key value (.done ())

/-- A computation that leaves the store alone. -/
def ofExcept : Except ε α → Program K V ε α
  | .ok a => .done a
  | .error e => .fail e

/-- The program answers. -/
def Program.isDone : Program K V ε α → Bool
  | .done _ => true
  | _ => false

/-! ### What a program has done -/

/-- **`p` has done the actions of the log and has `q` left.** -/
inductive Ran : Program K V ε α → List (Event K V) → Program K V ε α → Prop
  | nil (p : Program K V ε α) : Ran p [] p
  | read {key : K} {value : Option V} {next : Option V → Program K V ε α}
      {log : List (Event K V)} {q : Program K V ε α} (h : Ran (next value) log q) :
      Ran (.read key next) (.read key value :: log) q
  | write {key : K} {value : Option V} {next : Program K V ε α} {log : List (Event K V)}
      {q : Program K V ε α} (h : Ran next log q) :
      Ran (.write key value next) (.write key value :: log) q

section Ran

variable {log : List (Event K V)} {p q : Program K V ε α}

theorem Ran.trans {log' : List (Event K V)} {r : Program K V ε α} (h : Ran p log q)
    (h' : Ran q log' r) : Ran p (log ++ log') r := by
  induction h with
  | nil => exact h'
  | read _ ih => exact .read (ih h')
  | write _ ih => exact .write (ih h')

theorem ran_pure {a : α} : Ran (pure a) log q ↔ log = [] ∧ q = .done a := by
  constructor
  · intro h
    cases h
    exact ⟨rfl, rfl⟩
  · rintro ⟨rfl, rfl⟩
    exact .nil _

theorem ran_load {key : K} {f : Option V → Program K V ε α} :
    Ran (load key >>= f) log q ↔ (log = [] ∧ q = load key >>= f) ∨
      ∃ value rest, log = .read key value :: rest ∧ Ran (f value) rest q := by
  constructor
  · intro h
    cases h with
    | nil => exact .inl ⟨rfl, rfl⟩
    | read h => exact .inr ⟨_, _, rfl, h⟩
  · rintro (⟨rfl, rfl⟩ | ⟨value, rest, rfl, h⟩)
    · exact .nil _
    · exact .read h

theorem ran_replace {key : K} {value : Option V} {f : Unit → Program K V ε α} :
    Ran (replace key value >>= f) log q ↔ (log = [] ∧ q = replace key value >>= f) ∨
      ∃ rest, log = .write key value :: rest ∧ Ran (f ()) rest q := by
  constructor
  · intro h
    cases h with
    | nil => exact .inl ⟨rfl, rfl⟩
    | write h => exact .inr ⟨_, rfl, h⟩
  · rintro (⟨rfl, rfl⟩ | ⟨rest, rfl, h⟩)
    · exact .nil _
    · exact .write h

/-- A replacement that is the last thing done. -/
theorem ran_replace_last {key : K} {value : Option V} {log : List (Event K V)}
    {q : Program K V ε Unit} :
    Ran (replace key value) log q ↔
      (log = [] ∧ q = replace key value) ∨ log = [.write key value] ∧ q = .done () := by
  constructor
  · intro h
    cases h with
    | nil => exact .inl ⟨rfl, rfl⟩
    | write h =>
        cases h
        exact .inr ⟨rfl, rfl⟩
  · rintro (⟨rfl, rfl⟩ | ⟨rfl, rfl⟩)
    · exact .nil _
    · exact .write (.nil _)

theorem ran_ofExcept {c : Except ε β} {f : β → Program K V ε α} :
    Ran (ofExcept c >>= f) log q ↔ (∃ e, c = .error e ∧ log = [] ∧ q = .fail e) ∨
      ∃ b, c = .ok b ∧ Ran (f b) log q := by
  cases c with
  | error e =>
      constructor
      · intro h
        cases h
        exact .inl ⟨e, rfl, rfl, rfl⟩
      · rintro (⟨_, heq, rfl, rfl⟩ | ⟨b, heq, -⟩)
        · cases heq
          exact .nil _
        · cases heq
  | ok b =>
      constructor
      · exact fun h => .inr ⟨b, rfl, h⟩
      · rintro (⟨_, heq, -⟩ | ⟨_, heq, h⟩)
        · cases heq
        · cases heq
          exact h

/-- A program whose result is only put in other words. -/
theorem ran_map {f : α → β} {r : Program K V ε β} (h : Ran (f <$> p) log r) :
    ∃ q, Ran p log q ∧ r = f <$> q := by
  induction p generalizing log with
  | done a =>
      cases h
      exact ⟨.done a, .nil _, rfl⟩
  | fail e =>
      cases h
      exact ⟨.fail e, .nil _, rfl⟩
  | read key next ih =>
      cases h with
      | nil => exact ⟨.read key next, .nil _, rfl⟩
      | read h =>
          obtain ⟨q, hq, rfl⟩ := ih _ h
          exact ⟨q, .read hq, rfl⟩
  | write key value next ih =>
      cases h with
      | nil => exact ⟨.write key value next, .nil _, rfl⟩
      | write h =>
          obtain ⟨q, hq, rfl⟩ := ih h
          exact ⟨q, .write hq, rfl⟩

end Ran

/-! ### Values replaced one after another -/

/-- The values of a list, each under its key. -/
def replaceAll : List (K × V) → Program K V ε Unit
  | [] => pure ()
  | (key, value) :: rest => do
      replace key (some value)
      replaceAll rest

/-- The actions that takes. -/
def replacements (l : List (K × V)) : List (Event K V) := l.map fun x => .write x.1 (some x.2)

/-- **What is replaced of a list**: the first of it, or all and what comes after. -/
theorem ran_replaceAll {l : List (K × V)} {f : Unit → Program K V ε α} {log : List (Event K V)}
    {q : Program K V ε α} (h : Ran (replaceAll l >>= f) log q) :
    (log <+: replacements l ∧ ∀ a, q ≠ .done a) ∨
      ∃ rest, log = replacements l ++ rest ∧ Ran (f ()) rest q := by
  induction l generalizing log with
  | nil => exact .inr ⟨log, rfl, h⟩
  | cons x l ih =>
      have hstep : Ran (replace x.1 (some x.2) >>= fun _ => replaceAll l >>= f) log q := h
      rcases ran_replace.mp hstep with ⟨rfl, rfl⟩ | ⟨rest, rfl, hrest⟩
      · exact .inl ⟨List.nil_prefix, nofun⟩
      · rcases ih hrest with ⟨hlead, hq⟩ | ⟨rest', rfl, hran⟩
        · exact .inl ⟨List.cons_prefix_cons.mpr ⟨rfl, hlead⟩, hq⟩
        · exact .inr ⟨rest', rfl, hran⟩

/-! ### What a program may write -/

/-- All that a program may write is of some kind, whatever it reads. -/
def Program.Writes (P : K → Option V → Prop) : Program K V ε α → Prop
  | .done _ => True
  | .fail _ => True
  | .read _ next => ∀ value, (next value).Writes P
  | .write key value next => P key value ∧ next.Writes P

section Writes

variable {P : K → Option V → Prop}

theorem Ran.writes {log : List (Event K V)} {p q : Program K V ε α} (h : Ran p log q)
    (hp : p.Writes P) : ∀ key value, .write key value ∈ log → P key value := by
  induction h with
  | nil => intro key value hmem; cases hmem
  | read _ ih =>
      intro key value hmem
      rcases List.mem_cons.mp hmem with heq | hmem
      · cases heq
      · exact ih (hp _) key value hmem
  | write _ ih =>
      intro key value hmem
      rcases List.mem_cons.mp hmem with heq | hmem
      · cases heq
        exact hp.1
      · exact ih hp.2 key value hmem

theorem writes_pure (a : α) : (pure a : Program K V ε α).Writes P := trivial

theorem writes_load {key : K} {f : Option V → Program K V ε α}
    (h : ∀ value, (f value).Writes P) : (load key >>= f).Writes P := h

theorem writes_ofExcept {c : Except ε β} {f : β → Program K V ε α}
    (h : ∀ b, c = .ok b → (f b).Writes P) : (ofExcept c >>= f).Writes P := by
  cases c with
  | error e => exact trivial
  | ok b => exact h b rfl

end Writes

/-! ### One action -/

variable [DecidableEq K]

/-- The store after an action. -/
def Event.apply (s : Store K V) : Event K V → Store K V
  | .read _ _ => s
  | .write key value => Function.update s key value

/-- What a program does next in some store, and what it has left then. -/
def Program.next (s : Store K V) : Program K V ε α → Option (Event K V × Program K V ε α)
  | .done _ => none
  | .fail _ => none
  | .read key next => some (.read key (s key), next (s key))
  | .write key value next => some (.write key value, next)

omit [DecidableEq K] in
theorem Program.ran_next {s : Store K V} {p q : Program K V ε α} {e : Event K V}
    (h : p.next s = some (e, q)) : Ran p [e] q := by
  cases p with
  | done => cases h
  | fail => cases h
  | read key next =>
      cases h
      exact .read (.nil _)
  | write key value next =>
      cases h
      exact .write (.nil _)

omit [DecidableEq K] in
/-- What is read is in the store. -/
theorem Program.next_read {s : Store K V} {p q : Program K V ε α} {key : K} {value : Option V}
    (h : p.next s = some (.read key value, q)) : value = s key := by
  cases p with
  | read key next =>
      cases h
      rfl
  | _ => cases h

/-! ### A program by itself -/

/-- **The actions of the log take the store `s` to `s'`**, and what they read was in it. -/
def Replays : Store K V → List (Event K V) → Store K V → Prop
  | s, [], s' => s' = s
  | s, .read key value :: log, s' => value = s key ∧ Replays s log s'
  | s, .write key value :: log, s' => Replays (Function.update s key value) log s'

/-- What no action of the log replaces stays. -/
theorem Replays.frame {s s' : Store K V} {log : List (Event K V)} (h : Replays s log s') {key : K}
    (hkey : ∀ value, .write key value ∉ log) : s' key = s key := by
  induction log generalizing s with
  | nil => rw [show s' = s from h]
  | cons e log ih =>
      have hrest : ∀ value, .write key value ∉ log := fun value hmem =>
        hkey value (List.mem_cons_of_mem _ hmem)
      cases e with
      | read key' value' => exact ih h.2 hrest
      | write key' value' =>
          have hne : key ≠ key' := by
            rintro rfl
            exact hkey value' List.mem_cons_self
          rw [ih (show Replays _ log s' from h) hrest, Function.update_of_ne hne]

/-- Values under different keys, replaced one after another and left alone then, are there. -/
theorem Replays.replaced {s s' : Store K V} {l : List (K × V)} {log : List (Event K V)}
    (h : Replays s (replacements l ++ log) s') (hl : (l.map Prod.fst).Nodup)
    (hlog : ∀ x ∈ l, ∀ value, .write x.1 value ∉ log) : ∀ x ∈ l, s' x.1 = some x.2 := by
  induction l generalizing s with
  | nil => simp
  | cons y l ih =>
      rw [List.map_cons, List.nodup_cons] at hl
      rw [List.forall_mem_cons] at hlog ⊢
      have hrest : Replays (Function.update s y.1 (some y.2)) (replacements l ++ log) s' := h
      refine ⟨?_, ih hrest hl.2 hlog.2⟩
      rw [hrest.frame, Function.update_self]
      intro value hmem
      rcases List.mem_append.mp hmem with hmem | hmem
      · obtain ⟨x, hx, heq⟩ := List.mem_map.mp hmem
        injection heq with hkey
        exact hl.1 (hkey ▸ List.mem_map_of_mem hx)
      · exact hlog.1 value hmem

/-- The last value a log replaces is there. -/
theorem Replays.last {s s' : Store K V} {log : List (Event K V)} {key : K} {value : Option V}
    (h : Replays s (log ++ [.write key value]) s') : s' key = value := by
  induction log generalizing s with
  | nil =>
      have hs' : s' = Function.update s key value := h
      rw [hs', Function.update_self]
  | cons e log ih =>
      cases e with
      | read key' value' => exact ih h.2
      | write key' value' => exact ih (s := Function.update s key' value') h

section Exec

variable {s s' : Store K V} {q : Program K V ε α}

/-- The store a program leaves after some actions at most, and what it has left. -/
def Program.exec : Nat → Store K V → Program K V ε α → Store K V × Program K V ε α
  | 0, s, p => (s, p)
  | n + 1, s, p =>
      match p.next s with
      | some (e, q) => q.exec n (e.apply s)
      | none => (s, p)

/-- **What a program has done by itself**, after some number of actions at most. -/
theorem Program.exec_ran (n : Nat) (s : Store K V) (p : Program K V ε α) :
    ∃ log, log.length ≤ n ∧ Ran p log (p.exec n s).2 ∧ Replays s log (p.exec n s).1 := by
  induction n generalizing s p with
  | zero => exact ⟨[], Nat.le_refl 0, .nil p, rfl⟩
  | succ n ih =>
      cases p with
      | done a => exact ⟨[], Nat.zero_le _, .nil _, rfl⟩
      | fail e => exact ⟨[], Nat.zero_le _, .nil _, rfl⟩
      | read key next =>
          obtain ⟨log, hlength, hran, hreplays⟩ := ih s (next (s key))
          exact ⟨.read key (s key) :: log, Nat.succ_le_succ hlength, .read hran, rfl, hreplays⟩
      | write key value next =>
          obtain ⟨log, hlength, hran, hreplays⟩ := ih (Function.update s key value) next
          exact ⟨.write key value :: log, Nat.succ_le_succ hlength, .write hran, hreplays⟩

theorem Program.exec_stopped {p : Program K V ε α} (h : p.next s = none) (n : Nat) :
    p.exec n s = (s, p) := by
  cases n with
  | zero => rfl
  | succ n => rw [Program.exec, h]

theorem Program.exec_next {p : Program K V ε α} {e : Event K V} (h : p.next s = some (e, q))
    (n : Nat) : p.exec (n + 1) s = q.exec n (e.apply s) := by
  rw [Program.exec, h]

theorem exec_load {key : K} {f : Option V → Program K V ε α} (n : Nat) (s : Store K V) :
    (load key >>= f).exec (n + 1) s = (f (s key)).exec n s := rfl

theorem exec_replace {key : K} {value : Option V} {f : Unit → Program K V ε α} (n : Nat)
    (s : Store K V) :
    (replace key value >>= f).exec (n + 1) s = (f ()).exec n (Function.update s key value) := rfl

theorem exec_replaceAll (l : List (K × V)) (f : Unit → Program K V ε α) (n : Nat) (s : Store K V) :
    ∃ s', (replaceAll l >>= f).exec (l.length + n) s = (f ()).exec n s' := by
  induction l generalizing s with
  | nil => exact ⟨s, by rw [List.length_nil, Nat.zero_add]; rfl⟩
  | cons x l ih =>
      obtain ⟨s', hs'⟩ := ih (Function.update s x.1 (some x.2))
      refine ⟨s', Eq.trans ?_ hs'⟩
      rw [List.length_cons, Nat.add_right_comm]
      rfl

omit [DecidableEq K] in
theorem ofExcept_ok (b : β) (f : β → Program K V ε α) :
    ofExcept (.ok b) >>= f = f b := rfl

/-- One action more than some is the next one after them. -/
theorem Program.exec_succ (n : Nat) (s : Store K V) (p : Program K V ε α) :
    p.exec (n + 1) s = (p.exec n s).2.exec 1 (p.exec n s).1 := by
  induction n generalizing s p with
  | zero => rfl
  | succ n ih =>
      cases h : p.next s with
      | none => rw [exec_stopped h, exec_stopped h, exec_stopped h]
      | some x => rw [exec_next h, exec_next h, ih]

/-- A program that has answered does nothing more. -/
theorem Program.exec_of_le {m n : Nat} (hle : m ≤ n) {s : Store K V} {p : Program K V ε α}
    (h : (p.exec m s).2.isDone) : p.exec n s = p.exec m s := by
  induction hle with
  | refl => rfl
  | step _ ih =>
      have hnext : ∀ {q : Program K V ε α} {s' : Store K V}, q.isDone → q.next s' = none := by
        intro q s' hq
        cases q <;> first | rfl | cases hq
      rw [Program.exec_succ, ih, Program.exec_stopped (hnext h)]

/-- The store a program leaves by itself, and how it ends. -/
def Program.complete (s : Store K V) : Program K V ε α → Store K V × Except ε α
  | .done a => (s, .ok a)
  | .fail e => (s, .error e)
  | .read key next => (next (s key)).complete s
  | .write key value next => next.complete (Function.update s key value)

/-- A program that is through after some actions has the same end without a bound. -/
theorem Program.complete_of_exec {n : Nat} {p : Program K V ε α} {a : α}
    (h : p.exec n s = (s', .done a)) : p.complete s = (s', .ok a) := by
  induction n generalizing s p with
  | zero =>
      cases h
      rfl
  | succ n ih =>
      cases p with
      | done b =>
          cases h
          rfl
      | fail e => cases h
      | read key next => exact ih (p := next (s key)) h
      | write key value next => exact ih (s := Function.update s key value) (p := next) h

theorem Program.exists_exec_of_complete {p : Program K V ε α} {a : α}
    (h : p.complete s = (s', .ok a)) : ∃ n, p.exec n s = (s', .done a) := by
  induction p generalizing s with
  | done b =>
      cases h
      exact ⟨0, rfl⟩
  | fail e => cases h
  | read key next ih =>
      obtain ⟨n, hn⟩ := ih (s key) h
      exact ⟨n + 1, hn⟩
  | write key value next ih =>
      obtain ⟨n, hn⟩ := ih h
      exact ⟨n + 1, hn⟩

/-- A program whose result is only put in other words, by itself. -/
theorem exec_map (f : α → β) (n : Nat) (s : Store K V) (p : Program K V ε α) :
    (f <$> p).exec n s = ((p.exec n s).1, f <$> (p.exec n s).2) := by
  induction n generalizing s p with
  | zero => rfl
  | succ n ih =>
      cases p with
      | done a => rfl
      | fail e => rfl
      | read key next => exact ih s (next (s key))
      | write key value next => exact ih _ next

end Exec

/-! ### Programs side by side -/

section System

variable {C : Type} (code : C → Program K V ε α)

/-- A running program, with what it has done so far. -/
structure Process where
  command : C
  log : List (Event K V)
  rest : Program K V ε α
  ran : Ran (code command) log rest

structure System where
  store : Store K V
  processes : List (Process code)

inductive Action (C K V : Type) where
  /-- A program is started. -/
  | start (command : C)
  /-- A program does its next action. -/
  | step (index : Nat)
  /-- The store is changed from outside. -/
  | change (key : K) (value : Option V)

variable {code}

/-- The next action of a process, and the process after it. -/
def Process.advance (p : Process code) (s : Store K V) : Option (Event K V × Process code) :=
  match h : p.rest.next s with
  | none => none
  | some (e, rest) => some (e, ⟨p.command, p.log ++ [e], rest, p.ran.trans (Program.ran_next h)⟩)

/-- One process does its next action, if it has one. -/
def System.advance (x : System code) (index : Nat) : System code :=
  match x.processes[index]?.bind (·.advance x.store) with
  | some (e, p) => ⟨e.apply x.store, x.processes.set index p⟩
  | none => x

variable (code)

/-- Programs side by side, where `permitted` says what may be changed from outside.  What cannot take
place leaves all as it is; a program that is never stepped again has stopped. -/
def machine (permitted : K → Option V → Bool) :
    Runs.Machine (System code) (Action C K V) Empty where
  step x
    | .start command => ({ x with processes := x.processes ++ [⟨command, [], _, .nil _⟩] }, none)
    | .step index => (x.advance index, none)
    | .change key value =>
        (if permitted key value then { x with store := Function.update x.store key value } else x, none)

variable {code}

/-- Some process wrote this value under the key. -/
def System.Written (x : System code) (key : K) (value : V) : Prop :=
  ∃ p ∈ x.processes, .write key (some value) ∈ p.log

/-- What is under the key, and what was read there, was written by a process. -/
structure System.Traced (x : System code) (key : K) : Prop where
  stored : ∀ value, x.store key = some value → x.Written key value
  read : ∀ p ∈ x.processes, ∀ value, .read key (some value) ∈ p.log → x.Written key value

omit [DecidableEq K] in
theorem Process.advance_eq_some {p p' : Process code} {s : Store K V} {e : Event K V}
    (h : p.advance s = some (e, p')) :
    p'.command = p.command ∧ p'.log = p.log ++ [e] ∧ p.rest.next s = some (e, p'.rest) := by
  unfold Process.advance at h
  split at h
  · cases h
  · next hnext =>
    cases h
    exact ⟨rfl, rfl, hnext⟩

omit [DecidableEq K] in
theorem Process.advance_eq_none {p : Process code} {s : Store K V} (h : p.rest.next s = none) :
    p.advance s = none := by
  unfold Process.advance
  split
  · rfl
  · next hnext =>
    rw [h] at hnext
    cases hnext

omit [DecidableEq K] in
theorem Process.exists_advance {p : Process code} {s : Store K V} {e : Event K V}
    {q : Program K V ε α} (h : p.rest.next s = some (e, q)) :
    ∃ p', p.advance s = some (e, p') ∧ p'.command = p.command ∧ p'.rest = q := by
  unfold Process.advance
  split
  · next hnext =>
    rw [h] at hnext
    cases hnext
  · next hnext =>
    rw [h] at hnext
    cases hnext
    exact ⟨_, rfl, rfl, rfl⟩

omit [DecidableEq K] in
/-- A member is still there, or was the one replaced. -/
theorem mem_set_of_mem {γ : Type} {l : List γ} {i : Nat} {a b x : γ} (ha : l[i]? = some a)
    (hx : x ∈ l) : x = a ∨ x ∈ l.set i b := by
  obtain ⟨j, hj⟩ := List.mem_iff_getElem?.mp hx
  by_cases hij : i = j
  · left
    rw [← hij, ha] at hj
    exact (Option.some.inj hj).symm
  · right
    refine List.mem_iff_getElem?.mpr ⟨j, ?_⟩
    rw [List.getElem?_set_ne hij, hj]

/-- What a step of the whole can be. -/
theorem machine_step {permitted : K → Option V → Bool} (x : System code) (a : Action C K V) :
    let x' := ((machine code permitted).step x a).1
    x' = x ∨
    (∃ p, p.log = [] ∧ x' = { x with processes := x.processes ++ [p] }) ∨
    (∃ key value, permitted key value ∧ x' = { x with store := Function.update x.store key value }) ∨
    ∃ i p p' e, x.processes[i]? = some p ∧ p.advance x.store = some (e, p') ∧
      x' = ⟨e.apply x.store, x.processes.set i p'⟩ := by
  cases a with
  | start command => exact .inr (.inl ⟨_, rfl, rfl⟩)
  | step index =>
      cases h : x.processes[index]?.bind (·.advance x.store) with
      | none =>
          left
          show x.advance index = x
          rw [System.advance, h]
      | some y =>
          obtain ⟨p, hp, hadvance⟩ := Option.bind_eq_some_iff.mp h
          refine .inr (.inr (.inr ⟨index, p, y.2, y.1, hp, hadvance, ?_⟩))
          show x.advance index = _
          rw [System.advance, h]
  | change key value =>
      by_cases h : permitted key value
      · exact .inr (.inr (.inl ⟨key, value, h, if_pos h⟩))
      · exact .inl (if_neg h)

/-- **A key that is not changed from outside, except cleared, is traced, at every step.** -/
theorem System.Traced.step {permitted : K → Option V → Bool} {key : K}
    (hguard : ∀ value, permitted key (some value) = false) (x : System code) (a : Action C K V)
    (h : x.Traced key) : ((machine code permitted).step x a).1.Traced key := by
  rcases @machine_step _ _ _ _ _ _ code permitted x a with hx | ⟨p, hp, hx⟩ |
    ⟨key', value', hpermitted, hx⟩ | ⟨i, p, p', e, hp, hadvance, hx⟩
  · rw [hx]
    exact h
  · have hmono : ∀ value, x.Written key value →
        System.Written { x with processes := x.processes ++ [p] } key value :=
      fun value ⟨q, hq, hwrite⟩ => ⟨q, List.mem_append_left _ hq, hwrite⟩
    rw [hx]
    refine ⟨fun value hvalue => hmono value (h.stored value hvalue), fun q hq value hread => ?_⟩
    rcases List.mem_append.mp hq with hq | hq
    · exact hmono value (h.read q hq value hread)
    · rw [List.mem_singleton.mp hq, hp] at hread
      cases hread
  · rw [hx]
    refine ⟨fun value hvalue => ?_, h.read⟩
    have hupdate : Function.update x.store key' value' key = some value := hvalue
    rcases eq_or_ne key key' with rfl | hne
    · -- from outside the key was cleared, if anything
      rw [Function.update_self] at hupdate
      rw [hupdate, hguard] at hpermitted
      cases hpermitted
    · rw [Function.update_of_ne hne] at hupdate
      exact h.stored value hupdate
  · obtain ⟨-, hlog, hnext⟩ := Process.advance_eq_some hadvance
    have hlt : i < x.processes.length := (List.getElem?_eq_some_iff.mp hp).1
    have hp' : p' ∈ x.processes.set i p' := List.mem_set hlt p'
    have hmono : ∀ value, x.Written key value →
        System.Written ⟨e.apply x.store, x.processes.set i p'⟩ key value := by
      rintro value ⟨q, hq, hwrite⟩
      rcases mem_set_of_mem hp hq with rfl | hq
      · exact ⟨p', hp', by rw [hlog]; exact List.mem_append_left _ hwrite⟩
      · exact ⟨q, hq, hwrite⟩
    rw [hx]
    constructor
    · intro value hvalue
      cases e with
      | read _ _ => exact hmono value (h.stored value hvalue)
      | write key' value' =>
          have hupdate : Function.update x.store key' value' key = some value := hvalue
          rcases eq_or_ne key key' with rfl | hne
          · rw [Function.update_self] at hupdate
            exact ⟨p', hp', by rw [hlog, hupdate]; simp⟩
          · rw [Function.update_of_ne hne] at hupdate
            exact hmono value (h.stored value hupdate)
    · intro q hq value hread
      rcases List.mem_or_eq_of_mem_set hq with hq | rfl
      · exact hmono value (h.read q hq value hread)
      · rw [hlog, List.mem_append, List.mem_singleton] at hread
        rcases hread with hread | hread
        · exact hmono value (h.read p (List.mem_of_getElem? hp) value hread)
        · -- what was just read is what was stored
          rw [← hread] at hnext
          exact hmono value (h.stored value (Program.next_read hnext).symm)

/-- **Under a key that is empty at first and not filled from outside, all that is there and all that is
read was written by some program.** -/
theorem traced {permitted : K → Option V → Bool} {key : K}
    (hguard : ∀ value, permitted key (some value) = false) {s : Store K V} (hs : s key = none)
    (actions : List (Action C K V)) :
    ((machine code permitted).run ⟨s, []⟩ actions).1.Traced key := by
  refine (machine code permitted).run_invariant (I := fun x => x.Traced key)
    ⟨fun value hvalue => ?_, fun p hp => ?_⟩ (fun x a h => h.step hguard x a) actions
  · have hnone : s key = some value := hvalue
    rw [hs] at hnone
    cases hnone
  · cases hp

/-- A program started and then stepped, with no action of another between, runs by itself. -/
theorem run_alone (permitted : K → Option V → Bool) (x : System code) (c : C) (n : Nat) :
    ∃ p : Process code,
      ((machine code permitted).run x (.start c :: .replicate n (.step x.processes.length))).1 =
        ⟨((code c).exec n x.store).1, x.processes ++ [p]⟩ ∧
      p.command = c ∧ p.rest = ((code c).exec n x.store).2 := by
  induction n with
  | zero => exact ⟨_, rfl, rfl, rfl⟩
  | succ n ih =>
      obtain ⟨p, hrun, hcommand, hrest⟩ := ih
      have hget : (x.processes ++ [p])[x.processes.length]? = some p := List.getElem?_concat_length
      have hstep : (machine code permitted).run x
          (.start c :: .replicate (n + 1) (.step x.processes.length)) =
          (machine code permitted).run x
            ((.start c :: .replicate n (.step x.processes.length)) ++ [.step x.processes.length]) := by
        rw [List.cons_append, ← List.replicate_succ']
      rw [hstep, Runs.Machine.run_snoc, hrun, Program.exec_succ, ← hrest]
      show ∃ p', System.advance _ _ = _ ∧ _
      cases hnext : p.rest.next ((code c).exec n x.store).1 with
      | none =>
          refine ⟨p, ?_, hcommand, ?_⟩
          · rw [System.advance, hget, Option.bind_some, Process.advance_eq_none hnext,
              Program.exec_stopped hnext]
          · rw [Program.exec_stopped hnext]
      | some y =>
          obtain ⟨p', hadvance, hcommand', hrest'⟩ := Process.exists_advance hnext
          refine ⟨p', ?_, hcommand'.trans hcommand, ?_⟩
          · rw [System.advance, hget, Option.bind_some, hadvance, Program.exec_next hnext]
            simp [Program.exec]
          · rw [Program.exec_next hnext, hrest', Program.exec]

/-- A program run by itself after some schedule. -/
theorem exists_run_alone (permitted : K → Option V → Bool) {x y : System code}
    {actions : List (Action C K V)} (hy : ((machine code permitted).run x actions).1 = y) {c : C}
    {n : Nat} {s : Store K V} {q : Program K V ε α} (h : (code c).exec n y.store = (s, q)) :
    ∃ (actions : List (Action C K V)) (p : Process code),
      ((machine code permitted).run x actions).1 = ⟨s, y.processes ++ [p]⟩ ∧ p.command = c ∧
      p.rest = q := by
  obtain ⟨p, hrun, hcommand, hrest⟩ := run_alone permitted y c n
  rw [h] at hrun hrest
  refine ⟨actions ++ .start c :: .replicate n (.step y.processes.length), p, ?_, hcommand, hrest⟩
  rw [Runs.Machine.run_append, hy, hrun]

end System

end Programs
