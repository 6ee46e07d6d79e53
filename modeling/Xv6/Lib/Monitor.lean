import Xv6.Lib.Transition

/-!
# Code under locks that sleeps and wakes

Processes run calls. A call takes one lock, works on the data under it, and may on the way wake the
sleepers of a channel or go to sleep on one, which gives the lock up for that time. Going to sleep is not
atomic: a second lock, over the table of processes, is taken before the first one is released and the
process is marked asleep. A kill marks a process and makes it runnable if it sleeps; the code of a call sees
the mark only where it looks at it.

The code of the calls is a parameter. A system of any number of processes that run it is an automaton.
-/

namespace Lib.Monitor

/-- What the code does next at a program point with the lock held. -/
inductive Action (κ σ π ω : Type) where
  | run (d : σ) (q : π) (es : List ω)
  | wakeup (c : κ) (q : π)
  | sleep (c : κ) (q : π)
  | leave (es : List ω)

namespace Action

variable {κ σ π ω κ' σ' π' ω' : Type}

/-- The action of a part of the code, on its part of the data. -/
def lift (fc : κ → κ') (fd : σ → σ') (fq : π → π') (fo : ω → ω') : Action κ σ π ω → Action κ' σ' π' ω'
  | .run d q es => .run (fd d) (fq q) (es.map fo)
  | .wakeup c q => .wakeup (fc c) (fq q)
  | .sleep c q => .sleep (fc c) (fq q)
  | .leave es => .leave (es.map fo)

variable {fc : κ → κ'} {fd : σ → σ'} {fq : π → π'} {fo : ω → ω'} {a : Action κ σ π ω}

variable {q' : π'}

theorem lift_eq_run {d' : σ'} {es' : List ω'} : a.lift fc fd fq fo = .run d' q' es' ↔
    ∃ d q es, a = .run d q es ∧ fd d = d' ∧ fq q = q' ∧ es.map fo = es' := by
  cases a <;> simp [lift]

theorem lift_eq_wakeup {c' : κ'} : a.lift fc fd fq fo = .wakeup c' q' ↔
    ∃ c q, a = .wakeup c q ∧ fc c = c' ∧ fq q = q' := by
  cases a <;> simp [lift]

theorem lift_eq_sleep {c' : κ'} : a.lift fc fd fq fo = .sleep c' q' ↔
    ∃ c q, a = .sleep c q ∧ fc c = c' ∧ fq q = q' := by
  cases a <;> simp [lift]

theorem lift_eq_leave {es' : List ω'} : a.lift fc fd fq fo = .leave es' ↔ ∃ es, a = .leave es ∧ es.map fo = es' := by
  cases a <;> simp [lift]

end Action

/-- The calls `γ` and their program points `π`. An action stays under the lock it was reached with. -/
structure Code (ℓ κ σ π ω γ : Type) where
  lock : π → ℓ
  entry : γ → π
  act : π → σ → Bool → Action κ σ π ω
  lock_run : ∀ q d b d' q' es, act q d b = .run d' q' es → lock q' = lock q
  lock_wakeup : ∀ q d b c q', act q d b = .wakeup c q' → lock q' = lock q
  lock_sleep : ∀ q d b c q', act q d b = .sleep c q' → lock q' = lock q

/-- Where a process is. The number is that of its call. From `locking` to `waking` it is in `sleep`, and will
go on at the program point when it has the lock again. -/
inductive Pos (κ π : Type) where
  | out
  | entering (k : Nat) (q : π)
  | inside (k : Nat) (q : π)
  | locking (k : Nat) (c : κ) (q : π)
  | unlocking (k : Nat) (c : κ) (q : π)
  | dozing (k : Nat) (c : κ) (q : π)
  | sched (k : Nat) (c : κ) (q : π)
  | waking (k : Nat) (q : π)

inductive Status where
  | running | sleeping | runnable
deriving DecidableEq

structure State (ι ℓ κ σ π ω γ : Type) where
  data : σ
  lock : ℓ → Option ι
  table : Option ι
  pos : ι → Pos κ π
  status : ι → Status
  chan : ι → Option κ
  killed : ι → Bool
  calls : List γ
  trace : List (Nat × ω)

inductive Label (ι γ : Type) where
  | call (i : ι) (g : γ)
  | go (i : ι)
  | dispatch (i : ι)
  | kill (i : ι)

variable {ι ℓ κ σ π ω γ : Type}

namespace Pos

/-- The lock is held between `acquire` and `release`, the first steps of `sleep` included. -/
def Holds (C : Code ℓ κ σ π ω γ) (l : ℓ) : Pos κ π → Prop
  | .inside _ q | .locking _ _ q | .unlocking _ _ q => C.lock q = l
  | _ => False

def HoldsTable : Pos κ π → Prop
  | .unlocking .. | .dozing .. | .waking .. => True
  | _ => False

def call? : Pos κ π → Option Nat
  | .out => none
  | .entering k _ | .inside k _ | .locking k _ _ | .unlocking k _ _ | .dozing k _ _ | .sched k _ _ | .waking k _ => some k

def point? : Pos κ π → Option π
  | .out => none
  | .entering _ q | .inside _ q | .locking _ _ q | .unlocking _ _ q | .dozing _ _ q | .sched _ _ q | .waking _ q => some q

end Pos

variable [DecidableEq ι] [DecidableEq ℓ] [DecidableEq κ]

namespace State

def goto (s : State ι ℓ κ σ π ω γ) (i : ι) (p : Pos κ π) : State ι ℓ κ σ π ω γ :=
  { s with pos := Function.update s.pos i p }

def wake (s : State ι ℓ κ σ π ω γ) (c : κ) : State ι ℓ κ σ π ω γ :=
  { s with status := fun i => if s.status i = .sleeping ∧ s.chan i = some c then .runnable else s.status i }

def emit (s : State ι ℓ κ σ π ω γ) (k : Nat) (es : List ω) : State ι ℓ κ σ π ω γ :=
  { s with trace := s.trace ++ es.map (k, ·) }

end State

/-- One action of the code for a process that holds the lock. -/
def perform (C : Code ℓ κ σ π ω γ) (s : State ι ℓ κ σ π ω γ) (i : ι) (k : Nat) (q : π) :
    Action κ σ π ω → Outcome Empty (State ι ℓ κ σ π ω γ)
  | .run d q' es => .next (({ s with data := d }.goto i (.inside k q')).emit k es)
  | .wakeup c q' => if s.table = none then .next ((s.wake c).goto i (.inside k q')) else .disabled
  | .sleep c q' => .next (s.goto i (.locking k c q'))
  | .leave es => .next (({ s with lock := Function.update s.lock (C.lock q) none }.goto i .out).emit k es)

/-- A process goes on from where it is. `sched` hands the table's lock to the scheduler, which releases it;
the next step of a process in `sched` is the scheduler's. -/
def proceed (C : Code ℓ κ σ π ω γ) (s : State ι ℓ κ σ π ω γ) (i : ι) :
    Pos κ π → Outcome Empty (State ι ℓ κ σ π ω γ)
  | .out | .sched .. => .disabled
  | .entering k q =>
    if s.lock (C.lock q) = none then
      .next ({ s with lock := Function.update s.lock (C.lock q) (some i) }.goto i (.inside k q))
    else .disabled
  | .inside k q => perform C s i k q (C.act q s.data (s.killed i))
  | .locking k c q =>
    if s.table = none then .next ({ s with table := some i }.goto i (.unlocking k c q)) else .disabled
  | .unlocking k c q =>
    .next ({ s with lock := Function.update s.lock (C.lock q) none }.goto i (.dozing k c q))
  | .dozing k c q => .next ({ s with
      table := none
      chan := Function.update s.chan i (some c)
      status := Function.update s.status i .sleeping }.goto i (.sched k c q))
  | .waking k q => .next ({ s with table := none, chan := Function.update s.chan i none }.goto i (.entering k q))

def dispatch (s : State ι ℓ κ σ π ω γ) (i : ι) : Pos κ π → Outcome Empty (State ι ℓ κ σ π ω γ)
  | .sched k _ q =>
    if s.table = none ∧ s.status i = .runnable then
      .next ({ s with table := some i, status := Function.update s.status i .running }.goto i (.waking k q))
    else .disabled
  | _ => .disabled

def kill (s : State ι ℓ κ σ π ω γ) (i : ι) : State ι ℓ κ σ π ω γ :=
  { s with
    killed := Function.update s.killed i true
    status := if s.status i = .sleeping then Function.update s.status i .runnable else s.status }

def call (C : Code ℓ κ σ π ω γ) (s : State ι ℓ κ σ π ω γ) (i : ι) (g : γ) :
    Pos κ π → Outcome Empty (State ι ℓ κ σ π ω γ)
  | .out => .next ({ s with calls := s.calls ++ [g] }.goto i (.entering s.calls.length (C.entry g)))
  | _ => .disabled

def step (C : Code ℓ κ σ π ω γ) (s : State ι ℓ κ σ π ω γ) :
    Label ι γ → Outcome Empty (State ι ℓ κ σ π ω γ)
  | .call i g => call C s i g (s.pos i)
  | .go i => proceed C s i (s.pos i)
  | .dispatch i => dispatch s i (s.pos i)
  | .kill i => if s.table = none then .next (kill s i) else .disabled

/-- Nobody is in a call, nobody sleeps and every lock is free. -/
structure Idle (s : State ι ℓ κ σ π ω γ) : Prop where
  lock : ∀ l, s.lock l = none
  table : s.table = none
  pos : ∀ i, s.pos i = .out
  status : ∀ i, s.status i = .running
  killed : ∀ i, s.killed i = false
  calls : s.calls = []
  trace : s.trace = []

def machine (C : Code ℓ κ σ π ω γ) (init : σ → Prop) : Automaton (State ι ℓ κ σ π ω γ) (Label ι γ) Empty where
  start s := Idle s ∧ init s.data
  step := step C

/-! ### The steps -/

section Steps

variable {C : Code ℓ κ σ π ω γ} {s s' : State ι ℓ κ σ π ω γ}

section Goto

omit [DecidableEq ℓ] [DecidableEq κ]

@[simp] theorem goto_pos (s : State ι ℓ κ σ π ω γ) (i j : ι) (p : Pos κ π) :
    (s.goto i p).pos j = if j = i then p else s.pos j := Function.update_apply ..

@[simp] theorem goto_data (s : State ι ℓ κ σ π ω γ) (i : ι) (p : Pos κ π) : (s.goto i p).data = s.data := rfl

@[simp] theorem goto_lock (s : State ι ℓ κ σ π ω γ) (i : ι) (p : Pos κ π) : (s.goto i p).lock = s.lock := rfl

@[simp] theorem goto_table (s : State ι ℓ κ σ π ω γ) (i : ι) (p : Pos κ π) : (s.goto i p).table = s.table := rfl

@[simp] theorem goto_status (s : State ι ℓ κ σ π ω γ) (i : ι) (p : Pos κ π) : (s.goto i p).status = s.status := rfl

@[simp] theorem goto_chan (s : State ι ℓ κ σ π ω γ) (i : ι) (p : Pos κ π) : (s.goto i p).chan = s.chan := rfl

@[simp] theorem goto_killed (s : State ι ℓ κ σ π ω γ) (i : ι) (p : Pos κ π) : (s.goto i p).killed = s.killed := rfl

@[simp] theorem goto_calls (s : State ι ℓ κ σ π ω γ) (i : ι) (p : Pos κ π) : (s.goto i p).calls = s.calls := rfl

@[simp] theorem goto_trace (s : State ι ℓ κ σ π ω γ) (i : ι) (p : Pos κ π) : (s.goto i p).trace = s.trace := rfl

end Goto

omit [DecidableEq ι] [DecidableEq ℓ] in
theorem wake_status (s : State ι ℓ κ σ π ω γ) (c : κ) (i : ι) : (s.wake c).status i = .sleeping ↔
    s.status i = .sleeping ∧ s.chan i ≠ some c := by
  by_cases hsleeping : s.status i = .sleeping <;> by_cases hchan : s.chan i = some c <;>
    simp [State.wake, hsleeping, hchan]

omit [DecidableEq ℓ] [DecidableEq κ] in
theorem kill_status (s : State ι ℓ κ σ π ω γ) (i j : ι) : (kill s i).status j = .sleeping ↔
    s.status j = .sleeping ∧ j ≠ i := by
  by_cases hj : j = i
  · subst hj
    by_cases h : s.status j = .sleeping <;> simp [kill, h]
  · by_cases h : s.status i = .sleeping <;> simp [kill, h, hj]

inductive Trans (C : Code ℓ κ σ π ω γ) (s : State ι ℓ κ σ π ω γ) : Label ι γ → State ι ℓ κ σ π ω γ → Prop where
  | call {i : ι} {g : γ} (hpos : s.pos i = .out) : Trans C s (.call i g)
      ({ s with calls := s.calls ++ [g] }.goto i (.entering s.calls.length (C.entry g)))
  | enter {i : ι} {k : Nat} {q : π} (hpos : s.pos i = .entering k q) (hfree : s.lock (C.lock q) = none) :
      Trans C s (.go i)
        ({ s with lock := Function.update s.lock (C.lock q) (some i) }.goto i (.inside k q))
  | run {i : ι} {k : Nat} {q q' : π} {d : σ} {es : List ω} (hpos : s.pos i = .inside k q)
      (hact : C.act q s.data (s.killed i) = .run d q' es) :
      Trans C s (.go i) (({ s with data := d }.goto i (.inside k q')).emit k es)
  | wakeup {i : ι} {k : Nat} {q q' : π} {c : κ} (hpos : s.pos i = .inside k q)
      (hact : C.act q s.data (s.killed i) = .wakeup c q') (hfree : s.table = none) :
      Trans C s (.go i) ((s.wake c).goto i (.inside k q'))
  | sleep {i : ι} {k : Nat} {q q' : π} {c : κ} (hpos : s.pos i = .inside k q)
      (hact : C.act q s.data (s.killed i) = .sleep c q') : Trans C s (.go i) (s.goto i (.locking k c q'))
  | leave {i : ι} {k : Nat} {q : π} {es : List ω} (hpos : s.pos i = .inside k q)
      (hact : C.act q s.data (s.killed i) = .leave es) :
      Trans C s (.go i) (({ s with lock := Function.update s.lock (C.lock q) none }.goto i .out).emit k es)
  | lockTable {i : ι} {k : Nat} {c : κ} {q : π} (hpos : s.pos i = .locking k c q) (hfree : s.table = none) :
      Trans C s (.go i) ({ s with table := some i }.goto i (.unlocking k c q))
  | unlock {i : ι} {k : Nat} {c : κ} {q : π} (hpos : s.pos i = .unlocking k c q) :
      Trans C s (.go i) ({ s with lock := Function.update s.lock (C.lock q) none }.goto i (.dozing k c q))
  | doze {i : ι} {k : Nat} {c : κ} {q : π} (hpos : s.pos i = .dozing k c q) :
      Trans C s (.go i) ({ s with
        table := none
        chan := Function.update s.chan i (some c)
        status := Function.update s.status i .sleeping }.goto i (.sched k c q))
  | dispatch {i : ι} {k : Nat} {c : κ} {q : π} (hpos : s.pos i = .sched k c q) (hfree : s.table = none)
      (hrunnable : s.status i = .runnable) :
      Trans C s (.dispatch i)
        ({ s with table := some i, status := Function.update s.status i .running }.goto i (.waking k q))
  | awake {i : ι} {k : Nat} {q : π} (hpos : s.pos i = .waking k q) :
      Trans C s (.go i) ({ s with table := none, chan := Function.update s.chan i none }.goto i (.entering k q))
  | kill {i : ι} (hfree : s.table = none) : Trans C s (.kill i) (kill s i)

variable {i : ι}

theorem perform_cases {k : Nat} {q : π} (hpos : s.pos i = .inside k q)
    (h : perform C s i k q (C.act q s.data (s.killed i)) = .next s') : Trans C s (.go i) s' := by
  cases hact : C.act q s.data (s.killed i) with
  | run d q' es =>
    rw [hact] at h
    cases h
    exact .run hpos hact
  | wakeup c q' =>
    simp only [hact, perform] at h
    split at h
    · cases h
      exact .wakeup hpos hact ‹_›
    · cases h
  | sleep c q' =>
    rw [hact] at h
    cases h
    exact .sleep hpos hact
  | leave es =>
    rw [hact] at h
    cases h
    exact .leave hpos hact

theorem proceed_cases (h : proceed C s i (s.pos i) = .next s') : Trans C s (.go i) s' := by
  cases hpos : s.pos i with
  | out | sched =>
    simp only [hpos, proceed] at h
    cases h
  | entering k q =>
    simp only [hpos, proceed] at h
    split at h
    · cases h
      exact .enter hpos ‹_›
    · cases h
  | inside k q =>
    simp only [hpos, proceed] at h
    exact perform_cases hpos h
  | locking k c q =>
    simp only [hpos, proceed] at h
    split at h
    · cases h
      exact .lockTable hpos ‹_›
    · cases h
  | unlocking k c q =>
    rw [hpos] at h
    cases h
    exact .unlock hpos
  | dozing k c q =>
    rw [hpos] at h
    cases h
    exact .doze hpos
  | waking k q =>
    rw [hpos] at h
    cases h
    exact .awake hpos

theorem step_cases {a : Label ι γ} (h : step C s a = .next s') : Trans C s a s' := by
  cases a with
  | call i g =>
    cases hpos : s.pos i with
    | out =>
      simp only [step, hpos, call] at h
      cases h
      exact .call hpos
    | _ =>
      simp only [step, hpos, call] at h
      cases h
  | go i => exact proceed_cases h
  | dispatch i =>
    cases hpos : s.pos i with
    | sched k c q =>
      simp only [step, hpos, dispatch] at h
      split at h
      · rename_i hfree
        cases h
        exact .dispatch hpos hfree.1 hfree.2
      · cases h
    | _ =>
      simp only [step, hpos, dispatch] at h
      cases h
  | kill i =>
    simp only [step] at h
    split at h
    · cases h
      exact .kill ‹_›
    · cases h

theorem step_of_trans {a : Label ι γ} (h : Trans C s a s') : step C s a = .next s' := by
  cases h with
  | call hpos => rw [step, hpos, call]
  | enter hpos hfree => rw [step, hpos, proceed, if_pos hfree]
  | run hpos hact => rw [step, hpos, proceed, hact, perform]
  | wakeup hpos hact hfree => rw [step, hpos, proceed, hact, perform, if_pos hfree]
  | sleep hpos hact => rw [step, hpos, proceed, hact, perform]
  | leave hpos hact => rw [step, hpos, proceed, hact, perform]
  | lockTable hpos hfree => rw [step, hpos, proceed, if_pos hfree]
  | unlock hpos => rw [step, hpos, proceed]
  | doze hpos => rw [step, hpos, proceed]
  | dispatch hpos hfree hrunnable => rw [step, hpos, dispatch, if_pos ⟨hfree, hrunnable⟩]
  | awake hpos => rw [step, hpos, proceed]
  | kill hfree => rw [step, if_pos hfree]

/-- The locks are held by those who are at a place that says so, and who sleeps is in `sched`. -/
structure Wf (C : Code ℓ κ σ π ω γ) (s : State ι ℓ κ σ π ω γ) : Prop where
  holds : ∀ l i, s.lock l = some i ↔ (s.pos i).Holds C l
  table : ∀ i, s.table = some i ↔ (s.pos i).HoldsTable
  asleep : ∀ i, s.status i = .sleeping → ∃ k c q, s.pos i = .sched k c q ∧ s.chan i = some c

omit [DecidableEq ι] [DecidableEq ℓ] [DecidableEq κ] in
theorem Wf.idle (h : Idle s) : Wf C s where
  holds l i := by simp [h.lock, h.pos, Pos.Holds]
  table i := by simp [h.table, h.pos, Pos.HoldsTable]
  asleep i hi := by simp [h.status] at hi

variable {l : ℓ} {j : ι}

omit [DecidableEq ι] [DecidableEq ℓ] [DecidableEq κ] in
theorem Wf.mutex (h : Wf C s) (hi : (s.pos i).Holds C l) (hj : (s.pos j).Holds C l) : i = j :=
  Option.some.inj (((h.holds l i).mpr hi).symm.trans ((h.holds l j).mpr hj))

/-- A lock stays as it is, or the process takes it or gives it back. -/
def Passed (i : ι) (a b : Option ι) : Prop := b = a ∨ a = none ∧ b = some i ∨ a = some i ∧ b = none

omit [DecidableEq ι] in
theorem Passed.iff {a b : Option ι} (h : Passed i a b) (hj : j ≠ i) : b = some j ↔ a = some j := by
  rcases h with rfl | ⟨rfl, rfl⟩ | ⟨rfl, rfl⟩
  · exact Iff.rfl
  · simp [Ne.symm hj]
  · simp [Ne.symm hj]

omit [DecidableEq ι] in
theorem Passed.update {f : ℓ → Option ι} {v : Option ι} (h : Passed i (f l) v) (l' : ℓ) :
    Passed i (f l') (Function.update f l v l') := by
  by_cases hl : l' = l
  · subst hl
    rwa [Function.update_self]
  · exact .inl (Function.update_of_ne hl _ _)

omit [DecidableEq ℓ] [DecidableEq κ] in
/-- One process moves: it is enough to look at what it holds and whether it sleeps. -/
theorem Wf.move {p : Pos κ π} (h : Wf C s) (hpos : s'.pos = Function.update s.pos i p)
    (hlock : ∀ l, Passed i (s.lock l) (s'.lock l)) (htable : Passed i s.table s'.table)
    (hholds : ∀ l, s'.lock l = some i ↔ p.Holds C l) (hown : s'.table = some i ↔ p.HoldsTable)
    (hasleep : ∀ j, s'.status j = .sleeping → (∃ k c q, s'.pos j = .sched k c q ∧ s'.chan j = some c) ∨
      s.status j = .sleeping ∧ s'.chan j = s.chan j ∧ j ≠ i) : Wf C s' where
  holds l j := by
    by_cases hj : j = i
    · subst hj
      rw [hholds, hpos, Function.update_self]
    · rw [(hlock l).iff hj, hpos, Function.update_of_ne hj]
      exact h.holds l j
  table j := by
    by_cases hj : j = i
    · subst hj
      rw [hown, hpos, Function.update_self]
    · rw [htable.iff hj, hpos, Function.update_of_ne hj]
      exact h.table j
  asleep j hj := by
    rcases hasleep j hj with hsched | ⟨hsleeping, hchan, hne⟩
    · exact hsched
    · rw [hpos, Function.update_of_ne hne, hchan]
      exact h.asleep j hsleeping

omit [DecidableEq ι] [DecidableEq ℓ] [DecidableEq κ] in
theorem Wf.awake (h : Wf C s) (hpos : ∀ k c q, s.pos i ≠ .sched k c q)
    (hj : s.status j = .sleeping) : j ≠ i := by
  rintro rfl
  obtain ⟨k, c, q, hq, -⟩ := h.asleep j hj
  exact hpos k c q hq

theorem Wf.step {a : Label ι γ} (h : Wf C s) (hs : Trans C s a s') : Wf C s' := by
  cases hs with
  | @call i g hpos =>
    refine h.move (i := i) rfl (fun _ => .inl rfl) (.inl rfl) ?_ ?_ fun j hj => .inr ⟨hj, rfl, h.awake (by simp [hpos]) hj⟩ <;>
      simp [h.holds, h.table, hpos, Pos.Holds, Pos.HoldsTable]
  | @run i k q q' d es hpos hact =>
    have hlock := C.lock_run _ _ _ _ _ _ hact
    refine h.move (i := i) rfl (fun _ => .inl rfl) (.inl rfl) ?_ ?_ fun j hj => .inr ⟨hj, rfl, h.awake (by simp [hpos]) hj⟩ <;>
      simp [State.emit, h.holds, h.table, hpos, Pos.Holds, Pos.HoldsTable, hlock]
  | @wakeup i k q q' c hpos hact hfree =>
    have hlock := C.lock_wakeup _ _ _ _ _ hact
    refine h.move (i := i) rfl (fun _ => .inl rfl) (.inl rfl) ?_ ?_ fun j hj => ?_
    · simp [State.wake, h.holds, hpos, Pos.Holds, hlock]
    · simp [State.wake, h.table, hpos, Pos.HoldsTable]
    · have hj' := ((wake_status s c j).mp hj).1
      exact .inr ⟨hj', rfl, h.awake (by simp [hpos]) hj'⟩
  | @sleep i k q q' c hpos hact =>
    have hlock := C.lock_sleep _ _ _ _ _ hact
    refine h.move (i := i) rfl (fun _ => .inl rfl) (.inl rfl) ?_ ?_ fun j hj => .inr ⟨hj, rfl, h.awake (by simp [hpos]) hj⟩ <;>
      simp [h.holds, h.table, hpos, Pos.Holds, Pos.HoldsTable, hlock]
  | @enter i k q hpos hfree =>
    refine h.move (i := i) rfl (Passed.update (.inr (.inl ⟨hfree, rfl⟩))) (.inl rfl) ?_ ?_
      fun j hj => .inr ⟨hj, rfl, h.awake (by simp [hpos]) hj⟩
    · simp [Function.update_apply, h.holds, hpos, Pos.Holds, eq_comm (a := C.lock q)]
    · simp [h.table, hpos, Pos.HoldsTable]
  | @leave i k q es hpos hact =>
    have hheld : s.lock (C.lock q) = some i := (h.holds _ i).mpr (by simp [hpos, Pos.Holds])
    refine h.move (i := i) rfl (Passed.update (.inr (.inr ⟨hheld, rfl⟩))) (.inl rfl) ?_ ?_
      fun j hj => .inr ⟨hj, rfl, h.awake (by simp [hpos]) hj⟩
    · simp [State.emit, Function.update_apply, h.holds, hpos, Pos.Holds, eq_comm (a := C.lock q)]
    · simp [State.emit, h.table, hpos, Pos.HoldsTable]
  | @lockTable i k c q hpos hfree =>
    refine h.move (i := i) rfl (fun _ => .inl rfl) (.inr (.inl ⟨hfree, rfl⟩)) ?_ ?_
      fun j hj => .inr ⟨hj, rfl, h.awake (by simp [hpos]) hj⟩ <;> simp [h.holds, hpos, Pos.Holds, Pos.HoldsTable]
  | @unlock i k c q hpos =>
    have hheld : s.lock (C.lock q) = some i := (h.holds _ i).mpr (by simp [hpos, Pos.Holds])
    refine h.move (i := i) rfl (Passed.update (.inr (.inr ⟨hheld, rfl⟩))) (.inl rfl) ?_ ?_
      fun j hj => .inr ⟨hj, rfl, h.awake (by simp [hpos]) hj⟩
    · simp [Function.update_apply, h.holds, hpos, Pos.Holds, eq_comm (a := C.lock q)]
    · simp [h.table, hpos, Pos.HoldsTable]
  | @doze i k c q hpos =>
    have hheld : s.table = some i := (h.table i).mpr (by simp [hpos, Pos.HoldsTable])
    refine h.move (i := i) rfl (fun _ => .inl rfl) (.inr (.inr ⟨hheld, rfl⟩)) ?_ ?_ fun j hj => ?_
    · simp [h.holds, hpos, Pos.Holds]
    · simp [Pos.HoldsTable]
    · by_cases hji : j = i
      · subst hji
        exact .inl ⟨k, c, q, by simp, by simp⟩
      · exact .inr ⟨by simpa [hji] using hj, by simp [hji], hji⟩
  | @dispatch i k c q hpos hfree hrunnable =>
    refine h.move (i := i) rfl (fun _ => .inl rfl) (.inr (.inl ⟨hfree, rfl⟩)) ?_ ?_ fun j hj => ?_
    · simp [h.holds, hpos, Pos.Holds]
    · simp [Pos.HoldsTable]
    · have hji : j ≠ i := by
        rintro rfl
        simp at hj
      exact .inr ⟨by simpa [hji] using hj, rfl, hji⟩
  | @awake i k q hpos =>
    have hheld : s.table = some i := (h.table i).mpr (by simp [hpos, Pos.HoldsTable])
    refine h.move (i := i) rfl (fun _ => .inl rfl) (.inr (.inr ⟨hheld, rfl⟩)) ?_ ?_ fun j hj => ?_
    · simp [h.holds, hpos, Pos.Holds]
    · simp [Pos.HoldsTable]
    · have hji : j ≠ i := h.awake (by simp [hpos]) hj
      exact .inr ⟨hj, by simp [hji], hji⟩
  | @kill i hfree => exact ⟨h.holds, h.table, fun j hj => h.asleep j ((kill_status s i j).mp hj).1⟩

end Steps

theorem Wf.run {C : Code ℓ κ σ π ω γ} {init : σ → Prop} {as : List (Label ι γ)} {s : State ι ℓ κ σ π ω γ}
    (h : (machine C init).Run as s) : Wf C s := by
  refine Automaton.Run.invariant (I := fun _ s => Wf C s) ?_ ?_ h
  · intro s hs
    exact .idle hs.1
  · intro as s a s' hwf ha
    exact hwf.step (step_cases ha)

theorem Run.trans {C : Code ℓ κ σ π ω γ} {init : σ → Prop} {as : List (Label ι γ)} {s s' : State ι ℓ κ σ π ω γ}
    {a : Label ι γ} (h : (machine C init).Run as s) (hs : Trans C s a s') : (machine C init).Run (as ++ [a]) s' :=
  h.step (step_of_trans hs)

end Lib.Monitor
