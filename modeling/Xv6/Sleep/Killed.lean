import Xv6.Sleep.Wakeup

/-!
# Kills and the waits of pipes, console and clock

Each wait tests `proc->killed` and then calls `sleep`. The test is made under the wait's own lock, `kill` works
under `ptable.lock`, and `sleep` takes that lock only after the test. A kill that comes in between finds a
process that does not sleep, and the process then sleeps.
-/

namespace Xv6.Sleep

open Lib Monitor

/-- The points between the test of `proc->killed` and the call of `sleep`. -/
def Point.Tested : Point → Prop
  | .pipewrite _ _ _ (.wake _) | .pipewrite _ _ _ (.sleep _) => True
  | .piperead _ _ .sleep => True
  | .consoleread _ (.sleep _) => True
  | .sysSleep _ (.sleep _) => True
  | _ => False

variable {killed : Bool}

theorem pipewrite_tested {addr : Nat → UInt8} {n : Int} {pc pc' : WritePc} {v v' : Pipe}
    {es : List PipeEvent} {p : Nat} (h : pipewrite addr n pc v killed = .run v' pc' es)
    (ht : (Point.pipewrite p addr n pc').Tested) : killed = false := by
  cases pc with
  | loop i =>
    simp only [pipewrite] at h
    split_ifs at h with hn hfull hgive
    · cases h
      exact Bool.eq_false_iff.mpr fun hkilled => hgive (.inr hkilled)
    all_goals
      cases h
      exact ht.elim
  | _ => cases h

theorem piperead_tested {n : Int} {pc pc' : ReadPc} {v v' : Pipe} {es : List PipeEvent} {p : Nat}
    (h : piperead n pc v killed = .run v' pc' es) (ht : (Point.piperead p n pc').Tested) : killed = false := by
  cases pc with
  | wait =>
    simp only [piperead] at h
    split_ifs at h with hempty hkilled
    · exact Bool.eq_false_iff.mpr hkilled
    · cases h
      exact ht.elim
  | copy i =>
    simp only [piperead] at h
    split_ifs at h <;> cases h <;> exact ht.elim
  | _ => cases h

theorem consoleread_tested {target : Int} {pc pc' : ConsolePc} {v v' : Input} {es : List InputEvent}
    (h : consoleread target pc v killed = .run v' pc' es) (ht : (Point.consoleread target pc').Tested) :
    killed = false := by
  cases pc with
  | loop n =>
    simp only [consoleread] at h
    split_ifs at h with hn hempty hkilled
    · exact Bool.eq_false_iff.mpr hkilled
    all_goals
      cases h
      exact ht.elim
  | _ => cases h

theorem sysSleep_tested {n : UInt32} {pc pc' : SleepPc} {v v' : UInt32} {es : List Int}
    (h : sysSleep n pc v killed = .run v' pc' es) (ht : (Point.sysSleep n pc').Tested) : killed = false := by
  cases pc with
  | loop t =>
    simp only [sysSleep] at h
    split_ifs at h with hn hkilled
    exact Bool.eq_false_iff.mpr hkilled
  | start =>
    cases h
    exact ht.elim
  | _ => cases h

def tests : Tests code where
  tested := Point.Tested
  entry g := by cases g <;> exact id
  run q s killed s' q' es h ht := by
    cases q with
    | pipewrite p addr n pc =>
      obtain ⟨v, pc', _, hact, -, rfl, -⟩ := Action.lift_eq_run.mp h
      exact .inl (pipewrite_tested hact ht)
    | piperead p n pc =>
      obtain ⟨v, pc', _, hact, -, rfl, -⟩ := Action.lift_eq_run.mp h
      exact .inl (piperead_tested hact ht)
    | consoleread target pc =>
      obtain ⟨v, pc', _, hact, -, rfl, -⟩ := Action.lift_eq_run.mp h
      exact .inl (consoleread_tested hact ht)
    | sysSleep n pc =>
      obtain ⟨v, pc', _, hact, -, rfl, -⟩ := Action.lift_eq_run.mp h
      exact .inl (sysSleep_tested hact ht)
    | _ =>
      obtain ⟨v, pc', _, hact, -, rfl, -⟩ := Action.lift_eq_run.mp h
      exact ht.elim
  wakeup q s killed c q' h ht := by
    cases q with
    | pipewrite p addr n pc =>
      obtain ⟨e, pc', hact, -, rfl⟩ := Action.lift_eq_wakeup.mp h
      obtain ⟨-, ⟨i, rfl, rfl⟩ | ⟨rfl, rfl⟩⟩ := pipewrite_wakeup hact
      · exact .inr trivial
      · exact ht.elim
    | piperead p n pc =>
      obtain ⟨e, pc', hact, -, rfl⟩ := Action.lift_eq_wakeup.mp h
      obtain ⟨i, rfl, -, rfl⟩ := piperead_wakeup hact
      exact ht.elim
    | consoleread target pc =>
      obtain ⟨e, pc', hact, -, rfl⟩ := Action.lift_eq_wakeup.mp h
      exact absurd hact consoleread_wakeup
    | sysSleep n pc =>
      obtain ⟨e, pc', hact, -, rfl⟩ := Action.lift_eq_wakeup.mp h
      exact absurd hact sysSleep_wakeup
    | _ =>
      obtain ⟨e, pc', hact, -, rfl⟩ := Action.lift_eq_wakeup.mp h
      exact ht.elim
  sleep q s killed c q' h := by
    cases q with
    | pipewrite p addr n pc =>
      obtain ⟨e, pc', hact, -, rfl⟩ := Action.lift_eq_sleep.mp h
      obtain ⟨i, rfl, -, rfl⟩ := pipewrite_sleep hact
      exact ⟨trivial, id⟩
    | piperead p n pc =>
      obtain ⟨e, pc', hact, -, rfl⟩ := Action.lift_eq_sleep.mp h
      obtain ⟨rfl, -, rfl⟩ := piperead_sleep hact
      exact ⟨trivial, id⟩
    | pipeclose p writable pc =>
      obtain ⟨e, pc', hact, -, -⟩ := Action.lift_eq_sleep.mp h
      exact absurd hact pipeclose_sleep
    | consoleread target pc =>
      obtain ⟨e, pc', hact, -, rfl⟩ := Action.lift_eq_sleep.mp h
      obtain ⟨n, rfl, rfl⟩ := consoleread_sleep hact
      exact ⟨trivial, id⟩
    | consoleintr pc =>
      obtain ⟨e, pc', hact, -, -⟩ := Action.lift_eq_sleep.mp h
      exact absurd hact consoleintr_sleep
    | sysSleep n pc =>
      obtain ⟨e, pc', hact, -, rfl⟩ := Action.lift_eq_sleep.mp h
      obtain ⟨t, rfl, rfl⟩ := sysSleep_sleep hact
      exact ⟨trivial, id⟩
    | tick pc =>
      obtain ⟨e, pc', hact, -, -⟩ := Action.lift_eq_sleep.mp h
      exact absurd hact tick_sleep

/-- With `ptable.lock` free nobody who sleeps in one of the waits is killed. -/
def NotLeftAsleep (s : State) : Prop := s.table = none → ∀ i, s.status i = .sleeping → s.killed i = false

variable {as : List Label} {s : State} {i : Nat}

/-- A killed process that is about to take `ptable.lock` sleeps three steps later. -/
theorem left_asleep_of_locking {k : Nat} {c : Chan} {q : Point} (hrun : system.Run as s)
    (htable : s.table = none) (hkilled : s.killed i = true) (hpos : s.pos i = .locking k c q) :
    ∃ bs s', system.Run (as ++ bs) s' ∧ ¬NotLeftAsleep s' := by
  have h₁ := Run.trans hrun (.lockTable hpos htable)
  have h₂ := Run.trans h₁ (.unlock (i := i) (k := k) (c := c) (q := q) (by simp))
  have h₃ := Run.trans h₂ (.doze (i := i) (k := k) (c := c) (q := q) (by simp))
  rw [List.append_assoc, List.append_assoc] at h₃
  refine ⟨_, _, h₃, fun hnot => ?_⟩
  have := hnot rfl i (by simp)
  simp [hkilled] at this

theorem left_asleep_of_sleep {k : Nat} {c : Chan} {q q' : Point} (hrun : system.Run as s)
    (htable : s.table = none) (hkilled : s.killed i = true) (hpos : s.pos i = .inside k q)
    (hact : code.act q s.data (s.killed i) = .sleep c q') : ∃ bs s', system.Run (as ++ bs) s' ∧ ¬NotLeftAsleep s' := by
  have hgo := Run.trans hrun (.sleep hpos hact)
  obtain ⟨bs, s', hs', hnot⟩ := left_asleep_of_locking hgo htable hkilled (goto_pos ..|>.trans (if_pos rfl))
  rw [List.append_assoc] at hs'
  exact ⟨_, s', hs', hnot⟩

theorem left_asleep_of_window (hrun : system.Run as s) (htable : s.table = none)
    (hkilled : s.killed i = true) (hwindow : tests.Window (s.pos i)) :
    ∃ bs s', system.Run (as ++ bs) s' ∧ ¬NotLeftAsleep s' := by
  cases hpos : s.pos i with
  | locking k c q => exact left_asleep_of_locking hrun htable hkilled hpos
  | inside k q =>
    rw [hpos] at hwindow
    cases q with
    | pipewrite p addr n pc =>
      cases pc with
      | wake j =>
        have hwake := Run.trans hrun (.wakeup hpos (c := .pipe p .nread) rfl htable)
        obtain ⟨bs, s', hs', hnot⟩ := left_asleep_of_sleep hwake htable hkilled (goto_pos ..|>.trans (if_pos rfl))
          (c := .pipe p .nwrite) rfl
        rw [List.append_assoc] at hs'
        exact ⟨_, s', hs', hnot⟩
      | sleep j => exact left_asleep_of_sleep hrun htable hkilled hpos (c := .pipe p .nwrite) rfl
      | _ => exact hwindow.elim
    | piperead p n pc =>
      cases pc with
      | sleep => exact left_asleep_of_sleep hrun htable hkilled hpos (c := .pipe p .nread) rfl
      | _ => exact hwindow.elim
    | consoleread target pc =>
      cases pc with
      | sleep n => exact left_asleep_of_sleep hrun htable hkilled hpos (c := .input) rfl
      | _ => exact hwindow.elim
    | sysSleep n pc =>
      cases pc with
      | sleep t => exact left_asleep_of_sleep hrun htable hkilled hpos (c := .ticks) rfl
      | _ => exact hwindow.elim
    | _ => exact hwindow.elim
  | _ =>
    rw [hpos] at hwindow
    exact hwindow.elim

theorem killed_not_left_asleep (as : List Label) (s : State) : (system.RunIn tests.Spared as s → NotLeftAsleep s) ∧
    (system.Run as s → s.table = none → ∀ i, tests.Window (s.pos i) →
      ∃ bs s', system.Run (as ++ .kill i :: bs) s' ∧ ¬NotLeftAsleep s') := by
  refine ⟨fun hrun _ i hi => Tests.not_killed hrun hi, fun hrun htable i hwindow => ?_⟩
  have hkill := Run.trans hrun (.kill (i := i) htable)
  obtain ⟨bs, s', hs', hnot⟩ := left_asleep_of_window hkill htable (by simp [kill]) hwindow
  rw [List.append_assoc] at hs'
  exact ⟨bs, s', hs', hnot⟩

/-- A reader of the empty pipe that has seen that it is not killed. -/
def readerTests : List Label := .call 0 (.piperead 0 1) :: List.replicate 2 (.go 0)

/-- The kill comes after the test; the reader sleeps with `killed` set. -/
theorem killed_reader_sleeps : ∃ s, system.Run (readerTests ++ [.kill 0] ++ List.replicate 4 (.go 0)) s ∧
    s.table = none ∧ s.status 0 = .sleeping ∧ s.chan 0 = some (.pipe 0 .nread) ∧ s.killed 0 = true := by
  obtain ⟨s, hs, hrest⟩ : ∃ s, system.exec idle (readerTests ++ [.kill 0] ++ List.replicate 4 (.go 0)) = some s ∧
      s.table = none ∧ s.status 0 = .sleeping ∧ s.chan 0 = some (.pipe 0 .nread) ∧ s.killed 0 = true :=
    ⟨_, rfl, rfl, rfl, rfl, rfl⟩
  exact ⟨s, (Automaton.Run.start start_idle).exec hs, hrest⟩

/-- A test for steps that are no kill, or one of a process that has given its locks back. -/
def spares (s : State) : Label → Bool
  | .kill i =>
    match s.pos i with
    | .sched .. => true
    | _ => false
  | _ => true

theorem spared_of_spares (s : State) (a : Label) (h : spares s a = true) : tests.Spared s a := by
  cases a with
  | kill i =>
    rw [spares] at h
    show ¬tests.Window (s.pos i)
    cases hpos : s.pos i with
    | sched => exact id
    | _ =>
      rw [hpos] at h
      cases h
  | _ => trivial

/-- The kill finds the reader asleep and wakes it. -/
theorem killed_not_left_asleep_sleeper : ∃ s t, system.RunIn tests.Spared (readerTests ++ List.replicate 4 (.go 0)) s ∧
    s.status 0 = .sleeping ∧ system.RunIn tests.Spared (readerTests ++ List.replicate 4 (.go 0) ++ [.kill 0]) t ∧
    t.killed 0 = true ∧ t.status 0 = .runnable ∧ NotLeftAsleep t := by
  obtain ⟨s, hs, hasleep⟩ : ∃ s, system.execIn spares idle (readerTests ++ List.replicate 4 (.go 0)) = some s ∧
      s.status 0 = .sleeping := ⟨_, rfl, rfl⟩
  obtain ⟨t, ht, hkilled, hawake⟩ : ∃ t, system.execIn spares idle (readerTests ++ List.replicate 4 (.go 0) ++ [.kill 0]) = some t ∧
      t.killed 0 = true ∧ t.status 0 = .runnable := ⟨_, rfl, rfl, rfl⟩
  have hrun := (Automaton.RunIn.start start_idle).execIn spared_of_spares ht
  exact ⟨s, t, (Automaton.RunIn.start start_idle).execIn spared_of_spares hs, hasleep, hrun, hkilled, hawake,
    (killed_not_left_asleep _ t).1 hrun⟩

end Xv6.Sleep
