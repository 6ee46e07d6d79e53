import Xv6.Shell.Jobs

/-!
# The lines that make a job

A pipe, a job and a child are for the lines that the shell runs as commands. The end of the input while a job is in the
foreground closes the pipe of that job, and the loop then goes on with the empty line as if it were a command.
-/

namespace Xv6.Shell

open Lib

/-- A line that is not empty, does not go to the pipe of a job, is no command of the shell itself and is not a bare newline. -/
structure IsCommandLine (sh : Self) (input : List UInt8) (done : Job → Bool) : Prop where
  nonempty : byte (gets nbuf input) 0 ≠ 0
  noForeground : (sh.clearFinishedJobs done).fgJob = none
  notCd : isCd (gets nbuf input) = false
  notJobs : isJobs (gets nbuf input) = false
  notFg : isFg (gets nbuf input) = false
  notNewline : byte (gets nbuf input) 0 ≠ code '\n'

variable {sh : Self} {input : List UInt8}

theorem getcmd_nonempty (h : byte (gets nbuf input) 0 ≠ 0) :
    getcmd sh input = some (sh, gets nbuf input) := if_neg h

theorem getcmd_foreground {j : Job} (h : byte (gets nbuf input) 0 = 0) (hj : sh.fgJob = some j) :
    getcmd sh input = some ({ sh.closeJob j with fgJob := none }, gets nbuf input) := by
  rw [getcmd, if_pos h, hj]
  rfl

variable {buf : List UInt8}

theorem startsWith_byte {c : Char} {word : List Char} (h : startsWith buf (c :: word) = true) :
    byte buf 0 = code c := by
  cases buf with
  | nil => cases h
  | cons x buf =>
    rw [startsWith, List.map_cons, List.isPrefixOf_cons_cons, Bool.and_eq_true, beq_iff_eq] at h
    exact h.1.symm

theorem startsWith_empty {c : Char} {word : List Char} (h : byte buf 0 = 0) (hc : code c ≠ 0) :
    startsWith buf (c :: word) = false := by
  by_contra hstarts
  rw [Bool.not_eq_false] at hstarts
  exact hc ((startsWith_byte hstarts).symm.trans h)

theorem clear_noForeground (done : Job → Bool) (hnodup : sh.jlist.Nodup) (h : sh.fgJob = none) :
    (sh.clearFinishedJobs done).fgJob = none := by
  refine Self.clear_induct (I := fun sh => sh.fgJob = none) (fun sh j hfg _ => ?_) done hnodup h
  show (if sh.fgJob = some j then none else sh.fgJob) = none
  rw [hfg]
  rfl

theorem turn_command {done : Job → Bool} (h : IsCommandLine sh input done) :
    turn sh input done = .run (sh.clearFinishedJobs done) (gets nbuf input) := by
  rw [turn, getcmd_nonempty h.nonempty]
  simp only [h.noForeground, h.notCd, h.notJobs, h.notFg, h.notNewline, Option.isSome_none, Bool.false_eq_true, if_false, ne_eq,
    not_false_eq_true, if_true]

theorem turn_foreground {j : Job} (done : Job → Bool) (hnodup : sh.jlist.Nodup)
    (h : byte (gets nbuf input) 0 = 0) (hj : sh.fgJob = some j) :
    turn sh input done = .run (Self.clearFinishedJobs { sh.closeJob j with fgJob := none } done) (gets nbuf input) := by
  have hfg : (Self.clearFinishedJobs { sh.closeJob j with fgJob := none } done).fgJob = none := clear_noForeground done hnodup rfl
  have hcd : isCd (gets nbuf input) = false := startsWith_empty h (by decide)
  have hjobs : isJobs (gets nbuf input) = false := by rw [isJobs, startsWith_empty h (by decide), startsWith_empty h (by decide)]; rfl
  have hfgcmd : isFg (gets nbuf input) = false := by rw [isFg, startsWith_empty h (by decide), startsWith_empty h (by decide)]; rfl
  have hnewline : byte (gets nbuf input) 0 ≠ code '\n' := by rw [h]; decide
  rw [turn, getcmd_foreground h hj]
  simp only [hfg, hcd, hjobs, hfgcmd, hnewline, Option.isSome_none, Bool.false_eq_true, if_false, ne_eq, not_false_eq_true, if_true]

theorem turn_run {sh' : Self} {done : Job → Bool} (h : turn sh input done = .run sh' buf) :
    IsCommandLine sh input done ∨ byte (gets nbuf input) 0 = 0 ∧ ∃ j, sh.fgJob = some j := by
  by_cases hzero : byte (gets nbuf input) 0 = 0
  · refine .inr ⟨hzero, Option.ne_none_iff_exists'.mp fun hnone => ?_⟩
    rw [turn, getcmd_eq_none.mpr ⟨hzero, hnone⟩] at h
    cases h
  · refine .inl ?_
    rw [turn, getcmd_nonempty hzero] at h
    dsimp only at h
    split at h
    · cases h
    · rename_i hfg
      split_ifs at h with hcd hjobs hfgcmd hnewline
      exact ⟨hzero, by simpa using hfg, by simpa using hcd, by simpa using hjobs, by simpa using hfgcmd, hnewline⟩

/-! ### What a line makes -/

def IsCommand (s : State) : Label → Prop
  | .line input done _ _ => IsCommandLine s.shell input done
  | _ => False

/-- One pipe, one job with the next number for it, and one child. -/
structure Creates (s s' : State) : Prop where
  pipes : s'.pipes = s.pipes + 1
  launched : ∃ fd, s'.shell.launched = s.shell.launched ++ [⟨s.shell.jobcntr + 1, fd, s.pipes⟩]
  nextpid : s'.nextpid = s.nextpid + 1
  role : ∃ read write, s'.role = Function.update s.role s.nextpid (some (.launcher .closeStdin read write))

structure CreatesNothing (s s' : State) : Prop where
  pipes : s'.pipes = s.pipes
  launched : s'.shell.launched = s.shell.launched
  nextpid : s'.nextpid = s.nextpid
  role : s'.role = s.role

/-- The pipe of the foreground job is closed, and no job is in the foreground; finished jobs are removed as on every line. -/
def OnlyCloses (s s' : State) (done : Job → Bool) : Prop :=
  ∃ j, s.shell.fgJob = some j ∧ s' = { s with shell := Self.clearFinishedJobs { s.shell.closeJob j with fgJob := none } done }

/-- What is made on a line is for a command, and every command is given its pipe, job and child. -/
def CreatesForCommands (s : State) (a : Label) (s' : State) : Prop :=
  match a with
  | .line _ done _ _ => (IsCommand s a → Creates s s') ∧ (¬ IsCommand s a → CreatesNothing s s') ∧
      (ClosesForeground s a → OnlyCloses s s' done)
  | _ => s'.shell = s.shell

theorem not_creates_exit {s : State} (why : Exit) : ¬ Creates s (s.exitShell why) := fun h =>
  absurd h.nextpid (Nat.succ_ne_self _).symm

theorem launch_creates {s : State} {pipeOk forkOk : Bool} (hjobs : sh.launched = s.shell.launched)
    (hcntr : sh.jobcntr = s.shell.jobcntr) :
    Creates s (launch s sh buf pipeOk forkOk) ↔ pipeOk = true ∧ sysPipe sh.ofile s.pipes ≠ none ∧ WellFormed buf ∧ forkOk = true := by
  have hlaunch := launch_cases s sh buf pipeOk forkOk
  generalize launch s sh buf pipeOk forkOk = s' at hlaunch
  cases hlaunch with
  | noPipe hpipe =>
    refine iff_of_false (not_creates_exit _) ?_
    rintro ⟨hok, hsome, -⟩
    obtain hfalse | hnone := hpipe
    · simp [hfalse] at hok
    · exact hsome hnone
  | malformed hok hpipe hline => exact iff_of_false (not_creates_exit _) fun h => hline h.2.2.1
  | noFork hok hpipe hline hfork => exact iff_of_false (not_creates_exit _) fun h => by simp [hfork] at h
  | @done read write o fg hok hpipe hline hfork hfg =>
    refine iff_of_true ⟨rfl, ⟨write, ?_⟩, rfl, ⟨read, write, rfl⟩⟩ ⟨hok, by simp [hpipe], hline, hfork⟩
    show sh.launched ++ [_] = _
    rw [hjobs, hcntr]

theorem launch_phase (s : State) (sh : Self) (buf : List UInt8) (pipeOk forkOk : Bool) :
    (launch s sh buf pipeOk forkOk).phase ≠ .top := by
  have hlaunch := launch_cases s sh buf pipeOk forkOk
  generalize launch s sh buf pipeOk forkOk = s' at hlaunch
  cases hlaunch <;> simp [State.exitShell, State.launched]

theorem clear_jobcntr (done : Job → Bool) (hnodup : sh.jlist.Nodup) :
    (sh.clearFinishedJobs done).jobcntr = sh.jobcntr :=
  Self.clear_induct (I := fun sh' => sh'.jobcntr = sh.jobcntr) (fun _ _ h _ => h) done hnodup rfl

/-- A pipe, a job and a child are made exactly for the commands, if and only if the line is not the end of the input with a
job in the foreground, and a command is in the grammar and finds the descriptors and the memory it needs. -/
theorem creates_iff (as : List Label) (s s' : State) (a : Label) (hrun : system.Run as s) (hstep : system.step s a = .next s') :
    CreatesForCommands s a s' ↔ ¬ ClosesForeground s a ∧ Runnable s a := by
  obtain ⟨input, done, pipeOk, forkOk, rfl⟩ | ha := line_or a
  · have htop := (step_line hstep).1
    have hnodup := ((inv_of_run hrun).shell fun e he => by simp [htop] at he).nodup
    replace hstep : step s (.line input done pipeOk forkOk) = .next s' := hstep
    simp only [step, htop] at hstep
    -- the line is not run: it is no command and not the end of the input with a foreground job
    have hstay : (∀ sh buf, turn s.shell input done ≠ .run sh buf) → CreatesNothing s s' →
        (CreatesForCommands s (.line input done pipeOk forkOk) s' ↔
          ¬ ClosesForeground s (.line input done pipeOk forkOk) ∧ Runnable s (.line input done pipeOk forkOk)) := by
      intro hturn hnothing
      have hcommand : ¬ IsCommand s (.line input done pipeOk forkOk) := fun h => hturn _ _ (turn_command h)
      have hcloses : ¬ ClosesForeground s (.line input done pipeOk forkOk) := by
        rintro ⟨hzero, hfg⟩
        obtain ⟨j, hj⟩ := Option.ne_none_iff_exists'.mp hfg
        exact hturn _ _ (turn_foreground done hnodup hzero hj)
      exact iff_of_true ⟨fun h => absurd h hcommand, fun _ => hnothing, fun h => absurd h hcloses⟩
        ⟨hcloses, fun sh buf h => absurd h (hturn sh buf)⟩
    cases hturn : turn s.shell input done with
    | exit =>
      rw [hturn] at hstep
      cases hstep
      exact hstay (by simp [hturn]) ⟨rfl, rfl, rfl, rfl⟩
    | stay sh =>
      rw [hturn] at hstep
      cases hstep
      have hok := (inv_of_run hrun).shell fun e he => by simp [htop] at he
      exact hstay (by simp [hturn]) ⟨rfl, ((turn_ok hok input done).1 sh hturn).2, rfl, rfl⟩
    | run sh buf =>
      rw [hturn] at hstep
      cases hstep
      obtain hcommand | ⟨hzero, j, hj⟩ := turn_run hturn
      · obtain ⟨rfl, rfl⟩ := Turn.run.inj (hturn.symm.trans (turn_command hcommand))
        have hcloses : ¬ ClosesForeground s (.line input done pipeOk forkOk) := fun h => hcommand.nonempty h.1
        rw [runnable_iff _ _ hturn, ← launch_creates (s := s) (Self.clear_launched done hnodup) (clear_jobcntr done hnodup)]
        exact ⟨fun h => ⟨hcloses, h.1 hcommand⟩, fun h => ⟨fun _ => h.2, fun hnot => absurd hcommand hnot, fun hc => absurd hc hcloses⟩⟩
      · have hcloses : ClosesForeground s (.line input done pipeOk forkOk) := ⟨hzero, by rw [hj]; simp⟩
        refine iff_of_false (fun h => ?_) fun h => h.1 hcloses
        obtain ⟨j, -, heq⟩ := h.2.2 hcloses
        refine launch_phase s sh buf pipeOk forkOk ?_
        rw [heq]
        exact htop
  · have hnot : ¬ ClosesForeground s a ∧ Runnable s a := by
      cases a with
      | line input done pipeOk forkOk => exact absurd rfl (ha input done pipeOk forkOk)
      | _ => exact ⟨fun h => h, trivial⟩
    refine iff_of_true ?_ hnot
    have hshell := (step_other ha hstep).1
    cases a with
    | line input done pipeOk forkOk => exact absurd rfl (ha input done pipeOk forkOk)
    | _ => exact hshell

def oneCommand : List Label := typed ['c', 'a', 't', '\n'] :: List.replicate 5 (.go 0 true) ++ [.waited]

theorem creates_iff_cat : ∃ s', system.step initial (typed ['c', 'a', 't', '\n']) = .next s' ∧
    s'.shell.launched.map Job.jid = [1] ∧
    (CreatesForCommands initial (typed ['c', 'a', 't', '\n']) s' ↔
      ¬ ClosesForeground initial (typed ['c', 'a', 't', '\n']) ∧ Runnable initial (typed ['c', 'a', 't', '\n'])) := by
  have hobserve : (step initial (typed ['c', 'a', 't', '\n'])).state?.map (fun s => s.shell.launched.map Job.jid) = some [1] := by
    decide +kernel
  obtain ⟨s', hs', hjobs⟩ := Option.map_eq_some_iff.mp hobserve
  have hstep := Outcome.state?_eq_some.mp hs'
  exact ⟨s', hstep, hjobs, creates_iff [] initial s' _ (.start start_initial) hstep⟩

/-- The end of the input during a foreground job makes a second pipe, job and child. -/
theorem end_of_input_launches : ∃ s s', system.Run oneCommand s ∧ s.shell.fgJob ≠ none ∧ system.step s (typed []) = .next s' ∧
    s.shell.launched.map Job.jid = [1] ∧ s'.shell.launched.map Job.jid = [1, 2] ∧ s'.pipes = s.pipes + 1 ∧
    s'.nextpid = s.nextpid + 1 ∧ s'.phase = .waiting s.nextpid ∧ ¬ CreatesForCommands s (typed []) s' := by
  have hobserve : ((system.exec initial oneCommand).bind fun s => (step s (typed [])).state?.map fun s' =>
      (s.shell.fgJob.map Job.jid, s.shell.launched.map Job.jid, s'.shell.launched.map Job.jid, s'.phase,
        [s.pipes, s.nextpid, s'.pipes, s'.nextpid])) =
      some (some 1, [1], [1, 2], .waiting 2, [1, 2, 2, 3]) := by decide +kernel
  obtain ⟨s, hs, hrest⟩ := Option.bind_eq_some_iff.mp hobserve
  obtain ⟨s', hs', hobserved⟩ := Option.map_eq_some_iff.mp hrest
  simp only [Prod.mk.injEq, List.cons.injEq, and_true] at hobserved
  obtain ⟨hfg, hjobs, hjobs', hphase, hpipes, hpid, hpipes', hpid'⟩ := hobserved
  have hrun : system.Run oneCommand s := (Automaton.Run.start start_initial).exec hs
  have hforeground : s.shell.fgJob ≠ none := fun hnone => by simp [hnone] at hfg
  have hstep := Outcome.state?_eq_some.mp hs'
  refine ⟨s, s', hrun, hforeground, hstep, hjobs, hjobs', by omega, by omega, by rw [hphase, hpid], fun h => ?_⟩
  obtain ⟨j, -, heq⟩ := h.2.2 ⟨by decide, hforeground⟩
  rw [heq] at hpid'
  exact absurd (hpid.symm.trans hpid') (by decide)

end Xv6.Shell
