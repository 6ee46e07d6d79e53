import Xv6.Files.Ends
import Xv6.Shell.Line

/-!
# The shell and its jobs

The main loop of `sh.c` and the processes it starts. A job is a command line that the shell has launched, with a pipe
through which the shell passes it input while it is in the foreground. The shell forks a child, which makes the read
end of that pipe its standard input, forks the process that runs the command, and exits; the shell waits for it.

A descriptor refers to a pipe end or to some other file; a pipe is named by the number of its allocation. What another
process does with its descriptors after the launch is left open.
-/

namespace Xv6.Shell

open Lib Files

/-! ### Descriptors -/

inductive Object where
  | file
  | pipe (n : Nat) (writable : Bool)
deriving DecidableEq

abbrev Ofile : Type := Fd → Option Object

def fdalloc (o : Ofile) : Option Fd := (List.finRange nofile).find? fun fd => o fd = none

def sysOpen (o : Ofile) : Ofile :=
  match fdalloc o with
  | some fd => Function.update o fd (some .file)
  | none => o

def sysClose (o : Ofile) (fd : Fd) : Ofile := Function.update o fd none

def sysDup (o : Ofile) (fd : Fd) : Ofile :=
  match o fd, fdalloc o with
  | some x, some fd' => Function.update o fd' (some x)
  | _, _ => o

/-- The read end, the write end and the table with both, for a pipe with a number not used before. -/
def sysPipe (o : Ofile) (n : Nat) : Option (Fd × Fd × Ofile) :=
  match fdalloc o with
  | none => none
  | some fd0 =>
    let o := Function.update o fd0 (some (.pipe n false))
    match fdalloc o with
    | none => none
    | some fd1 => some (fd0, fd1, Function.update o fd1 (some (.pipe n true)))

/-! ### The memory of the shell -/

structure Job where
  jid : UInt32
  fd : Fd
  /-- The pipe that was made for the job. -/
  pipe : Nat
deriving DecidableEq

/-- The last two components record what happened: the closes of the descriptor of a job with what they closed, and the
jobs launched. -/
structure Self where
  jlist : List Job
  fgJob : Option Job
  jobcntr : UInt32
  ofile : Ofile
  closed : List (Job × Option Object)
  launched : List Job

namespace Self

def closeJob (sh : Self) (j : Job) : Self :=
  { sh with ofile := sysClose sh.ofile j.fd, closed := sh.closed ++ [(j, sh.ofile j.fd)] }

def removeJobFromList (sh : Self) (j : Job) : Self :=
  { sh with jlist := sh.jlist.erase j, fgJob := if sh.fgJob = some j then none else sh.fgJob }

def addJob (sh : Self) (job : Job) (fg : Option Job) (o : Ofile) : Self :=
  { sh with
    jlist := sh.jlist ++ [job]
    fgJob := fg
    jobcntr := job.jid
    ofile := o
    launched := sh.launched ++ [job] }

/-- The jobs for which `isJobEmpty` answers 1 are closed and leave the list. -/
def clearFinishedJobs (sh : Self) (done : Job → Bool) : Self :=
  sh.jlist.foldl (fun sh j => if done j then (sh.closeJob j).removeJobFromList j else sh) sh

end Self

/-! ### One turn of the main loop -/

/-- The bytes that `gets` stores, given those that can be read before the end of the input. -/
def gets : Nat → List UInt8 → List UInt8
  | 0, _ | 1, _ | _, [] => []
  | max + 2, c :: cs => c :: if c = code '\n' ∨ c = code '\r' then [] else gets (max + 1) cs

abbrev nbuf : Nat := 100

/-- The line read, or nothing when the loop ends. An end of the input closes the pipe of the foreground job. -/
def getcmd (sh : Self) (input : List UInt8) : Option (Self × List UInt8) :=
  let buf := gets nbuf input
  if byte buf 0 = 0 then sh.fgJob.map fun j => ({ sh.closeJob j with fgJob := none }, buf)
  else some (sh, buf)

def startsWith (buf : List UInt8) (word : List Char) : Bool := (word.map code).isPrefixOf buf

def isCd (buf : List UInt8) : Bool := startsWith buf ['c', 'd', ' ']

def isJobs (buf : List UInt8) : Bool := startsWith buf ['j', 'o', 'b', 's', '\n'] || startsWith buf ['j', 'o', 'b', 's', ' ']

def isFg (buf : List UInt8) : Bool := startsWith buf ['f', 'g', '\n'] || startsWith buf ['f', 'g', ' ']

def atoi (s : List UInt8) : UInt32 :=
  (s.takeWhile fun c => code '0' ≤ c && c ≤ code '9').foldl (fun n c => n * 10 + (c - code '0').toUInt32) 0

inductive Turn where
  | exit
  | stay (sh : Self)
  | run (sh : Self) (buf : List UInt8)

def turn (sh : Self) (input : List UInt8) (done : Job → Bool) : Turn :=
  match getcmd sh input with
  | none => .exit
  | some (sh, buf) =>
    let sh := sh.clearFinishedJobs done
    if sh.fgJob.isSome then .stay sh -- the line goes to the pipe of the job
    else if isCd buf then .stay sh
    else if isJobs buf then .stay sh
    else if isFg buf then .stay { sh with fgJob := sh.jlist.find? fun j => j.jid = atoi (buf.drop 3) }
    else if byte buf 0 ≠ code '\n' then .run sh buf
    else .stay sh

/-! ### Processes -/

inductive LaunchPc where
  | closeStdin | dupRead | closeWrite | fork | exit
deriving DecidableEq

/-- A process other than the shell: the child that launches a job, with `jobs_pipe`, or one that runs a program. -/
inductive Role where
  | launcher (pc : LaunchPc) (read write : Fd)
  | program
deriving DecidableEq

/-- The process has executed the closes of the launch, if it ever had to. -/
def Role.ready : Role → Bool
  | .launcher .fork _ _ | .launcher .exit _ _ | .program => true
  | _ => false

inductive Exit where
  | endOfInput
  | stopped (e : Stop)
deriving DecidableEq

inductive Phase where
  | top
  | waiting (child : Nat)
  | exited (why : Exit)
deriving DecidableEq

structure State where
  shell : Self
  phase : Phase
  role : Nat → Option Role
  ofile : Nat → Ofile
  nextpid : Nat
  pipes : Nat

inductive Call where
  | open | pipe | dup (fd : Fd) | close (fd : Fd) | fork | exit

/-- The shell reads a line, with the answers of `isJobEmpty` and whether there is memory for a pipe and for a process; its
`wait` returns; a launching child goes on; another process makes a call; a process is killed. -/
inductive Label where
  | line (input : List UInt8) (done : Job → Bool) (pipeOk forkOk : Bool)
  | waited
  | go (p : Nat) (forkOk : Bool)
  | sys (p : Nat) (c : Call)
  | die (p : Nat)

namespace State

def setOfile (s : State) (p : Nat) (o : Ofile) : State := { s with ofile := Function.update s.ofile p o }

def setRole (s : State) (p : Nat) (r : Option Role) : State := { s with role := Function.update s.role p r }

def spawn (s : State) (r : Role) (o : Ofile) : State :=
  { (s.setRole s.nextpid (some r)).setOfile s.nextpid o with nextpid := s.nextpid + 1 }

def exit (s : State) (p : Nat) : State := (s.setRole p none).setOfile p fun _ => none

/-- The shell has forked a child with the table `o` and waits for it. -/
def launched (s : State) (read write : Fd) (o : Ofile) (sh : Self) : State :=
  { s.spawn (.launcher .closeStdin read write) o with shell := sh, phase := .waiting s.nextpid, pipes := s.pipes + 1 }

/-- The shell exits, which closes all its descriptors. -/
def exitShell (s : State) (why : Exit) : State :=
  { s with shell := { s.shell with ofile := fun _ => none }, phase := .exited why }

end State

section Fields

variable (s : State) (p : Nat) (r : Option Role) (o : Ofile) (r' : Role)

@[simp] theorem setOfile_self : (s.setOfile p o).ofile p = o := Function.update_self ..

@[simp] theorem setRole_self : (s.setRole p r).role p = r := Function.update_self ..

@[simp] theorem setRole_ofile : (s.setRole p r).ofile = s.ofile := rfl

@[simp] theorem spawn_ofile_self : (s.spawn r' o).ofile s.nextpid = o := Function.update_self ..

@[simp] theorem spawn_role_self : (s.spawn r' o).role s.nextpid = some r' := Function.update_self ..

variable {q : Nat}

theorem setOfile_of_ne (h : q ≠ p) : (s.setOfile p o).ofile q = s.ofile q := Function.update_of_ne h _ _

theorem setRole_of_ne (h : q ≠ p) : (s.setRole p r).role q = s.role q := Function.update_of_ne h _ _

theorem spawn_ofile_of_ne (h : q ≠ s.nextpid) : (s.spawn r' o).ofile q = s.ofile q := Function.update_of_ne h _ _

theorem spawn_role_of_ne (h : q ≠ s.nextpid) : (s.spawn r' o).role q = s.role q := Function.update_of_ne h _ _

end Fields

def launch (s : State) (sh : Self) (buf : List UInt8) (pipeOk forkOk : Bool) : State :=
  match if pipeOk then sysPipe sh.ofile s.pipes else none with
  | none => s.exitShell (.stopped (.panic .pipe))
  | some (read, write, o) =>
    let job : Job := ⟨sh.jobcntr + 1, write, s.pipes⟩
    match parsecmd buf with
    | .error e => s.exitShell (.stopped e)
    | .ok (command, _) =>
      if forkOk then
        -- only a command in the background leaves the foreground as it is
        let fg := match command with
          | .back _ => sh.fgJob
          | _ => some job
        s.launched read write o (sh.addJob job fg (sysClose o read))
      else s.exitShell (.stopped (.panic .fork))

def stepLauncher (s : State) (p : Nat) (forkOk : Bool) (read write : Fd) : LaunchPc → State
  | .closeStdin => (s.setOfile p (sysClose (s.ofile p) 0)).setRole p (some (.launcher .dupRead read write))
  | .dupRead => (s.setOfile p (sysDup (s.ofile p) read)).setRole p (some (.launcher .closeWrite read write))
  | .closeWrite => (s.setOfile p (sysClose (s.ofile p) write)).setRole p (some (.launcher .fork read write))
  | .fork =>
    if forkOk then (s.spawn .program (s.ofile p)).setRole p (some (.launcher .exit read write))
    else s.exit p -- `fork1` panics
  | .exit => s.exit p

def stepProgram (s : State) (p : Nat) : Call → State
  | .open => s.setOfile p (sysOpen (s.ofile p))
  | .pipe =>
    match sysPipe (s.ofile p) s.pipes with
    | some (_, _, o) => { s.setOfile p o with pipes := s.pipes + 1 }
    | none => s
  | .dup fd => s.setOfile p (sysDup (s.ofile p) fd)
  | .close fd => s.setOfile p (sysClose (s.ofile p) fd)
  | .fork => s.spawn .program (s.ofile p)
  | .exit => s.exit p

def step (s : State) : Label → Outcome Empty State
  | .line input done pipeOk forkOk =>
    match s.phase with
    | .top =>
      match turn s.shell input done with
      | .exit => .next (s.exitShell .endOfInput)
      | .stay sh => .next { s with shell := sh }
      | .run sh buf => .next (launch s sh buf pipeOk forkOk)
    | _ => .disabled
  | .waited =>
    match s.phase with
    | .waiting child => if s.role child = none then .next { s with phase := .top } else .disabled
    | _ => .disabled
  | .go p forkOk =>
    match s.role p with
    | some (.launcher pc read write) => .next (stepLauncher s p forkOk read write pc)
    | _ => .disabled
  | .sys p c =>
    match s.role p with
    | some .program => .next (stepProgram s p c)
    | _ => .disabled
  | .die p => if s.role p = none then .disabled else .next (s.exit p)

def Object.below (k : Nat) : Object → Prop
  | .file => True
  | .pipe n _ => n < k

/-- Before the first line: standard input is open, and the descriptors that the shell and other processes may have are not
for pipes that are yet to be made. -/
structure Start (s : State) : Prop where
  phase : s.phase = .top
  jlist : s.shell.jlist = []
  fgJob : s.shell.fgJob = none
  closed : s.shell.closed = []
  launched : s.shell.launched = []
  stdin : s.shell.ofile 0 ≠ none
  shell : ∀ fd x, s.shell.ofile fd = some x → x.below s.pipes
  others : ∀ p fd x, s.ofile p fd = some x → x.below s.pipes
  program : ∀ p r, s.role p = some r → r = .program
  fresh : ∀ p, s.nextpid ≤ p → s.role p = none
  gone : ∀ p, s.role p = none → ∀ fd, s.ofile p fd = none

def system : Automaton State Label Empty where
  start := Start
  step := step

/-! ### What ends the loop -/

inductive Launch (s : State) (sh : Self) (buf : List UInt8) (pipeOk forkOk : Bool) : State → Prop where
  | noPipe (hpipe : pipeOk = false ∨ sysPipe sh.ofile s.pipes = none) :
      Launch s sh buf pipeOk forkOk (s.exitShell (.stopped (.panic .pipe)))
  | malformed {r : Fd × Fd × Ofile} {p : Panic} (hok : pipeOk = true) (hpipe : sysPipe sh.ofile s.pipes = some r) (hline : ¬ WellFormed buf) :
      Launch s sh buf pipeOk forkOk (s.exitShell (.stopped (.panic p)))
  | noFork {r : Fd × Fd × Ofile} (hok : pipeOk = true) (hpipe : sysPipe sh.ofile s.pipes = some r) (hline : WellFormed buf)
      (hfork : forkOk = false) : Launch s sh buf pipeOk forkOk (s.exitShell (.stopped (.panic .fork)))
  | done {read write : Fd} {o : Ofile} (fg : Option Job) (hok : pipeOk = true) (hpipe : sysPipe sh.ofile s.pipes = some (read, write, o))
      (hline : WellFormed buf) (hfork : forkOk = true) (hfg : fg = sh.fgJob ∨ fg = some ⟨sh.jobcntr + 1, write, s.pipes⟩) :
      Launch s sh buf pipeOk forkOk
        (s.launched read write o (sh.addJob ⟨sh.jobcntr + 1, write, s.pipes⟩ fg (sysClose o read)))

theorem launch_cases (s : State) (sh : Self) (buf : List UInt8) (pipeOk forkOk : Bool) :
    Launch s sh buf pipeOk forkOk (launch s sh buf pipeOk forkOk) := by
  rw [launch]
  cases pipeOk with
  | false => exact .noPipe (.inl rfl)
  | true =>
    cases hpipe : sysPipe sh.ofile s.pipes with
    | none => exact .noPipe (.inr hpipe)
    | some r =>
      obtain ⟨read, write, o⟩ := r
      obtain ⟨cmd, hcmd, hparse⟩ | ⟨hline, p, hparse⟩ := parsecmd_cases buf
      · cases forkOk with
        | false =>
          simp only [hparse]
          exact .noFork rfl hpipe ⟨cmd, hcmd⟩ rfl
        | true =>
          simp only [hparse]
          refine .done _ rfl hpipe ⟨cmd, hcmd⟩ rfl ?_
          cases cmd with
          | back c => exact .inl rfl
          | _ => exact .inr rfl
      · simp only [hparse]
        exact .malformed rfl hpipe hline

/-- How a turn of the loop comes out, up to the launch. -/
inductive TurnCase (sh : Self) (input : List UInt8) (done : Job → Bool) : Turn → Prop where
  | exit (hzero : byte (gets nbuf input) 0 = 0) (hfg : sh.fgJob = none) : TurnCase sh input done .exit
  | stay {sh₁ : Self} {buf : List UInt8} (fg : Option Job) (hget : getcmd sh input = some (sh₁, buf))
      (hfg : fg = (sh₁.clearFinishedJobs done).fgJob ∨ ∀ j, fg = some j → j ∈ (sh₁.clearFinishedJobs done).jlist) :
      TurnCase sh input done (.stay { sh₁.clearFinishedJobs done with fgJob := fg })
  | run {sh₁ : Self} {buf : List UInt8} (hget : getcmd sh input = some (sh₁, buf)) (hfg : (sh₁.clearFinishedJobs done).fgJob = none) :
      TurnCase sh input done (.run (sh₁.clearFinishedJobs done) buf)

theorem getcmd_eq_none {sh : Self} {input : List UInt8} :
    getcmd sh input = none ↔ byte (gets nbuf input) 0 = 0 ∧ sh.fgJob = none := by
  rw [getcmd]
  split
  · simp [*]
  · simp [*]

theorem turn_cases (sh : Self) (input : List UInt8) (done : Job → Bool) : TurnCase sh input done (turn sh input done) := by
  rw [turn]
  cases hget : getcmd sh input with
  | none =>
    obtain ⟨hzero, hfg⟩ := getcmd_eq_none.mp hget
    exact .exit hzero hfg
  | some r =>
    obtain ⟨sh₁, buf⟩ := r
    have hstay : TurnCase sh input done (.stay (sh₁.clearFinishedJobs done)) := .stay _ hget (.inl rfl)
    dsimp only
    split
    · exact hstay
    · rename_i hfg
      split
      · exact hstay
      split
      · exact hstay
      split
      · exact .stay _ hget (.inr fun j hj => List.mem_of_find?_eq_some hj)
      split
      · exact .run hget (by simpa using hfg)
      · exact hstay

/-- The line read is the end of the input and there is no foreground job. -/
def EndOfInput (s : State) : Label → Prop
  | .line input _ _ _ => byte (gets nbuf input) 0 = 0 ∧ s.shell.fgJob = none
  | _ => False

/-- If the loop comes to run the line as a command, the line derives from the grammar and there are the descriptors and
the memory for the pipe and the child. -/
def Runnable (s : State) : Label → Prop
  | .line input done pipeOk forkOk =>
    ∀ sh buf, turn s.shell input done = .run sh buf →
      pipeOk = true ∧ sysPipe sh.ofile s.pipes ≠ none ∧ WellFormed buf ∧ forkOk = true
  | _ => True

theorem runnable_iff {input : List UInt8} {done : Job → Bool} (pipeOk forkOk : Bool) (hturn : turn s.shell input done = .run sh buf) :
    Runnable s (.line input done pipeOk forkOk) ↔
      pipeOk = true ∧ sysPipe sh.ofile s.pipes ≠ none ∧ WellFormed buf ∧ forkOk = true := by
  simp [Runnable, hturn]

theorem turn_exit_iff {sh : Self} {input : List UInt8} {done : Job → Bool} :
    turn sh input done = .exit ↔ byte (gets nbuf input) 0 = 0 ∧ sh.fgJob = none := by
  rw [← getcmd_eq_none]
  constructor
  · intro hexit
    have hcases := turn_cases sh input done
    rw [hexit] at hcases
    cases hcases with
    | exit hzero hfg => exact getcmd_eq_none.mpr ⟨hzero, hfg⟩
  · intro hget
    rw [turn, hget]

/-- What a process other than the shell does to its own table and role. -/
inductive Change (o : Ofile) : Role → Ofile → Option Role → Prop where
  | closeStdin {read write : Fd} :
      Change o (.launcher .closeStdin read write) (sysClose o 0) (some (.launcher .dupRead read write))
  | dupRead {read write : Fd} : Change o (.launcher .dupRead read write) (sysDup o read) (some (.launcher .closeWrite read write))
  | closeWrite {read write : Fd} : Change o (.launcher .closeWrite read write) (sysClose o write) (some (.launcher .fork read write))
  | open : Change o .program (sysOpen o) (some .program)
  | dup (fd : Fd) : Change o .program (sysDup o fd) (some .program)
  | close (fd : Fd) : Change o .program (sysClose o fd) (some .program)
  | exit {r : Role} : Change o r (fun _ => none) none

inductive Moves (s : State) : State → Prop where
  | waited {child : Nat} (hphase : s.phase = .waiting child) : Moves s { s with phase := .top }
  | idle : Moves s s
  | change {p : Nat} {r : Role} {o : Ofile} {r' : Option Role} (hrole : s.role p = some r) (h : Change (s.ofile p) r o r') :
      Moves s ((s.setOfile p o).setRole p r')
  | fork {p : Nat} {r r' : Role} (hrole : s.role p = some r) (hready : r.ready = true) (hready' : r'.ready = true) :
      Moves s ((s.spawn .program (s.ofile p)).setRole p (some r'))
  | pipe {p : Nat} {read write : Fd} {o : Ofile} (hrole : s.role p = some .program) (hpipe : sysPipe (s.ofile p) s.pipes = some (read, write, o)) :
      Moves s { s.setOfile p o with pipes := s.pipes + 1 }

variable {s : State} {p : Nat}

theorem setRole_eq_self {r : Option Role} (h : s.role p = r) : s.setRole p r = s := by
  rw [State.setRole, ← h, Function.update_eq_self]

theorem spawn_role {o : Ofile} (h : s.role p = some .program) : (s.spawn .program o).role p = some .program := by
  show Function.update s.role s.nextpid (some .program) p = some .program
  by_cases hp : p = s.nextpid
  · rw [hp, Function.update_self]
  · rw [Function.update_of_ne hp, h]

variable {s' : State}

theorem step_moves {a : Label} (ha : ∀ input done pipeOk forkOk, a ≠ .line input done pipeOk forkOk)
    (hstep : step s a = .next s') : Moves s s' := by
  cases a with
  | line input done pipeOk forkOk => exact absurd rfl (ha input done pipeOk forkOk)
  | waited =>
    simp only [step] at hstep
    split at hstep
    · split at hstep
      · cases hstep
        exact .waited ‹_›
      · cases hstep
    · cases hstep
  | go p forkOk =>
    simp only [step] at hstep
    split at hstep
    · rename_i pc read write hrole
      cases hstep
      cases pc with
      | closeStdin => exact .change hrole .closeStdin
      | dupRead => exact .change hrole .dupRead
      | closeWrite => exact .change hrole .closeWrite
      | fork =>
        cases forkOk with
        | false => exact .change hrole .exit
        | true => exact .fork hrole rfl rfl
      | exit => exact .change hrole .exit
    · cases hstep
  | sys p c =>
    simp only [step] at hstep
    split at hstep
    · rename_i hrole
      cases hstep
      cases c with
      | «open» =>
        have hmove := Moves.change hrole .open
        rwa [setRole_eq_self (by exact hrole)] at hmove
      | pipe =>
        rw [stepProgram]
        split
        · exact .pipe hrole ‹_›
        · exact .idle
      | dup fd =>
        have hmove := Moves.change hrole (.dup fd)
        rwa [setRole_eq_self (by exact hrole)] at hmove
      | close fd =>
        have hmove := Moves.change hrole (.close fd)
        rwa [setRole_eq_self (by exact hrole)] at hmove
      | fork =>
        have hmove := Moves.fork hrole rfl (show Role.program.ready = true from rfl)
        rwa [setRole_eq_self (spawn_role hrole)] at hmove
      | exit => exact .change hrole .exit
    · cases hstep
  | die p =>
    simp only [step] at hstep
    split at hstep
    · cases hstep
    · rename_i hrole
      cases hstep
      obtain ⟨r, hr⟩ := Option.ne_none_iff_exists'.mp hrole
      exact .change hr .exit

theorem step_other {a : Label} (ha : ∀ input done pipeOk forkOk, a ≠ .line input done pipeOk forkOk)
    (hstep : step s a = .next s') : s'.shell = s.shell ∧ (s'.phase = s.phase ∨ s'.phase = .top) := by
  cases step_moves ha hstep with
  | waited => exact ⟨rfl, .inr rfl⟩
  | _ => exact ⟨rfl, .inl rfl⟩

/-- The end of the input without a foreground job ends the loop. Apart from that the shell exits exactly when it is to run a
line that is not in the grammar, or has no descriptors or memory for its pipe and child. -/
theorem exits_iff (s s' : State) (a : Label) (hlive : ∀ e, s.phase ≠ .exited e) (hstep : system.step s a = .next s') :
    (s'.phase = .exited .endOfInput ↔ EndOfInput s a) ∧ ((∃ e, s'.phase = .exited (.stopped e)) ↔ ¬ Runnable s a) := by
  replace hstep : step s a = .next s' := hstep
  by_cases ha : ∀ input done pipeOk forkOk, a ≠ .line input done pipeOk forkOk
  · have hphase : ∀ e, s'.phase ≠ .exited e := by
      intro e he
      obtain ⟨-, hsame | htop⟩ := step_other ha hstep
      · exact hlive e (hsame.symm.trans he)
      · rw [htop] at he
        cases he
    have hnot : ¬ EndOfInput s a ∧ Runnable s a := by
      cases a with
      | line input done pipeOk forkOk => exact absurd rfl (ha input done pipeOk forkOk)
      | _ => exact ⟨fun h => h, trivial⟩
    exact ⟨iff_of_false (hphase _) hnot.1, iff_of_false (fun ⟨e, he⟩ => hphase _ he) (not_not.mpr hnot.2)⟩
  · simp only [not_forall, not_not] at ha
    obtain ⟨input, done, pipeOk, forkOk, rfl⟩ := ha
    simp only [step] at hstep
    split at hstep
    · rename_i htop
      rw [show EndOfInput s (.line input done pipeOk forkOk) ↔ turn s.shell input done = .exit from turn_exit_iff.symm]
      cases hturn : turn s.shell input done with
      | exit =>
        rw [hturn] at hstep
        cases hstep
        exact ⟨iff_of_true rfl rfl, iff_of_false (by simp [State.exitShell]) (not_not.mpr (by simp [Runnable, hturn]))⟩
      | stay sh =>
        rw [hturn] at hstep
        cases hstep
        refine ⟨iff_of_false (by simp [htop]) (by simp), iff_of_false (by simp [htop]) (not_not.mpr (by simp [Runnable, hturn]))⟩
      | run sh buf =>
        rw [hturn] at hstep
        cases hstep
        rw [runnable_iff _ _ hturn]
        have hlaunch := launch_cases s sh buf pipeOk forkOk
        generalize launch s sh buf pipeOk forkOk = s' at hlaunch
        cases hlaunch with
        | noPipe hpipe =>
          refine ⟨by simp [State.exitShell], iff_of_true ⟨_, rfl⟩ ?_⟩
          rintro ⟨hok, hsome, -⟩
          obtain hfalse | hnone := hpipe
          · simp [hfalse] at hok
          · exact hsome hnone
        | malformed hok hpipe hline => exact ⟨by simp [State.exitShell], iff_of_true ⟨_, rfl⟩ fun h => hline h.2.2.1⟩
        | noFork hok hpipe hline hfork =>
          exact ⟨by simp [State.exitShell], iff_of_true ⟨_, rfl⟩ fun h => by simp [hfork] at h⟩
        | done fg hok hpipe hline hfork =>
          exact ⟨by simp [State.launched], iff_of_false (by simp [State.launched]) (not_not.mpr ⟨hok, by simp [hpipe], hline, hfork⟩)⟩
    · cases hstep

def initial : State where
  shell := ⟨[], none, 0, fun fd => if fd < 3 then some .file else none, [], []⟩
  phase := .top
  role _ := none
  ofile _ _ := none
  nextpid := 0
  pipes := 0

theorem start_initial : Start initial where
  phase := rfl
  jlist := rfl
  fgJob := rfl
  closed := rfl
  launched := rfl
  stdin := by decide
  shell fd x h := by
    simp only [initial] at h
    split at h
    · cases h
      trivial
    · cases h
  others p fd x h := nomatch h
  program p r h := nomatch h
  fresh p _ := rfl
  gone p _ fd := rfl

def typed (line : List Char) : Label := .line (line.map code) (fun _ => false) true true

theorem exits_iff_echo : ∃ s', system.step initial (typed ['e', 'c', 'h', 'o', '\n']) = .next s' ∧ s'.phase = .waiting 0 ∧
    (s'.phase = .exited .endOfInput ↔ EndOfInput initial (typed ['e', 'c', 'h', 'o', '\n'])) ∧
    ((∃ e, s'.phase = .exited (.stopped e)) ↔ ¬ Runnable initial (typed ['e', 'c', 'h', 'o', '\n'])) := by
  have hphase : (step initial (typed ['e', 'c', 'h', 'o', '\n'])).state?.map State.phase = some (.waiting 0) := by decide +kernel
  obtain ⟨s', hs', hphase⟩ := Option.map_eq_some_iff.mp hphase
  have hstep := Outcome.state?_eq_some.mp hs'
  exact ⟨s', hstep, hphase, exits_iff initial s' _ (by simp [initial]) hstep⟩

/-- An open parenthesis ends the shell. -/
theorem parenthesis_exits : ∃ s', system.Run [typed ['(', '\n']] s' ∧ s'.phase = .exited (.stopped (.panic .missingParen)) := by
  have hphase : (system.exec initial [typed ['(', '\n']]).map State.phase = some (.exited (.stopped (.panic .missingParen))) := by
    decide +kernel
  obtain ⟨s', hs', hphase⟩ := Option.map_eq_some_iff.mp hphase
  exact ⟨s', (Automaton.Run.start start_initial).exec hs', hphase⟩

end Xv6.Shell
