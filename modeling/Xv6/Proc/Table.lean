import Xv6.Lib.Transition
import Xv6.Param

/-!
# The process table

`proc.c` at the granularity of `ptable.lock`: a step is one section that holds the lock, or what a process
does to the table between two such sections. `fork` allocates its slot under the lock, fills it in without
it, and takes the lock again to make the child runnable; `exit` stores the status and closes files before
it takes the lock. A process is named by its slot. Address spaces, kernel stacks and open files are not
part of the table here, and the status that `waitpid` stores in its caller's memory is given as an event.

Pids and statuses are C integers; the one sum made of them is `nextpid++`, which is not taken past the
largest `int`.
-/

namespace Xv6.ProcTable

open Lib

abbrev Slot := Fin nproc

inductive ProcState where
  | unused | embryo | sleeping | runnable | running | zombie
deriving DecidableEq, Repr

/-- The addresses processes sleep on: a slot of the table in `waitpid`, or some other object. -/
inductive Chan where
  | slot (p : Slot)
  | other (addr : Nat)
deriving DecidableEq, Repr

/-- The fields of `struct proc` that this file's functions share; `none` and `0` are null pointers. -/
structure Proc where
  state : ProcState
  pid : Int
  parent : Option Slot
  chan : Option Chan
  killed : Bool
  exitStatus : Int
  job : Nat
deriving DecidableEq, Repr

/-- Where a process is in `fork`, `exit` or `waitpid`; `kernel` is anywhere else, user code included. -/
inductive Pc where
  | kernel
  /-- In `fork`, with the slot `allocproc` has found. -/
  | allocated (np : Slot)
  /-- In `fork`, with the child filled in. -/
  | filled (np : Slot)
  /-- In `exit`, with the status stored, and then with files closed and the job cleared. -/
  | exiting
  | leaving
  /-- In the loop of `waitpid`, with or without a status pointer. -/
  | waiting (childPid : Int) (status : Bool)
deriving DecidableEq, Repr

structure Table where
  proc : Slot → Proc
  initproc : Slot
  nextpid : Int
  pc : Slot → Pc

/-- What a process sees of `fork`, `exit` and `waitpid`; processes are given by their pids. -/
inductive Event where
  | forked (parent child : Int)
  | exited (pid status : Int)
  /-- A `waitpid(childPid, &status)` of `parent` that returns `child`. -/
  | waited (parent childPid child status : Int)
  /-- A `waitpid` of `parent`, with or without a status pointer, that returns -1. -/
  | failed (parent childPid : Int) (status : Bool)
deriving DecidableEq, Repr

inductive Panic where
  /-- The call `panic("init exiting")`. -/
  | initExiting
deriving DecidableEq, Repr

/-! ### Updates -/

def Table.set (t : Table) (p : Slot) (v : Proc) : Table := { t with proc := Function.update t.proc p v }

def Table.goto (t : Table) (p : Slot) (pc : Pc) : Table := { t with pc := Function.update t.pc p pc }

@[simp] theorem set_self (t : Table) (p : Slot) (v : Proc) : (t.set p v).proc p = v := Function.update_self ..

@[simp] theorem set_of_ne (t : Table) {p q : Slot} (hq : q ≠ p) (v : Proc) : (t.set p v).proc q = t.proc q :=
  Function.update_of_ne hq ..

theorem set_proc (t : Table) (p q : Slot) (v : Proc) :
    (t.set p v).proc q = if q = p then v else t.proc q := Function.update_apply ..

theorem set_field {β : Type} (f : Proc → β) {t : Table} {p : Slot} {v : Proc} (q : Slot) (hv : f v = f (t.proc p)) :
    f ((t.set p v).proc q) = f (t.proc q) := by
  rw [set_proc]
  split
  · subst q
    exact hv
  · rfl

@[simp] theorem set_pc (t : Table) (p : Slot) (v : Proc) : (t.set p v).pc = t.pc := rfl

@[simp] theorem set_initproc (t : Table) (p : Slot) (v : Proc) : (t.set p v).initproc = t.initproc := rfl

@[simp] theorem set_nextpid (t : Table) (p : Slot) (v : Proc) : (t.set p v).nextpid = t.nextpid := rfl

@[simp] theorem goto_proc (t : Table) (p : Slot) (pc : Pc) : (t.goto p pc).proc = t.proc := rfl

@[simp] theorem goto_initproc (t : Table) (p : Slot) (pc : Pc) : (t.goto p pc).initproc = t.initproc := rfl

@[simp] theorem goto_nextpid (t : Table) (p : Slot) (pc : Pc) : (t.goto p pc).nextpid = t.nextpid := rfl

@[simp] theorem goto_self (t : Table) (p : Slot) (pc : Pc) : (t.goto p pc).pc p = pc := Function.update_self ..

@[simp] theorem goto_of_ne (t : Table) {p q : Slot} (hq : q ≠ p) (pc : Pc) : (t.goto p pc).pc q = t.pc q :=
  Function.update_of_ne hq ..

theorem goto_pc (t : Table) (p q : Slot) (pc : Pc) :
    (t.goto p pc).pc q = if q = p then pc else t.pc q := Function.update_apply ..

/-! ### The functions of `proc.c` -/

def slots : List Slot := List.finRange nproc

theorem mem_slots (p : Slot) : p ∈ slots := List.mem_finRange p

/-- The locked part of `allocproc`: the first slot that is not in use. -/
def allocproc (t : Table) : Option (Slot × Table) :=
  (slots.find? fun p => (t.proc p).state = .unused).map fun p =>
    (p, { t.set p { t.proc p with state := .embryo, pid := t.nextpid } with nextpid := t.nextpid + 1 })

/-- A slot given back by a failed `fork`; its other fields keep what they hold. -/
def freeSlot (t : Table) (p : Slot) : Table := t.set p { t.proc p with state := .unused }

def wakeup1 (t : Table) (chan : Option Chan) : Table :=
  { t with proc := fun p =>
      if (t.proc p).state = .sleeping ∧ (t.proc p).chan = chan then { t.proc p with state := .runnable }
      else t.proc p }

/-- One round of the loop of `exit` that passes abandoned children to init. -/
def passToInit (self : Slot) (t : Table) (p : Slot) : Table :=
  if (t.proc p).parent = some self then
    let t' := t.set p { t.proc p with parent := some t.initproc }
    if (t.proc p).state = .zombie then wakeup1 t' (some (.slot t.initproc)) else t'
  else t

@[irreducible] def passChildren (t : Table) (self : Slot) : Table := slots.foldl (passToInit self) t

def becomeZombie (t : Table) (self : Slot) : Table :=
  let t := wakeup1 t ((t.proc self).parent.map .slot)
  let t := passChildren t self
  t.set self { t.proc self with state := .zombie }

def sleep (t : Table) (p : Slot) (chan : Chan) : Table :=
  t.set p { t.proc p with chan := some chan, state := .sleeping }

def intMax : Int := 2 ^ 31 - 1

inductive Scan where
  | zombie (p : Slot)
  | done (havekids : Bool)

/-- The loop of `waitpid` over the table, up to the first zombie it looks for. -/
def scan (t : Table) (self : Slot) (childPid : Int) : Bool → List Slot → Scan
  | havekids, [] => .done havekids
  | havekids, p :: rest =>
    if (t.proc p).parent ≠ some self then scan t self childPid havekids rest
    else if childPid ≠ -1 ∧ childPid ≠ (t.proc p).pid then scan t self childPid havekids rest
    else if (t.proc p).state = .zombie then .zombie p
    else scan t self childPid true rest

/-- What `waitpid` does to the slot of the child it returns. -/
def reap (t : Table) (p : Slot) : Table :=
  t.set p { t.proc p with state := .unused, pid := 0, parent := none, killed := false, job := 0 }

/-- One round of `waitpid`, ending in a return or in `sleep`. Without a status pointer it returns -1 at the
zombie it finds and leaves it there. -/
def waitpid (t : Table) (self : Slot) (childPid : Int) (status : Bool) : Table × List Event :=
  match scan t self childPid false slots with
  | .zombie p =>
    if status then
      ((reap t p).goto self .kernel,
        [.waited (t.proc self).pid childPid (t.proc p).pid (t.proc p).exitStatus])
    else (t.goto self .kernel, [.failed (t.proc self).pid childPid status])
  | .done havekids =>
    if !havekids || (t.proc self).killed then
      (t.goto self .kernel, [.failed (t.proc self).pid childPid status])
    else (sleep t self (.slot self), [])

def kill (t : Table) (pid : Int) : Table :=
  match slots.find? fun p => (t.proc p).pid = pid with
  | some p =>
    t.set p { t.proc p with
      killed := true, state := if (t.proc p).state = .sleeping then .runnable else (t.proc p).state }
  | none => t

/-- The address `job` is the caller's, and is stored as it is. -/
def attachjob (t : Table) (pid : Int) (job : Nat) : Table :=
  match slots.find? fun p => (t.proc p).pid = pid with
  | some p => t.set p { t.proc p with job := job }
  | none => t

/-! ### Steps

A step of one process may follow any step of another. The kernel allows fewer interleavings: a process
that is woken in `waitpid` scans the table without giving up the lock it was scheduled with. -/

inductive Own where
  | forkAlloc
  /-- A `fork` for which `kalloc` or `copyuvm` fails. -/
  | forkFail
  | forkFill
  | forkRun
  | exit (status : Int)
  | exitClose
  | exitZombie
  | waitCall (childPid : Int) (status : Bool)
  | waitRound
  /-- The trap handler marks a process that has misbehaved. -/
  | fault
  | yield
  /-- The calls of `sleep` outside `waitpid`. -/
  | sleep (addr : Nat)
deriving DecidableEq, Repr

inductive Act where
  | own (p : Slot) (a : Own)
  | kill (pid : Int)
  | attachjob (pid : Int) (job : Nat)
  | wakeup (addr : Nat)
  | schedule (p : Slot)
deriving DecidableEq, Repr

def fork (t : Table) (p : Slot) : Outcome Panic (Table × List Event) :=
  match allocproc t with
  | none => .next (t, [])
  | some (np, t') => if t.nextpid < intMax then .next (t'.goto p (.allocated np), []) else .disabled

def exit (t : Table) (p : Slot) (status : Int) : Outcome Panic (Table × List Event) :=
  let t' := t.set p { t.proc p with exitStatus := status }
  if p = t.initproc then .fail .initExiting else .next (t'.goto p .exiting, [.exited (t.proc p).pid status])

def ownStep (t : Table) (p : Slot) : Pc → Own → Outcome Panic (Table × List Event)
  | .kernel, .forkAlloc => fork t p
  | .allocated np, .forkFail => .next ((freeSlot t np).goto p .kernel, [])
  | .allocated np, .forkFill =>
    .next ((t.set np { t.proc np with parent := some p, job := (t.proc p).job }).goto p (.filled np),
      [.forked (t.proc p).pid (t.proc np).pid])
  | .filled np, .forkRun => .next ((t.set np { t.proc np with state := .runnable }).goto p .kernel, [])
  | .kernel, .exit status => exit t p status
  | .exiting, .exitClose => .next ((t.set p { t.proc p with job := 0 }).goto p .leaving, [])
  | .leaving, .exitZombie => .next ((becomeZombie t p).goto p .kernel, [])
  | .kernel, .waitCall childPid status => .next (t.goto p (.waiting childPid status), [])
  | .waiting childPid status, .waitRound => .next (waitpid t p childPid status)
  | .kernel, .fault => .next (t.set p { t.proc p with killed := true }, [])
  | .kernel, .sleep addr => .next (sleep t p (.other addr), [])
  | .exiting, .sleep addr => .next (sleep t p (.other addr), [])
  | _, .yield => .next (t.set p { t.proc p with state := .runnable }, [])
  | _, _ => .disabled

def step (t : Table) : Act → Outcome Panic (Table × List Event)
  | .own p a => if (t.proc p).state = .running then ownStep t p (t.pc p) a else .disabled
  | .kill pid => .next (kill t pid, [])
  | .attachjob pid job => .next (attachjob t pid job, [])
  | .wakeup addr => .next (wakeup1 t (some (.other addr)), [])
  | .schedule p =>
    -- a process woken from `sleep` clears its channel before it goes on; others have none
    if (t.proc p).state = .runnable then .next (t.set p { t.proc p with state := .running, chan := none }, [])
    else .disabled

def zeroTable : Table where
  proc := fun _ => ⟨.unused, 0, none, none, false, 0, 0⟩
  initproc := ⟨0, by decide⟩
  nextpid := 1
  pc := fun _ => .kernel

def userinit (t : Table) : Option Table := (allocproc t).map fun (p, t) =>
  { t.set p { t.proc p with exitStatus := 0, state := .runnable } with initproc := p }

/-- The kernel from `userinit` on, with what has happened so far. -/
def kernel : Automaton (Table × List Event) Act Panic where
  start s := userinit zeroTable = some s.1 ∧ s.2 = []
  step s a := match step s.1 a with
    | .next (t, es) => .next (t, s.2 ++ es)
    | .fail e => .fail e
    | .disabled => .disabled

end Xv6.ProcTable
