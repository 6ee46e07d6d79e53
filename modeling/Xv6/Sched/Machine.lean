import Xv6.Proc.Life

/-!
# The processors and `ptable.lock`

The process table again, now with the processors that run `scheduler`. The lock is explicit: it is taken by
one context and given back by another, on the other side of `swtch`, and the steps between are taken one at
a time, so that what other processors do meanwhile without the lock comes in between. What a section does
to the table under the lock is still one step, that of `ProcTable`.

Of memory there are the pages that a processor runs on: the kernel stack and the page directory of each
process, from `kalloc` to `kfree`. What the directory maps, and `exec`, which replaces it, are not here.
-/

namespace Xv6.Sched

open Lib ProcTable

abbrev Page := Nat

/-- What a page handed out by `kalloc` is used for. -/
inductive Holder where
  | kstack (p : Slot)
  | pgdir (p : Slot)
deriving DecidableEq, Repr

inductive Place where
  /-- Between two loops over the table, without the lock. -/
  | idle
  | loop
  /-- After `proc = p`, and then after `switchuvm(p)`. -/
  | picked (p : Slot)
  | loaded (p : Slot)
  /-- In the process, which it has switched to. -/
  | running (p : Slot)
  /-- Back from the process, and then after `switchkvm()`. -/
  | returned (p : Slot)
  | unloaded (p : Slot)
deriving DecidableEq, Repr

structure Cpu where
  place : Place
  /-- The slot that the loop of `scheduler` is at. -/
  slot : Nat
  proc : Option Slot
  /-- The page directory loaded, `none` for `kpgdir`. -/
  cr3 : Option Page
  /-- The stack it runs on, `none` for the stack of its scheduler. -/
  stack : Option Page
deriving DecidableEq, Repr

/-- The function whose call of `sched` a process returns from when it is switched to. A new process starts in
`forkret`, and a process in `exit` is never switched to again. -/
inductive Caller where
  | forkret | yield | sleep | waitpid | exit
deriving DecidableEq, Repr

inductive Phase where
  | free
  | held
  /-- In `waitpid`, with a zombie found; then with its stack freed; then with its directory freed. -/
  | reap (q : Slot)
  | reapVm (q : Slot)
  | reaped (q : Slot)
  /-- Before `release`. -/
  | done
  /-- In `sched`, before `swtch`; then switched away from; then switched to, with the lock. -/
  | sched (k : Caller)
  | off (k : Caller)
  | on (k : Caller)
deriving DecidableEq, Repr

/-- How far a process in `fork` is with its child's memory. -/
inductive Stage where
  | start | stack | copied
deriving DecidableEq, Repr

structure Machine (κ : Type) where
  table : Table
  lock : Option κ
  cpu : κ → Cpu
  phase : Slot → Phase
  stage : Slot → Stage
  kstack : Slot → Option Page
  pgdir : Slot → Option Page
  page : Page → Option Holder

inductive Panic where
  | table (e : ProcTable.Panic)
  /-- The calls `panic("sched ptable.lock")`, `panic("sched running")` and `panic("zombie exit")`. -/
  | schedLock
  | schedRunning
  | zombieExit
  /-- The calls `panic("switchuvm: no pgdir")`, `panic("kfree")` and `panic("freevm: no pgdir")`. -/
  | switchuvm
  | kfree
  | freevm
deriving DecidableEq, Repr

/-- What a processor does next, where its code leaves a choice. -/
inductive Cmd where
  /-- The next statement, where there is no choice. -/
  | next
  | acquire
  | own (a : Own)
  | kill (pid : Int)
  | attachjob (pid : Int) (job : Nat)
  | wakeup (addr : Nat)
  /-- A call of `kalloc` in `fork` that returns this page; one that fails is `Own.forkFail`. -/
  | kalloc (a : Page)
deriving DecidableEq, Repr

section

variable {κ : Type} [DecidableEq κ]

def Machine.setCpu (m : Machine κ) (c : κ) (v : Cpu) : Machine κ := { m with cpu := Function.update m.cpu c v }

def Machine.setPhase (m : Machine κ) (p : Slot) (ph : Phase) : Machine κ :=
  { m with phase := Function.update m.phase p ph }

/-! ### The functions of `proc.c` -/

def scheduler (m : Machine κ) (c : κ) : Outcome Panic (Machine κ) :=
  let v := m.cpu c
  match v.place with
  | .idle =>
    if m.lock = none then .next ({ m with lock := some c }.setCpu c { v with place := .loop, slot := 0 }) else .disabled
  | .loop =>
    if h : v.slot < nproc then
      if (m.table.proc ⟨v.slot, h⟩).state ≠ .runnable then .next (m.setCpu c { v with slot := v.slot + 1 })
      else .next (m.setCpu c { v with place := .picked ⟨v.slot, h⟩, proc := some ⟨v.slot, h⟩ })
    else .next ({ m with lock := none }.setCpu c { v with place := .idle })
  | .picked p =>
    match m.pgdir p with
    | none => .fail .switchuvm
    | some d => .next (m.setCpu c { v with place := .loaded p, cr3 := some d })
  | .loaded p =>
    let m' := { m with table := m.table.set p { m.table.proc p with state := .running } }
    match m.phase p with
    | .off k => .next ((m'.setPhase p (.on k)).setCpu c { v with place := .running p, stack := m.kstack p })
    | _ => .disabled
  | .running _ => .disabled
  | .returned p => .next (m.setCpu c { v with place := .unloaded p, cr3 := none })
  | .unloaded _ => .next (m.setCpu c { v with place := .loop, slot := v.slot + 1, proc := none })

/-- The process at `p`, run by processor `c`, enters the scheduler. -/
def sched (m : Machine κ) (c : κ) (p : Slot) (k : Caller) : Outcome Panic (Machine κ) :=
  if m.lock ≠ some c then .fail .schedLock
  else if (m.table.proc p).state = .running then .fail .schedRunning
  else .next ((m.setPhase p (.off k)).setCpu c { m.cpu c with place := .returned p, stack := none })

/-- A process that has been switched to goes on after `sched`; `sleep` tidies up its channel. -/
def resume (m : Machine κ) (p : Slot) : Caller → Outcome Panic (Machine κ)
  | .forkret | .yield => .next (m.setPhase p .done)
  | .sleep => .next ({ m with table := m.table.set p { m.table.proc p with chan := none } }.setPhase p .done)
  | .waitpid => .next ({ m with table := m.table.set p { m.table.proc p with chan := none } }.setPhase p .held)
  | .exit => .fail .zombieExit

/-- A step of the table, after which the process at `p` is at `ph`. -/
def onTable (m : Machine κ) (a : Act) (p : Slot) (ph : Phase) : Outcome Panic (Machine κ) :=
  match step m.table a with
  | .next (t, _) => .next ({ m with table := t }.setPhase p ph)
  | .fail e => .fail (.table e)
  | .disabled => .disabled

/-- The page of memory `a` goes back to the free list. -/
def kfree (m : Machine κ) (a : Page) : Machine κ := { m with page := Function.update m.page a none }

/-- In `fork`, the pages of the child: first its kernel stack, with the context that starts in `forkret`, then
its page directory. -/
def kalloc (m : Machine κ) (p : Slot) (a : Page) : Outcome Panic (Machine κ) :=
  match m.table.pc p, m.stage p, m.page a with
  | .allocated np, .start, none =>
    .next ({ m with
      page := Function.update m.page a (some (.kstack np))
      kstack := Function.update m.kstack np (some a)
      stage := Function.update m.stage p .stack }.setPhase np (.off .forkret))
  | .allocated np, .stack, none =>
    .next { m with
      page := Function.update m.page a (some (.pgdir np))
      pgdir := Function.update m.pgdir np (some a)
      stage := Function.update m.stage p .copied }
  | _, _, _ => .disabled

/-- The failure of `allocproc`, which has no stack to free, or of `copyuvm` in `fork`. -/
def forkFail (m : Machine κ) (p : Slot) : Outcome Panic (Machine κ) :=
  match m.table.pc p, m.stage p with
  | .allocated _, .start => onTable m (.own p .forkFail) p .free
  | .allocated np, .stack =>
    match m.kstack np with
    | none => .fail .kfree
    | some a =>
      onTable { kfree m a with
        kstack := Function.update m.kstack np none
        stage := Function.update m.stage p .start } (.own p .forkFail) p .free
  | _, _ => .disabled

def forkFill (m : Machine κ) (p : Slot) : Outcome Panic (Machine κ) :=
  if m.stage p = .copied then
    onTable { m with stage := Function.update m.stage p .start } (.own p .forkFill) p .free
  else .disabled

def unlocked (m : Machine κ) (p : Slot) : Own → Outcome Panic (Machine κ)
  | .forkFail => forkFail m p
  | .forkFill => forkFill m p
  | .exit status => onTable m (.own p (.exit status)) p .free
  | .exitClose => onTable m (.own p .exitClose) p .free
  | .waitCall childPid status => onTable m (.own p (.waitCall childPid status)) p .free
  | .fault => onTable m (.own p .fault) p .free
  | _ => .disabled

/-- One round of `waitpid`; a zombie it returns is freed step by step. -/
def waitRound (m : Machine κ) (p : Slot) : Outcome Panic (Machine κ) :=
  match m.table.pc p with
  | .waiting childPid status =>
    match scan m.table p childPid false slots with
    | .zombie q => if status then .next (m.setPhase p (.reap q)) else onTable m (.own p .waitRound) p .done
    | .done havekids =>
      if !havekids || (m.table.proc p).killed then onTable m (.own p .waitRound) p .done
      else onTable m (.own p .waitRound) p (.sched .waitpid)
  | _ => .disabled

def locked (m : Machine κ) (p : Slot) : Own → Outcome Panic (Machine κ)
  | .forkAlloc => onTable m (.own p .forkAlloc) p .done
  | .forkRun => onTable m (.own p .forkRun) p .done
  | .exitZombie => onTable m (.own p .exitZombie) p (.sched .exit)
  | .waitRound => waitRound m p
  | .yield => onTable m (.own p .yield) p (.sched .yield)
  | .sleep addr => onTable m (.own p (.sleep addr)) p (.sched .sleep)
  | _ => .disabled

def reapStack (m : Machine κ) (p q : Slot) : Outcome Panic (Machine κ) :=
  match m.kstack q with
  | none => .fail .kfree
  | some a => .next ({ kfree m a with kstack := Function.update m.kstack q none }.setPhase p (.reapVm q))

def reapVm (m : Machine κ) (p q : Slot) : Outcome Panic (Machine κ) :=
  match m.pgdir q with
  | none => .fail .freevm
  | some d => .next ((kfree m d).setPhase p (.reaped q))

/-- One step of the process at `p`, run by processor `c`. -/
def process (m : Machine κ) (c : κ) (p : Slot) : Phase → Cmd → Outcome Panic (Machine κ)
  | .free, .acquire => if m.lock = none then .next ({ m with lock := some c }.setPhase p .held) else .disabled
  | .free, .own a => unlocked m p a
  | .free, .kalloc a => kalloc m p a
  | .held, .own a => locked m p a
  | .held, .kill pid => onTable m (.kill pid) p .done
  | .held, .attachjob pid job => onTable m (.attachjob pid job) p .done
  | .held, .wakeup addr => onTable m (.wakeup addr) p .done
  | .reap q, .next => reapStack m p q
  | .reapVm q, .next => reapVm m p q
  | .reaped _, .next => onTable m (.own p .waitRound) p .done
  | .done, .next => .next ({ m with lock := none }.setPhase p .free)
  | .sched k, .next => sched m c p k
  | .on k, .next => resume m p k
  | _, _ => .disabled

inductive MachineAct (κ : Type) where
  | cpu (c : κ) (cmd : Cmd)
  /-- An interrupt handler that calls `wakeup`, on any processor. -/
  | interrupt (addr : Nat)

def machineStep (m : Machine κ) : MachineAct κ → Outcome Panic (Machine κ)
  | .cpu c cmd =>
    match (m.cpu c).place with
    | .running p => process m c p (m.phase p) cmd
    | _ => scheduler m c
  | .interrupt addr =>
    if m.lock = none then .next { m with table := wakeup1 m.table (some (.other addr)) } else .disabled

/-- After `userinit`: init waits for a processor in `forkret`, with a stack and a page directory. -/
def Machine.start (m : Machine κ) : Prop :=
  userinit zeroTable = some m.table ∧ m.lock = none ∧
  (∀ c, ∃ i, m.cpu c = ⟨.idle, i, none, none, none⟩) ∧
  (∀ p, m.phase p = .off .forkret ∧ m.stage p = .start) ∧
  ∃ a d, a ≠ d ∧ m.kstack m.table.initproc = some a ∧ m.pgdir m.table.initproc = some d ∧
    m.page a = some (.kstack m.table.initproc) ∧ m.page d = some (.pgdir m.table.initproc)

def machine (κ : Type) [DecidableEq κ] : Automaton (Machine κ) (MachineAct κ) Panic where
  start := Machine.start
  step := machineStep

end

end Xv6.Sched
