import Xv6.Proc.Invariant
import Xv6.Syscall.Args

/-!
# The other fields of `struct proc`

The process table once more, with the fields that system calls other than those of `ProcTable` read and
write: the size, the open files, the name and the signal handlers. Each slot keeps them from one process to
the next, as `allocproc` clears none of them. A step on the table is that of `ProcTable`, so the tables are
those of `ProcTable.kernel`; a process in `waitpid` has, beside its place there, the status pointer it has
passed.

The kernel stack, the trap frame, the context and the current directory are not here, nor are the reference
counts of files; a file is its number in the file table.
-/

namespace Xv6.System

open Lib ProcTable Syscall

abbrev sigNum : Nat := 32

abbrev Name := Fin 16 → UInt8

structure Fields where
  sz : Word
  ofile : Fin nofile → Option Nat
  name : Name
  pending : Word
  signalHandlers : Fin sigNum → Word

structure Sys where
  table : Table
  fields : Slot → Fields
  /-- The status pointer of the call of `waitpid` that a process is in. -/
  statusPtr : Slot → Word

/-! ### The functions of `proc.c`, `sysproc.c` and `sysfile.c` -/

/-- The loop of `safestrcpy(s, t, sizeof(s))` from index `i` on. The byte after a copied zero is cleared too. -/
def safestrcpyFrom (t : Name) (i : Fin 16) (s : Name) : Name :=
  if h : i.val < 15 then
    let s' := Function.update s i (t i)
    let next : Fin 16 := ⟨i.val + 1, by omega⟩
    if t i = 0 then Function.update s' next 0 else safestrcpyFrom t next s'
  else Function.update s i 0
termination_by 15 - i.val

def safestrcpy (s t : Name) : Name := safestrcpyFrom t 0 s

/-- The copying of `fork`, from the parent to what the child's slot holds. -/
def forkFields (parent child : Fields) : Fields where
  sz := parent.sz
  ofile := fun fd => match parent.ofile fd with
    | some f => some f
    | none => child.ofile fd
  name := safestrcpy child.name parent.name
  pending := child.pending
  signalHandlers := child.signalHandlers

def signal (v : Fields) (signum handler : Word) : Fields × Word :=
  if h : signum.toInt ≥ 32 ∨ signum.toInt < 0 then (v, -1)
  else
    have hlt : signum.toInt.toNat < sigNum := by
      unfold sigNum
      omega
    ({ v with signalHandlers := Function.update v.signalHandlers ⟨signum.toInt.toNat, hlt⟩ handler },
      v.signalHandlers ⟨signum.toInt.toNat, hlt⟩)

/-- The loop of `pstat` and `printjob` over the open files. -/
def numFileOpen (v : Fields) : Nat := (List.finRange nofile).countP fun fd => (v.ofile fd).isSome

/-- The first free descriptor is given to the file `f`. -/
def fdalloc (v : Fields) (f : Nat) : Fields :=
  match (List.finRange nofile).find? fun fd => v.ofile fd = none with
  | some fd => { v with ofile := Function.update v.ofile fd (some f) }
  | none => v

/-- The arguments of `sys_wait` and of `sys_waitpid`, and those that `waitpid` is then called with. -/
def sysWait (u : User) : Option (Int × Word) := (argint u 0).map fun status => (-1, status)

def sysWaitpid (u : User) : Option (Int × Word) :=
  match argint u 0, argint u 1 with
  | some pid, some status => some (pid.toInt, status)
  | _, _ => none

/-! ### Steps -/

/-- What a process in user code or in a system call does, beside the steps of `ProcTable`. -/
inductive Call where
  | sysWait (esp : Word) (word : Word → Word)
  | sysWaitpid (esp : Word) (word : Word → Word)
  | signal (signum handler : Word)
  | fdalloc (f : Nat)
  | close (fd : Fin nofile)
  /-- The process gets another size, from `growproc`. -/
  | growproc (sz : Word)
  | exec (sz : Word) (name : Name)

inductive SysAct where
  | table (a : Act)
  | call (p : Slot) (c : Call)

def Sys.user (s : Sys) (p : Slot) (esp : Word) (word : Word → Word) : User := ⟨(s.fields p).sz, esp, word⟩

def Sys.setFields (s : Sys) (p : Slot) (v : Fields) : Sys := { s with fields := Function.update s.fields p v }

/-- What a step on the table does to the other fields: `fork` copies them, `exit` closes the files, and
`waitpid` clears the name of the child it returns. -/
def fieldsAfter (s : Sys) : Act → Slot → Fields
  | .own p .forkFill =>
    match s.table.pc p with
    | .allocated np => Function.update s.fields np (forkFields (s.fields p) (s.fields np))
    | _ => s.fields
  | .own p .exitClose => Function.update s.fields p { s.fields p with ofile := fun _ => none }
  | .own p .waitRound =>
    match s.table.pc p with
    | .waiting childPid true =>
      match scan s.table p childPid false slots with
      | .zombie q => Function.update s.fields q { s.fields q with name := Function.update (s.fields q).name 0 0 }
      | .done _ => s.fields
    | _ => s.fields
  | _ => s.fields

def onTable (s : Sys) (a : Act) : Outcome Panic Sys :=
  match step s.table a with
  | .next (t, _) => .next { s with table := t, fields := fieldsAfter s a }
  | .fail e => .fail e
  | .disabled => .disabled

/-- A call of `waitpid`, or the return of -1 if there are no arguments. -/
def callWaitpid (s : Sys) (p : Slot) : Option (Int × Word) → Outcome Panic Sys
  | none => .next s
  | some (childPid, status) =>
    onTable { s with statusPtr := Function.update s.statusPtr p status } (.own p (.waitCall childPid (status ≠ 0)))

def callStep (s : Sys) (p : Slot) : Call → Outcome Panic Sys
  | .sysWait esp word => callWaitpid s p (sysWait (s.user p esp word))
  | .sysWaitpid esp word => callWaitpid s p (sysWaitpid (s.user p esp word))
  | .signal signum handler => .next (s.setFields p (signal (s.fields p) signum handler).1)
  | .fdalloc f => .next (s.setFields p (fdalloc (s.fields p) f))
  | .close fd => .next (s.setFields p { s.fields p with ofile := Function.update (s.fields p).ofile fd none })
  | .growproc sz => .next (s.setFields p { s.fields p with sz := sz })
  | .exec sz name => .next (s.setFields p { s.fields p with sz := sz, name := safestrcpy (s.fields p).name name })

def sysStep (s : Sys) : SysAct → Outcome Panic Sys
  -- `waitpid` is called by the two system calls only
  | .table (.own _ (.waitCall _ _)) => .disabled
  | .table a => onTable s a
  | .call p c =>
    if (s.table.proc p).state = .running ∧ s.table.pc p = .kernel then callStep s p c else .disabled

def zeroFields : Fields where
  sz := 0
  ofile := fun _ => none
  name := fun _ => 0
  pending := 0
  signalHandlers := fun _ => 0

def initcodeName : Name := fun i => (("initcode".toUTF8.data)[i.val]?).getD 0

/-- After `userinit`: all else is as the machine starts, all zero. -/
def Sys.start (s : Sys) : Prop :=
  userinit zeroTable = some s.table ∧
  s.fields = Function.update (fun _ => zeroFields) s.table.initproc { zeroFields with sz := 4096, name := initcodeName } ∧
  s.statusPtr = fun _ => 0

def system : Automaton Sys SysAct Panic where
  start := Sys.start
  step := sysStep

/-! ### The table is that of `ProcTable.kernel` -/

/-- What a step does: a step of the table, a call of `waitpid`, or a change to the caller's own fields. -/
inductive SysTrans (s : Sys) : SysAct → Sys → Prop where
  | table {a : Act} {t : Table} {es : List Event} (ha : ∀ p childPid status, a ≠ .own p (.waitCall childPid status))
      (hstep : step s.table a = .next (t, es)) : SysTrans s (.table a) { s with table := t, fields := fieldsAfter s a }
  | badArgs {p : Slot} {c : Call} : SysTrans s (.call p c) s
  | waitpid {p : Slot} {c : Call} {childPid : Int} {status : Word} {t : Table} {es : List Event}
      (hpc : s.table.pc p = .kernel)
      (hstep : step s.table (.own p (.waitCall childPid (status ≠ 0))) = .next (t, es)) :
      SysTrans s (.call p c) { s with table := t, statusPtr := Function.update s.statusPtr p status }
  | fields {p : Slot} {c : Call} {v : Fields} (hrun : (s.table.proc p).state = .running)
      (hpc : s.table.pc p = .kernel) (hpending : v.pending = (s.fields p).pending) :
      SysTrans s (.call p c) (s.setFields p v)

theorem onTable_cases {s s' : Sys} {a : Act} (h : onTable s a = .next s') :
    ∃ t es, step s.table a = .next (t, es) ∧ s' = { s with table := t, fields := fieldsAfter s a } := by
  unfold onTable at h
  split at h
  · exact ⟨_, _, ‹_›, (Outcome.next.inj h).symm⟩
  · cases h
  · cases h

theorem callWaitpid_cases {s s' : Sys} {p : Slot} {c : Call} {args : Option (Int × Word)}
    (hpc : s.table.pc p = .kernel) (h : callWaitpid s p args = .next s') : SysTrans s (.call p c) s' := by
  cases args with
  | none =>
    obtain rfl := Outcome.next.inj h
    exact .badArgs
  | some args =>
    obtain ⟨t, es, hstep, rfl⟩ := onTable_cases h
    exact .waitpid hpc hstep

theorem fdalloc_pending (v : Fields) (f : Nat) : (fdalloc v f).pending = v.pending := by
  unfold fdalloc
  split <;> rfl

theorem signal_pending (v : Fields) (signum handler : Word) : (signal v signum handler).1.pending = v.pending := by
  unfold signal
  split <;> rfl

theorem sysStep_cases {s s' : Sys} {a : SysAct} (h : sysStep s a = .next s') : SysTrans s a s' := by
  cases a with
  | table a =>
    have hnext : (∀ p childPid status, a ≠ .own p (.waitCall childPid status)) ∧ onTable s a = .next s' := by
      unfold sysStep at h
      split at h
      · cases h
      · rename_i hcall heq
        obtain rfl := SysAct.table.inj heq
        refine ⟨?_, h⟩
        rintro p childPid status rfl
        exact hcall p childPid status rfl
      · rename_i heq
        cases heq
    obtain ⟨t, es, hstep, rfl⟩ := onTable_cases hnext.2
    exact .table hnext.1 hstep
  | call p c =>
    simp only [sysStep] at h
    split at h
    · rename_i hguard
      obtain ⟨hrun, hpc⟩ := hguard
      cases c with
      | sysWait esp word => exact callWaitpid_cases hpc h
      | sysWaitpid esp word => exact callWaitpid_cases hpc h
      | signal signum handler =>
        obtain rfl := Outcome.next.inj h
        exact .fields hrun hpc (signal_pending ..)
      | fdalloc f =>
        obtain rfl := Outcome.next.inj h
        exact .fields hrun hpc (fdalloc_pending ..)
      | close fd | growproc sz | exec sz name =>
        obtain rfl := Outcome.next.inj h
        exact .fields hrun hpc rfl
    · cases h

theorem system_refines_kernel {as : List SysAct} {s : Sys} (hrun : system.Run as s) :
    ∃ bs h, kernel.Run bs (s.table, h) := by
  refine hrun.invariant (I := fun _ s => ∃ bs h, kernel.Run bs (s.table, h)) ?_ ?_
  · rintro s ⟨htable, -⟩
    exact ⟨[], [], .start ⟨htable, rfl⟩⟩
  · rintro - s a s' ⟨bs, h, hkernel⟩ hs
    have hnext : ∀ {b t es}, step s.table b = .next (t, es) → kernel.Run (bs ++ [b]) (t, h ++ es) := by
      intro b t es hb
      refine hkernel.step ?_
      simp only [kernel, hb]
    cases sysStep_cases hs with
    | table ha hstep => exact ⟨_, _, hnext hstep⟩
    | badArgs => exact ⟨bs, h, hkernel⟩
    | waitpid hpc hstep => exact ⟨_, _, hnext hstep⟩
    | fields => exact ⟨bs, h, hkernel⟩

theorem inv_system {as : List SysAct} {s : Sys} (hrun : system.Run as s) : ∃ h, Inv s.table h := by
  obtain ⟨bs, h, hkernel⟩ := system_refines_kernel hrun
  exact ⟨h, inv_run hkernel⟩

def firstSys : Sys where
  table := firstTable
  fields := Function.update (fun _ => zeroFields) 0 { zeroFields with sz := 4096, name := initcodeName }
  statusPtr := fun _ => 0

theorem run_firstSys : system.Run [] firstSys := .start ⟨userinit_zeroTable, rfl, rfl⟩

end Xv6.System
