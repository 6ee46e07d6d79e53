import Xv6.Proc.Table
import Xv6.Vm.User

/-!
# The calls that move pages

All processes with their kernel stacks, page directories and pipes, as a transition system. A step is one call
into `vm.c` or `kalloc.c`, made by one process in the order in which `userinit`, `fork`, `growproc`, `exec`,
`exit`, `waitpid` and the pipe calls make them, so the calls of different processes interleave. `exec` is given
any program headers that do not wrap around and any bytes to copy out. Between the calls, processes store into
their user memory and the kernel into its stacks and pipes.
-/

namespace Xv6.Vm

open Lib Syscall

open ProcTable (Slot)

structure Proghdr where
  off : Word
  vaddr : Word
  filesz : Word
  memsz : Word

/-- Where a process is in a function that makes several calls. -/
inductive Stage where
  | idle
  /-- In `userinit`. -/
  | booting
  /-- In `fork`, with the child allocated. -/
  | forking (np : Slot)
  /-- In `exec`, with the new page directory and size: between program headers; with one whose memory has
  been allocated; with the stack allocated; and with the page below the stack protected. -/
  | loading (d : Nat) (sz : Word)
  | allocated (d : Nat) (sz : Word) (ph : Proghdr)
  | stacked (d : Nat) (sz : Word)
  | guarded (d : Nat) (sz : Word)
  /-- In `exec`, with the new image in place of the old page directory. -/
  | replaced (old : Nat)

/-- Life of a slot; a `built` one is an embryo that has its page directory. -/
inductive Life where
  | unused
  | embryo
  | built
  | alive
  | zombie
deriving DecidableEq

/-- The memory of a process. The directory of a slot that has been freed is left behind. -/
structure Mproc where
  life : Life
  kstack : Option Nat
  pgdir : Option Nat
  sz : Word
  stage : Stage

structure Machine where
  mem : Memory
  kpgdir : Option Nat
  procs : Slot → Mproc
  pipes : List Nat

/-! ### The functions that call -/

/-- Grow the memory of a process by `n` bytes; returns the new size, or nothing for -1. -/
def growproc (L : Layout) (pgdir : Nat) (sz n : Word) : VmM (Option Word) := do
  if n.toInt > 0 then
    let sz ← allocuvm L pgdir sz (sz + n)
    return if sz = 0 then none else some sz
  else if n.toInt < 0 then
    let sz ← deallocuvm L pgdir sz (sz + n)
    return if sz = 0 then none else some sz
  else return some sz

/-- The copy of the parent's memory in `fork`; without it the child's kernel stack is freed. -/
def forkCopy (L : Layout) (pgdir : Nat) (sz : Word) (kstack : Option Nat) : VmM (Option Nat) := do
  match ← copyuvm L pgdir sz with
  | some d => return some d
  | none =>
    match kstack with
    | none => throw .kfree
    | some q =>
      kfree L q
      return none

inductive ExecCall where
  | alloc (ph : Proghdr)
  | load (readi : Readi)
  | grow
  | guard
  | copyout (va : Word) (buf : List UInt8)
  | fail

def bad (L : Layout) (d : Nat) : VmM Stage := do
  freevm L (some d)
  return .idle

/-- The call made at a stage of `exec`, with the stage it leads to. -/
def execCall (L : Layout) : Stage → ExecCall → Option (VmM Stage)
  | .loading d sz, .alloc ph =>
    -- an image that wraps around is not loaded
    if ph.vaddr.toNat + ph.memsz.toNat ≥ 2 ^ 32 then none
    else some do
      if ph.memsz < ph.filesz then bad L d
      else
        let sz ← allocuvm L d sz (ph.vaddr + ph.memsz)
        if sz = 0 then bad L d else return .allocated d sz ph
  | .allocated d sz ph, .load readi => some do
    if ← loaduvm d ph.vaddr readi ph.off ph.filesz then return .loading d sz else bad L d
  | .loading d sz, .grow => some do
    let sz ← allocuvm L d (pgroundup sz) (pgroundup sz + 2 * 4096)
    if sz = 0 then bad L d else return .stacked d sz
  | .stacked d sz, .guard => some do
    clearpteu d (sz - 2 * 4096)
    return .guarded d sz
  | .guarded d sz, .copyout va buf => some do
    if ← copyout d va buf then return .guarded d sz else bad L d
  -- a header that cannot be read, or too many arguments
  | .loading d _, .fail | .guarded d _, .fail => some (bad L d)
  | _, _ => none

/-! ### Steps -/

inductive Call where
  | kvmalloc
  | initStack
  | initDir
  | initCode (init : List UInt8)
  | allocproc (p : Slot)
  | forkCopy (p : Slot)
  | growproc (p : Slot) (n : Word)
  | execStart (p : Slot)
  | exec (p : Slot) (c : ExecCall)
  | execCommit (p : Slot)
  | execFree (p : Slot)
  | exit (p : Slot)
  /-- The two frees of `waitpid`. -/
  | freeStack (p : Slot)
  | freeDir (p : Slot)
  | pipealloc
  | pipeclose (q : Nat)
  /-- A store by the user program. -/
  | store (p : Slot) (va : Word) (b : UInt8)
  /-- The kernel uses one of its pages. -/
  | scribble (q : Nat) (b : Page)

def Machine.set (m : Machine) (p : Slot) (v : Mproc) : Machine := { m with procs := Function.update m.procs p v }

def Machine.run {α : Type} (m : Machine) (f : VmM α) (k : α → Machine → Machine) : Outcome Panic Machine :=
  match f m.mem with
  | .ok (a, mem) => .next (k a { m with mem := mem })
  | .error e => .fail e

/-- The result of a call that its caller does not check. -/
def need {α : Type} (e : Panic) (f : VmM (Option α)) : VmM α := do
  match ← f with
  | some a => return a
  | none => throw e

/-- The page and the entry by which the user reaches an address. -/
def Memory.pte (s : Memory) (d : Nat) (va : Word) : Option Word :=
  if Present (s.entry d (pdx va)) then some (s.entry (pteAddr (s.entry d (pdx va))) (ptx va)) else none

/-- The page that the user may write at an address. -/
def Memory.writable (s : Memory) (d : Nat) (va : Word) : Option Nat :=
  match s.pte d va with
  | some e => if e &&& pteP ≠ 0 ∧ e &&& pteU ≠ 0 ∧ e &&& pteW ≠ 0 then some (pteAddr e) else none
  | none => none

def holds : Option Nat → Multiset Nat
  | none => 0
  | some q => {q}

def Machine.kstacks (m : Machine) : Multiset Nat := total fun p => holds (m.procs p).kstack

def Machine.call (L : Layout) (m : Machine) : Call → Outcome Panic Machine
  | .kvmalloc =>
    if m.kpgdir = none then m.run (need .nullPointer (setupkvm L)) fun d m => { m with kpgdir := some d } else .disabled
  | .initStack =>
    if m.kpgdir ≠ none ∧ ∀ p, (m.procs p).life = .unused then
      m.run (need .nullPointer kalloc) fun q m =>
        m.set 0 { m.procs 0 with life := .embryo, kstack := some q, stage := .booting }
    else .disabled
  | .initDir =>
    match (m.procs 0).life, (m.procs 0).stage with
    | .embryo, .booting =>
      m.run (need .userinit (setupkvm L)) fun d m => m.set 0 { m.procs 0 with life := .built, pgdir := some d }
    | _, _ => .disabled
  | .initCode init =>
    match (m.procs 0).life, (m.procs 0).stage, (m.procs 0).pgdir with
    | .built, .booting, some d =>
      m.run (inituvm d init) fun _ m => m.set 0 { m.procs 0 with life := .alive, sz := 4096, stage := .idle }
    | _, _, _ => .disabled
  | .allocproc p =>
    match (m.procs p).life, (m.procs p).stage with
    | .alive, .idle =>
      match (List.finRange nproc).find? fun np => (m.procs np).life = .unused with
      | none => .next m
      | some np => m.run kalloc fun r m =>
        match r with
        | none => m.set np { m.procs np with kstack := none }
        | some q =>
          let m := m.set np { m.procs np with life := .embryo, kstack := some q }
          m.set p { m.procs p with stage := .forking np }
    | _, _ => .disabled
  | .forkCopy p =>
    match (m.procs p).life, (m.procs p).stage, (m.procs p).pgdir with
    | .alive, .forking np, some d =>
      m.run (Vm.forkCopy L d (m.procs p).sz (m.procs np).kstack) fun r m =>
        let m := match r with
          | none => m.set np { m.procs np with life := .unused, kstack := none, pgdir := none }
          | some d' => m.set np { m.procs np with life := .alive, pgdir := some d', sz := (m.procs p).sz, stage := .idle }
        m.set p { m.procs p with stage := .idle }
    | _, _, _ => .disabled
  | .growproc p n =>
    match (m.procs p).life, (m.procs p).stage, (m.procs p).pgdir with
    | .alive, .idle, some d =>
      m.run (Vm.growproc L d (m.procs p).sz n) fun r m =>
        match r with
        | none => m
        | some sz => m.set p { m.procs p with sz := sz }
    | _, _, _ => .disabled
  | .execStart p =>
    match (m.procs p).life, (m.procs p).stage with
    | .alive, .idle =>
      m.run (setupkvm L) fun r m =>
        match r with
        | none => m
        | some d => m.set p { m.procs p with stage := .loading d 0 }
    | _, _ => .disabled
  | .exec p c =>
    match (m.procs p).life, execCall L (m.procs p).stage c with
    | .alive, some f => m.run f fun st m => m.set p { m.procs p with stage := st }
    | _, _ => .disabled
  | .execCommit p =>
    match (m.procs p).life, (m.procs p).stage, (m.procs p).pgdir with
    | .alive, .guarded d sz, some old =>
      .next (m.set p { m.procs p with pgdir := some d, sz := sz, stage := .replaced old })
    | _, _, _ => .disabled
  | .execFree p =>
    match (m.procs p).life, (m.procs p).stage with
    | .alive, .replaced old => m.run (freevm L (some old)) fun _ m => m.set p { m.procs p with stage := .idle }
    | _, _ => .disabled
  | .exit p =>
    match (m.procs p).life, (m.procs p).stage with
    | .alive, .idle => .next (m.set p { m.procs p with life := .zombie })
    | _, _ => .disabled
  | .freeStack p =>
    match (m.procs p).life, (m.procs p).kstack with
    | .zombie, some q => m.run (kfree L q) fun _ m => m.set p { m.procs p with kstack := none }
    | _, _ => .disabled
  | .freeDir p =>
    match (m.procs p).life, (m.procs p).kstack with
    | .zombie, none => m.run (freevm L (m.procs p).pgdir) fun _ m => m.set p { m.procs p with life := .unused }
    | _, _ => .disabled
  | .pipealloc => m.run kalloc fun r m => { m with pipes := r.toList ++ m.pipes }
  | .pipeclose q => if q ∈ m.pipes then m.run (kfree L q) fun _ m => { m with pipes := m.pipes.erase q } else .disabled
  | .store p va b =>
    match (m.procs p).life, (m.procs p).stage, (m.procs p).pgdir.bind fun d => m.mem.writable d va with
    | .alive, .idle, some q =>
      .next { m with mem := m.mem.setPage q ((m.mem.page q).copyIn (va.toNat % pgsize) 1 fun _ => b) }
    | _, _, _ => .disabled
  | .scribble q b => if q ∈ m.kstacks + m.pipes then .next { m with mem := m.mem.setPage q b } else .disabled

/-- All runs from the boot on; each step comes with the calls of `kalloc` that fail in it. -/
def machine (L : Layout) : Automaton Machine (Call × (Nat → Bool)) Panic where
  start m := m.mem.free.Nodup ∧ (∀ q ∈ m.mem.free, L.Ram q) ∧ m.kpgdir = none ∧ m.pipes = [] ∧
    m.procs = fun _ => ⟨.unused, none, none, 0, .idle⟩
  step m a := Machine.call L { m with mem := { m.mem with luck := a.2 } } a.1

end Xv6.Vm
