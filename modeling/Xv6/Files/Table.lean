import Xv6.Lib.Transition
import Xv6.Param
import Xv6.Proc.Life

/-!
# The file table and the descriptors of the processes

`file.c`, the descriptor part of `sysfile.c`, `pipealloc` and `pipeclose`, and what `fork` and `exit` do with
open files. Each step below is what a process does under one lock, or on data that no other process uses; the
system calls are made of these steps, and those of different processes interleave.

A pipe is named by the number of its allocation, so that a page used again is another pipe.
-/

namespace Xv6.Files

open Lib

abbrev Slot : Type := Fin nproc

abbrev Fd : Type := Fin nofile

abbrev FileId : Type := Fin nfile

inductive FdType where
  | none | pipe | inode
deriving DecidableEq

structure File where
  type : FdType
  ref : Nat
  readable : Bool
  writable : Bool
  pipe : Nat
deriving DecidableEq

/-- A pipe's page: which ends are open, and how often it was given to `kfree`. -/
structure Page where
  readopen : Bool
  writeopen : Bool
  frees : Nat
deriving DecidableEq

structure Table where
  file : FileId → File
  ofile : Slot → Fd → Option FileId
  page : Nat → Page
  pages : Nat

inductive Panic where
  | filedup | fileclose | initExiting
deriving DecidableEq

namespace Table

def setFile (t : Table) (f : FileId) (v : File) : Table := { t with file := Function.update t.file f v }

def setFd (t : Table) (p : Slot) (fd : Fd) (f : Option FileId) : Table :=
  { t with ofile := Function.update t.ofile p (Function.update (t.ofile p) fd f) }

end Table

/-! ### `file.c`, `pipe.c` and `fdalloc` -/

def filealloc (t : Table) : Option (FileId × Table) :=
  ((List.finRange nfile).find? fun f => (t.file f).ref = 0).map fun f => (f, t.setFile f { t.file f with ref := 1 })

def filedup (t : Table) (f : FileId) : Except Panic Table :=
  if (t.file f).ref < 1 then .error .filedup else .ok (t.setFile f { t.file f with ref := (t.file f).ref + 1 })

/-- `fileclose` as far as it holds `ftable.lock`, and the pipe end that it then closes. The `iput` for an inode
changes nothing here. -/
def fileclose (t : Table) (f : FileId) : Except Panic (Table × Option (Nat × Bool)) :=
  let ff := t.file f
  if ff.ref < 1 then .error .fileclose
  else if 0 < ff.ref - 1 then .ok (t.setFile f { ff with ref := ff.ref - 1 }, none)
  else .ok (t.setFile f { ff with ref := 0, type := .none }, if ff.type = .pipe then some (ff.pipe, ff.writable) else none)

/-- The fields that `pipeclose` looks at after it has closed the end. -/
def Page.close (v : Page) (writable : Bool) : Page :=
  if writable then { v with writeopen := false } else { v with readopen := false }

def pipeclose (t : Table) (p : Nat) (writable : Bool) : Table :=
  let v := (t.page p).close writable
  let v := if v.readopen = false ∧ v.writeopen = false then { v with frees := v.frees + 1 } else v
  { t with page := Function.update t.page p v }

def closeEnd (t : Table) : Option (Nat × Bool) → Table
  | some (p, writable) => pipeclose t p writable
  | none => t

def fdalloc (t : Table) (p : Slot) (f : FileId) : Option (Fd × Table) :=
  ((List.finRange nofile).find? fun fd => t.ofile p fd = none).map fun fd => (fd, t.setFd p fd (some f))

/-- The end of `pipealloc`, once it has two files and a page. -/
def makePipe (t : Table) (f0 f1 : FileId) : Table :=
  let p := t.pages
  let t := { t with page := Function.update t.page p ⟨true, true, 0⟩, pages := p + 1 }
  let t := t.setFile f0 { t.file f0 with type := .pipe, readable := true, writable := false, pipe := p }
  t.setFile f1 { t.file f1 with type := .pipe, readable := false, writable := true, pipe := p }

def openFile (t : Table) (f : FileId) (readable writable : Bool) : Table :=
  t.setFile f { t.file f with type := .inode, readable := readable, writable := writable }

def argfd (t : Table) (p : Slot) (fd : Int) : Option (Fd × FileId) :=
  if h : 0 ≤ fd ∧ fd < nofile then
    let fd : Fd := ⟨fd.toNat, by omega⟩
    (t.ofile p fd).map fun f => (fd, f)
  else none

/-! ### The calls -/

inductive Pc where
  | idle
  | openFd (f : FileId) (readable writable : Bool)
  | openInit (f : FileId) (readable writable : Bool)
  | pipeSecond (f0 : FileId)
  | pipePage (f0 f1 : FileId)
  | pipeFd0 (f0 f1 : FileId)
  | pipeFd1 (fd0 : Fd) (f0 f1 : FileId)
  | dup (fd : Fd) (f : FileId)
  | closing (fs : List FileId)
  | closeEnd (e : Option (Nat × Bool)) (fs : List FileId)
  | forking (np : Slot) (i : Nat)
  | exiting (i : Nat)
  | exitClose (fd : Fd) (e : Option (Nat × Bool))
deriving DecidableEq

abbrev Life : Type := ProcTable.Life

structure State extends Table where
  pc : Slot → Pc
  life : Slot → Life
  initproc : Slot

inductive Call where
  | open (readable writable : Bool)
  | pipe
  | dup (fd : Int)
  | close (fd : Int)
  | fork
  | exit

/-- A process starts a call or goes on with it. The flag tells whether what the step asks for from outside (the path
of `open`, the memory for a pipe or a process) is there. -/
inductive Label where
  | call (p : Slot) (c : Call) (ok : Bool)
  | go (p : Slot) (ok : Bool)
  | reap (p : Slot)

namespace State

def goto (s : State) (p : Slot) (pc : Pc) : State := { s with pc := Function.update s.pc p pc }

def withTable (s : State) (t : Table) : State := { s with toTable := t }

def setLife (s : State) (p : Slot) (l : Life) : State := { s with life := Function.update s.life p l }

end State

def allocproc (s : State) : Option Slot := (List.finRange nproc).find? fun p => s.life p = .unused

/-- The first step of a call. A call that fails at once changes nothing. -/
def start (s : State) (p : Slot) (ok : Bool) : Call → Outcome Panic State
  | .open readable writable =>
    match ok, filealloc s.toTable with
    | true, some (f, t) => .next ((s.withTable t).goto p (.openFd f readable writable))
    | _, _ => .next s
  | .pipe =>
    match filealloc s.toTable with
    | some (f0, t) => .next ((s.withTable t).goto p (.pipeSecond f0))
    | none => .next s
  | .dup fd =>
    match argfd s.toTable p fd with
    | some (_, f) =>
      match fdalloc s.toTable p f with
      | some (fd', t) => .next ((s.withTable t).goto p (.dup fd' f))
      | none => .next s
    | none => .next s
  | .close fd =>
    match argfd s.toTable p fd with
    | some (fd, f) => .next ((s.withTable (s.setFd p fd none)).goto p (.closing [f]))
    | none => .next s
  | .fork =>
    match ok, allocproc s with
    | true, some np => .next ((s.setLife np .embryo).goto p (.forking np 0))
    | _, _ => .next s
  | .exit => if p = s.initproc then .fail .initExiting else .next (s.goto p (.exiting 0))

/-- One more step of the call that the process is in. -/
def proceed (s : State) (p : Slot) (ok : Bool) : Pc → Outcome Panic State
  | .idle => .disabled
  | .openFd f readable writable =>
    match fdalloc s.toTable p f with
    | some (_, t) => .next ((s.withTable t).goto p (.openInit f readable writable))
    | none => .next (s.goto p (.closing [f]))
  | .openInit f readable writable => .next ((s.withTable (openFile s.toTable f readable writable)).goto p .idle)
  | .pipeSecond f0 =>
    match filealloc s.toTable with
    | some (f1, t) => .next ((s.withTable t).goto p (.pipePage f0 f1))
    | none => .next (s.goto p (.closing [f0]))
  | .pipePage f0 f1 =>
    if ok then .next ((s.withTable (makePipe s.toTable f0 f1)).goto p (.pipeFd0 f0 f1))
    else .next (s.goto p (.closing [f0, f1]))
  | .pipeFd0 f0 f1 =>
    match fdalloc s.toTable p f0 with
    | some (fd0, t) => .next ((s.withTable t).goto p (.pipeFd1 fd0 f0 f1))
    | none => .next (s.goto p (.closing [f0, f1]))
  | .pipeFd1 fd0 f0 f1 =>
    match fdalloc s.toTable p f1 with
    | some (_, t) => .next ((s.withTable t).goto p .idle)
    | none => .next ((s.withTable (s.setFd p fd0 none)).goto p (.closing [f0, f1]))
  | .dup _ f =>
    match filedup s.toTable f with
    | .ok t => .next ((s.withTable t).goto p .idle)
    | .error e => .fail e
  | .closing [] => .next (s.goto p .idle)
  | .closing (f :: fs) =>
    match fileclose s.toTable f with
    | .ok (t, e) => .next ((s.withTable t).goto p (.closeEnd e fs))
    | .error e => .fail e
  | .closeEnd e fs => .next ((s.withTable (closeEnd s.toTable e)).goto p (.closing fs))
  | .forking np i =>
    if h : i < nofile then
      -- a slot that the parent does not use keeps what it holds in the child
      match s.ofile p ⟨i, h⟩ with
      | some f =>
        match filedup s.toTable f with
        | .ok t => .next ((s.withTable (t.setFd np ⟨i, h⟩ (some f))).goto p (.forking np (i + 1)))
        | .error e => .fail e
      | none => .next (s.goto p (.forking np (i + 1)))
    else .next ((s.setLife np .alive).goto p .idle)
  | .exiting i =>
    if h : i < nofile then
      match s.ofile p ⟨i, h⟩ with
      | some f =>
        match fileclose s.toTable f with
        | .ok (t, e) => .next ((s.withTable t).goto p (.exitClose ⟨i, h⟩ e))
        | .error e => .fail e
      | none => .next (s.goto p (.exiting (i + 1)))
    else .next ((s.setLife p .zombie).goto p .idle)
  | .exitClose fd e => .next ((s.withTable ((closeEnd s.toTable e).setFd p fd none)).goto p (.exiting (fd + 1)))

def step (s : State) : Label → Outcome Panic State
  | .call p c ok => match s.life p, s.pc p with
    | .alive, .idle => start s p ok c
    | _, _ => .disabled
  | .go p ok => proceed s p ok (s.pc p)
  | .reap p => if s.life p = .zombie then .next (s.setLife p .unused) else .disabled

/-- Only the first process exists and no file is open. -/
structure Boot (s : State) : Prop where
  file : ∀ f, (s.file f).ref = 0 ∧ (s.file f).type = .none
  ofile : ∀ p fd, s.ofile p fd = none
  page : ∀ n, s.page n = ⟨false, false, 0⟩
  pages : s.pages = 0
  pc : ∀ p, s.pc p = .idle
  life : ∀ p, s.life p = if p = s.initproc then .alive else .unused

def system : Automaton State Label Panic where
  start := Boot
  step := step

/-! ### What a step can do -/

variable {t t' : Table} {f : FileId}

theorem filealloc_some (h : filealloc t = some (f, t')) :
    (t.file f).ref = 0 ∧ t' = t.setFile f { t.file f with ref := 1 } := by
  obtain ⟨g, hg, heq⟩ := Option.map_eq_some_iff.mp h
  obtain ⟨rfl, rfl⟩ := Prod.mk.inj heq
  exact ⟨by simpa using List.find?_some hg, rfl⟩

theorem filedup_ok (h : filedup t f = .ok t') :
    t' = t.setFile f { t.file f with ref := (t.file f).ref + 1 } := by
  simp only [filedup] at h
  split at h
  · cases h
  · exact (Except.ok.inj h).symm

/-- Either references are left, or the file is free again and its pipe end is to be closed. -/
theorem fileclose_ok {e : Option (Nat × Bool)} (h : fileclose t f = .ok (t', e)) :
    0 < (t.file f).ref ∧ ((∃ n, (t.file f).ref = n + 2 ∧ t' = t.setFile f { t.file f with ref := n + 1 } ∧ e = none) ∨
      (t.file f).ref = 1 ∧ t' = t.setFile f { t.file f with ref := 0, type := .none } ∧
        e = if (t.file f).type = .pipe then some ((t.file f).pipe, (t.file f).writable) else none) := by
  simp only [fileclose] at h
  split at h
  · cases h
  · rename_i hpos
    refine ⟨by omega, ?_⟩
    split at h
    · rename_i hmore
      obtain ⟨rfl, rfl⟩ := Prod.mk.inj (Except.ok.inj h)
      obtain ⟨n, hn⟩ : ∃ n, (t.file f).ref = n + 2 := ⟨(t.file f).ref - 2, by omega⟩
      exact .inl ⟨n, hn, by rw [hn]; rfl, rfl⟩
    · obtain ⟨rfl, rfl⟩ := Prod.mk.inj (Except.ok.inj h)
      exact .inr ⟨by omega, rfl, rfl⟩

variable {p : Slot}

theorem fdalloc_some {fd : Fd} (h : fdalloc t p f = some (fd, t')) :
    t.ofile p fd = none ∧ t' = t.setFd p fd (some f) := by
  obtain ⟨g, hg, heq⟩ := Option.map_eq_some_iff.mp h
  obtain ⟨rfl, rfl⟩ := Prod.mk.inj heq
  exact ⟨by simpa using List.find?_some hg, rfl⟩

theorem argfd_some {fd : Int} {r : Fd} (h : argfd t p fd = some (r, f)) :
    t.ofile p r = some f := by
  simp only [argfd] at h
  split at h
  · obtain ⟨g, hg, heq⟩ := Option.map_eq_some_iff.mp h
    obtain ⟨rfl, rfl⟩ := Prod.mk.inj heq
    exact hg
  · cases h

variable {s : State}

theorem allocproc_some {np : Slot} (h : allocproc s = some np) : s.life np = .unused := by
  simpa using List.find?_some h

inductive Trans (s : State) (p : Slot) : State → Prop where
  | openAlloc {f : FileId} {r w : Bool} (hpc : s.pc p = .idle) (hlife : s.life p = .alive) (hfree : (s.file f).ref = 0) :
      Trans s p ((s.withTable (s.setFile f { s.file f with ref := 1 })).goto p (.openFd f r w))
  | openFd {f : FileId} {r w : Bool} {fd : Fd} (hpc : s.pc p = .openFd f r w) (hfd : s.ofile p fd = none) :
      Trans s p ((s.withTable (s.setFd p fd (some f))).goto p (.openInit f r w))
  | openFull {f : FileId} {r w : Bool} (hpc : s.pc p = .openFd f r w) : Trans s p (s.goto p (.closing [f]))
  | openInit {f : FileId} {r w : Bool} (hpc : s.pc p = .openInit f r w) :
      Trans s p ((s.withTable (openFile s.toTable f r w)).goto p .idle)
  | pipeAlloc {f : FileId} (hpc : s.pc p = .idle) (hlife : s.life p = .alive) (hfree : (s.file f).ref = 0) :
      Trans s p ((s.withTable (s.setFile f { s.file f with ref := 1 })).goto p (.pipeSecond f))
  | pipeSecond {f0 f1 : FileId} (hpc : s.pc p = .pipeSecond f0) (hfree : (s.file f1).ref = 0) :
      Trans s p ((s.withTable (s.setFile f1 { s.file f1 with ref := 1 })).goto p (.pipePage f0 f1))
  | pipeNoFile {f0 : FileId} (hpc : s.pc p = .pipeSecond f0) : Trans s p (s.goto p (.closing [f0]))
  | pipePage {f0 f1 : FileId} (hpc : s.pc p = .pipePage f0 f1) :
      Trans s p ((s.withTable (makePipe s.toTable f0 f1)).goto p (.pipeFd0 f0 f1))
  | pipeNoPage {f0 f1 : FileId} (hpc : s.pc p = .pipePage f0 f1) : Trans s p (s.goto p (.closing [f0, f1]))
  | pipeFd0 {f0 f1 : FileId} {fd : Fd} (hpc : s.pc p = .pipeFd0 f0 f1) (hfd : s.ofile p fd = none) :
      Trans s p ((s.withTable (s.setFd p fd (some f0))).goto p (.pipeFd1 fd f0 f1))
  | pipeFull0 {f0 f1 : FileId} (hpc : s.pc p = .pipeFd0 f0 f1) : Trans s p (s.goto p (.closing [f0, f1]))
  | pipeFd1 {f0 f1 : FileId} {fd0 fd : Fd} (hpc : s.pc p = .pipeFd1 fd0 f0 f1) (hfd : s.ofile p fd = none) :
      Trans s p ((s.withTable (s.setFd p fd (some f1))).goto p .idle)
  | pipeFull1 {f0 f1 : FileId} {fd0 : Fd} (hpc : s.pc p = .pipeFd1 fd0 f0 f1) :
      Trans s p ((s.withTable (s.setFd p fd0 none)).goto p (.closing [f0, f1]))
  | dupFd {f : FileId} {fd fd' : Fd} (hpc : s.pc p = .idle) (hlife : s.life p = .alive) (hf : s.ofile p fd = some f)
      (hfd : s.ofile p fd' = none) : Trans s p ((s.withTable (s.setFd p fd' (some f))).goto p (.dup fd' f))
  | dup {f : FileId} {fd : Fd} (hpc : s.pc p = .dup fd f) :
      Trans s p ((s.withTable (s.setFile f { s.file f with ref := (s.file f).ref + 1 })).goto p .idle)
  | close {f : FileId} {fd : Fd} (hpc : s.pc p = .idle) (hlife : s.life p = .alive) (hf : s.ofile p fd = some f) :
      Trans s p ((s.withTable (s.setFd p fd none)).goto p (.closing [f]))
  | closed (hpc : s.pc p = .closing []) : Trans s p (s.goto p .idle)
  | fileclose {f : FileId} {fs : List FileId} {t : Table} {e : Option (Nat × Bool)} (hpc : s.pc p = .closing (f :: fs))
      (hclose : fileclose s.toTable f = .ok (t, e)) : Trans s p ((s.withTable t).goto p (.closeEnd e fs))
  | closeEnd {fs : List FileId} {e : Option (Nat × Bool)} (hpc : s.pc p = .closeEnd e fs) :
      Trans s p ((s.withTable (closeEnd s.toTable e)).goto p (.closing fs))
  | fork {np : Slot} (hpc : s.pc p = .idle) (hlife : s.life p = .alive) (hnp : s.life np = .unused) :
      Trans s p ((s.setLife np .embryo).goto p (.forking np 0))
  | forkDup {np : Slot} {fd : Fd} {f : FileId} (hpc : s.pc p = .forking np fd) (hf : s.ofile p fd = some f) :
      Trans s p ((s.withTable ((s.setFile f { s.file f with ref := (s.file f).ref + 1 }).setFd np fd (some f))).goto p
        (.forking np (fd + 1)))
  | forkSkip {np : Slot} {fd : Fd} (hpc : s.pc p = .forking np fd) (hf : s.ofile p fd = none) :
      Trans s p (s.goto p (.forking np (fd + 1)))
  | forked {np : Slot} {i : Nat} (hpc : s.pc p = .forking np i) (hi : nofile ≤ i) :
      Trans s p ((s.setLife np .alive).goto p .idle)
  | exit (hpc : s.pc p = .idle) (hlife : s.life p = .alive) : Trans s p (s.goto p (.exiting 0))
  | exitClose {fd : Fd} {f : FileId} {t : Table} {e : Option (Nat × Bool)} (hpc : s.pc p = .exiting fd)
      (hf : s.ofile p fd = some f) (hclose : Files.fileclose s.toTable f = .ok (t, e)) :
      Trans s p ((s.withTable t).goto p (.exitClose fd e))
  | exitSkip {fd : Fd} (hpc : s.pc p = .exiting fd) (hf : s.ofile p fd = none) :
      Trans s p (s.goto p (.exiting (fd + 1)))
  | exitClosed {fd : Fd} {e : Option (Nat × Bool)} (hpc : s.pc p = .exitClose fd e) :
      Trans s p ((s.withTable ((Files.closeEnd s.toTable e).setFd p fd none)).goto p (.exiting (fd + 1)))
  | exited {i : Nat} (hpc : s.pc p = .exiting i) (hi : nofile ≤ i) : Trans s p ((s.setLife p .zombie).goto p .idle)

variable {s' : State}

theorem start_cases {ok : Bool} {c : Call} (hpc : s.pc p = .idle) (hlife : s.life p = .alive)
    (h : start s p ok c = .next s') : s' = s ∨ Trans s p s' := by
  cases c with
  | «open» r w =>
    simp only [start] at h
    split at h
    · rename_i f t hf
      cases h
      obtain ⟨hfree, rfl⟩ := filealloc_some hf
      exact .inr (.openAlloc hpc hlife hfree)
    · cases h
      exact .inl rfl
  | pipe =>
    simp only [start] at h
    split at h
    · rename_i f t hf
      cases h
      obtain ⟨hfree, rfl⟩ := filealloc_some hf
      exact .inr (.pipeAlloc hpc hlife hfree)
    · cases h
      exact .inl rfl
  | dup fd =>
    simp only [start] at h
    split at h
    · rename_i r f hf
      split at h
      · rename_i fd' t hfd
        cases h
        obtain ⟨hnone, rfl⟩ := fdalloc_some hfd
        exact .inr (.dupFd hpc hlife (argfd_some hf) hnone)
      · cases h
        exact .inl rfl
    · cases h
      exact .inl rfl
  | close fd =>
    simp only [start] at h
    split at h
    · rename_i r f hf
      cases h
      exact .inr (.close hpc hlife (argfd_some hf))
    · cases h
      exact .inl rfl
  | fork =>
    simp only [start] at h
    split at h
    · rename_i np hnp
      cases h
      exact .inr (.fork hpc hlife (allocproc_some hnp))
    · cases h
      exact .inl rfl
  | exit =>
    simp only [start] at h
    split at h
    · cases h
    · cases h
      exact .inr (.exit hpc hlife)

theorem proceed_cases {ok : Bool} (h : proceed s p ok (s.pc p) = .next s') : Trans s p s' := by
  cases hpc : s.pc p with
  | idle =>
    rw [hpc] at h
    cases h
  | openFd f r w =>
    simp only [hpc, proceed] at h
    split at h
    · rename_i fd t hfd
      cases h
      obtain ⟨hnone, rfl⟩ := fdalloc_some hfd
      exact .openFd hpc hnone
    · cases h
      exact .openFull hpc
  | openInit f r w =>
    rw [hpc] at h
    cases h
    exact .openInit hpc
  | pipeSecond f0 =>
    simp only [hpc, proceed] at h
    split at h
    · rename_i f1 t hf
      cases h
      obtain ⟨hfree, rfl⟩ := filealloc_some hf
      exact .pipeSecond hpc hfree
    · cases h
      exact .pipeNoFile hpc
  | pipePage f0 f1 =>
    simp only [hpc, proceed] at h
    split at h
    · cases h
      exact .pipePage hpc
    · cases h
      exact .pipeNoPage hpc
  | pipeFd0 f0 f1 =>
    simp only [hpc, proceed] at h
    split at h
    · rename_i fd t hfd
      cases h
      obtain ⟨hnone, rfl⟩ := fdalloc_some hfd
      exact .pipeFd0 hpc hnone
    · cases h
      exact .pipeFull0 hpc
  | pipeFd1 fd0 f0 f1 =>
    simp only [hpc, proceed] at h
    split at h
    · rename_i fd t hfd
      cases h
      obtain ⟨hnone, rfl⟩ := fdalloc_some hfd
      exact .pipeFd1 hpc hnone
    · cases h
      exact .pipeFull1 hpc
  | dup fd f =>
    simp only [hpc, proceed] at h
    split at h
    · rename_i t ht
      cases h
      rw [filedup_ok ht]
      exact .dup hpc
    · cases h
  | closing fs =>
    cases fs with
    | nil =>
      rw [hpc] at h
      cases h
      exact .closed hpc
    | cons f fs =>
      simp only [hpc, proceed] at h
      split at h
      · rename_i t e ht
        cases h
        exact .fileclose hpc ht
      · cases h
  | closeEnd e fs =>
    rw [hpc] at h
    cases h
    exact .closeEnd hpc
  | forking np i =>
    simp only [hpc, proceed] at h
    split at h
    · rename_i hi
      obtain ⟨fd, rfl⟩ : ∃ fd : Fd, i = fd := ⟨⟨i, hi⟩, rfl⟩
      split at h
      · rename_i f hf
        split at h
        · rename_i t ht
          cases h
          rw [filedup_ok ht]
          exact .forkDup hpc hf
        · cases h
      · rename_i hf
        cases h
        exact .forkSkip hpc hf
    · cases h
      exact .forked hpc (by omega)
  | exiting i =>
    simp only [hpc, proceed] at h
    split at h
    · rename_i hi
      obtain ⟨fd, rfl⟩ : ∃ fd : Fd, i = fd := ⟨⟨i, hi⟩, rfl⟩
      split at h
      · rename_i f hf
        split at h
        · rename_i t e ht
          cases h
          exact .exitClose hpc hf ht
        · cases h
      · rename_i hf
        cases h
        exact .exitSkip hpc hf
    · cases h
      exact .exited hpc (by omega)
  | exitClose fd e =>
    rw [hpc] at h
    cases h
    exact .exitClosed hpc

theorem step_cases {a : Label} (h : step s a = .next s') :
    s' = s ∨ (∃ p, Trans s p s') ∨ ∃ p, s.life p = .zombie ∧ s' = s.setLife p .unused := by
  cases a with
  | call p c ok =>
    simp only [step] at h
    split at h
    · rename_i hlife hpc
      exact (start_cases hpc hlife h).imp_right fun ht => .inl ⟨p, ht⟩
    · cases h
  | go p ok => exact .inr (.inl ⟨p, proceed_cases h⟩)
  | reap p =>
    simp only [step] at h
    split at h
    · cases h
      exact .inr (.inr ⟨p, ‹_›, rfl⟩)
    · cases h

end Xv6.Files
