import Xv6.Proc.System

/-!
# Job queries

`isJobEmpty` and `printjob` follow the pointer `job` of every slot, whatever state the slot is in. A job is an
object of the shell, so the pointer is an address in the shell's memory; the kernel reads it in the memory of
whoever calls. A null pointer is followed too, as address 0 is mapped in every process.
-/

namespace Xv6.System

open ProcTable Syscall

/-- The memory of the caller: the `int` and the string at an address, `none` where reading it faults. -/
structure Memory where
  int : Nat → Option Int
  string : Nat → Option String

/-- The offset of `cmd` in `struct job`; `jid` is at offset 0. -/
def cmdOffset : Nat := 8

/-- The loop of `isJobEmpty`. It gives the pointers it has followed and what it returns, if it does. -/
def isJobEmptyFrom (t : Table) (mem : Memory) (jid : Int) : List Slot → List Nat × Option Int
  | [] => ([], some 1)
  | p :: rest =>
    let job := (t.proc p).job
    match mem.int job with
    | none => ([job], none)
    | some j =>
      if j = jid then ([job], some 0)
      else
        let (followed, result) := isJobEmptyFrom t mem jid rest
        (job :: followed, result)

def isJobEmpty (t : Table) (mem : Memory) (jid : Int) : List Nat × Option Int := isJobEmptyFrom t mem jid slots

inductive Line where
  | job (jid : Int) (cmd : String)
  | process (pid : Int) (name : Name) (sz : Word) (numFileOpen : Nat) (statusPrint : String)

def statusPrint : ProcState → String
  | .unused => "UNUSED"
  | .embryo => "EMBRYO"
  | .sleeping => "SLEEPING"
  | .runnable => "RUNNABLE"
  | .running => "RUNNING"
  | .zombie => "ZOMBIE"

/-- What `printjob` has done so far: the pointers followed, the lines printed, and the slots it has counted. -/
structure Printed where
  followed : List Nat
  lines : List Line
  counted : List Slot

/-- The loop of `printjob`; its `count` is the number of the slots counted. -/
def printjobFrom (s : Sys) (mem : Memory) (jid : Int) (o : Printed) : List Slot → Printed × Option Nat
  | [] => (o, some o.counted.length)
  | p :: rest =>
    let job := (s.table.proc p).job
    let o := { o with followed := o.followed ++ [job] }
    match mem.int job with
    | none => (o, none)
    | some j =>
      if j = jid then
        let line := Line.process (s.table.proc p).pid (s.fields p).name (s.fields p).sz (numFileOpen (s.fields p))
          (statusPrint (s.table.proc p).state)
        if o.counted.isEmpty then
          match mem.string (job + cmdOffset) with
          | none => (o, none)
          | some cmd =>
            printjobFrom s mem jid { o with lines := o.lines ++ [.job jid cmd, line], counted := o.counted ++ [p] } rest
        else printjobFrom s mem jid { o with lines := o.lines ++ [line], counted := o.counted ++ [p] } rest
      else printjobFrom s mem jid o rest

def printjob (s : Sys) (mem : Memory) (jid : Int) : Printed × Option Nat := printjobFrom s mem jid ⟨[], [], []⟩ slots

/-! ### What the answers should be -/

/-- The slots attached to a job whose `jid` is this one. -/
def attached (t : Table) (jidOf : Nat → Int) (jid : Int) : List Slot :=
  slots.filter fun p => (t.proc p).job ≠ 0 ∧ jidOf (t.proc p).job = jid

/-- Both queries return, follow no null pointer, and answer from the slots that are attached. -/
structure AnswersRight (s : Sys) (mem : Memory) (jidOf : Nat → Int) (jid : Int) : Prop where
  emptyNull : 0 ∉ (isJobEmpty s.table mem jid).1
  printNull : 0 ∉ (printjob s mem jid).1.followed
  empty : ∃ r, (isJobEmpty s.table mem jid).2 = some r ∧ (r = 1 ↔ attached s.table jidOf jid = [])
  print : (printjob s mem jid).2 = some (attached s.table jidOf jid).length
  counted : (printjob s mem jid).1.counted = attached s.table jidOf jid

/-! ### The two loops -/

variable {t : Table} {s : Sys} {mem : Memory} {jid : Int}

/-- If every job can be read, `isJobEmpty` looks for one whose word is `jid`. -/
theorem isJobEmptyFrom_eq {l : List Slot} (hread : ∀ p ∈ l, ∃ j, mem.int (t.proc p).job = some j) :
    (isJobEmptyFrom t mem jid l).2 = some (if ∃ p ∈ l, mem.int (t.proc p).job = some jid then 0 else 1) := by
  induction l with
  | nil => simp [isJobEmptyFrom]
  | cons p l ih =>
    obtain ⟨j, hj⟩ := hread p List.mem_cons_self
    have hrest := ih fun q hq => hread q (List.mem_cons_of_mem p hq)
    simp only [isJobEmptyFrom, hj]
    by_cases hjid : j = jid
    · subst hjid
      simp [hj]
    · simp [hjid, hj, hrest]

theorem isJobEmptyFrom_followed (l : List Slot) {a : Nat} (ha : a ∈ (isJobEmptyFrom t mem jid l).1) :
    ∃ p ∈ l, (t.proc p).job = a := by
  induction l with
  | nil => simp [isJobEmptyFrom] at ha
  | cons p l ih =>
    simp only [isJobEmptyFrom] at ha
    split at ha
    · exact ⟨p, List.mem_cons_self, (List.mem_singleton.mp ha).symm⟩
    · split at ha
      · exact ⟨p, List.mem_cons_self, (List.mem_singleton.mp ha).symm⟩
      · rcases List.mem_cons.mp ha with rfl | hrest
        · exact ⟨p, List.mem_cons_self, rfl⟩
        · obtain ⟨q, hq, hqa⟩ := ih hrest
          exact ⟨q, List.mem_cons_of_mem p hq, hqa⟩

/-- If `printjob` returns, it has read the job of every slot and counted those whose word is `jid`. -/
theorem printjobFrom_returns {o : Printed} {l : List Slot} {n : Nat} (hn : (printjobFrom s mem jid o l).2 = some n) :
    (∀ p ∈ l, ∃ j, mem.int (s.table.proc p).job = some j) ∧
    (printjobFrom s mem jid o l).1.followed = o.followed ++ l.map (fun p => (s.table.proc p).job) ∧
    (printjobFrom s mem jid o l).1.counted =
      o.counted ++ l.filter (fun p => mem.int (s.table.proc p).job = some jid) ∧
    n = (printjobFrom s mem jid o l).1.counted.length ∧
    (o.counted = [] → ∀ p, l.find? (fun p => mem.int (s.table.proc p).job = some jid) = some p →
      ∃ cmd, mem.string ((s.table.proc p).job + cmdOffset) = some cmd) := by
  induction l generalizing o with
  | nil => simpa [printjobFrom] using hn.symm
  | cons p l ih =>
    cases hj : mem.int (s.table.proc p).job with
    | none =>
      simp only [printjobFrom, hj] at hn
      cases hn
    | some j =>
      have hall : (∀ q ∈ l, ∃ j, mem.int (s.table.proc q).job = some j) →
          ∀ q ∈ p :: l, ∃ j, mem.int (s.table.proc q).job = some j := by
        intro hl q hq
        rcases List.mem_cons.mp hq with rfl | hq
        · exact ⟨j, hj⟩
        · exact hl q hq
      by_cases hjid : j = jid
      · subst hjid
        simp only [printjobFrom, hj, if_true] at hn ⊢
        split at hn
        · rename_i hfirst
          rw [if_pos hfirst]
          cases hcmd : mem.string ((s.table.proc p).job + cmdOffset) with
          | none =>
            rw [hcmd] at hn
            cases hn
          | some cmd =>
            rw [hcmd] at hn
            obtain ⟨hread, hfollowed, hcounted, hlength, -⟩ := ih hn
            refine ⟨hall hread, by simpa using hfollowed, by simpa [hj] using hcounted, hlength, fun _ q hq => ?_⟩
            obtain rfl : p = q := by simpa [hj] using hq
            exact ⟨cmd, hcmd⟩
        · rename_i hlater
          rw [if_neg hlater]
          obtain ⟨hread, hfollowed, hcounted, hlength, -⟩ := ih hn
          exact ⟨hall hread, by simpa using hfollowed, by simpa [hj] using hcounted, hlength,
            fun hnone => absurd (by simpa using hnone) hlater⟩
      · simp only [printjobFrom, hj, hjid, if_false] at hn ⊢
        obtain ⟨hread, hfollowed, hcounted, hlength, hcmd⟩ := ih hn
        refine ⟨hall hread, by simpa using hfollowed, by simpa [hj, hjid] using hcounted, hlength, fun hnone q hq => ?_⟩
        exact hcmd hnone q (by simpa [hj, hjid] using hq)

/-- It returns if every job can be read, and the command of the first that it counts. -/
theorem printjobFrom_total {o : Printed} {l : List Slot} (hread : ∀ p ∈ l, ∃ j, mem.int (s.table.proc p).job = some j)
    (hcmd : o.counted = [] → ∀ p, l.find? (fun p => mem.int (s.table.proc p).job = some jid) = some p →
      ∃ cmd, mem.string ((s.table.proc p).job + cmdOffset) = some cmd) :
    ∃ n, (printjobFrom s mem jid o l).2 = some n := by
  induction l generalizing o with
  | nil => exact ⟨_, rfl⟩
  | cons p l ih =>
    obtain ⟨j, hj⟩ := hread p List.mem_cons_self
    have hrest : ∀ q ∈ l, ∃ j, mem.int (s.table.proc q).job = some j := fun q hq => hread q (List.mem_cons_of_mem p hq)
    by_cases hjid : j = jid
    · subst hjid
      simp only [printjobFrom, hj, if_true]
      split
      · rename_i hfirst
        obtain ⟨cmd, hcmd⟩ := hcmd (by simpa using hfirst) p (by simp [hj])
        rw [hcmd]
        exact ih hrest (by simp)
      · exact ih hrest (by simp)
    · simp only [printjobFrom, hj, hjid, if_false]
      refine ih hrest fun hnone q hq => hcmd hnone q ?_
      simpa [hj, hjid] using hq

/-- The answers of both queries are right iff every slot has a job, its `jid` as the caller's memory has it at
that address matches exactly when the job's own does, and the command of the first attached job can be read. -/
theorem job_queries_iff (s : Sys) (mem : Memory) (jidOf : Nat → Int) (jid : Int) :
    AnswersRight s mem jidOf jid ↔
      (∀ p, (s.table.proc p).job ≠ 0 ∧
        ∃ j, mem.int (s.table.proc p).job = some j ∧ (j = jid ↔ jidOf (s.table.proc p).job = jid)) ∧
      ∀ p, (attached s.table jidOf jid).head? = some p →
        ∃ cmd, mem.string ((s.table.proc p).job + cmdOffset) = some cmd := by
  constructor
  · rintro ⟨-, hnull, -, hprint, hcounted⟩
    obtain ⟨hread, hfollowed, hcounted', -, hcmd⟩ := printjobFrom_returns hprint
    have hsame : slots.filter (fun p => mem.int (s.table.proc p).job = some jid) = attached s.table jidOf jid := by
      rw [← hcounted]
      simpa [printjob] using hcounted'.symm
    have hnonzero : ∀ p, (s.table.proc p).job ≠ 0 := by
      intro p hp
      refine hnull ?_
      have hmem : (s.table.proc p).job ∈ slots.map fun p => (s.table.proc p).job := List.mem_map_of_mem (mem_slots p)
      rw [hp] at hmem
      simpa [printjob, hfollowed] using hmem
    refine ⟨fun p => ⟨hnonzero p, ?_⟩, fun p hp => ?_⟩
    · obtain ⟨j, hj⟩ := hread p (mem_slots p)
      have hiff : p ∈ slots.filter (fun p => mem.int (s.table.proc p).job = some jid) ↔ p ∈ attached s.table jidOf jid := by
        rw [hsame]
      simp only [attached, List.mem_filter, mem_slots, true_and, hj, Option.some.injEq, decide_eq_true_eq] at hiff
      exact ⟨j, hj, hiff.trans (and_iff_right (hnonzero p))⟩
    · rw [← hsame, List.head?_filter] at hp
      exact hcmd rfl p hp
  · rintro ⟨hslots, hcmd⟩
    have hread : ∀ p ∈ slots, ∃ j, mem.int (s.table.proc p).job = some j := fun p _ => by
      obtain ⟨-, j, hj, -⟩ := hslots p
      exact ⟨j, hj⟩
    have hmatch : ∀ p, mem.int (s.table.proc p).job = some jid ↔
        (s.table.proc p).job ≠ 0 ∧ jidOf (s.table.proc p).job = jid := by
      intro p
      obtain ⟨hnonzero, j, hj, hiff⟩ := hslots p
      simp [hj, hiff, hnonzero]
    have hsame : slots.filter (fun p => mem.int (s.table.proc p).job = some jid) = attached s.table jidOf jid := by
      refine List.filter_congr fun p _ => ?_
      simp only [hmatch p]
    obtain ⟨n, hn⟩ : ∃ n, (printjob s mem jid).2 = some n := by
      refine printjobFrom_total hread fun _ p hp => hcmd p ?_
      rw [← hsame, List.head?_filter]
      exact hp
    obtain ⟨-, hfollowed, hcounted, hlength, -⟩ := printjobFrom_returns hn
    have hcounted : (printjob s mem jid).1.counted = attached s.table jidOf jid := by
      rw [← hsame]
      simpa [printjob] using hcounted
    refine ⟨fun hnull => ?_, fun hnull => ?_, ⟨_, isJobEmptyFrom_eq hread, ?_⟩, ?_, hcounted⟩
    · obtain ⟨p, -, hp⟩ := isJobEmptyFrom_followed slots hnull
      exact (hslots p).1 hp
    · have hmem : 0 ∈ slots.map fun p => (s.table.proc p).job := by simpa [printjob, hfollowed] using hnull
      obtain ⟨p, -, hp⟩ := List.mem_map.mp hmem
      exact (hslots p).1 hp
    · rw [← hsame, List.filter_eq_nil_iff]
      split
      · rename_i hsome
        obtain ⟨p, hp, hjob⟩ := hsome
        refine iff_of_false (by simp) fun hnone => ?_
        simpa [hjob] using hnone p hp
      · rename_i hnone
        refine iff_of_true rfl fun p hp hjob => hnone ⟨p, hp, by simpa using hjob⟩
    · rw [hn, hlength]
      exact congrArg (some ∘ List.length) hcounted

/-- Init runs, and no slot has a job. If the word at address 0 of its memory is 5, it is told that job 5 is not
empty and has 64 processes; every pointer followed is null. -/
theorem job_queries_read_null : ∃ as s, system.Run as s ∧ (s.table.proc 0).state = .running ∧
    (∀ jidOf jid, attached s.table jidOf jid = []) ∧
    isJobEmpty s.table ⟨fun _ => some 5, fun _ => some ""⟩ 5 = ([0], some 0) ∧
    (printjob s ⟨fun _ => some 5, fun _ => some ""⟩ 5).2 = some 64 := by
  have hexec : ((system.exec firstSys [.table (.schedule 0)]).map fun s => decide ((s.table.proc 0).state = .running ∧
      (∀ p, (s.table.proc p).job = 0) ∧ isJobEmpty s.table ⟨fun _ => some 5, fun _ => some ""⟩ 5 = ([0], some 0) ∧
      (printjob s ⟨fun _ => some 5, fun _ => some ""⟩ 5).2 = some 64)) = some true := by decide +kernel
  obtain ⟨s, hs, hall⟩ := Option.map_eq_some_iff.mp hexec
  obtain ⟨hrunning, hjob, hempty, hprint⟩ := of_decide_eq_true hall
  refine ⟨_, s, run_firstSys.exec hs, hrunning, fun jidOf jid => ?_, hempty, hprint⟩
  exact List.filter_eq_nil_iff.mpr fun p _ => by simp [hjob p]

end Xv6.System
