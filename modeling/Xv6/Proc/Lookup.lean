import Xv6.Syscall.Stores

/-!
# Pid arguments

The scans of `kill`, `pstat` and `attachjob` compare the pid and nothing else. A slot that is not in use still has
one: zero if it has never been used or `waitpid` has cleared it, and the pid of the child if `fork` has failed.
-/

namespace Xv6.System

open ProcTable Syscall

def byPid (t : Table) (pid : Int) : Option Slot := slots.find? fun p => (t.proc p).pid = pid

def killResult (t : Table) (pid : Int) : Int := if (byPid t pid).isSome then 0 else -1

def attachjobResult (t : Table) (pid : Int) : Int := if (byPid t pid).isSome then pid else -1

def Sys.statOf (s : Sys) (p : Slot) (stat : Word) : List Store :=
  storeBytes stat (List.ofFn (s.fields p).name) ++
    storeBytes (stat + 20) (wordBytes (BitVec.ofNat 32 (numFileOpen (s.fields p)))) ++
    storeBytes (stat + 24) (wordBytes (stateNumber (s.table.proc p).state)) ++
    storeBytes (stat + 16) (wordBytes (s.fields p).sz)

/-! ### What the calls should do -/

/-- The calls succeed, and read or change slot `p` and no other. -/
structure Finds (s : Sys) (pid : Int) (job : Nat) (p : Slot) : Prop where
  killed : killResult s.table pid = 0
  kill : kill s.table pid = s.table.set p { s.table.proc p with
    killed := true, state := if (s.table.proc p).state = .sleeping then .runnable else (s.table.proc p).state }
  stat : ∀ stat, pstat s pid stat = (s.statOf p stat, 0)
  attached : attachjobResult s.table pid ≠ -1
  attachjob : attachjob s.table pid job = s.table.set p { s.table.proc p with job := job }

structure Refuses (s : Sys) (pid : Int) (job : Nat) : Prop where
  killed : killResult s.table pid = -1
  kill : kill s.table pid = s.table
  stat : ∀ stat, pstat s pid stat = ([], -1)
  attached : attachjobResult s.table pid = -1
  attachjob : attachjob s.table pid job = s.table

/-- A pid stands for the process that has it, and for nothing if there is none. -/
def Resolves (s : Sys) (pid : Int) (job : Nat) : Prop :=
  (∃ p, (s.table.proc p).state ≠ .unused ∧ (s.table.proc p).pid = pid ∧ Finds s pid job p) ∨
    (∀ p, (s.table.proc p).state ≠ .unused → (s.table.proc p).pid ≠ pid) ∧ Refuses s pid job

variable {s : Sys} {t : Table} {pid : Int} {p : Slot}

theorem finds_of_byPid (h : byPid s.table pid = some p) (hpid : pid ≠ -1) (job : Nat) : Finds s pid job p where
  killed := by rw [killResult, h]; rfl
  kill := by
    rw [byPid] at h
    rw [ProcTable.kill, h]
  stat _ := by
    rw [byPid] at h
    rw [pstat, h]
    rfl
  attached := by
    rw [attachjobResult, h]
    exact hpid
  attachjob := by
    rw [byPid] at h
    rw [ProcTable.attachjob, h]

theorem refuses_of_byPid (h : byPid s.table pid = none) (job : Nat) : Refuses s pid job where
  killed := by rw [killResult, h]; rfl
  kill := by
    rw [byPid] at h
    rw [ProcTable.kill, h]
  stat _ := by
    rw [byPid] at h
    rw [pstat, h]
  attached := by rw [attachjobResult, h]; rfl
  attachjob := by
    rw [byPid] at h
    rw [ProcTable.attachjob, h]

theorem pid_of_byPid (h : byPid t pid = some p) : (t.proc p).pid = pid := by
  simpa using List.find?_some h

theorem byPid_eq_none (h : byPid t pid = none) (p : Slot) : (t.proc p).pid ≠ pid := by
  simpa using List.find?_eq_none.mp h p (mem_slots p)

/-! ### The calls -/

/-- In every state reached from `userinit`, a pid is resolved as it should be exactly if no slot that is not in use
has it. -/
theorem pid_arguments_iff (as : List SysAct) (s : Sys) (hrun : system.Run as s) (pid : Int) (job : Nat) :
    Resolves s pid job ↔ ∀ p, (s.table.proc p).state = .unused → (s.table.proc p).pid ≠ pid := by
  obtain ⟨bs, es, hkernel⟩ := system_refines_kernel hrun
  have hpids : Pids s.table := pids_run hkernel
  have hinv : Inv s.table es := inv_run hkernel
  constructor
  · rintro (⟨p, hused, hpid, -⟩ | ⟨-, hrefuses⟩) q hfree hq
    · have hpos := hinv.pidPos p fun hlife => hused (life_eq_unused.mp hlife)
      obtain rfl := hpids.inj p q (hpid.trans hq.symm) (by omega)
      exact hused hfree
    · have hkilled := hrefuses.killed
      cases hfind : byPid s.table pid with
      | none => exact byPid_eq_none hfind q hq
      | some p =>
        rw [killResult, hfind] at hkilled
        cases hkilled
  · intro hfree
    cases hfind : byPid s.table pid with
    | none => exact .inr ⟨fun p _ => byPid_eq_none hfind p, refuses_of_byPid hfind job⟩
    | some p =>
      have hpid := pid_of_byPid hfind
      have hnonneg := hpids.nonneg p
      exact .inl ⟨p, fun hunused => hfree p hunused hpid, hpid, finds_of_byPid hfind (by omega) job⟩

/-- Init has forked a child, and the child's pid stands for it. -/
theorem pid_arguments_iff_child : ∃ as s, system.Run as s ∧ (s.table.proc 1).state = .runnable ∧ (s.table.proc 1).pid = 2 ∧
    Resolves s 2 0 := by
  have hexec : ((system.exec firstSys [.table (.schedule 0), .table (.own 0 .forkAlloc), .table (.own 0 .forkFill),
      .table (.own 0 .forkRun)]).map fun s => ((s.table.proc 1).state, (s.table.proc 1).pid,
        decide (∀ p, (s.table.proc p).state = .unused → (s.table.proc p).pid ≠ 2))) = some (.runnable, 2, true) := by decide +kernel
  obtain ⟨s, hs, hseen⟩ := Option.map_eq_some_iff.mp hexec
  obtain ⟨hstate, hrest⟩ := Prod.mk.inj hseen
  obtain ⟨hpid, hslots⟩ := Prod.mk.inj hrest
  have hrun := run_firstSys.exec hs
  exact ⟨_, s, hrun, hstate, hpid, (pid_arguments_iff _ s hrun 2 0).mpr (of_decide_eq_true hslots)⟩

/-- While init runs alone, `kill(0)` succeeds and marks a slot that is not in use. -/
theorem kill_zero_succeeds : system.Run [] firstSys ∧
    (∀ p, (firstSys.table.proc p).state ≠ .unused → (firstSys.table.proc p).pid ≠ 0) ∧
    killResult firstSys.table 0 = 0 ∧ (firstSys.table.proc 1).state = .unused ∧
    ((kill firstSys.table 0).proc 1).killed = true := by
  refine ⟨run_firstSys, ?_⟩
  have hcall : (∀ p, (firstTable.proc p).state ≠ .unused → (firstTable.proc p).pid ≠ 0) ∧ killResult firstTable 0 = 0 ∧
      (firstTable.proc 1).state = .unused ∧ ((kill firstTable 0).proc 1).killed = true := by decide
  exact hcall

end Xv6.System
