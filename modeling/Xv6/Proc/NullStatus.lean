import Xv6.Proc.System
import Xv6.Vm.Code

/-!
# `waitpid` without a status pointer

The whole of `waitpid`, with the pages that it frees: a call scans the table, sleeps, and scans again until it returns.
Two calls are compared that differ in whether they have a status pointer, and that sleep and wake among the same
processes.
-/

namespace Xv6.ProcTable

def Scan.found : Scan → Option Slot
  | .zombie p => some p
  | .done _ => none

theorem Scan.eq_zombie {c : Scan} {p : Slot} (h : c.found = some p) : c = .zombie p := by
  cases c with
  | zombie q =>
    obtain rfl := Option.some.inj h
    rfl
  | done b => cases h

end Xv6.ProcTable

namespace Xv6.System

open ProcTable

/-- The processes with their kernel stacks and page directories, and the memory. -/
structure World where
  sys : Sys
  kstack : Slot → Option Nat
  pgdir : Slot → Option Nat
  mem : Vm.Memory

def freeChild (L : Vm.Layout) (w : World) (p : Slot) : Vm.VmM PUnit := do
  match w.kstack p with
  | none => throw .kfree
  | some q =>
    Vm.kfree L q
    Vm.freevm L (w.pgdir p)

def reapChild (L : Vm.Layout) (w : World) (p : Slot) : Except Vm.Panic World := do
  let (_, mem) ← freeChild L w p w.mem
  let v := w.sys.fields p
  return { w with
    mem := mem
    kstack := Function.update w.kstack p none
    sys := { w.sys with
      table := reap w.sys.table p
      fields := Function.update w.sys.fields p { v with name := Function.update v.name 0 0 } } }

inductive Round where
  /-- The value returned, and the status stored through the pointer. -/
  | returned (r : Int) (stored : Option Int) (w : World)
  | slept (w : World)

/-- One round of `waitpid`; `status` is whether there is a status pointer. -/
def waitpidRound (L : Vm.Layout) (self : Slot) (childPid : Int) (status : Bool) (w : World) : Except Vm.Panic Round :=
  let t := w.sys.table
  match scan t self childPid false slots with
  | .zombie p =>
    if status then do
      let w ← reapChild L w p
      return .returned (t.proc p).pid (some (t.proc p).exitStatus) w
    else return .returned (-1) none w
  | .done havekids =>
    if !havekids || (t.proc self).killed then return .returned (-1) none w
    else return .slept { w with sys := { w.sys with table := sleep t self (.slot self) } }

/-- At most `n` rounds; `others` is what happens while the process sleeps. Nothing is returned if it still sleeps. -/
def waitpidCall (L : Vm.Layout) (others : Nat → World → World) (self : Slot) (childPid : Int) (status : Bool) :
    Nat → World → Except Vm.Panic (Option (Int × Option Int × World))
  | 0, _ => return none
  | n + 1, w => do
    match ← waitpidRound L self childPid status w with
    | .returned r stored w => return some (r, stored, w)
    | .slept w => waitpidCall L others self childPid status n (others n w)

def findsZombie (others : Nat → World → World) (self : Slot) (childPid : Int) : Nat → World → Bool
  | 0, _ => false
  | n + 1, w =>
    let t := w.sys.table
    match scan t self childPid false slots with
    | .zombie _ => true
    | .done havekids =>
      if !havekids || (t.proc self).killed then false
      else findsZombie others self childPid n (others n { w with sys := { w.sys with table := sleep t self (.slot self) } })

/-- What is compared: the value returned, the process table and the free list. -/
def visible : Option (Int × Option Int × World) → Option (Int × Table × List Nat) :=
  Option.map fun (r, _, w) => (r, w.sys.table, w.mem.free)

/-- The two calls differ in the store of the status only. -/
def SameButStatus (L : Vm.Layout) (others : Nat → World → World) (self : Slot) (childPid : Int) (w : World) : Prop :=
  ∀ n, (waitpidCall L others self childPid false n w).map visible = (waitpidCall L others self childPid true n w).map visible

variable {L : Vm.Layout} {others : Nat → World → World} {self : Slot} {childPid : Int} {w : World}

theorem reap_ne {t : Table} {p : Slot} (hzombie : (t.proc p).state = .zombie) : reap t p ≠ t := by
  intro heq
  have hstate : ((reap t p).proc p).state = .unused := by rw [reap, set_self]
  rw [heq, hzombie] at hstate
  cases hstate

theorem reapChild_table {p : Slot} {w' : World} (h : reapChild L w p = .ok w') : w'.sys.table = reap w.sys.table p := by
  unfold reapChild at h
  cases hfree : freeChild L w p w.mem with
  | error e =>
    rw [hfree] at h
    cases h
  | ok r =>
    rw [hfree] at h
    obtain rfl := Except.ok.inj h
    rfl

/-- After the same number of rounds the calls agree exactly if they have met no zombie. -/
theorem visible_waitpidCall_iff (n : Nat) :
    (waitpidCall L others self childPid false n w).map visible = (waitpidCall L others self childPid true n w).map visible ↔
      findsZombie others self childPid n w = false := by
  induction n generalizing w with
  | zero => exact ⟨fun _ => rfl, fun _ => rfl⟩
  | succ n ih =>
    rw [waitpidCall, waitpidCall]
    simp only [findsZombie]
    cases hscan : scan w.sys.table self childPid false slots with
    | done havekids =>
      by_cases hreturn : (!havekids || (w.sys.table.proc self).killed) = true
      · simp only [waitpidRound, hscan, if_pos hreturn, iff_true]
        rfl
      · simp only [waitpidRound, hscan, if_neg hreturn]
        exact ih
    | zombie p =>
      have hzombie : (w.sys.table.proc p).state = .zombie := (scan_zombie hscan).2
      simp only [waitpidRound, hscan, if_true, Bool.true_eq_false, iff_false, Bool.false_eq_true, if_false]
      intro hsame
      cases hreap : reapChild L w p with
      | error e =>
        rw [hreap] at hsame
        cases hsame
      | ok w' =>
        rw [hreap] at hsame
        have htable := congrArg (fun r => r.2.1) (Option.some.inj (Except.ok.inj hsame))
        exact reap_ne hzombie ((reapChild_table hreap).symm.trans htable.symm)

/-- A null status pointer only discards the status exactly if the call comes upon no zombie. -/
theorem null_status_iff (L : Vm.Layout) (others : Nat → World → World) (self : Slot) (childPid : Int) (w : World) :
    SameButStatus L others self childPid w ↔ ∀ n, findsZombie others self childPid n w = false :=
  forall_congr' fun n => visible_waitpidCall_iff n

/-- Init has a child that has exited: without a status pointer `waitpid` returns -1 and the zombie stays. -/
theorem null_status_keeps_zombie : ∃ as s, system.Run as s ∧ (s.table.proc 1).state = .zombie ∧
    ∀ L others kstack pgdir mem, waitpidCall L others 0 (-1) false 1 ⟨s, kstack, pgdir, mem⟩ =
        .ok (some (-1, none, ⟨s, kstack, pgdir, mem⟩)) ∧
      ¬SameButStatus L others 0 (-1) ⟨s, kstack, pgdir, mem⟩ := by
  have hexec : ((system.exec firstSys [.table (.schedule 0), .table (.own 0 .forkAlloc), .table (.own 0 .forkFill),
      .table (.own 0 .forkRun), .table (.schedule 1), .table (.own 1 (.exit 7)), .table (.own 1 .exitClose),
      .table (.own 1 .exitZombie)]).map fun s => ((s.table.proc 1).state, (scan s.table 0 (-1) false slots).found)) =
        some (.zombie, some 1) := by decide +kernel
  obtain ⟨s, hs, hseen⟩ := Option.map_eq_some_iff.mp hexec
  obtain ⟨hzombie, hfound⟩ := Prod.mk.inj hseen
  have hscan := Scan.eq_zombie hfound
  refine ⟨_, s, run_firstSys.exec hs, hzombie, fun L others kstack pgdir mem => ⟨?_, fun hsame => ?_⟩⟩
  · simp only [waitpidCall, waitpidRound, hscan]
    rfl
  · have hfinds := (visible_waitpidCall_iff 1).mp (hsame 1)
    simp only [findsZombie, hscan] at hfinds
    cases hfinds

end Xv6.System
