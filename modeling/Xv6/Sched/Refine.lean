import Xv6.Sched.Machine
import Xv6.Proc.Wakeup

/-!
# The machine refines the process table

The table of the machine goes through the steps of `ProcTable.kernel`, with one difference: a process clears
its channel only when it goes on after `sched`, while `kernel` clears it when the process is scheduled. Only
`wakeup1` reads a channel, and only of a process that sleeps, so tables that differ in the channels of other
processes take the same steps.
-/

namespace Xv6.ProcTable

open Lib

/-- Equal but for the channel of a process that does not sleep. -/
structure Proc.Alike (v w : Proc) : Prop where
  state : w.state = v.state
  pid : w.pid = v.pid
  parent : w.parent = v.parent
  killed : w.killed = v.killed
  exitStatus : w.exitStatus = v.exitStatus
  job : w.job = v.job
  chan : v.state = .sleeping → w.chan = v.chan

theorem Proc.Alike.refl (v : Proc) : v.Alike v := ⟨rfl, rfl, rfl, rfl, rfl, rfl, fun _ => rfl⟩

structure Alike (t u : Table) : Prop where
  proc : ∀ q, (t.proc q).Alike (u.proc q)
  initproc : u.initproc = t.initproc
  nextpid : u.nextpid = t.nextpid
  pc : u.pc = t.pc

theorem Alike.refl (t : Table) : Alike t t := ⟨fun _ => .refl _, rfl, rfl, rfl⟩

variable {t u : Table}

theorem Alike.set (h : Alike t u) (p : Slot) {v w : Proc} (hv : v.Alike w) : Alike (t.set p v) (u.set p w) := by
  refine ⟨fun q => ?_, h.initproc, h.nextpid, h.pc⟩
  rw [set_proc, set_proc]
  split
  · exact hv
  · exact h.proc q

theorem Alike.setState (h : Alike t u) (p : Slot) {s : ProcState} (hs : s ≠ .sleeping) :
    Alike (t.set p { t.proc p with state := s }) (u.set p { u.proc p with state := s }) := by
  have hp := h.proc p
  exact h.set p ⟨rfl, hp.pid, hp.parent, hp.killed, hp.exitStatus, hp.job, fun hsleeping => absurd hsleeping hs⟩

theorem Alike.setJob (h : Alike t u) (p : Slot) (job : Nat) :
    Alike (t.set p { t.proc p with job := job }) (u.set p { u.proc p with job := job }) := by
  have hp := h.proc p
  exact h.set p ⟨hp.state, hp.pid, hp.parent, hp.killed, hp.exitStatus, rfl, hp.chan⟩

theorem Alike.goto (h : Alike t u) (p : Slot) (pc : Pc) : Alike (t.goto p pc) (u.goto p pc) :=
  ⟨h.proc, h.initproc, h.nextpid, by simp only [Table.goto, h.pc]⟩

theorem Alike.nextpid_set (h : Alike t u) (n : Int) : Alike { t with nextpid := n } { u with nextpid := n } :=
  ⟨h.proc, h.initproc, rfl, h.pc⟩

theorem Alike.wakeup1 (h : Alike t u) (chan : Option Chan) : Alike (wakeup1 t chan) (wakeup1 u chan) := by
  refine ⟨fun q => ?_, h.initproc, h.nextpid, h.pc⟩
  obtain ⟨hstate, hpid, hparent, hkilled, hexit, hjob, hchan⟩ := h.proc q
  have hcond : (u.proc q).state = .sleeping ∧ (u.proc q).chan = chan ↔
      (t.proc q).state = .sleeping ∧ (t.proc q).chan = chan := by
    rw [hstate]
    exact and_congr_right fun hsleeping => by rw [hchan hsleeping]
  simp only [ProcTable.wakeup1, hcond]
  split
  · exact ⟨rfl, hpid, hparent, hkilled, hexit, hjob, by simp⟩
  · exact h.proc q

theorem Alike.passToInit (h : Alike t u) (self p : Slot) : Alike (passToInit self t p) (passToInit self u p) := by
  have hp := h.proc p
  have hset : Alike (t.set p { t.proc p with parent := some t.initproc })
      (u.set p { u.proc p with parent := some u.initproc }) :=
    h.set p ⟨hp.state, hp.pid, by rw [h.initproc], hp.killed, hp.exitStatus, hp.job, hp.chan⟩
  by_cases hchild : (t.proc p).parent = some self
  · rw [ProcTable.passToInit, ProcTable.passToInit, if_pos hchild, if_pos (hp.parent.trans hchild), h.initproc]
    rw [h.initproc] at hset
    by_cases hzombie : (t.proc p).state = .zombie
    · rw [if_pos hzombie, if_pos (hp.state.trans hzombie)]
      exact hset.wakeup1 _
    · rw [if_neg hzombie, if_neg (by rwa [hp.state])]
      exact hset
  · rw [ProcTable.passToInit, ProcTable.passToInit, if_neg hchild, if_neg (by rwa [hp.parent])]
    exact h

theorem Alike.passChildren (h : Alike t u) (self : Slot) : Alike (passChildren t self) (passChildren u self) := by
  unfold ProcTable.passChildren
  generalize slots = l
  induction l generalizing t u with
  | nil => exact h
  | cons p l ih => exact ih (h.passToInit self p)

theorem Alike.becomeZombie (h : Alike t u) (p : Slot) : Alike (becomeZombie t p) (becomeZombie u p) := by
  have hpass := (h.wakeup1 ((t.proc p).parent.map .slot)).passChildren p
  have hp := hpass.proc p
  simp only [ProcTable.becomeZombie, (h.proc p).parent]
  exact hpass.set p ⟨rfl, hp.pid, hp.parent, hp.killed, hp.exitStatus, hp.job, by simp⟩

theorem Alike.sleep (h : Alike t u) (p : Slot) (chan : Chan) : Alike (sleep t p chan) (sleep u p chan) := by
  have hp := h.proc p
  exact h.set p ⟨rfl, hp.pid, hp.parent, hp.killed, hp.exitStatus, hp.job, fun _ => rfl⟩

theorem Alike.reap (h : Alike t u) (p : Slot) : Alike (reap t p) (reap u p) := by
  have hp := h.proc p
  exact h.set p ⟨rfl, rfl, rfl, rfl, hp.exitStatus, rfl, by simp⟩

/-- The loop of `waitpid` reads only the parents, the pids and the zombies among the children of `self`. -/
theorem scan_congr {self : Slot} {childPid : Int} (hparent : ∀ q, (u.proc q).parent = some self ↔ (t.proc q).parent = some self)
    (hchild : ∀ q, (t.proc q).parent = some self → (u.proc q).pid = (t.proc q).pid ∧
      ((u.proc q).state = .zombie ↔ (t.proc q).state = .zombie)) (b : Bool) (l : List Slot) :
    scan u self childPid b l = scan t self childPid b l := by
  induction l generalizing b with
  | nil => rfl
  | cons q l ih =>
    simp only [scan, ne_eq, hparent q]
    split
    · exact ih b
    · obtain ⟨hpid, hzombie⟩ := hchild q (not_not.mp ‹_›)
      simp only [hpid, hzombie, ih]

theorem Alike.waitpid (h : Alike t u) (p : Slot) (childPid : Int) (status : Bool) :
    Alike (waitpid t p childPid status).1 (waitpid u p childPid status).1 ∧
      (ProcTable.waitpid u p childPid status).2 = (ProcTable.waitpid t p childPid status).2 := by
  have hscan : scan u p childPid false slots = scan t p childPid false slots :=
    scan_congr (fun q => by rw [(h.proc q).parent]) (fun q _ => ⟨(h.proc q).pid, by rw [(h.proc q).state]⟩) false slots
  simp only [ProcTable.waitpid, hscan, (h.proc _).pid, (h.proc _).killed, (h.proc _).exitStatus]
  split
  · split
    · exact ⟨(h.reap _).goto _ _, rfl⟩
    · exact ⟨h.goto _ _, rfl⟩
  · split
    · exact ⟨h.goto _ _, rfl⟩
    · exact ⟨h.sleep _ _, rfl⟩

theorem Alike.find (h : Alike t u) (pid : Int) :
    (slots.find? fun p => (u.proc p).pid = pid) = slots.find? fun p => (t.proc p).pid = pid := by
  congr 1
  funext p
  rw [(h.proc p).pid]

theorem Alike.kill (h : Alike t u) (pid : Int) : Alike (kill t pid) (kill u pid) := by
  unfold ProcTable.kill
  rw [h.find pid]
  split
  · rename_i p _
    have hp := h.proc p
    refine h.set p ⟨by simp only [hp.state], hp.pid, hp.parent, rfl, hp.exitStatus, hp.job, fun hsleeping => hp.chan ?_⟩
    dsimp only at hsleeping
    split at hsleeping
    · cases hsleeping
    · exact hsleeping
  · exact h

theorem Alike.attachjob (h : Alike t u) (pid : Int) (job : Nat) : Alike (attachjob t pid job) (attachjob u pid job) := by
  unfold ProcTable.attachjob
  rw [h.find pid]
  split
  · exact h.setJob _ job
  · exact h

inductive Together : Outcome Panic (Table × List Event) → Outcome Panic (Table × List Event) → Prop where
  | next {t u : Table} {es : List Event} (h : Alike t u) : Together (.next (t, es)) (.next (u, es))
  | fail {e : Panic} : Together (.fail e) (.fail e)
  | disabled : Together .disabled .disabled

theorem Alike.fork (h : Alike t u) (p : Slot) : Together (fork t p) (fork u p) := by
  have hfind : (slots.find? fun q => (u.proc q).state = .unused) = slots.find? fun q => (t.proc q).state = .unused := by
    congr 1
    funext q
    rw [(h.proc q).state]
  unfold ProcTable.fork allocproc
  rw [hfind, h.nextpid]
  cases slots.find? fun q => (t.proc q).state = .unused with
  | none => exact .next h
  | some np =>
    have hnp := h.proc np
    have hset : Alike (t.set np { t.proc np with state := .embryo, pid := t.nextpid })
        (u.set np { u.proc np with state := .embryo, pid := t.nextpid }) :=
      h.set np ⟨rfl, rfl, hnp.parent, hnp.killed, hnp.exitStatus, hnp.job, by simp⟩
    simp only [Option.map_some]
    split
    · exact .next ((hset.nextpid_set _).goto p _)
    · exact .disabled

theorem Alike.exit (h : Alike t u) (p : Slot) (status : Int) : Together (exit t p status) (exit u p status) := by
  have hp := h.proc p
  have hset : Alike (t.set p { t.proc p with exitStatus := status }) (u.set p { u.proc p with exitStatus := status }) :=
    h.set p ⟨hp.state, hp.pid, hp.parent, hp.killed, rfl, hp.job, hp.chan⟩
  unfold ProcTable.exit
  rw [h.initproc]
  split
  · exact .fail
  · rw [hp.pid]
    exact .next (hset.goto p _)

theorem Alike.ownStep (h : Alike t u) (p : Slot) (pc : Pc) (a : Own) : Together (ownStep t p pc a) (ownStep u p pc a) := by
  have hp := h.proc p
  have hyield := h.setState p (s := .runnable) (by simp)
  cases pc with
  | kernel =>
    cases a with
    | forkAlloc => exact h.fork p
    | exit status => exact h.exit p status
    | waitCall childPid status => exact .next (h.goto p _)
    | fault => exact .next (h.set p ⟨hp.state, hp.pid, hp.parent, rfl, hp.exitStatus, hp.job, hp.chan⟩)
    | sleep addr => exact .next (h.sleep p _)
    | yield => exact .next hyield
    | forkFail | forkFill | forkRun | exitClose | exitZombie | waitRound => exact .disabled
  | allocated np =>
    have hnp := h.proc np
    cases a with
    | forkFail => exact .next ((h.setState np (by simp)).goto p _)
    | forkFill =>
      have hset : Alike (t.set np { t.proc np with parent := some p, job := (t.proc p).job })
          (u.set np { u.proc np with parent := some p, job := (u.proc p).job }) :=
        h.set np ⟨hnp.state, hnp.pid, rfl, hnp.killed, hnp.exitStatus, hp.job, hnp.chan⟩
      rw [ProcTable.ownStep, ProcTable.ownStep, ← hp.pid, ← hnp.pid]
      exact .next (hset.goto p _)
    | yield => exact .next hyield
    | forkAlloc | forkRun | exit | exitClose | exitZombie | waitCall | waitRound | fault | sleep => exact .disabled
  | filled np =>
    cases a with
    | forkRun => exact .next ((h.setState np (by simp)).goto p _)
    | yield => exact .next hyield
    | forkAlloc | forkFail | forkFill | exit | exitClose | exitZombie | waitCall | waitRound | fault | sleep =>
      exact .disabled
  | exiting =>
    cases a with
    | exitClose => exact .next ((h.setJob p 0).goto p _)
    | sleep addr => exact .next (h.sleep p _)
    | yield => exact .next hyield
    | forkAlloc | forkFail | forkFill | forkRun | exit | exitZombie | waitCall | waitRound | fault => exact .disabled
  | leaving =>
    cases a with
    | exitZombie => exact .next ((h.becomeZombie p).goto p _)
    | yield => exact .next hyield
    | forkAlloc | forkFail | forkFill | forkRun | exit | exitClose | waitCall | waitRound | fault | sleep =>
      exact .disabled
  | waiting childPid status =>
    cases a with
    | waitRound =>
      obtain ⟨halike, hes⟩ := h.waitpid p childPid status
      simp only [ProcTable.ownStep]
      rw [← Prod.mk.eta (p := ProcTable.waitpid t p childPid status), ← Prod.mk.eta (p := ProcTable.waitpid u p childPid status), hes]
      exact .next halike
    | yield => exact .next hyield
    | forkAlloc | forkFail | forkFill | forkRun | exit | exitClose | exitZombie | waitCall | fault | sleep =>
      exact .disabled

theorem Alike.step (h : Alike t u) (a : Act) : Together (step t a) (step u a) := by
  cases a with
  | own p a =>
    simp only [ProcTable.step, (h.proc p).state, h.pc]
    split
    · exact h.ownStep p _ a
    · exact .disabled
  | kill pid => exact .next (h.kill pid)
  | attachjob pid job => exact .next (h.attachjob pid job)
  | wakeup addr => exact .next (h.wakeup1 _)
  | schedule p =>
    have hp := h.proc p
    have hset : Alike (t.set p { t.proc p with state := .running, chan := none })
        (u.set p { u.proc p with state := .running, chan := none }) :=
      h.set p ⟨rfl, hp.pid, hp.parent, hp.killed, hp.exitStatus, hp.job, by simp⟩
    by_cases hrunnable : (t.proc p).state = .runnable
    · rw [ProcTable.step, ProcTable.step, if_pos hrunnable, if_pos (hp.state.trans hrunnable)]
      exact .next hset
    · rw [ProcTable.step, ProcTable.step, if_neg hrunnable, if_neg (by rwa [hp.state])]
      exact .disabled

theorem scan_same {t' : Table} (hparent : ∀ q, (t'.proc q).parent = (t.proc q).parent)
    (hpid : ∀ q, (t'.proc q).pid = (t.proc q).pid) (hlife : ∀ q, (t'.proc q).life = (t.proc q).life)
    (p : Slot) (c : Int) : scan t' p c false slots = scan t p c false slots := by
  refine scan_congr (fun q => by rw [hparent q]) (fun q _ => ⟨hpid q, ?_⟩) false slots
  rw [← life_eq_zombie, hlife q, life_eq_zombie]

/-! ### Tables that `kernel` reaches -/

theorem Alike.life (halike : Alike t u) (q : Slot) : (u.proc q).life = (t.proc q).life := by
  unfold Proc.life
  rw [(halike.proc q).state]

theorem Alike.inv {h : List Event} (halike : Alike t u) (hinv : Inv u h) : Inv t h :=
  hinv.frame (fun q => (halike.life q).symm) (fun q => (halike.proc q).pid.symm)
    (fun q => (halike.proc q).parent.symm) halike.initproc.symm halike.nextpid.symm fun q => .inl (by rw [halike.pc])

def Reached (t : Table) : Prop := ∃ as u h, kernel.Run as (u, h) ∧ Alike t u

theorem Reached.step {t' : Table} {a : Act} {es : List Event} (hreached : Reached t)
    (hstep : step t a = .next (t', es)) : Reached t' := by
  obtain ⟨as, u, h, hrun, halike⟩ := hreached
  have htogether := halike.step a
  rw [hstep] at htogether
  generalize hu : ProcTable.step u a = o at htogether
  cases htogether with
  | @next _ u' _ halike' =>
    refine ⟨as ++ [a], u', h ++ es, hrun.step ?_, halike'⟩
    simp only [kernel, hu]

theorem Reached.schedule {p : Slot} (hreached : Reached t) (hrunnable : (t.proc p).state = .runnable) :
    Reached (t.set p { t.proc p with state := .running }) := by
  have hstep : Reached (t.set p { t.proc p with state := .running, chan := none }) :=
    hreached.step (a := .schedule p) (by rw [ProcTable.step, if_pos hrunnable])
  obtain ⟨as, u, h, hrun, halike⟩ := hstep
  refine ⟨as, u, h, hrun, fun q => ?_, halike.initproc, halike.nextpid, halike.pc⟩
  have hq := halike.proc q
  rw [set_proc] at hq ⊢
  split at hq
  · rw [if_pos ‹_›]
    exact ⟨hq.state, hq.pid, hq.parent, hq.killed, hq.exitStatus, hq.job, by simp⟩
  · rw [if_neg ‹_›]
    exact hq

theorem Reached.tidy {p : Slot} (hreached : Reached t) (hrun : (t.proc p).state = .running) :
    Reached (t.set p { t.proc p with chan := none }) := by
  obtain ⟨as, u, h, hkernel, halike⟩ := hreached
  refine ⟨as, u, h, hkernel, fun q => ?_, halike.initproc, halike.nextpid, halike.pc⟩
  have hq := halike.proc q
  rw [set_proc]
  split
  · subst q
    exact ⟨hq.state, hq.pid, hq.parent, hq.killed, hq.exitStatus, hq.job, by simp [hrun]⟩
  · exact hq

theorem Reached.inv (hreached : Reached t) : ∃ h, Inv t h := by
  obtain ⟨as, u, h, hrun, halike⟩ := hreached
  exact ⟨h, halike.inv (inv_run hrun)⟩

theorem Reached.asleep {t : Table} (hreached : Reached t) : Asleep t := by
  obtain ⟨as, u, h, hrun, halike⟩ := hreached
  have hasleep : Asleep u := asleep_run hrun
  refine hasleep.frame (fun p hp => ?_) (fun p q _ hq => ?_) fun p q _ _ hq hzombie => ?_
  · have hp' := halike.proc p
    exact ⟨hp'.state.trans hp, (hp'.chan hp).symm, hp'.killed.symm, by rw [halike.pc]⟩
  · exact ⟨(halike.proc q).parent ▸ hq, (halike.proc q).pid.symm⟩
  · exact ⟨(halike.proc q).parent.trans hq, (halike.proc q).state.trans hzombie⟩

end Xv6.ProcTable
