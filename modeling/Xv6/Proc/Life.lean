import Xv6.Proc.Table

/-!
# The life of a slot

Most steps only schedule: they move slots between `SLEEPING`, `RUNNABLE` and `RUNNING` and touch no pid, no
parent and no status. What is left of the state then is whether a slot is unused, an embryo, alive or a
zombie. The lemmas here say which steps keep that, and what the loops of `exit` and `waitpid` do to it.
-/

namespace Xv6.ProcTable

open Lib

inductive Life where
  | unused | embryo | alive | zombie
deriving DecidableEq, Repr

def Proc.life (v : Proc) : Life :=
  match v.state with
  | .unused => .unused
  | .embryo => .embryo
  | .sleeping | .runnable | .running => .alive
  | .zombie => .zombie

variable {v : Proc}

theorem life_of_running (h : v.state = .running) : v.life = .alive := by simp [Proc.life, h]

theorem life_eq_unused : v.life = .unused ↔ v.state = .unused := by
  cases hv : v.state <;> simp [Proc.life, hv]

theorem life_eq_embryo : v.life = .embryo ↔ v.state = .embryo := by
  cases hv : v.state <;> simp [Proc.life, hv]

theorem life_eq_zombie : v.life = .zombie ↔ v.state = .zombie := by
  cases hv : v.state <;> simp [Proc.life, hv]

theorem life_eq_alive : v.life = .alive ↔ v.state ≠ .unused ∧ v.state ≠ .embryo ∧ v.state ≠ .zombie := by
  cases hv : v.state <;> simp [Proc.life, hv]

structure Kept (v v' : Proc) : Prop where
  life : v'.life = v.life
  pid : v'.pid = v.pid
  parent : v'.parent = v.parent
  exitStatus : v'.exitStatus = v.exitStatus

theorem Kept.refl (v : Proc) : Kept v v := ⟨rfl, rfl, rfl, rfl⟩

theorem Kept.trans {u w : Proc} (h : Kept u v) (h' : Kept v w) : Kept u w :=
  ⟨h'.life.trans h.life, h'.pid.trans h.pid, h'.parent.trans h.parent, h'.exitStatus.trans h.exitStatus⟩

/-- Nothing has changed in the whole table but scheduling. -/
structure Quiet (t t' : Table) : Prop where
  kept : ∀ q, Kept (t.proc q) (t'.proc q)
  initproc : t'.initproc = t.initproc
  nextpid : t'.nextpid = t.nextpid

variable {t : Table} {p : Slot}

theorem quiet_set (h : Kept (t.proc p) v) : Quiet t (t.set p v) := by
  refine ⟨fun q => ?_, rfl, rfl⟩
  by_cases hq : q = p
  · subst hq
    simpa using h
  · simpa [hq] using Kept.refl _

theorem kept_wakeup1 (t : Table) (chan : Option Chan) (q : Slot) : Kept (t.proc q) ((wakeup1 t chan).proc q) := by
  simp only [wakeup1]
  split
  · exact ⟨by simp [Proc.life, *], rfl, rfl, rfl⟩
  · exact Kept.refl _

@[simp] theorem quiet_wakeup1 (t : Table) (chan : Option Chan) : Quiet t (wakeup1 t chan) :=
  ⟨kept_wakeup1 t chan, rfl, rfl⟩

@[simp] theorem quiet_kill (t : Table) (pid : Int) : Quiet t (kill t pid) := by
  unfold kill
  split
  · refine quiet_set ⟨?_, rfl, rfl, rfl⟩
    by_cases hsleeping : (t.proc ‹Slot›).state = .sleeping <;> simp [Proc.life, hsleeping]
  · exact ⟨fun q => .refl _, rfl, rfl⟩

@[simp] theorem kill_pc (t : Table) (pid : Int) : (kill t pid).pc = t.pc := by
  unfold kill
  split <;> rfl

@[simp] theorem quiet_attachjob (t : Table) (pid : Int) (job : Nat) : Quiet t (attachjob t pid job) := by
  unfold attachjob
  split
  · exact quiet_set ⟨rfl, rfl, rfl, rfl⟩
  · exact ⟨fun q => .refl _, rfl, rfl⟩

@[simp] theorem attachjob_pc (t : Table) (pid : Int) (job : Nat) : (attachjob t pid job).pc = t.pc := by
  unfold attachjob
  split <;> rfl

@[simp] theorem quiet_sleep (hrun : (t.proc p).state = .running) (chan : Chan) :
    Quiet t (sleep t p chan) := quiet_set ⟨by simp [Proc.life, hrun], rfl, rfl, rfl⟩

@[simp] theorem quiet_killed (t : Table) (p : Slot) : Quiet t (t.set p { t.proc p with killed := true }) :=
  quiet_set ⟨rfl, rfl, rfl, rfl⟩

theorem quiet_job (t : Table) (p : Slot) (job : Nat) : Quiet t (t.set p { t.proc p with job := job }) :=
  quiet_set ⟨rfl, rfl, rfl, rfl⟩

@[simp] theorem quiet_yield (hrun : (t.proc p).state = .running) :
    Quiet t (t.set p { t.proc p with state := .runnable }) := quiet_set ⟨by simp [Proc.life, hrun], rfl, rfl, rfl⟩

@[simp] theorem quiet_schedule (hrunnable : (t.proc p).state = .runnable) :
    Quiet t (t.set p { t.proc p with state := .running, chan := none }) :=
  quiet_set ⟨by simp [Proc.life, hrunnable], rfl, rfl, rfl⟩

/-! ### The loop of `exit` -/

def handOver (self init : Slot) (v : Proc) : Proc :=
  if v.parent = some self then { v with parent := some init } else v

theorem handOver_handOver (self init : Slot) (v : Proc) :
    handOver self init (handOver self init v) = handOver self init v := by
  unfold handOver
  split
  · split <;> rfl
  · rfl

theorem Kept.handOver {v' : Proc} (h : Kept v v') (self init : Slot) :
    Kept (handOver self init v) (handOver self init v') := by
  unfold ProcTable.handOver
  rw [h.parent]
  split
  · exact ⟨h.life, h.pid, rfl, h.exitStatus⟩
  · exact h

theorem kept_passToInit (self : Slot) (t : Table) (p q : Slot) :
    Kept (if q = p then handOver self t.initproc (t.proc q) else t.proc q) ((passToInit self t p).proc q) := by
  by_cases hchild : (t.proc p).parent = some self
  · have hset : (if q = p then handOver self t.initproc (t.proc q) else t.proc q) =
        (t.set p { t.proc p with parent := some t.initproc }).proc q := by
      by_cases hq : q = p
      · subst hq
        rw [if_pos rfl, set_self, handOver, if_pos hchild]
      · rw [if_neg hq, set_of_ne t hq]
    rw [hset, passToInit, if_pos hchild]
    dsimp only
    split
    · exact kept_wakeup1 _ _ _
    · exact Kept.refl _
  · have hsame : (if q = p then handOver self t.initproc (t.proc q) else t.proc q) = t.proc q := by
      by_cases hq : q = p
      · subst hq
        rw [if_pos rfl, handOver, if_neg hchild]
      · rw [if_neg hq]
    rw [hsame, passToInit, if_neg hchild]
    exact Kept.refl _

@[simp] theorem passToInit_initproc (self : Slot) (t : Table) (p : Slot) : (passToInit self t p).initproc = t.initproc := by
  unfold passToInit
  split
  · dsimp only
    split <;> rfl
  · rfl

@[simp] theorem passToInit_nextpid (self : Slot) (t : Table) (p : Slot) : (passToInit self t p).nextpid = t.nextpid := by
  unfold passToInit
  split
  · dsimp only
    split <;> rfl
  · rfl

@[simp] theorem passToInit_pc (self : Slot) (t : Table) (p : Slot) : (passToInit self t p).pc = t.pc := by
  unfold passToInit
  split
  · dsimp only
    split <;> rfl
  · rfl

/-- The loop hands over the slots it has passed, and wakes processes on the way. -/
theorem kept_foldl_passToInit (self : Slot) (l : List Slot) (t : Table) :
    (∀ q, Kept (if q ∈ l then handOver self t.initproc (t.proc q) else t.proc q)
      ((l.foldl (passToInit self) t).proc q)) ∧
    (l.foldl (passToInit self) t).initproc = t.initproc ∧ (l.foldl (passToInit self) t).nextpid = t.nextpid ∧
    (l.foldl (passToInit self) t).pc = t.pc := by
  induction l generalizing t with
  | nil => exact ⟨fun q => by simpa using Kept.refl _, rfl, rfl, rfl⟩
  | cons p l ih =>
    obtain ⟨hkept, hinit, hnext, hpc⟩ := ih (passToInit self t p)
    refine ⟨fun q => ?_, by simpa using hinit, by simpa using hnext, by simpa using hpc⟩
    refine Kept.trans ?_ (hkept q)
    have hround := kept_passToInit self t p q
    rw [passToInit_initproc]
    by_cases hl : q ∈ l
    · have hagain := hround.handOver self t.initproc
      rw [if_pos hl, if_pos (List.mem_cons_of_mem p hl)]
      by_cases hq : q = p
      · rwa [if_pos hq, handOver_handOver] at hagain
      · rwa [if_neg hq] at hagain
    · simpa [hl] using hround

/-- What one exit does to the table: its children go to init, and processes may be woken. -/
structure Exited (t : Table) (p : Slot) (t' : Table) : Prop where
  kept : ∀ q, q ≠ p → Kept (handOver p t.initproc (t.proc q)) (t'.proc q)
  life : (t'.proc p).life = .zombie
  pid : (t'.proc p).pid = (t.proc p).pid
  parent : (t'.proc p).parent = (handOver p t.initproc (t.proc p)).parent
  exitStatus : (t'.proc p).exitStatus = (t.proc p).exitStatus
  initproc : t'.initproc = t.initproc
  nextpid : t'.nextpid = t.nextpid
  pc : t'.pc = t.pc

theorem kept_passChildren (t : Table) (self q : Slot) :
    Kept (handOver self t.initproc (t.proc q)) ((passChildren t self).proc q) := by
  have hkept := (kept_foldl_passToInit self slots t).1 q
  rw [if_pos (mem_slots q)] at hkept
  unfold passChildren
  exact hkept

theorem passChildren_rest (t : Table) (self : Slot) : (passChildren t self).initproc = t.initproc ∧
    (passChildren t self).nextpid = t.nextpid ∧ (passChildren t self).pc = t.pc := by
  unfold passChildren
  exact (kept_foldl_passToInit self slots t).2

theorem handOver_pid (self init : Slot) (v : Proc) : (handOver self init v).pid = v.pid := by
  unfold handOver
  split <;> rfl

theorem handOver_life (self init : Slot) (v : Proc) : (handOver self init v).life = v.life := by
  unfold handOver
  split <;> rfl

theorem handOver_exitStatus (self init : Slot) (v : Proc) : (handOver self init v).exitStatus = v.exitStatus := by
  unfold handOver
  split <;> rfl

section Exited

variable {t t' : Table} {p : Slot} (hexit : Exited t p t') (q : Slot)

include hexit

theorem Exited.life_of_ne {q : Slot} (hq : q ≠ p) : (t'.proc q).life = (t.proc q).life :=
  (hexit.kept q hq).life.trans (handOver_life ..)

theorem Exited.pid_eq : (t'.proc q).pid = (t.proc q).pid := by
  by_cases hq : q = p
  · rw [hq, hexit.pid]
  · exact (hexit.kept q hq).pid.trans (handOver_pid ..)

theorem Exited.exitStatus_eq : (t'.proc q).exitStatus = (t.proc q).exitStatus := by
  by_cases hq : q = p
  · rw [hq, hexit.exitStatus]
  · exact (hexit.kept q hq).exitStatus.trans (handOver_exitStatus ..)

theorem Exited.parent_eq : (t'.proc q).parent = (handOver p t.initproc (t.proc q)).parent := by
  by_cases hq : q = p
  · rw [hq, hexit.parent]
  · exact (hexit.kept q hq).parent

end Exited

theorem exited_becomeZombie (t : Table) (self : Slot) : Exited t self (becomeZombie t self) := by
  obtain ⟨hinit, hnext, hpc⟩ := passChildren_rest (wakeup1 t ((t.proc self).parent.map .slot)) self
  have hall : ∀ q, Kept (handOver self t.initproc (t.proc q))
      ((passChildren (wakeup1 t ((t.proc self).parent.map .slot)) self).proc q) := fun q =>
    ((kept_wakeup1 t _ q).handOver self t.initproc).trans (kept_passChildren _ self q)
  simp only [becomeZombie]
  refine ⟨fun q hq => ?_, ?_, ?_, ?_, ?_, ?_, ?_, ?_⟩
  · rw [set_of_ne _ hq]
    exact hall q
  · rw [set_self]
    rfl
  · rw [set_self]
    exact (hall self).pid.trans (handOver_pid ..)
  · rw [set_self]
    exact (hall self).parent
  · rw [set_self]
    exact (hall self).exitStatus.trans (handOver_exitStatus ..)
  · rw [set_initproc, hinit]
    rfl
  · rw [set_nextpid, hnext]
    rfl
  · rw [set_pc, hpc]
    rfl

/-! ### The loop of `waitpid` -/

/-- Is `p` a child that a `waitpid(childPid, _)` of `self` looks for? -/
def Matches (t : Table) (self : Slot) (childPid : Int) (p : Slot) : Prop :=
  (t.proc p).parent = some self ∧ (childPid = -1 ∨ childPid = (t.proc p).pid)

variable {childPid : Int}

theorem scan_zombie {self : Slot} {havekids : Bool} {l : List Slot}
    (h : scan t self childPid havekids l = .zombie p) :
    Matches t self childPid p ∧ (t.proc p).state = .zombie := by
  induction l generalizing havekids with
  | nil => cases h
  | cons q l ih =>
    simp only [scan] at h
    split at h
    · exact ih h
    split at h
    · exact ih h
    split at h
    · obtain rfl : q = p := by simpa using h
      exact ⟨⟨by simp_all, by tauto⟩, ‹_›⟩
    · exact ih h

theorem scan_done {self : Slot} {havekids : Bool} {l : List Slot} {b : Bool}
    (h : scan t self childPid havekids l = .done b) :
    (b = true ↔ havekids = true ∨ ∃ p ∈ l, Matches t self childPid p) ∧
    ∀ p ∈ l, Matches t self childPid p → (t.proc p).state ≠ .zombie := by
  induction l generalizing havekids with
  | nil =>
    obtain rfl : havekids = b := by simpa [scan] using h
    simp
  | cons q l ih =>
    simp only [scan] at h
    split at h
    · have hq : ¬Matches t self childPid q := fun hq => absurd hq.1 ‹_›
      simpa [hq] using ih h
    split at h
    · have hq : ¬Matches t self childPid q := by
        rintro ⟨-, hq⟩
        tauto
      simpa [hq] using ih h
    split at h
    · cases h
    · have hq : Matches t self childPid q := ⟨by simp_all, by tauto⟩
      obtain ⟨hb, hnone⟩ := ih h
      simp_all

/-! ### What a step can do -/

/-- The steps of the table, with the guards each one is taken under. -/
inductive Step (t : Table) : Act → Table → List Event → Prop where
  | noSlot {p : Slot} : Step t (.own p .forkAlloc) t []
  | forkAlloc {p np : Slot} (hrun : (t.proc p).state = .running) (hpc : t.pc p = .kernel)
      (hnp : (t.proc np).state = .unused) :
      Step t (.own p .forkAlloc)
        (({ t.set np { t.proc np with state := .embryo, pid := t.nextpid } with nextpid := t.nextpid + 1 }).goto p
          (.allocated np)) []
  | forkFail {p np : Slot} (hrun : (t.proc p).state = .running) (hpc : t.pc p = .allocated np) :
      Step t (.own p .forkFail) ((freeSlot t np).goto p .kernel) []
  | forkFill {p np : Slot} (hrun : (t.proc p).state = .running) (hpc : t.pc p = .allocated np) :
      Step t (.own p .forkFill)
        ((t.set np { t.proc np with parent := some p, job := (t.proc p).job }).goto p (.filled np))
        [.forked (t.proc p).pid (t.proc np).pid]
  | forkRun {p np : Slot} (hrun : (t.proc p).state = .running) (hpc : t.pc p = .filled np) :
      Step t (.own p .forkRun) ((t.set np { t.proc np with state := .runnable }).goto p .kernel) []
  | exit {p : Slot} {status : Int} (hrun : (t.proc p).state = .running) (hpc : t.pc p = .kernel)
      (hinit : p ≠ t.initproc) :
      Step t (.own p (.exit status)) ((t.set p { t.proc p with exitStatus := status }).goto p .exiting)
        [.exited (t.proc p).pid status]
  | exitClose {p : Slot} (hrun : (t.proc p).state = .running) (hpc : t.pc p = .exiting) :
      Step t (.own p .exitClose) ((t.set p { t.proc p with job := 0 }).goto p .leaving) []
  | exitZombie {p : Slot} (hrun : (t.proc p).state = .running) (hpc : t.pc p = .leaving) :
      Step t (.own p .exitZombie) ((becomeZombie t p).goto p .kernel) []
  | waitCall {p : Slot} {childPid : Int} {status : Bool} (hrun : (t.proc p).state = .running)
      (hpc : t.pc p = .kernel) : Step t (.own p (.waitCall childPid status)) (t.goto p (.waiting childPid status)) []
  | waited {p q : Slot} {childPid : Int} (hrun : (t.proc p).state = .running)
      (hpc : t.pc p = .waiting childPid true) (hq : Matches t p childPid q) (hzombie : (t.proc q).state = .zombie) :
      Step t (.own p .waitRound) ((reap t q).goto p .kernel)
        [.waited (t.proc p).pid childPid (t.proc q).pid (t.proc q).exitStatus]
  | failed {p : Slot} {childPid : Int} {status : Bool} (hrun : (t.proc p).state = .running)
      (hpc : t.pc p = .waiting childPid status)
      (hwhy : status = true → (∀ q, ¬Matches t p childPid q) ∨ (t.proc p).killed = true) :
      Step t (.own p .waitRound) (t.goto p .kernel) [.failed (t.proc p).pid childPid status]
  | slept {p : Slot} {childPid : Int} {status : Bool} (hrun : (t.proc p).state = .running)
      (hpc : t.pc p = .waiting childPid status) (halive : (t.proc p).killed = false)
      (hkid : ∃ q, Matches t p childPid q) (hnone : ∀ q, Matches t p childPid q → (t.proc q).state ≠ .zombie) :
      Step t (.own p .waitRound) (sleep t p (.slot p)) []
  | fault {p : Slot} (hrun : (t.proc p).state = .running) :
      Step t (.own p .fault) (t.set p { t.proc p with killed := true }) []
  | yield {p : Slot} (hrun : (t.proc p).state = .running) :
      Step t (.own p .yield) (t.set p { t.proc p with state := .runnable }) []
  | sleep {p : Slot} {addr : Nat} (hrun : (t.proc p).state = .running)
      (hpc : t.pc p = .kernel ∨ t.pc p = .exiting) :
      Step t (.own p (.sleep addr)) (sleep t p (.other addr)) []
  | kill {pid : Int} : Step t (.kill pid) (kill t pid) []
  | attachjob {pid : Int} {job : Nat} : Step t (.attachjob pid job) (attachjob t pid job) []
  | wakeup {addr : Nat} : Step t (.wakeup addr) (wakeup1 t (some (.other addr))) []
  | schedule {p : Slot} (hrunnable : (t.proc p).state = .runnable) :
      Step t (.schedule p) (t.set p { t.proc p with state := .running, chan := none }) []

variable {t' : Table} {es : List Event}

theorem Step.of_next {t₁ : Table} {a : Act} {es₁ : List Event} (hs : Step t a t₁ es₁)
    (h : (.next (t₁, es₁) : Outcome Panic (Table × List Event)) = .next (t', es)) : Step t a t' es := by
  obtain ⟨rfl, rfl⟩ := Prod.mk.inj (Outcome.next.inj h)
  exact hs

theorem step_waitpid {status : Bool} (hrun : (t.proc p).state = .running)
    (hpc : t.pc p = .waiting childPid status) :
    Step t (.own p .waitRound) (waitpid t p childPid status).1 (waitpid t p childPid status).2 := by
  cases hscan : scan t p childPid false slots with
  | zombie q =>
    obtain ⟨hq, hzombie⟩ := scan_zombie hscan
    cases status with
    | true =>
      simp only [waitpid, hscan, if_true]
      exact .waited hrun hpc hq hzombie
    | false =>
      simp only [waitpid, hscan, Bool.false_eq_true, if_false]
      exact .failed hrun hpc (by simp)
  | done havekids =>
    obtain ⟨hkids, hnone⟩ := scan_done hscan
    by_cases hwhy : (!havekids || (t.proc p).killed) = true
    · simp only [waitpid, hscan, if_pos hwhy]
      refine .failed hrun hpc fun _ => ?_
      simp only [Bool.or_eq_true, Bool.not_eq_true'] at hwhy
      refine hwhy.imp_left fun hchildless q hq => ?_
      have := hkids.mpr (.inr ⟨q, mem_slots q, hq⟩)
      rw [hchildless] at this
      cases this
    · simp only [waitpid, hscan, if_neg hwhy]
      obtain ⟨rfl, halive⟩ : havekids = true ∧ (t.proc p).killed = false := by simpa using hwhy
      obtain ⟨q, -, hq⟩ : ∃ q ∈ slots, Matches t p childPid q := by simpa using hkids
      exact .slept hrun hpc halive ⟨q, hq⟩ fun r hr => hnone r (mem_slots r) hr

theorem step_fork (hrun : (t.proc p).state = .running)
    (hpc : t.pc p = .kernel) (h : fork t p = .next (t', es)) : Step t (.own p .forkAlloc) t' es := by
  unfold fork allocproc at h
  cases hfind : slots.find? fun p => (t.proc p).state = .unused with
  | none =>
    simp only [hfind, Option.map_none] at h
    exact Step.of_next .noSlot h
  | some np =>
    simp only [hfind, Option.map_some] at h
    split at h
    · exact Step.of_next (.forkAlloc hrun hpc (by simpa using List.find?_some hfind)) h
    · cases h

theorem step_exit {status : Int} (hrun : (t.proc p).state = .running)
    (hpc : t.pc p = .kernel) (h : exit t p status = .next (t', es)) : Step t (.own p (.exit status)) t' es := by
  simp only [exit] at h
  split at h
  · cases h
  · exact Step.of_next (.exit hrun hpc ‹_›) h

theorem ownStep_cases {a : Own} (hrun : (t.proc p).state = .running)
    (h : ownStep t p (t.pc p) a = .next (t', es)) : Step t (.own p a) t' es := by
  cases hpc : t.pc p with
  | kernel =>
    rw [hpc] at h
    cases a with
    | forkAlloc => exact step_fork hrun hpc h
    | exit status => exact step_exit hrun hpc h
    | waitCall childPid status => exact Step.of_next (.waitCall hrun hpc) h
    | fault => exact Step.of_next (.fault hrun) h
    | sleep addr => exact Step.of_next (.sleep hrun (.inl hpc)) h
    | yield => exact Step.of_next (.yield hrun) h
    | forkFail | forkFill | forkRun | exitClose | exitZombie | waitRound => cases h
  | allocated np =>
    rw [hpc] at h
    cases a with
    | forkFail => exact Step.of_next (.forkFail hrun hpc) h
    | forkFill => exact Step.of_next (.forkFill hrun hpc) h
    | yield => exact Step.of_next (.yield hrun) h
    | forkAlloc | forkRun | exit | exitClose | exitZombie | waitCall | waitRound | fault | sleep => cases h
  | filled np =>
    rw [hpc] at h
    cases a with
    | forkRun => exact Step.of_next (.forkRun hrun hpc) h
    | yield => exact Step.of_next (.yield hrun) h
    | forkAlloc | forkFail | forkFill | exit | exitClose | exitZombie | waitCall | waitRound | fault | sleep => cases h
  | exiting =>
    rw [hpc] at h
    cases a with
    | exitClose => exact Step.of_next (.exitClose hrun hpc) h
    | sleep addr => exact Step.of_next (.sleep hrun (.inr hpc)) h
    | yield => exact Step.of_next (.yield hrun) h
    | forkAlloc | forkFail | forkFill | forkRun | exit | exitZombie | waitCall | waitRound | fault => cases h
  | leaving =>
    rw [hpc] at h
    cases a with
    | exitZombie => exact Step.of_next (.exitZombie hrun hpc) h
    | yield => exact Step.of_next (.yield hrun) h
    | forkAlloc | forkFail | forkFill | forkRun | exit | exitClose | waitCall | waitRound | fault | sleep => cases h
  | waiting childPid status =>
    rw [hpc] at h
    cases a with
    | waitRound => exact Step.of_next (step_waitpid hrun hpc) h
    | yield => exact Step.of_next (.yield hrun) h
    | forkAlloc | forkFail | forkFill | forkRun | exit | exitClose | exitZombie | waitCall | fault | sleep => cases h

theorem step_cases {a : Act} (h : step t a = .next (t', es)) : Step t a t' es := by
  cases a with
  | own p a =>
    simp only [step] at h
    split at h
    · exact ownStep_cases ‹_› h
    · cases h
  | kill pid => exact Step.of_next .kill h
  | attachjob pid job => exact Step.of_next .attachjob h
  | wakeup addr => exact Step.of_next .wakeup h
  | schedule p =>
    simp only [step] at h
    split at h
    · exact Step.of_next (.schedule ‹_›) h
    · cases h

end Xv6.ProcTable
