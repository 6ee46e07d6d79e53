import Xv6.Proc.Life

/-!
# The process-table invariant

Slots are recycled and parents are slot numbers, so what keeps a parent pointer from naming an unrelated
later process is that a slot with children is alive: `exit` hands its children to init before it becomes a
zombie, and only embryos and zombies go back to `UNUSED`.
-/

namespace Xv6.ProcTable

open Lib

@[grind =] def Pc.child : Pc → Option Slot
  | .allocated np => some np
  | .filled np => some np
  | _ => none

structure Inv (t : Table) (h : List Event) : Prop where
  pidPos : ∀ q, (t.proc q).life ≠ .unused → 1 ≤ (t.proc q).pid
  pidLt : ∀ q, (t.proc q).life ≠ .unused → (t.proc q).pid < t.nextpid
  pidInj : ∀ q r, (t.proc q).life ≠ .unused → (t.proc r).life ≠ .unused → (t.proc q).pid = (t.proc r).pid → q = r
  orphan : ∀ q, (t.proc q).life = .unused → (t.proc q).parent = none
  init : (t.proc t.initproc).life = .alive
  initPid : (t.proc t.initproc).pid = 1
  parent : ∀ q r, (t.proc q).parent = some r → (t.proc r).life = .alive ∧
    (r = t.initproc ∨ .forked (t.proc r).pid (t.proc q).pid ∈ h)
  -- a slot in `fork`, `exit` or `waitpid` is alive, and init never exits
  busy : ∀ p, t.pc p ≠ .kernel → (t.proc p).life = .alive
  mortal : ∀ p, t.pc p = .exiting ∨ t.pc p = .leaving → p ≠ t.initproc
  -- each embryo that is being filled belongs to one process
  embryo : ∀ p np, (t.pc p).child = some np → (t.proc np).life = .embryo
  allocated : ∀ p np, t.pc p = .allocated np → (t.proc np).parent = none
  owner : ∀ p p' np, (t.pc p).child = some np → (t.pc p').child = some np → p = p'

variable {t t' : Table} {h : List Event}

theorem Inv.mono (hinv : Inv t h) (es : List Event) : Inv t (h ++ es) :=
  { hinv with
    parent := fun q r hq => (hinv.parent q r hq).imp_right fun hr => hr.imp_right (List.mem_append_left es) }

theorem Inv.frame (hinv : Inv t h) (hlife : ∀ q, (t'.proc q).life = (t.proc q).life)
    (hpid : ∀ q, (t'.proc q).pid = (t.proc q).pid) (hparent : ∀ q, (t'.proc q).parent = (t.proc q).parent)
    (hinit : t'.initproc = t.initproc) (hnext : t'.nextpid = t.nextpid)
    (hpc : ∀ q, t'.pc q = t.pc q ∨ (t.proc q).life = .alive ∧ (t'.pc q).child = none ∧
      (t'.pc q = .exiting ∨ t'.pc q = .leaving → q ≠ t.initproc)) : Inv t' h := by
  obtain ⟨hpos, hlt, hinj, horphan, halive, hone, hfamily, hbusy, hmortal, hembryo, halloc, howner⟩ := hinv
  constructor
  all_goals grind

theorem Inv.quiet (hinv : Inv t h) (hquiet : Quiet t t') (hpc : t'.pc = t.pc) : Inv t' h :=
  hinv.frame (fun q => (hquiet.kept q).life) (fun q => (hquiet.kept q).pid) (fun q => (hquiet.kept q).parent)
    hquiet.initproc hquiet.nextpid fun q => .inl (by rw [hpc])

theorem Inv.move (hinv : Inv t h) {p : Slot} {pc : Pc} (hp : (t.proc p).life = .alive) (hchild : pc.child = none)
    (hmortal : pc = .exiting ∨ pc = .leaving → p ≠ t.initproc) : Inv (t.goto p pc) h := by
  refine hinv.frame (fun _ => rfl) (fun _ => rfl) (fun _ => rfl) rfl rfl fun q => ?_
  by_cases hq : q = p
  · subst hq
    exact .inr ⟨hp, by simpa using hchild, by simpa using hmortal⟩
  · exact .inl (goto_of_ne t hq pc)

theorem Inv.childless (hinv : Inv t h) {p : Slot} (hp : (t.proc p).life ≠ .alive) (q : Slot) :
    (t.proc q).parent ≠ some p := fun hq => hp (hinv.parent q p hq).1

theorem Inv.forkAlloc (hinv : Inv t h) {p np : Slot} (hrun : (t.proc p).state = .running)
    (hnp : (t.proc np).state = .unused) :
    Inv (({ t.set np { t.proc np with state := .embryo, pid := t.nextpid } with nextpid := t.nextpid + 1 }).goto p
      (.allocated np)) h := by
  have halive : (t.proc p).life = .alive := life_of_running hrun
  have hunused : (t.proc np).life = .unused := life_eq_unused.mpr hnp
  have hchildless := hinv.childless (p := np) (by simp [hunused])
  have hnext : 1 < t.nextpid := by
    have hpos := hinv.pidPos p (by simp [halive])
    have hlt := hinv.pidLt p (by simp [halive])
    omega
  have hembryo' : ∀ v : Proc, v.state = .embryo → v.life = .embryo := fun v => life_eq_embryo.mpr
  obtain ⟨hpos, hlt, hinj, horphan, hinit, hone, hfamily, hbusy, hmortal, hembryo, halloc, howner⟩ := hinv
  constructor
  all_goals
    simp only [goto_proc, goto_initproc, goto_nextpid, goto_pc, set_proc, set_initproc, set_pc]
    grind

theorem Inv.forkFail (hinv : Inv t h) {p np : Slot} (hpc : t.pc p = .allocated np) :
    Inv ((freeSlot t np).goto p .kernel) h := by
  have hembryo : (t.proc np).life = .embryo := hinv.embryo p np (by rw [hpc]; rfl)
  have hchildless := hinv.childless (p := np) (by simp [hembryo])
  have hunused' : ∀ v : Proc, v.state = .unused → v.life = .unused := fun v => life_eq_unused.mpr
  obtain ⟨hpos, hlt, hinj, horphan, hinit, hone, hfamily, hbusy, hmortal, hembryo, halloc, howner⟩ := hinv
  unfold freeSlot
  constructor
  all_goals
    simp only [goto_proc, goto_initproc, goto_nextpid, goto_pc, set_proc, set_initproc, set_nextpid, set_pc]
    grind

theorem Inv.forkFill (hinv : Inv t h) {p np : Slot} (hrun : (t.proc p).state = .running)
    (hpc : t.pc p = .allocated np) :
    Inv ((t.set np { t.proc np with parent := some p, job := (t.proc p).job }).goto p (.filled np))
      (h ++ [.forked (t.proc p).pid (t.proc np).pid]) := by
  have halive : (t.proc p).life = .alive := life_of_running hrun
  have hlife : ({ t.proc np with parent := some p, job := (t.proc p).job } : Proc).life = (t.proc np).life := rfl
  obtain ⟨hpos, hlt, hinj, horphan, hinit, hone, hfamily, hbusy, hmortal, hembryo, halloc, howner⟩ := hinv
  constructor
  all_goals
    simp only [goto_proc, goto_initproc, goto_nextpid, goto_pc, set_proc, set_initproc, set_nextpid, set_pc]
    grind

theorem Inv.forkRun (hinv : Inv t h) {p np : Slot} (hpc : t.pc p = .filled np) :
    Inv ((t.set np { t.proc np with state := .runnable }).goto p .kernel) h := by
  have hlife : ({ t.proc np with state := .runnable } : Proc).life = .alive := rfl
  obtain ⟨hpos, hlt, hinj, horphan, hinit, hone, hfamily, hbusy, hmortal, hembryo, halloc, howner⟩ := hinv
  constructor
  all_goals
    simp only [goto_proc, goto_initproc, goto_nextpid, goto_pc, set_proc, set_initproc, set_nextpid, set_pc]
    grind

theorem Inv.reap (hinv : Inv t h) {p q : Slot} (hzombie : (t.proc q).state = .zombie) :
    Inv ((reap t q).goto p .kernel) h := by
  have hdead : (t.proc q).life = .zombie := life_eq_zombie.mpr hzombie
  have hchildless := hinv.childless (p := q) (by simp [hdead])
  have hunused' : ∀ v : Proc, v.state = .unused → v.life = .unused := fun v => life_eq_unused.mpr
  obtain ⟨hpos, hlt, hinj, horphan, hinit, hone, hfamily, hbusy, hmortal, hembryo, halloc, howner⟩ := hinv
  unfold ProcTable.reap
  constructor
  all_goals
    simp only [goto_proc, goto_initproc, goto_nextpid, goto_pc, set_proc, set_initproc, set_nextpid, set_pc]
    grind

theorem Inv.exitZombie (hinv : Inv t h) {p : Slot} (hpc : t.pc p = .leaving) (hexit : Exited t p t') :
    Inv (t'.goto p .kernel) h := by
  have hne : p ≠ t.initproc := hinv.mortal p (.inr hpc)
  have hlife : ∀ q, q ≠ p → (t'.proc q).life = (t.proc q).life := fun q hq => hexit.life_of_ne hq
  have hpid := hexit.pid_eq
  have hparent : ∀ q, (t'.proc q).parent =
      if (t.proc q).parent = some p then some t.initproc else (t.proc q).parent := fun q => by
    rw [hexit.parent_eq, handOver]
    split <;> rfl
  have halive : (t.proc p).life = .alive := hinv.busy p (by simp [hpc])
  have hzombie := hexit.life
  obtain ⟨hpos, hlt, hinj, horphan, hinit, hone, hfamily, hbusy, hmortal, hembryo, halloc, howner⟩ := hinv
  constructor
  all_goals
    simp only [goto_proc, goto_initproc, goto_nextpid, goto_pc, hexit.initproc, hexit.nextpid, hexit.pc]
    grind

theorem Inv.exit (hinv : Inv t h) {p : Slot} (hrun : (t.proc p).state = .running) (hinit : p ≠ t.initproc)
    (status : Int) : Inv ((t.set p { t.proc p with exitStatus := status }).goto p .exiting) h := by
  have hset : Inv (t.set p { t.proc p with exitStatus := status }) h := by
    exact hinv.frame (fun q => set_field Proc.life q rfl) (fun q => set_field Proc.pid q rfl) (fun q => set_field Proc.parent q rfl) rfl rfl fun q => .inl rfl
  exact hset.move (by simpa [Proc.life] using life_of_running hrun) rfl fun _ => hinit

theorem Inv.step {a : Act} {es : List Event} (hinv : Inv t h) (hstep : Step t a t' es) : Inv t' (h ++ es) := by
  cases hstep with
  | noSlot => exact hinv.mono _
  | forkAlloc hrun hpc hnp => exact (hinv.forkAlloc hrun hnp).mono _
  | forkFail hrun hpc => exact (hinv.forkFail hpc).mono _
  | forkFill hrun hpc => exact hinv.forkFill hrun hpc
  | forkRun hrun hpc => exact (hinv.forkRun hpc).mono _
  | exit hrun hpc hinit => exact (hinv.exit hrun hinit _).mono _
  | @exitClose p hrun hpc =>
    have hset : Inv (t.set p { t.proc p with job := 0 }) h := hinv.quiet (quiet_job t p 0) rfl
    exact (hset.move (by simpa [Proc.life] using life_of_running hrun) rfl fun _ => hinv.mortal p (.inl hpc)).mono _
  | exitZombie hrun hpc => exact (hinv.exitZombie hpc (exited_becomeZombie t _)).mono _
  | waitCall hrun hpc => exact (hinv.move (life_of_running hrun) rfl (by simp)).mono _
  | waited hrun hpc hq hzombie => exact (hinv.reap hzombie).mono _
  | failed hrun hpc hwhy => exact (hinv.move (life_of_running hrun) rfl (by simp)).mono _
  | slept hrun | yield hrun | sleep hrun | schedule hrun => exact (hinv.quiet (by simp [hrun]) (by rfl)).mono _
  | fault | kill | attachjob => exact (hinv.quiet (by simp) (by simp)).mono _
  | wakeup => exact (hinv.quiet (by simp) (by rfl)).mono _

/-! ### Reachable tables -/

/-- The table `userinit` leaves: init is at slot 0, and nothing else is there. -/
def firstTable : Table :=
  { zeroTable.set 0 ⟨.runnable, 1, none, none, false, 0, 0⟩ with initproc := 0, nextpid := 2 }

theorem userinit_zeroTable : userinit zeroTable = some firstTable := by
  have hfind : slots.find? (fun p => (zeroTable.proc p).state = .unused) = some 0 := by decide
  simp only [userinit, allocproc, hfind, Option.map_some, firstTable]
  simp [Table.set, zeroTable, Function.update_idem]

theorem firstTable_proc (q : Slot) : firstTable.proc q =
    if q = 0 then ⟨.runnable, 1, none, none, false, 0, 0⟩ else ⟨.unused, 0, none, none, false, 0, 0⟩ :=
  Function.update_apply ..

theorem inv_firstTable : Inv firstTable [] := by
  have hinit : firstTable.initproc = 0 := rfl
  have hpc : ∀ q, firstTable.pc q = .kernel := fun q => rfl
  have hnext : firstTable.nextpid = 2 := rfl
  constructor
  all_goals
    simp only [firstTable_proc, hinit, hpc, hnext, Pc.child]
    grind [Proc.life]

theorem kernel_step {s s' : Table × List Event} {a : Act} (h : kernel.step s a = .next s') :
    ∃ es, Step s.1 a s'.1 es ∧ s'.2 = s.2 ++ es := by
  simp only [kernel] at h
  split at h
  · obtain rfl := Outcome.next.inj h
    exact ⟨_, step_cases ‹_›, rfl⟩
  · cases h
  · cases h

theorem inv_run {as : List Act} {s : Table × List Event} (h : kernel.Run as s) : Inv s.1 s.2 := by
  refine h.invariant (I := fun _ s => Inv s.1 s.2) ?_ ?_
  · rintro ⟨t, es⟩ ⟨ht, rfl⟩
    obtain rfl : firstTable = t := by simpa [userinit_zeroTable] using ht
    exact inv_firstTable
  · intro as s a s' hinv ha
    obtain ⟨es, hstep, hes⟩ := kernel_step ha
    rw [hes]
    exact hinv.step hstep

/-- In every table reached from `userinit`, processes have distinct pids below `nextpid`, unused slots have
no parent, and the parent of a process is alive and is the process that forked it or init. -/
theorem process_table_invariant (as : List Act) (t : Table) (h : List Event) (hrun : kernel.Run as (t, h)) :
    (∀ p, (t.proc p).state ≠ .unused → 1 ≤ (t.proc p).pid ∧ (t.proc p).pid < t.nextpid) ∧
    (∀ p q, p ≠ q → (t.proc p).state ≠ .unused → (t.proc q).state ≠ .unused → (t.proc p).pid ≠ (t.proc q).pid) ∧
    (∀ p, (t.proc p).state = .unused → (t.proc p).parent = none) ∧
    ∀ p r, p ≠ t.initproc → (t.proc p).state ≠ .unused → (t.proc p).parent = some r →
      ((t.proc r).state ≠ .unused ∧ (t.proc r).state ≠ .embryo ∧ (t.proc r).state ≠ .zombie) ∧
      (r = t.initproc ∨ .forked (t.proc r).pid (t.proc p).pid ∈ h) := by
  have hinv : Inv t h := inv_run hrun
  have hused : ∀ {p}, (t.proc p).state ≠ .unused → (t.proc p).life ≠ .unused := fun hp =>
    fun hlife => hp (life_eq_unused.mp hlife)
  refine ⟨fun p hp => ⟨hinv.pidPos p (hused hp), hinv.pidLt p (hused hp)⟩, fun p q hpq hp hq hpid => ?_,
    fun p hp => hinv.orphan p (life_eq_unused.mpr hp), fun p r _ _ hr => ?_⟩
  · exact hpq (hinv.pidInj p q (hused hp) (hused hq) hpid)
  · obtain ⟨halive, hforked⟩ := hinv.parent p r hr
    exact ⟨life_eq_alive.mp halive, hforked⟩

theorem run_firstTable : kernel.Run [] (firstTable, []) := .start ⟨userinit_zeroTable, rfl⟩

/-- Init forks once: the child in slot 1 has the pid 2, and its parent is alive. -/
theorem process_table_invariant_fork : ∃ t h, kernel.Run
      [.schedule 0, .own 0 .forkAlloc, .own 0 .forkFill, .own 0 .forkRun] (t, h) ∧
    (t.proc 1).parent = some 0 ∧ (t.proc 0).state ≠ .zombie ∧ (t.proc 1).pid < t.nextpid := by
  have hexec : ((kernel.exec (firstTable, [])
      [.schedule 0, .own 0 .forkAlloc, .own 0 .forkFill, .own 0 .forkRun]).map fun s =>
        ((s.1.proc 1).parent, (s.1.proc 1).state, s.1.initproc)) = some (some 0, .runnable, 0) := by decide
  obtain ⟨⟨t, h⟩, hs, hchild⟩ := Option.map_eq_some_iff.mp hexec
  obtain ⟨hparent, hstate, hinit⟩ : (t.proc 1).parent = some 0 ∧ (t.proc 1).state = .runnable ∧ t.initproc = 0 := by
    simpa using hchild
  obtain ⟨hpids, -, -, hparents⟩ := process_table_invariant _ t h (run_firstTable.exec hs)
  exact ⟨t, h, run_firstTable.exec hs, hparent, (hparents 1 0 (by simp [hinit]) (by simp [hstate]) hparent).1.2.2,
    (hpids 1 (by simp [hstate])).2⟩

end Xv6.ProcTable
