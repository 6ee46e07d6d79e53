import Xv6.Sched.Reap

/-!
# Every run of the processors

The two invariants hold in every state of every run, for any number of processors, and the table is one that
`ProcTable.kernel` reaches. What the steps of `kernel` keep therefore also holds of the processes when their
critical sections are interleaved, as far as it is about the states in which the lock is free.
-/

namespace Xv6.Sched

open Lib ProcTable

variable {κ : Type} {m : Machine κ}

variable {p : Slot} {ph : Phase} {c : κ}

theorem Sound.setCpu [DecidableEq κ] (hsound : Sound m) {v : Cpu} {l : Option κ}
    (hex : Exclusive ({ m with lock := l }.setCpu c v)) : Sound ({ m with lock := l }.setCpu c v) :=
  ⟨hex, hsound.backed.cpu l _, hsound.reached⟩

theorem Sound.enter [DecidableEq κ] (hsound : Sound m) {k : Caller} (hplace : (m.cpu c).place = .loaded p)
    (hphase : m.phase p = .off k) :
    Sound (({ m with table := m.table.set p { m.table.proc p with state := .running } }.setPhase p (.on k)).setCpu c
      { m.cpu c with place := .running p, stack := m.kstack p }) := by
  obtain ⟨hex, hbacked, hreached⟩ := hsound
  obtain ⟨h, hinv⟩ := hreached.inv
  have hrunnable : (m.table.proc p).state = .runnable := by
    have hfits := hex.cpu c
    simp only [Machine.Fits, hplace] at hfits
    exact hfits.2.2.2
  refine ⟨hex.enter hplace, ?_, hreached.schedule hrunnable⟩
  refine hbacked.phase hinv (t := m.table.set p { m.table.proc p with state := .running }) (p := p) ?_ rfl ?_ ?_ m.lock _
  · exact quiet_set ⟨by simp [Proc.life, hrunnable], rfl, rfl, rfl⟩
  · simp [Proc.life, hrunnable]
  · rw [hphase]
    exact ⟨rfl, rfl⟩

/-- A process that has a processor changes nothing but its phase and the lock. -/
theorem Sound.phase (hsound : Sound m) {l : Option κ} {f : κ → Cpu}
    (hon : (m.phase p).isOff = false) (hph : (m.phase p).reaps = none ∧ ph.reaps = none)
    (hex : Exclusive ({ m with lock := l, cpu := f }.setPhase p ph)) :
    Sound ({ m with lock := l, cpu := f }.setPhase p ph) := by
  obtain ⟨h, hinv⟩ := hsound.reached.inv
  exact ⟨hex, hsound.backed.phase hinv (quiet_refl m.table) rfl (hsound.exclusive.aliveOf hon).1 hph l f, hsound.reached⟩

theorem Sound.tidy (hsound : Sound m) {k : Caller}
    (hplace : (m.cpu c).place = .running p) (hphase : m.phase p = .on k) (hph : ph = .done ∨ ph = .held) :
    Sound ({ m with table := m.table.set p { m.table.proc p with chan := none } }.setPhase p ph) := by
  obtain ⟨hex, hbacked, hreached⟩ := hsound
  obtain ⟨h, hinv⟩ := hreached.inv
  have hrun : (m.table.proc p).state = .running := hex.fits hphase
  have hfits : ph.Fits .running ∧ ph.isOff = false ∧ ph.locked = true ∧ ph.reaps = none := by
    rcases hph with rfl | rfl <;> exact ⟨rfl, rfl, rfl, rfl⟩
  refine ⟨?_, ?_, hreached.tidy hrun⟩
  · refine hex.move (l := m.lock) hplace ?_ (fun q hq => by simp [hq]) ⟨hfits.1, hfits.2.1⟩ (.inl ⟨rfl, ?_⟩)
    · simpa using hrun
    · rw [hphase]
      exact hfits.2.2.1
  · refine hbacked.phase hinv (t := m.table.set p { m.table.proc p with chan := none }) (p := p)
      (quiet_set ⟨rfl, rfl, rfl, rfl⟩) rfl ?_ ?_ m.lock m.cpu
    · simp [Proc.life, hrun]
    · rw [hphase]
      exact ⟨rfl, hfits.2.2.2⟩

theorem Sound.freeStack (hsound : Sound m) {p q : Slot} {a : Page} (hplace : (m.cpu c).place = .running p)
    (hphase : m.phase p = .reap q) (hkstack : m.kstack q = some a) :
    Sound ({ m with
      page := Function.update m.page a none
      kstack := Function.update m.kstack q none }.setPhase p (.reapVm q)) := by
  have hreaps : (m.phase p).reaps = some q := by rw [hphase]; rfl
  obtain ⟨⟨a', ha', hstack⟩, hmapped⟩ := hsound.unfreed hphase
  obtain rfl : a' = a := by simpa [hkstack] using ha'.symm
  exact hsound.free hplace hreaps rfl (.inl hstack) (fun r hr => Function.update_of_ne hr ..) (.inl rfl)
    (.inl ⟨hstack, hmapped⟩)

theorem Sound.freeDir (hsound : Sound m) {p q : Slot} {d : Page} (hplace : (m.cpu c).place = .running p)
    (hphase : m.phase p = .reapVm q) (hpgdir : m.pgdir q = some d) :
    Sound ({ m with page := Function.update m.page d none }.setPhase p (.reaped q)) := by
  have hreaps : (m.phase p).reaps = some q := by rw [hphase]; rfl
  obtain ⟨d', hd', hdir⟩ := hsound.unfreedDir (.inr hphase)
  obtain rfl : d' = d := by simpa [hpgdir] using hd'.symm
  exact hsound.free hplace hreaps rfl (.inr hdir) (fun _ _ => rfl) (.inr rfl) (.inr rfl)

/-! ### Steps -/

/-- A step that leads anywhere leads to a state that is sound again. -/
abbrev Stays (o : Outcome Panic (Machine κ)) : Prop := o.Meets Sound fun _ => True

theorem onTable_stays {a : Act}
    (h : ∀ {t es}, step m.table a = .next (t, es) → Sound ({ m with table := t }.setPhase p ph)) : Stays (onTable m a p ph) := by
  unfold onTable
  split
  · exact h ‹_›
  · trivial
  · trivial

section Step

variable {c : κ} {p : Slot} (hsound : Sound m)

include hsound

theorem Sound.scheduler [DecidableEq κ] (c : κ) : Stays (scheduler m c) := by
  have hex := hsound.exclusive
  unfold Sched.scheduler
  dsimp only
  split
  · exact .ite (fun hlock => hsound.setCpu (hex.acquire ‹_› hlock)) fun _ => trivial
  · rename_i hplace
    split
    · exact .ite (fun _ => hsound.setCpu (l := m.lock) (hex.skip hplace)) fun hrunnable =>
        hsound.setCpu (l := m.lock) (hex.pick hplace (not_not.mp hrunnable))
    · exact hsound.setCpu (hex.endLoop hplace)
  · split
    · trivial
    · exact hsound.setCpu (l := m.lock) (hex.load ‹_› ‹_›)
  · split
    · exact hsound.enter ‹_› ‹_›
    · trivial
  · trivial
  · exact hsound.setCpu (l := m.lock) (hex.unload ‹_›)
  · exact hsound.setCpu (l := m.lock) (hex.clear ‹_›)

variable (hplace : (m.cpu c).place = .running p)

include hplace

theorem Sound.forkFails (hphase : m.phase p = .free) : Stays (Sched.forkFail m p) := by
  unfold Sched.forkFail
  split
  · rename_i hpc hstage
    exact onTable_stays fun hstep =>
      hsound.forkFail hplace hphase hpc hstep (fun _ _ => rfl) (fun _ _ _ _ _ => rfl) (fun _ _ => rfl) hstage
  · rename_i np hpc hstage
    split
    · trivial
    · rename_i a hkstack
      obtain ⟨⟨a', ha', hstack⟩, -⟩ := hsound.backed.stack p np hpc (by simp [hstage])
      obtain rfl : a' = a := by simpa [hkstack] using ha'.symm
      refine onTable_stays fun hstep => hsound.forkFail hplace hphase hpc hstep (fun q hq => Function.update_of_ne hq ..)
        (fun b v hb hv _ => Function.update_of_ne ?_ ..) (fun q hq => Function.update_of_ne hq ..) (Function.update_self ..)
      rintro rfl
      exact hv (by simpa [hb] using hstack)
  · trivial

theorem Sound.withoutLock (hphase : m.phase p = .free) (a : Own) : Stays (Sched.unlocked m p a) := by
  have hown : ∀ {a : Act}, Unlocked p a → Stays (onTable m a p .free) := fun ha =>
    onTable_stays (hsound.unlocked hplace hphase ha)
  cases a with
  | forkFail => exact hsound.forkFails hplace hphase
  | forkFill =>
    refine .ite (fun hstage => ?_) fun _ => trivial
    obtain ⟨np, hpc⟩ := hsound.backed.stage p (by simp [hstage])
    exact onTable_stays (hsound.fill hplace hphase hpc hstage)
  | exit status => exact hown .exit
  | exitClose => exact hown .exitClose
  | waitCall childPid status => exact hown .waitCall
  | fault => exact hown .fault
  | forkAlloc | forkRun | exitZombie | waitRound | yield | sleep => trivial

theorem Sound.withLock (hphase : m.phase p = .held) (a : Own) : Stays (Sched.locked m p a) := by
  have hown : ∀ {a : Act} {ph : Phase}, Locked m.table p a ph → Stays (onTable m a p ph) := fun ha =>
    onTable_stays (hsound.locked hplace hphase ha)
  cases a with
  | forkAlloc => exact hown .forkAlloc
  | forkRun => exact hown .forkRun
  | exitZombie => exact hown .exitZombie
  | yield => exact hown .yield
  | sleep addr => exact hown .sleep
  | waitRound =>
    simp only [Sched.locked, waitRound]
    split
    · rename_i childPid status hpc
      split
      · rename_i q hscan
        split
        · obtain rfl : status = true := ‹_›
          exact hsound.found hplace hphase hpc hscan
        · exact hown (.waitFail hpc (.inl ⟨q, hscan, by simpa using ‹¬status = true›⟩))
      · split
        · exact hown (.waitFail hpc (.inr ⟨_, ‹_›, ‹_›⟩))
        · exact hown (.waitSleep hpc ‹_› (Bool.eq_false_iff.mpr ‹_›))
    · trivial
  | forkFail | forkFill | exit | exitClose | waitCall | fault => trivial

theorem Sound.process [DecidableEq κ] (cmd : Cmd) : Stays (process m c p (m.phase p) cmd) := by
  have hex := hsound.exclusive
  have hrunning : ∀ {ph}, m.phase p = ph → (ph.Fits (m.table.proc p).state) := fun hphase => hphase ▸ hex.slot p
  cases hphase : m.phase p with
  | free =>
    cases cmd with
    | acquire =>
      refine .ite (fun hlock => ?_) fun _ => trivial
      refine hsound.phase (f := m.cpu) (by rw [hphase]; rfl) (by rw [hphase]; exact ⟨rfl, rfl⟩) ?_
      exact hex.move hplace (hrunning hphase) (fun _ _ => rfl) ⟨rfl, rfl⟩ (.inr (.inl ⟨hlock, rfl, rfl⟩))
    | own a => exact hsound.withoutLock hplace hphase a
    | kalloc a =>
      simp only [Sched.process, kalloc]
      split
      · exact hsound.allocStack hplace hphase ‹_› ‹_›
      · exact hsound.allocDir hplace hphase ‹_› ‹_› ‹_›
      · trivial
    | next | kill | attachjob | wakeup => trivial
  | held =>
    have hown : ∀ {a : Act}, Locked m.table p a .done → Stays (onTable m a p .done) := fun ha =>
      onTable_stays (hsound.locked hplace hphase ha)
    cases cmd with
    | own a => exact hsound.withLock hplace hphase a
    | kill pid => exact hown .kill
    | attachjob pid job => exact hown .attachjob
    | wakeup addr => exact hown .wakeup
    | next | acquire | kalloc => trivial
  | reap q =>
    cases cmd with
    | next =>
      simp only [Sched.process, reapStack]
      split
      · trivial
      · exact hsound.freeStack hplace hphase ‹_›
    | _ => trivial
  | reapVm q =>
    cases cmd with
    | next =>
      simp only [Sched.process, reapVm]
      split
      · trivial
      · exact hsound.freeDir hplace hphase ‹_›
    | _ => trivial
  | reaped q =>
    cases cmd with
    | next => exact onTable_stays (hsound.reaped hplace hphase)
    | _ => trivial
  | done =>
    cases cmd with
    | next =>
      refine hsound.phase (f := m.cpu) (by rw [hphase]; rfl) (by rw [hphase]; exact ⟨rfl, rfl⟩) ?_
      exact hex.move hplace (hrunning hphase) (fun _ _ => rfl) ⟨rfl, rfl⟩ (.inr (.inr ⟨by rw [hphase]; rfl, rfl, rfl⟩))
    | _ => trivial
  | sched k =>
    cases cmd with
    | next =>
      refine .ite (fun _ => trivial) fun _ => .ite (fun _ => trivial) fun _ => ?_
      exact hsound.phase (l := m.lock) (by rw [hphase]; rfl) (by rw [hphase]; exact ⟨rfl, rfl⟩) (hex.leave hplace hphase)
    | _ => trivial
  | off k => cases cmd <;> trivial
  | on k =>
    cases cmd with
    | next =>
      cases k with
      | forkret | yield =>
        refine hsound.phase (l := m.lock) (f := m.cpu) (by rw [hphase]; rfl) (by rw [hphase]; exact ⟨rfl, rfl⟩) ?_
        exact hex.move (l := m.lock) hplace (hrunning hphase) (fun _ _ => rfl) ⟨rfl, rfl⟩ (.inl ⟨rfl, by rw [hphase]; rfl⟩)
      | sleep => exact hsound.tidy hplace hphase (.inl rfl)
      | waitpid => exact hsound.tidy hplace hphase (.inr rfl)
      | exit => trivial
    | _ => trivial

end Step

theorem Sound.step [DecidableEq κ] (hsound : Sound m) (a : MachineAct κ) : Stays (machineStep m a) := by
  cases a with
  | cpu c cmd =>
    simp only [machineStep]
    split
    · exact hsound.process ‹_› cmd
    · exact hsound.scheduler c
  | interrupt addr => exact .ite (fun hlock => hsound.interrupt hlock addr) fun _ => trivial

theorem sound_start (hstart : m.start) : Sound m := by
  obtain ⟨htable, hlock, hcpu, hphase, a, d, had, hkstack, hpgdir, hstack, hdir⟩ := hstart
  have hfirst : firstTable = m.table := by simpa [userinit_zeroTable] using htable
  have hinit : m.table.initproc = 0 := by rw [← hfirst]; rfl
  have hpc : ∀ q, m.table.pc q = .kernel := fun q => by rw [← hfirst]; rfl
  have hstate : ∀ q, (m.table.proc q).state = if q = 0 then .runnable else .unused := by
    intro q
    rw [← hfirst, firstTable_proc]
    split <;> rfl
  have hplace : ∀ c, (m.cpu c).place = .idle := fun c => by
    obtain ⟨i, hi⟩ := hcpu c
    rw [hi]
  rw [hinit] at hkstack hpgdir hstack hdir
  refine ⟨⟨fun c => ?_, fun q => ?_, fun c _ q hc => ?_, fun c => ?_, fun q hq => ?_⟩,
    ⟨fun q hq => ?_, fun q hq => ?_, fun q hq => ?_, fun q r hr => ?_, fun q np hq => ?_, fun q np hq => ?_, fun q np hq => ?_,
      fun q hq => absurd (hphase q).2 hq⟩, ?_⟩
  · obtain ⟨i, hi⟩ := hcpu c
    simp [Machine.Fits, hi]
  · rw [(hphase q).1, hstate q]
    split <;> simp [Phase.Fits]
  · simp [hplace, Place.slot?] at hc
  · simp [hlock, Machine.holds, hplace]
  · rw [(hphase q).1] at hq
    cases hq
  · by_cases hq0 : q = 0
    · subst hq0
      exact ⟨⟨a, hkstack, hstack⟩, ⟨d, hpgdir, hdir⟩⟩
    · simp [Proc.life, hstate, hq0] at hq
  · rw [life_eq_zombie, hstate] at hq
    split at hq <;> cases hq
  · rw [life_eq_zombie, hstate] at hq
    split at hq <;> cases hq
  · rw [(hphase q).1] at hr
    cases hr
  · rw [hpc] at hq
    cases hq
  · rw [hpc] at hq
    cases hq
  · rw [hpc] at hq
    cases hq
  · rw [← hfirst]
    exact ⟨[], firstTable, [], run_firstTable, .refl _⟩

theorem sound_run [DecidableEq κ] {as : List (MachineAct κ)} (hrun : (machine κ).Run as m) : Sound m :=
  hrun.invariant (I := fun _ m => Sound m) (fun _ => sound_start) fun _ m a m' hsound hstep => by
    have hstays := hsound.step a
    rwa [show machineStep m a = .next m' from hstep] at hstays

/-- Two processors after `userinit`, with the first two pages in use. -/
def firstMachine : Machine (Fin 2) where
  table := firstTable
  lock := none
  cpu _ := ⟨.idle, 0, none, none, none⟩
  phase _ := .off .forkret
  stage _ := .start
  kstack p := if p = 0 then some 0 else none
  pgdir p := if p = 0 then some 1 else none
  page a := if a = 0 then some (.kstack 0) else if a = 1 then some (.pgdir 0) else none

theorem run_firstMachine : (machine (Fin 2)).Run [] firstMachine :=
  .start ⟨userinit_zeroTable, rfl, fun _ => ⟨0, rfl⟩, fun _ => ⟨rfl, rfl⟩, 0, 1, by decide, rfl, rfl, rfl, rfl⟩

/-- Processor 0 switches to init, which then forks a child with the pages `a` and `d`. -/
def switchToInit : List (MachineAct (Fin 2)) := List.replicate 6 (.cpu 0 .next)

def forkWith (a d : Page) : List (MachineAct (Fin 2)) :=
  [.cpu 0 .acquire, .cpu 0 (.own .forkAlloc), .cpu 0 .next, .cpu 0 (.kalloc a), .cpu 0 (.kalloc d),
    .cpu 0 (.own .forkFill), .cpu 0 .acquire, .cpu 0 (.own .forkRun), .cpu 0 .next]

/-! ### Sleeping in `waitpid` -/

/-- A process asleep on its own slot is in `waitpid`, and there it is not marked killed, has a child it waits
for, and none of these is a zombie. Nobody sleeps on another's slot. -/
theorem no_lost_wakeup (κ : Type) [DecidableEq κ] (as : List (MachineAct κ)) (m : Machine κ)
    (hrun : (machine κ).Run as m) (p : Slot) (hsleeping : (m.table.proc p).state = .sleeping) :
    (∀ r, (m.table.proc p).chan = some (.slot r) → r = p ∧ ∃ c status, m.table.pc p = .waiting c status) ∧
    ∀ c status, m.table.pc p = .waiting c status →
      (m.table.proc p).chan = some (.slot p) ∧ (m.table.proc p).killed = false ∧ (∃ q, Matches m.table p c q) ∧
      ∀ q, Matches m.table p c q → (m.table.proc q).state ≠ .zombie := by
  have hasleep := (sound_run hrun).reached.asleep
  refine ⟨fun r hr => hasleep.slot p r hsleeping hr, fun c status hpc => ?_⟩
  obtain ⟨hchan, halive, hkid, hnone⟩ := hasleep.waits p c status hsleeping hpc
  exact ⟨hchan, halive, hkid, hnone⟩

/-- Init forks a child and waits for it; its processor goes on to run the child. -/
theorem no_lost_wakeup_init : ∃ as m, (machine (Fin 2)).Run as m ∧ m.lock = none ∧
    (m.table.proc 0).state = .sleeping ∧ (m.table.proc 0).chan = some (.slot 0) ∧ ∃ q, Matches m.table 0 (-1) q := by
  have hexec : (((machine (Fin 2)).exec firstMachine (switchToInit ++ forkWith 2 3 ++
      [.cpu 0 (.own (.waitCall (-1) true)), .cpu 0 .acquire, .cpu 0 (.own .waitRound)] ++
      List.replicate 8 (.cpu 0 .next))).map fun m => (m.lock, (m.table.proc 0).state, m.table.pc 0)) =
      some (none, .sleeping, .waiting (-1) true) := by decide +kernel
  obtain ⟨m, hm, hinit⟩ := Option.map_eq_some_iff.mp hexec
  obtain ⟨hlock, hsleeping, hpc⟩ : m.lock = none ∧ (m.table.proc 0).state = .sleeping ∧
    m.table.pc 0 = .waiting (-1) true := by simpa using hinit
  have hrun := run_firstMachine.exec hm
  obtain ⟨hchan, -, hkid, -⟩ := (no_lost_wakeup (Fin 2) _ m hrun 0 hsleeping).2 _ _ hpc
  exact ⟨_, m, hrun, hlock, hsleeping, hchan, hkid⟩

/-! ### Running and reaping -/

theorem Exclusive.proc (hex : Exclusive m) (c : κ) : (m.cpu c).proc = (m.cpu c).place.slot? := by
  have hfits := hex.cpu c
  unfold Machine.Fits at hfits
  dsimp only at hfits
  split at hfits
  all_goals
    rename_i hplace
    rw [hplace, hfits.1]
    rfl

/-- While `ptable.lock` is free the running slots are the current processes of the processors, each of one.
No process is ever the current one of two processors, and a stack or page directory that `waitpid` is about to
free is there and in use by no processor. -/
theorem scheduling_exclusivity (κ : Type) [DecidableEq κ] (as : List (MachineAct κ)) (m : Machine κ)
    (hrun : (machine κ).Run as m) :
    (m.lock = none → (∀ p, (m.table.proc p).state = .running → ∃! c, (m.cpu c).proc = some p) ∧
      ∀ c p, (m.cpu c).proc = some p → (m.table.proc p).state = .running) ∧
    (∀ c d p, (m.cpu c).proc = some p → (m.cpu d).proc = some p → c = d) ∧
    (∀ p q, m.phase p = .reap q → ∃ a, m.kstack q = some a ∧ ∀ c, (m.cpu c).stack ≠ some a) ∧
    (∀ p q, m.phase p = .reap q ∨ m.phase p = .reapVm q → ∃ d, m.pgdir q = some d ∧ ∀ c, (m.cpu c).cr3 ≠ some d) := by
  have hsound := sound_run hrun
  have hex := hsound.exclusive
  have hunique : ∀ c d p, (m.cpu c).proc = some p → (m.cpu d).proc = some p → c = d := fun c d p hc hd =>
    hex.unique c d p (hex.proc c ▸ hc) (hex.proc d ▸ hd)
  refine ⟨fun hlock => ⟨fun p hp => ?_, fun c p hc => ?_⟩, hunique, fun p q hphase => ?_, fun p q hphase => ?_⟩
  · have hon : (m.phase p).isOff = false := by
      have hfits := hex.slot p
      rw [hp] at hfits
      cases hphase : m.phase p <;> simp_all [Phase.isOff, Phase.Fits]
    obtain ⟨c, hc⟩ := hex.onCpu p hon
    have hproc : (m.cpu c).proc = some p := by rw [hex.proc c, hc]; rfl
    exact ⟨c, hproc, fun d hd => hunique d c p hd hproc⟩
  · exact (hex.without (by simp [hlock]) (hex.proc c ▸ hc)).2.2
  · have hreaps : (m.phase p).reaps = some q := by rw [hphase]; rfl
    obtain ⟨c, hc⟩ := hex.onCpu p (by rw [hphase]; rfl)
    obtain ⟨⟨a, ha, hstack⟩, -⟩ := hsound.unfreed hphase
    exact ⟨a, ha, fun d => (hsound.notUsed hc hreaps d).1 a hstack⟩
  · have hreaps : (m.phase p).reaps = some q := by rcases hphase with hphase | hphase <;> rw [hphase] <;> rfl
    obtain ⟨c, hc⟩ := hex.onCpu p (by rcases hphase with hphase | hphase <;> rw [hphase] <;> rfl)
    obtain ⟨d, hd, hdir⟩ := hsound.unfreedDir hphase
    exact ⟨d, hd, fun e => (hsound.notUsed hc hreaps e).2 d hdir⟩

/-- Processor 1 runs the first of init's two children until it exits and goes on to the second, while init, on
processor 0, starts to free the first. -/
theorem scheduling_exclusivity_two : ∃ as m, (machine (Fin 2)).Run as m ∧ m.phase 0 = .reap 1 ∧
    (m.cpu 1).proc = some 2 ∧ ∃ a, m.kstack 1 = some a ∧ ∀ c, (m.cpu c).stack ≠ some a := by
  have hexec : (((machine (Fin 2)).exec firstMachine (switchToInit ++ forkWith 2 3 ++ forkWith 4 5 ++
      List.replicate 7 (.cpu 1 .next) ++
      [.cpu 1 (.own (.exit 7)), .cpu 1 (.own .exitClose), .cpu 1 .acquire, .cpu 1 (.own .exitZombie)] ++
      List.replicate 8 (.cpu 1 .next) ++
      [.cpu 0 (.own (.waitCall (-1) true)), .cpu 0 .acquire, .cpu 0 (.own .waitRound)])).map fun m =>
        (m.phase 0, (m.cpu 1).proc)) = some (.reap 1, some 2) := by decide +kernel
  obtain ⟨m, hm, hreap⟩ := Option.map_eq_some_iff.mp hexec
  obtain ⟨hphase, hproc⟩ : m.phase 0 = .reap 1 ∧ (m.cpu 1).proc = some 2 := by simpa using hreap
  have hrun := run_firstMachine.exec hm
  exact ⟨_, m, hrun, hphase, hproc, (scheduling_exclusivity (Fin 2) _ m hrun).2.2.1 0 1 hphase⟩

end Xv6.Sched
