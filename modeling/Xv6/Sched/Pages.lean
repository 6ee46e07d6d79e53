import Xv6.Sched.Exclusive

/-!
# Kernel stacks and page directories

A process that lives has a kernel stack and a page directory of its own, from `fork` to the `waitpid` that
returns it, and so does a zombie until the lock's holder frees them.
-/

namespace Xv6.Sched

open Lib ProcTable

variable {κ : Type} {m m' : Machine κ} {h : List Event}

/-! ### What a step with the lock does to the states -/

theorem turns_of_roused {t t' : Table} (hroused : Roused t t') (p q : Slot) : Turns t t' p q :=
  (hroused.state q).elim .inl fun hq => .inr (.inl hq)

theorem kill_state (t : Table) (pid : Int) (q : Slot) : ((kill t pid).proc q).state = (t.proc q).state ∨
    (t.proc q).state = .sleeping ∧ ((kill t pid).proc q).state = .runnable := by
  unfold kill
  split
  · rw [set_proc]
    split
    · subst q
      dsimp only
      split
      · exact .inr ⟨‹_›, rfl⟩
      · exact .inl rfl
    · exact .inl rfl
  · exact .inl rfl

theorem attachjob_state (t : Table) (pid : Int) (job : Nat) (q : Slot) :
    ((attachjob t pid job).proc q).state = (t.proc q).state := by
  unfold attachjob
  split
  · exact set_field Proc.state q rfl
  · rfl

theorem becomeZombie_roused (t : Table) (p q : Slot) (hq : q ≠ p) :
    ((becomeZombie t p).proc q).state = (t.proc q).state ∨
    (t.proc q).state = .sleeping ∧ ((becomeZombie t p).proc q).state = .runnable := by
  have hproc : (becomeZombie t p).proc q =
      (passChildren (wakeup1 t ((t.proc p).parent.map .slot)) p).proc q := set_of_ne _ hq _
  rw [hproc]
  exact ((roused_wakeup1 t _).trans (roused_passChildren _ p)).state q

/-- The steps a process takes on the table with the lock, and where they leave it. -/
inductive Locked (t : Table) (p : Slot) : Act → Phase → Prop where
  | forkAlloc : Locked t p (.own p .forkAlloc) .done
  | forkRun : Locked t p (.own p .forkRun) .done
  | exitZombie : Locked t p (.own p .exitZombie) (.sched .exit)
  | yield : Locked t p (.own p .yield) (.sched .yield)
  | sleep {addr : Nat} : Locked t p (.own p (.sleep addr)) (.sched .sleep)
  | waitFail {c : Int} {status : Bool} (hpc : t.pc p = .waiting c status)
      (hfail : (∃ q, scan t p c false slots = .zombie q ∧ status = false) ∨
        ∃ b, scan t p c false slots = .done b ∧ (!b || (t.proc p).killed) = true) :
      Locked t p (.own p .waitRound) .done
  | waitSleep {c : Int} {status b : Bool} (hpc : t.pc p = .waiting c status)
      (hscan : scan t p c false slots = .done b) (hsleep : (!b || (t.proc p).killed) = false) :
      Locked t p (.own p .waitRound) (.sched .waitpid)
  | kill {pid : Int} : Locked t p (.kill pid) .done
  | attachjob {pid : Int} {job : Nat} : Locked t p (.attachjob pid job) .done
  | wakeup {addr : Nat} : Locked t p (.wakeup addr) .done

/-- The steps without the lock that concern the process alone. -/
inductive Unlocked (p : Slot) : Act → Prop where
  | exit {status : Int} : Unlocked p (.own p (.exit status))
  | exitClose : Unlocked p (.own p .exitClose)
  | waitCall {c : Int} {status : Bool} : Unlocked p (.own p (.waitCall c status))
  | fault : Unlocked p (.own p .fault)

theorem locked_turns {t t' : Table} {p : Slot} {a : Act} {es : List Event} {ph : Phase} (hinv : Inv t h)
    (ha : Locked t p a ph) (hrun : (t.proc p).state = .running) (hstep : step t a = .next (t', es)) :
    (ph.Fits (t'.proc p).state ∧ ph.isOff = false ∧ ph.locked = true) ∧ ∀ q, q ≠ p → Turns t t' p q := by
  have hwait : ∀ {c : Int} {status : Bool}, t.pc p = .waiting c status → a = .own p .waitRound →
      waitpid t p c status = (t', es) := by
    rintro c status hpc rfl
    rw [step, if_pos hrun, hpc] at hstep
    exact Outcome.next.inj hstep
  cases ha with
  | forkAlloc =>
    cases step_cases hstep with
    | noSlot => exact ⟨⟨hrun, rfl, rfl⟩, fun q _ => .inl rfl⟩
    | @forkAlloc _ np _ _ hnp =>
      have hne : p ≠ np := by
        rintro rfl
        rw [hrun] at hnp
        cases hnp
      refine ⟨⟨by simpa [Phase.Fits, hne] using hrun, rfl, rfl⟩, fun q _ => ?_⟩
      by_cases hq : q = np
      · subst hq
        exact .inr (.inr (.inl ⟨hnp, by simp⟩))
      · exact .inl (by simp [hq])
  | forkRun =>
    cases step_cases hstep with
    | @forkRun _ np _ hpc =>
      have hembryo := life_eq_embryo.mp (hinv.embryo p np (by rw [hpc]; rfl))
      have hne : p ≠ np := by
        rintro rfl
        rw [hrun] at hembryo
        cases hembryo
      refine ⟨⟨by simpa [Phase.Fits, hne] using hrun, rfl, rfl⟩, fun q _ => ?_⟩
      by_cases hq : q = np
      · subst hq
        exact .inr (.inr (.inr (.inr ⟨hpc, hembryo, by simp⟩)))
      · exact .inl (by simp [hq])
  | exitZombie =>
    cases step_cases hstep with
    | exitZombie =>
      refine ⟨⟨life_eq_zombie.mp (exited_becomeZombie t p).life, rfl, rfl⟩, fun q hq => ?_⟩
      exact (becomeZombie_roused t p q hq).imp_right .inl
  | yield =>
    cases step_cases hstep with
    | yield => exact ⟨⟨by simp [Phase.Fits, Caller.leaves], rfl, rfl⟩, fun q hq => .inl (by simp [hq])⟩
  | sleep =>
    cases step_cases hstep with
    | sleep =>
      exact ⟨⟨by simp [Phase.Fits, Caller.leaves, ProcTable.sleep], rfl, rfl⟩, fun q hq => .inl (by simp [ProcTable.sleep, hq])⟩
  | waitFail hpc hfail =>
    have hsame : t' = t.goto p .kernel := by
      have heq := hwait hpc rfl
      rcases hfail with ⟨q, hscan, rfl⟩ | ⟨b, hscan, hb⟩
      · simp only [waitpid, hscan, Bool.false_eq_true, if_false] at heq
        exact (Prod.mk.inj heq).1.symm
      · simp only [waitpid, hscan, if_pos hb] at heq
        exact (Prod.mk.inj heq).1.symm
    subst hsame
    exact ⟨⟨hrun, rfl, rfl⟩, fun q _ => .inl rfl⟩
  | waitSleep hpc hscan hb =>
    have hslept : t' = ProcTable.sleep t p (.slot p) := by
      have heq := hwait hpc rfl
      simp only [waitpid, hscan, hb, Bool.false_eq_true, if_false] at heq
      exact (Prod.mk.inj heq).1.symm
    subst hslept
    exact ⟨⟨by simp [Phase.Fits, Caller.leaves, ProcTable.sleep], rfl, rfl⟩,
      fun q hq => .inl (by simp [ProcTable.sleep, hq])⟩
  | @kill pid =>
    obtain ⟨rfl, -⟩ := Prod.mk.inj (Outcome.next.inj hstep)
    refine ⟨⟨?_, rfl, rfl⟩, fun q _ => (kill_state t pid q).imp_right .inl⟩
    rcases kill_state t pid p with hsame | ⟨hsleeping, -⟩
    · exact hsame.trans hrun
    · rw [hrun] at hsleeping
      cases hsleeping
  | @attachjob pid job =>
    obtain ⟨rfl, -⟩ := Prod.mk.inj (Outcome.next.inj hstep)
    exact ⟨⟨(attachjob_state t pid job p).trans hrun, rfl, rfl⟩, fun q _ => .inl (attachjob_state t pid job q)⟩
  | @wakeup addr =>
    obtain ⟨rfl, -⟩ := Prod.mk.inj (Outcome.next.inj hstep)
    have hroused := roused_wakeup1 t (some (.other addr))
    refine ⟨⟨?_, rfl, rfl⟩, fun q _ => turns_of_roused hroused p q⟩
    rcases hroused.state p with hsame | ⟨hsleeping, -⟩
    · exact hsame.trans hrun
    · rw [hrun] at hsleeping
      cases hsleeping

/-! ### Pages -/

def Machine.Stacked (m : Machine κ) (q : Slot) : Prop := ∃ a, m.kstack q = some a ∧ m.page a = some (.kstack q)

def Machine.Mapped (m : Machine κ) (q : Slot) : Prop := ∃ d, m.pgdir q = some d ∧ m.page d = some (.pgdir q)

/-- The zombie that a process in `waitpid` is freeing. -/
def Phase.reaps : Phase → Option Slot
  | .reap q | .reapVm q | .reaped q => some q
  | _ => none

structure Backed (m : Machine κ) : Prop where
  alive : ∀ q, (m.table.proc q).life = .alive → m.Stacked q ∧ m.Mapped q
  -- a zombie has what the process that returns it has not freed yet
  zombieStack : ∀ q, (m.table.proc q).life = .zombie →
    m.Stacked q ∨ ∃ p, m.phase p = .reapVm q ∨ m.phase p = .reaped q
  zombieDir : ∀ q, (m.table.proc q).life = .zombie → m.Mapped q ∨ ∃ p, m.phase p = .reaped q
  found : ∀ p q, (m.phase p).reaps = some q →
    ∃ c, m.table.pc p = .waiting c true ∧ scan m.table p c false slots = .zombie q
  -- the child of a process in `fork`
  stack : ∀ p np, m.table.pc p = .allocated np → m.stage p ≠ .start → m.Stacked np ∧ m.phase np = .off .forkret
  copied : ∀ p np, m.table.pc p = .allocated np → m.stage p = .copied → m.Mapped np
  filled : ∀ p np, m.table.pc p = .filled np → m.Stacked np ∧ m.Mapped np ∧ m.phase np = .off .forkret
  stage : ∀ p, m.stage p ≠ .start → ∃ np, m.table.pc p = .allocated np

theorem Exclusive.sole (hex : Exclusive m) {p q : Slot} (hp : (m.phase p).locked = true)
    (hq : (m.phase q).locked = true) : p = q := by
  have hplace : ∀ {r}, (m.phase r).locked = true → ∃ c, (m.cpu c).place = .running r ∧ m.lock = some c := by
    intro r hr
    obtain ⟨c, hc⟩ := hex.onCpu r (by cases hphase : m.phase r <;> simp_all [Phase.locked, Phase.isOff])
    exact ⟨c, hc, (hex.lock c).mpr (by simpa [Machine.holds, hc] using hr)⟩
  obtain ⟨c, hc, hlock⟩ := hplace hp
  obtain ⟨d, hd, hlock'⟩ := hplace hq
  obtain rfl : c = d := by simpa [hlock] using hlock'
  simpa [hc] using hd

theorem Phase.locked_of_reaps {ph : Phase} {q : Slot} (hq : ph.reaps = some q) : ph.locked = true := by
  cases ph <;> simp_all [Phase.reaps, Phase.locked]

/-- What `Backed` says of the child of one process in `fork`. -/
structure Machine.Fosters (m : Machine κ) (p : Slot) : Prop where
  stack : ∀ np, m.table.pc p = .allocated np → m.stage p ≠ .start → m.Stacked np ∧ m.phase np = .off .forkret
  copied : ∀ np, m.table.pc p = .allocated np → m.stage p = .copied → m.Mapped np
  filled : ∀ np, m.table.pc p = .filled np → m.Stacked np ∧ m.Mapped np ∧ m.phase np = .off .forkret
  stage : m.stage p ≠ .start → ∃ np, m.table.pc p = .allocated np

theorem Backed.fosters (hbacked : Backed m) (p : Slot) : m.Fosters p :=
  ⟨hbacked.stack p, hbacked.copied p, hbacked.filled p, hbacked.stage p⟩

theorem Machine.Fosters.start {p : Slot} (hstart : m.stage p = .start) (hfilled : ∀ np, m.table.pc p ≠ .filled np) : m.Fosters p :=
  ⟨fun _ _ hne => absurd hstart hne, fun _ _ hcopied => by simp [hstart] at hcopied, fun np hp => absurd hp (hfilled np),
    fun hne => absurd hstart hne⟩

theorem Machine.Fosters.keep {p : Slot} (h : m.Fosters p) (hpc : m'.table.pc p = m.table.pc p) (hstage : m'.stage p = m.stage p)
    (hchild : ∀ np, (m.table.pc p).child = some np →
      (m.Stacked np → m'.Stacked np) ∧ (m.Mapped np → m'.Mapped np) ∧ m'.phase np = m.phase np) : m'.Fosters p := by
  refine ⟨fun np hp hstart => ?_, fun np hp hcopied => ?_, fun np hp => ?_, fun hstart => ?_⟩
  · rw [hpc] at hp
    obtain ⟨hstack, -, hphase⟩ := hchild np (by rw [hp]; rfl)
    obtain ⟨hold, hoff⟩ := h.stack np hp (hstage ▸ hstart)
    exact ⟨hstack hold, hphase.trans hoff⟩
  · rw [hpc] at hp
    exact (hchild np (by rw [hp]; rfl)).2.1 (h.copied np hp (hstage ▸ hcopied))
  · rw [hpc] at hp
    obtain ⟨hstack, hdir, hphase⟩ := hchild np (by rw [hp]; rfl)
    obtain ⟨hold, hmapped, hoff⟩ := h.filled np hp
    exact ⟨hstack hold, hdir hmapped, hphase.trans hoff⟩
  · rw [hpc]
    exact h.stage (hstage ▸ hstart)

theorem Backed.start_of_pc (hbacked : Backed m) {p : Slot} (hp : ∀ np, m.table.pc p ≠ .allocated np) : m.stage p = .start := by
  by_contra hstart
  obtain ⟨np, hnp⟩ := hbacked.stage p hstart
  exact hp np hnp

/-- The parts of `Backed`, those of the children put together. -/
theorem Backed.of_fosters (hfosters : ∀ p, m.Fosters p)
    (halive : ∀ q, (m.table.proc q).life = .alive → m.Stacked q ∧ m.Mapped q)
    (hstack : ∀ q, (m.table.proc q).life = .zombie → m.Stacked q ∨ ∃ p, m.phase p = .reapVm q ∨ m.phase p = .reaped q)
    (hdir : ∀ q, (m.table.proc q).life = .zombie → m.Mapped q ∨ ∃ p, m.phase p = .reaped q)
    (hfound : ∀ p q, (m.phase p).reaps = some q →
      ∃ c, m.table.pc p = .waiting c true ∧ scan m.table p c false slots = .zombie q) : Backed m :=
  ⟨halive, hstack, hdir, hfound, fun p => (hfosters p).stack, fun p => (hfosters p).copied, fun p => (hfosters p).filled,
    fun p => (hfosters p).stage⟩

theorem Backed.frame (hbacked : Backed m) (hlife : ∀ q, (m'.table.proc q).life = (m.table.proc q).life)
    (hphase : ∀ q, m'.phase q = m.phase q ∨ (m.phase q).reaps = none ∧ (m'.phase q).reaps = none ∧
      (m.table.proc q).life ≠ .embryo)
    (hpc : ∀ q, m'.table.pc q = m.table.pc q ∨ (m.table.pc q).child = none ∧ (m'.table.pc q).child = none ∧
      (m'.phase q).reaps = none)
    (hembryo : ∀ p np, (m.table.pc p).child = some np → (m.table.proc np).life = .embryo)
    (hscan : ∀ p q c, (m'.phase p).reaps = some q → scan m'.table p c false slots = scan m.table p c false slots)
    (hstage : m'.stage = m.stage) (hkstack : m'.kstack = m.kstack) (hpgdir : m'.pgdir = m.pgdir)
    (hpage : m'.page = m.page) : Backed m' := by
  have hstacked : ∀ q, m'.Stacked q ↔ m.Stacked q := fun q => by simp only [Machine.Stacked, hkstack, hpage]
  have hmapped : ∀ q, m'.Mapped q ↔ m.Mapped q := fun q => by simp only [Machine.Mapped, hpgdir, hpage]
  have hreap : ∀ {p q ph}, m.phase p = ph → ph.reaps = some q → m'.phase p = ph := by
    intro p q ph hp hq
    rcases hphase p with hsame | ⟨hnone, -⟩
    · rw [hsame, hp]
    · rw [hp, hq] at hnone
      cases hnone
  refine .of_fosters (fun p => ?_) (fun q hq => ?_) (fun q hq => ?_) (fun q hq => ?_) fun p q hq => ?_
  · rcases hpc p with hsame | ⟨hold, hnew, -⟩
    · exact (hbacked.fosters p).keep hsame (by rw [hstage]) fun np hnp =>
        ⟨(hstacked np).mpr, (hmapped np).mpr, (hphase np).resolve_right fun hnone => hnone.2.2 (hembryo p np hnp)⟩
    · refine .start ?_ fun np hp => by simp [hp, Pc.child] at hnew
      rw [hstage]
      exact hbacked.start_of_pc fun np hp => by simp [hp, Pc.child] at hold
  · rw [hstacked, hmapped]
    exact hbacked.alive q (hlife q ▸ hq)
  · rw [hstacked]
    refine (hbacked.zombieStack q (hlife q ▸ hq)).imp_right fun ⟨p, hp⟩ => ⟨p, ?_⟩
    exact hp.imp (fun hp => hreap hp rfl) fun hp => hreap hp rfl
  · rw [hmapped]
    exact (hbacked.zombieDir q (hlife q ▸ hq)).imp_right fun ⟨p, hp⟩ => ⟨p, hreap hp rfl⟩
  · have hold : (m.phase p).reaps = some q := by
      rcases hphase p with hsame | ⟨-, hnone, -⟩
      · rwa [← hsame]
      · rw [hq] at hnone
        cases hnone
    obtain ⟨c, hpc', hzombie⟩ := hbacked.found p q hold
    refine ⟨c, ?_, (hscan p q c hq).trans hzombie⟩
    rcases hpc p with hsame | ⟨-, -, hnone⟩
    · rw [hsame, hpc']
    · rw [hq] at hnone
      cases hnone

theorem Backed.zombie (hbacked : Backed m) {q : Slot} (hq : (m.table.proc q).life = .zombie)
    (hnone : ∀ r, m.phase r ≠ .reapVm q ∧ m.phase r ≠ .reaped q) : m.Stacked q ∧ m.Mapped q := by
  refine ⟨(hbacked.zombieStack q hq).resolve_right ?_, (hbacked.zombieDir q hq).resolve_right ?_⟩
  · rintro ⟨r, hr | hr⟩
    · exact (hnone r).1 hr
    · exact (hnone r).2 hr
  · rintro ⟨r, hr⟩
    exact (hnone r).2 hr

theorem Backed.withLock (hbacked : Backed m)
    (hlive : ∀ q, (m'.table.proc q).life = .alive ∨ (m'.table.proc q).life = .zombie → m.Stacked q ∧ m.Mapped q)
    (hnone : ∀ r, (m'.phase r).reaps = none)
    (hpc : ∀ p, m'.table.pc p = m.table.pc p ∧ (∀ np, (m.table.pc p).child = some np → m'.phase np = m.phase np) ∨
      m.stage p = .start ∧ ∀ np, m'.table.pc p ≠ .filled np) (hstage : m'.stage = m.stage)
    (hkstack : m'.kstack = m.kstack) (hpgdir : m'.pgdir = m.pgdir) (hpage : m'.page = m.page) : Backed m' := by
  have hstacked : ∀ q, m'.Stacked q ↔ m.Stacked q := fun q => by simp only [Machine.Stacked, hkstack, hpage]
  have hmapped : ∀ q, m'.Mapped q ↔ m.Mapped q := fun q => by simp only [Machine.Mapped, hpgdir, hpage]
  have hboth : ∀ q, (m'.table.proc q).life = .alive ∨ (m'.table.proc q).life = .zombie → m'.Stacked q ∧ m'.Mapped q := by
    intro q hq
    rw [hstacked, hmapped]
    exact hlive q hq
  refine .of_fosters (fun p => ?_) (fun q hq => hboth q (.inl hq)) (fun q hq => .inl (hboth q (.inr hq)).1)
    (fun q hq => .inl (hboth q (.inr hq)).2) fun p q hq => ?_
  · rcases hpc p with ⟨hsame, hphase⟩ | ⟨hstart, hfilled⟩
    · exact (hbacked.fosters p).keep hsame (by rw [hstage]) fun np hnp => ⟨(hstacked np).mpr, (hmapped np).mpr, hphase np hnp⟩
    · exact .start (by rw [hstage, hstart]) hfilled
  · rw [hnone p] at hq
    cases hq

/-! ### The memory of a child -/

theorem Machine.Stacked.mono {q : Slot} (hq : m.Stacked q) (hkstack : m'.kstack q = m.kstack q)
    (hpage : ∀ a, m.page a = some (.kstack q) → m'.page a = m.page a) : m'.Stacked q := by
  obtain ⟨a, ha, hheld⟩ := hq
  exact ⟨a, hkstack.trans ha, (hpage a hheld).trans hheld⟩

theorem Machine.Mapped.mono {q : Slot} (hq : m.Mapped q) (hpgdir : m'.pgdir q = m.pgdir q)
    (hpage : ∀ d, m.page d = some (.pgdir q) → m'.page d = m.page d) : m'.Mapped q := by
  obtain ⟨d, hd, hheld⟩ := hq
  exact ⟨d, hpgdir.trans hd, (hpage d hheld).trans hheld⟩

/-- A process in `fork` works on the pages of its child `np`, or ends the fork; nobody else's pages change. -/
theorem Backed.forking (hbacked : Backed m) (hinv : Inv m.table h) {p np : Slot} (hpc : m.table.pc p = .allocated np)
    (hlife : ∀ q, q ≠ np → (m'.table.proc q).life = (m.table.proc q).life)
    (hnp : (m'.table.proc np).life = .embryo ∨ (m'.table.proc np).life = .unused)
    (hphase : ∀ q, q ≠ np → m'.phase q = m.phase q) (hnpPhase : (m'.phase np).reaps = none)
    (hothers : ∀ q, q ≠ p → m'.table.pc q = m.table.pc q ∧ m'.stage q = m.stage q)
    (hscan : ∀ r c, r ≠ p → scan m'.table r c false slots = scan m.table r c false slots)
    (hidle : (m.phase p).reaps = none) (hidle' : (m'.phase p).reaps = none)
    (hkstack : ∀ q, q ≠ np → m'.kstack q = m.kstack q) (hpgdir : ∀ q, q ≠ np → m'.pgdir q = m.pgdir q)
    (hpage : ∀ a v, m.page a = some v → v ≠ .kstack np → v ≠ .pgdir np → m'.page a = m.page a)
    (hself : m'.table.pc p = .allocated np ∧ (m'.stage p ≠ .start → m'.Stacked np ∧ m'.phase np = .off .forkret) ∧
        (m'.stage p = .copied → m'.Mapped np) ∨
      m'.table.pc p = .filled np ∧ m'.stage p = .start ∧ m'.Stacked np ∧ m'.Mapped np ∧ m'.phase np = .off .forkret ∨
      m'.table.pc p = .kernel ∧ m'.stage p = .start) : Backed m' := by
  have hembryo : (m.table.proc np).life = .embryo := hinv.embryo p np (by rw [hpc]; rfl)
  have hstacked : ∀ q, q ≠ np → m.Stacked q → m'.Stacked q := fun q hq hold =>
    hold.mono (hkstack q hq) fun a ha => hpage a _ ha (by simpa using hq) (by simp)
  have hmapped : ∀ q, q ≠ np → m.Mapped q → m'.Mapped q := fun q hq hold =>
    hold.mono (hpgdir q hq) fun a ha => hpage a _ ha (by simp) (by simpa using hq)
  have hne : ∀ q, (m'.table.proc q).life = .alive ∨ (m'.table.proc q).life = .zombie → q ≠ np := by
    rintro q hq rfl
    rcases hnp with hnp | hnp <;> simp [hnp] at hq
  -- what is left of a zombie is known from the phase of the process that frees it
  have hreap : ∀ {r q ph}, m.phase r = ph → ph.reaps = some q → m'.phase r = ph := by
    intro r q ph hr hq
    have hrnp : r ≠ np := by
      rintro rfl
      have hidle := hinv.busy r
      obtain ⟨c, hc, -⟩ := hbacked.found r q (by rw [hr, hq])
      rw [hidle (by simp [hc])] at hembryo
      cases hembryo
    rw [hphase r hrnp, hr]
  have hchild : ∀ {r np'}, r ≠ p → (m.table.pc r).child = some np' → np' ≠ np := by
    rintro r np' hr hchild rfl
    exact hr (hinv.owner r p np' hchild (by rw [hpc]; rfl))
  refine .of_fosters (fun r => ?_) (fun q hq => ?_) (fun q hq => ?_) (fun q hq => ?_) fun r q hq => ?_
  · by_cases hrp : r = p
    · subst hrp
      rcases hself with ⟨hpc', hstack, hdir⟩ | ⟨hpc', hstart, hall⟩ | ⟨hpc', hstart⟩
      · refine ⟨fun np' hr hstart => ?_, fun np' hr hcopied => ?_, fun np' hr => by simp [hpc'] at hr, fun _ => ⟨np, hpc'⟩⟩
        · obtain rfl : np = np' := by simpa [hpc'] using hr
          exact hstack hstart
        · obtain rfl : np = np' := by simpa [hpc'] using hr
          exact hdir hcopied
      · refine ⟨fun np' hr => by simp [hpc'] at hr, fun np' hr => by simp [hpc'] at hr, fun np' hr => ?_, fun hne => absurd hstart hne⟩
        obtain rfl : np = np' := by simpa [hpc'] using hr
        exact hall
      · exact .start hstart fun np' hr => by simp [hpc'] at hr
    · obtain ⟨hsame, hstage⟩ := hothers r hrp
      refine (hbacked.fosters r).keep hsame hstage fun np' hnp' => ?_
      have hnp' := hchild hrp hnp'
      exact ⟨hstacked np' hnp', hmapped np' hnp', hphase np' hnp'⟩
  · have hqnp := hne q (.inl hq)
    rw [hlife q hqnp] at hq
    exact ⟨hstacked q hqnp (hbacked.alive q hq).1, hmapped q hqnp (hbacked.alive q hq).2⟩
  · have hqnp := hne q (.inr hq)
    rw [hlife q hqnp] at hq
    exact (hbacked.zombieStack q hq).imp (hstacked q hqnp) fun ⟨r, hr⟩ =>
      ⟨r, hr.imp (fun hr => hreap hr rfl) fun hr => hreap hr rfl⟩
  · have hqnp := hne q (.inr hq)
    rw [hlife q hqnp] at hq
    exact (hbacked.zombieDir q hq).imp (hmapped q hqnp) fun ⟨r, hr⟩ => ⟨r, hreap hr rfl⟩
  · have hrp : r ≠ p := by
      rintro rfl
      rw [hidle'] at hq
      cases hq
    have hrnp : r ≠ np := by
      rintro rfl
      rw [hnpPhase] at hq
      cases hq
    rw [hphase r hrnp] at hq
    obtain ⟨c, hc, hzombie⟩ := hbacked.found r q hq
    exact ⟨c, by rw [(hothers r hrp).1, hc], (hscan r c hrp).trans hzombie⟩

end Xv6.Sched
