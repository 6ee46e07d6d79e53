import Xv6.Proc.Marks
import Xv6.Sched.Pages

/-!
# Scheduling exclusivity and safe reaping

Every step of the machine keeps the two invariants and is a step of `ProcTable.kernel`, or none. So in every
state in which `ptable.lock` is free the running slots and the current processes of the processors are
matched one to one, and what `waitpid` frees is in use by no processor.
-/

namespace Xv6.Sched

open ProcTable

variable {κ : Type} {m m' : Machine κ} {h : List Event}

structure Sound (m : Machine κ) : Prop where
  exclusive : Exclusive m
  backed : Backed m
  reached : Reached m.table

/-! ### The scheduler -/

theorem Backed.cpu (hbacked : Backed m) (l : Option κ) (f : κ → Cpu) : Backed { m with lock := l, cpu := f } :=
  ⟨hbacked.alive, hbacked.zombieStack, hbacked.zombieDir, hbacked.found, hbacked.stack, hbacked.copied, hbacked.filled,
    hbacked.stage⟩

variable {t : Table} {ph : Phase}

variable {p : Slot} {c : κ}

/-- A process with a processor goes from one phase to another; only its scheduling changes in the table. -/
theorem Backed.phase (hbacked : Backed m) (hinv : Inv m.table h)
    (hquiet : Quiet m.table t) (hpc : t.pc = m.table.pc) (hp : (m.table.proc p).life ≠ .embryo)
    (hph : (m.phase p).reaps = none ∧ ph.reaps = none) (l : Option κ) (f : κ → Cpu) :
    Backed ({ m with table := t, lock := l, cpu := f }.setPhase p ph) := by
  refine hbacked.frame (fun q => (hquiet.kept q).life) (fun q => ?_) (fun q => .inl (by rw [setPhase_table, hpc]))
    hinv.embryo (fun p q c _ => ?_) rfl rfl rfl rfl
  · by_cases hq : q = p
    · subst hq
      exact .inr ⟨hph.1, by rw [setPhase_self]; exact hph.2, hp⟩
    · exact .inl (setPhase_of_ne _ hq _)
  · exact scan_same (fun q => (hquiet.kept q).parent) (fun q => (hquiet.kept q).pid) (fun q => (hquiet.kept q).life) p c

theorem quiet_refl (t : Table) : Quiet t t := ⟨fun _ => .refl _, rfl, rfl⟩

theorem Exclusive.aliveOf (hex : Exclusive m) (hp : (m.phase p).isOff = false) :
    (m.table.proc p).life ≠ .embryo ∧ (m.table.proc p).life ≠ .unused := by
  have hfits := hex.slot p
  obtain ⟨d, hd⟩ := hex.onCpu p hp
  have hplace : (m.cpu d).place.slot? = some p := by rw [hd]; rfl
  constructor
  · intro hlife
    exact hex.unborn (.inr (life_eq_embryo.mp hlife)) d hplace
  · intro hlife
    exact hex.unborn (.inl (life_eq_unused.mp hlife)) d hplace

/-! ### Steps of a process -/

theorem setPhase_free (hphase : m.phase p = .free) (t : Table) (q : Slot) :
    ({ m with table := t }.setPhase p .free).phase q = m.phase q := by
  by_cases hq : q = p
  · rw [hq, setPhase_self, hphase]
  · rw [setPhase_of_ne _ hq]

/-- What a process does without the lock to its own slot. -/
structure Alone (t t' : Table) (p : Slot) : Prop where
  state : ∀ q, (t'.proc q).state = (t.proc q).state
  pid : ∀ q, (t'.proc q).pid = (t.proc q).pid
  parent : ∀ q, (t'.proc q).parent = (t.proc q).parent
  other : ∀ q, q ≠ p → t'.pc q = t.pc q
  self : t'.pc p = t.pc p ∨ (t.pc p).child = none ∧ (t'.pc p).child = none

variable {t' : Table}

theorem Alone.life (halone : Alone t t' p) (q : Slot) : (t'.proc q).life = (t.proc q).life := by
  unfold Proc.life
  rw [halone.state]

theorem alone_set {v : Proc} (hstate : v.state = (t.proc p).state) (hpid : v.pid = (t.proc p).pid)
    (hparent : v.parent = (t.proc p).parent) {pc : Pc} (hpc : (t.pc p).child = none ∧ pc.child = none) :
    Alone t ((t.set p v).goto p pc) p := by
  refine ⟨fun q => ?_, fun q => ?_, fun q => ?_, fun q hq => by simp [hq], .inr ⟨hpc.1, by simpa using hpc.2⟩⟩
  · exact set_field Proc.state q hstate
  · exact set_field Proc.pid q hpid
  · exact set_field Proc.parent q hparent

variable {a : Act} {es : List Event}

theorem unlocked_alone (ha : Unlocked p a)
    (hstep : step t a = .next (t', es)) : Alone t t' p := by
  cases ha with
  | exit =>
    cases step_cases hstep with
    | exit hrun hpc hinit => exact alone_set (by rfl) (by rfl) (by rfl) ⟨by rw [hpc]; rfl, rfl⟩
  | exitClose =>
    cases step_cases hstep with
    | exitClose hrun hpc => exact alone_set (by rfl) (by rfl) (by rfl) ⟨by rw [hpc]; rfl, rfl⟩
  | waitCall =>
    cases step_cases hstep with
    | waitCall hrun hpc =>
      exact ⟨fun _ => rfl, fun _ => rfl, fun _ => rfl, fun q hq => by simp [hq], .inr ⟨by rw [hpc]; rfl, by simp [Pc.child]⟩⟩
  | fault =>
    cases step_cases hstep with
    | fault hrun =>
      exact ⟨fun q => set_field Proc.state q rfl, fun q => set_field Proc.pid q rfl, fun q => set_field Proc.parent q rfl,
        fun _ _ => rfl, .inl rfl⟩

theorem Sound.unlocked (hsound : Sound m)
    (hplace : (m.cpu c).place = .running p) (hphase : m.phase p = .free) (ha : Unlocked p a)
    (hstep : step m.table a = .next (t, es)) : Sound ({ m with table := t }.setPhase p .free) := by
  obtain ⟨hex, hbacked, hreached⟩ := hsound
  obtain ⟨h, hinv⟩ := hreached.inv
  have halone := unlocked_alone ha hstep
  have hrun : (m.table.proc p).state = .running := hex.fits hphase
  refine ⟨?_, ?_, hreached.step hstep⟩
  · exact hex.move (l := m.lock) hplace ((halone.state p).trans hrun) (fun q _ => halone.state q) ⟨rfl, rfl⟩
      (.inl ⟨rfl, by rw [hphase]⟩)
  · refine hbacked.frame halone.life (fun q => .inl (setPhase_free hphase t q)) (fun q => ?_) hinv.embryo
      (fun r q c _ => scan_same halone.parent halone.pid halone.life r c) rfl rfl rfl rfl
    by_cases hq : q = p
    · subst hq
      exact halone.self.imp_right fun hself => ⟨hself.1, hself.2, by rw [setPhase_self]; rfl⟩
    · exact .inl (halone.other q hq)

/-- With the lock a process that is not freeing a zombie is the only one that could be. -/
theorem Exclusive.noReap (hex : Exclusive m) (hp : (m.phase p).locked = true)
    (hnone : (m.phase p).reaps = none) (r : Slot) : (m.phase r).reaps = none := by
  cases hr : (m.phase r).reaps with
  | none => rfl
  | some q =>
    obtain rfl := hex.sole hp (Phase.locked_of_reaps hr)
    rw [hnone] at hr
    cases hr

theorem Turns.life {p q : Slot} (hturns : Turns t t' p q)
    (hq : (t'.proc q).life = .alive ∨ (t'.proc q).life = .zombie) :
    (t.proc q).life = .alive ∨ (t.proc q).life = .zombie ∨ ∃ r, t.pc r = .filled q := by
  rcases hturns with hsame | ⟨hsleeping, -⟩ | ⟨-, hembryo⟩ | ⟨-, hunused⟩ | ⟨hpc, -⟩
  · have hlife : (t'.proc q).life = (t.proc q).life := by
      unfold Proc.life
      rw [hsame]
    rw [hlife] at hq
    exact hq.imp_right .inl
  · exact .inl (by simp [Proc.life, hsleeping])
  · simp [Proc.life, hembryo] at hq
  · simp [Proc.life, hunused] at hq
  · exact .inr (.inr ⟨p, hpc⟩)

theorem locked_pc (ha : Locked t p a ph)
    (hstep : step t a = .next (t', es)) : (∀ q, q ≠ p → t'.pc q = t.pc q) ∧
    (t'.pc p = t.pc p ∨ t'.pc p = .kernel ∧ (∀ np, t.pc p ≠ .allocated np) ∨ t.pc p = .kernel ∧ ∃ np, t'.pc p = .allocated np) := by
  have hs := step_cases hstep
  refine ⟨fun q hq => (step_pc hs q).resolve_right ?_, ?_⟩
  · rintro ⟨b, rfl⟩
    cases ha <;> exact hq rfl
  cases ha with
  | forkAlloc =>
    cases hs with
    | noSlot => exact .inl rfl
    | forkAlloc hrun hpc hnp => exact .inr (.inr ⟨hpc, _, by simp; rfl⟩)
  | forkRun =>
    cases hs with
    | forkRun hrun hpc => exact .inr (.inl ⟨by simp, by simp [hpc]⟩)
  | exitZombie =>
    cases hs with
    | exitZombie hrun hpc => exact .inr (.inl ⟨by simp, by simp [hpc]⟩)
  | yield =>
    cases hs with
    | yield => exact .inl rfl
  | sleep =>
    cases hs with
    | sleep => exact .inl rfl
  | waitFail hpc | waitSleep hpc =>
    cases hs with
    | waited | failed => exact .inr (.inl ⟨by simp, by simp [hpc]⟩)
    | slept => exact .inl rfl
  | kill =>
    cases hs with
    | kill => exact .inl (by rw [kill_pc])
  | attachjob =>
    cases hs with
    | attachjob => exact .inl (by rw [attachjob_pc])
  | wakeup =>
    cases hs with
    | wakeup => exact .inl rfl

theorem Locked.phase (ha : Locked t p a ph) : ph.reaps = none := by
  cases ha <;> rfl

theorem Sound.locked (hsound : Sound m)
    (hplace : (m.cpu c).place = .running p) (hphase : m.phase p = .held) (ha : Locked m.table p a ph)
    (hstep : step m.table a = .next (t, es)) : Sound ({ m with table := t }.setPhase p ph) := by
  obtain ⟨hex, hbacked, hreached⟩ := hsound
  obtain ⟨h, hinv⟩ := hreached.inv
  have hrun : (m.table.proc p).state = .running := hex.fits hphase
  have hheld : (m.phase p).locked = true := by rw [hphase]; rfl
  obtain ⟨hph, hturns⟩ := locked_turns hinv ha hrun hstep
  obtain ⟨hothers, hself⟩ := locked_pc ha hstep
  -- the child of a process in `fork` is not the process that takes the step
  have hchild : ∀ {r np}, (m.table.pc r).child = some np → ({ m with table := t }.setPhase p ph).phase np = m.phase np := by
    intro r np hnp
    refine setPhase_of_ne _ ?_ _
    rintro rfl
    have hembryo := hinv.embryo r np hnp
    rw [life_of_running hrun] at hembryo
    cases hembryo
  refine ⟨hex.withLock hplace hheld hph (fun q hq => (hbacked.filled p q hq).2.2) hturns, ?_, hreached.step hstep⟩
  have hnone := hex.noReap hheld (by rw [hphase]; rfl)
  refine hbacked.withLock (fun q hq => ?_) (fun r => ?_) (fun r => ?_) rfl rfl rfl rfl
  · have hlife : (m.table.proc q).life = .alive ∨ (m.table.proc q).life = .zombie ∨ ∃ r, m.table.pc r = .filled q := by
      by_cases hqp : q = p
      · exact .inl (hqp ▸ life_of_running hrun)
      · exact (hturns q hqp).life hq
    rcases hlife with halive | hzombie | ⟨r, hr⟩
    · exact hbacked.alive q halive
    · refine hbacked.zombie hzombie fun r => ⟨fun hr => ?_, fun hr => ?_⟩ <;>
      · have := hnone r
        rw [hr] at this
        cases this
    · exact ⟨(hbacked.filled r q hr).1, (hbacked.filled r q hr).2.1⟩
  · by_cases hr : r = p
    · rw [hr, setPhase_self]
      exact ha.phase
    · rw [setPhase_of_ne _ hr]
      exact hnone r
  · by_cases hrp : r = p
    · subst hrp
      rcases hself with hsame | ⟨hkernel, hnone⟩ | ⟨hkernel, np, halloc⟩
      · exact .inl ⟨hsame, fun np => hchild⟩
      · exact .inr ⟨hbacked.start_of_pc hnone, fun np => by simp [hkernel]⟩
      · exact .inr ⟨hbacked.start_of_pc (by simp [hkernel]), fun np => by simp [halloc]⟩
    · exact .inl ⟨hothers r hrp, fun np => hchild⟩

/-! ### The child's memory -/

/-- Without the lock a process in `fork` changes the slot of its child, which no processor is with. -/
theorem Exclusive.child (hex : Exclusive m) {p np : Slot} (hplace : (m.cpu c).place = .running p)
    (hphase : m.phase p = .free) (hembryo : (m.table.proc np).state = .embryo) (hcpu : m'.cpu = m.cpu)
    (hlock : m'.lock = m.lock) (hothers : ∀ q, q ≠ np → m.Keeps m' q)
    (hnp : (m'.table.proc np).state = .embryo ∨ (m'.table.proc np).state = .unused)
    (hoff : (m'.phase np).isOff = true) : Exclusive m' := by
  have hrun : (m.table.proc p).state = .running := hex.fits hphase
  have hne : p ≠ np := by
    rintro rfl
    rw [hrun] at hembryo
    cases hembryo
  obtain ⟨hstate, hsame, hpgdir, hkstack⟩ := hothers p hne
  rw [hphase] at hsame
  refine hex.process hplace hcpu (by rw [hsame]; rfl) ?_ ⟨hpgdir, hkstack⟩ (fun q hq => ?_) (.inl ⟨hlock, by rw [hsame, hphase]⟩)
  · rw [hsame, hstate]
    exact hrun
  · by_cases hqnp : q = np
    · subst hqnp
      refine .inr ⟨hex.unborn (.inr hembryo), hoff, ?_⟩
      cases hphase' : m'.phase q with
      | off k => rcases hnp with hnp | hnp <;> simp [Phase.Fits, hnp]
      | _ => simp [hphase', Phase.isOff] at hoff
    · exact .inl (hothers q hqnp)

theorem forkFail_table {p np : Slot} (hpc : t.pc p = .allocated np)
    (hstep : step t (.own p .forkFail) = .next (t', es)) : t' = (freeSlot t np).goto p .kernel := by
  cases step_cases hstep with
  | @forkFail _ np' hrun hpc' =>
    obtain rfl : np = np' := by simpa [hpc] using hpc'
    rfl

theorem forkFill_table {p np : Slot} (hpc : t.pc p = .allocated np)
    (hstep : step t (.own p .forkFill) = .next (t', es)) :
    t' = (t.set np { t.proc np with parent := some p, job := (t.proc p).job }).goto p (.filled np) := by
  cases step_cases hstep with
  | @forkFill _ np' hrun hpc' =>
    obtain rfl : np = np' := by simpa [hpc] using hpc'
    rfl

theorem Phase.reaps_of_isOff (hoff : ph.isOff = true) : ph.reaps = none := by
  cases ph <;> simp_all [Phase.isOff, Phase.reaps]

section Fork

variable {c : κ} {p np : Slot} (hsound : Sound m) (hplace : (m.cpu c).place = .running p) (hphase : m.phase p = .free)
  (hpc : m.table.pc p = .allocated np)

include hsound hpc in
theorem Sound.embryo : (m.table.proc np).state = .embryo := by
  obtain ⟨h, hinv⟩ := hsound.reached.inv
  exact life_eq_embryo.mp (hinv.embryo p np (by rw [hpc]; rfl))

include hsound hphase hpc in
theorem Sound.neChild : p ≠ np := by
  rintro rfl
  have hrun := hsound.exclusive.slot p
  rw [hphase, hsound.embryo hpc] at hrun
  cases hrun

include hsound hplace hphase hpc

omit hsound hplace hphase hpc in
theorem page_update {a b : Page} {v x : Holder} (hfree : m.page a = none) (hb : m.page b = some v) :
    Function.update m.page a (some x) b = m.page b := by
  refine Function.update_of_ne ?_ ..
  rintro rfl
  rw [hfree] at hb
  cases hb

theorem Sound.allocStack {a : Page} (hfree : m.page a = none) :
    Sound ({ m with
      page := Function.update m.page a (some (.kstack np))
      kstack := Function.update m.kstack np (some a)
      stage := Function.update m.stage p .stack }.setPhase np (.off .forkret)) := by
  have hembryo := hsound.embryo hpc
  have hne := hsound.neChild hphase hpc
  obtain ⟨hex, hbacked, hreached⟩ := hsound
  obtain ⟨h, hinv⟩ := hreached.inv
  refine ⟨?_, ?_, hreached⟩
  · refine hex.child hplace hphase hembryo rfl rfl (fun q hq => ⟨rfl, setPhase_of_ne _ hq _, rfl, ?_⟩) (.inl hembryo) ?_
    · exact Function.update_of_ne hq ..
    · rw [setPhase_self]
      rfl
  · refine hbacked.forking hinv hpc (fun _ _ => rfl) (.inl (life_eq_embryo.mpr hembryo)) (fun q hq => setPhase_of_ne _ hq _)
      ?_ (fun q hq => ⟨rfl, Function.update_of_ne hq ..⟩) (fun _ _ _ => rfl) (by rw [hphase]; rfl) ?_
      (fun q hq => Function.update_of_ne hq ..) (fun _ _ => rfl) (fun b v hb _ _ => page_update hfree hb) (.inl ⟨hpc, fun _ => ?_, ?_⟩)
    · rw [setPhase_self]
      rfl
    · rw [setPhase_of_ne _ hne]
      show (m.phase p).reaps = none
      rw [hphase]
      rfl
    · exact ⟨⟨a, Function.update_self .., Function.update_self ..⟩, setPhase_self ..⟩
    · intro hcopied
      have hstage : Function.update m.stage p .stack p = .copied := hcopied
      rw [Function.update_self] at hstage
      cases hstage

theorem Sound.allocDir {a : Page} (hstage : m.stage p = .stack) (hfree : m.page a = none) :
    Sound { m with
      page := Function.update m.page a (some (.pgdir np))
      pgdir := Function.update m.pgdir np (some a)
      stage := Function.update m.stage p .copied } := by
  have hembryo := hsound.embryo hpc
  obtain ⟨hex, hbacked, hreached⟩ := hsound
  obtain ⟨h, hinv⟩ := hreached.inv
  obtain ⟨hstack, hoff⟩ := hbacked.stack p np hpc (by simp [hstage])
  refine ⟨?_, ?_, hreached⟩
  · refine hex.child hplace hphase hembryo rfl rfl (fun q hq => ⟨rfl, rfl, Function.update_of_ne hq .., rfl⟩) (.inl hembryo) ?_
    show (m.phase np).isOff = true
    rw [hoff]
    rfl
  · refine hbacked.forking hinv hpc (fun _ _ => rfl) (.inl (life_eq_embryo.mpr hembryo)) (fun _ _ => rfl)
      (by rw [hoff]; rfl) (fun q hq => ⟨rfl, Function.update_of_ne hq ..⟩) (fun _ _ _ => rfl) (by rw [hphase]; rfl)
      (by rw [hphase]; rfl) (fun _ _ => rfl) (fun q hq => Function.update_of_ne hq ..) (fun b v hb _ _ => page_update hfree hb)
      (.inl ⟨hpc, fun _ => ⟨?_, hoff⟩, fun _ => ?_⟩)
    · exact hstack.mono rfl fun b hb => page_update hfree hb
    · exact ⟨a, Function.update_self .., Function.update_self ..⟩

/-- A failed `fork` gives back the slot, which has no parent yet and so concerns no process in `waitpid`. -/
theorem Sound.forkFail {f : Page → Option Holder} {k : Slot → Option Page} {g : Slot → Stage}
    (hstep : step m.table (.own p .forkFail) = .next (t, es)) (hk : ∀ q, q ≠ np → k q = m.kstack q)
    (hf : ∀ a v, m.page a = some v → v ≠ .kstack np → v ≠ .pgdir np → f a = m.page a)
    (hg : ∀ q, q ≠ p → g q = m.stage q) (hstart : g p = .start) :
    Sound ({ m with table := t, page := f, kstack := k, stage := g }.setPhase p .free) := by
  have hembryo := hsound.embryo hpc
  have hne := hsound.neChild hphase hpc
  obtain ⟨hex, hbacked, hreached⟩ := hsound
  obtain ⟨h, hinv⟩ := hreached.inv
  have hreached' := hreached.step hstep
  have ht := forkFail_table hpc hstep
  have hproc : ∀ q, q ≠ np → t.proc q = m.table.proc q := fun q hq => by rw [ht]; exact set_of_ne _ hq _
  have hparent : ∀ q, (t.proc q).parent = (m.table.proc q).parent := fun q => by rw [ht]; exact set_field Proc.parent q rfl
  subst ht
  have hoff : (m.phase np).isOff = true := hex.offOf (hex.unborn (.inr hembryo))
  have horphan := hinv.allocated p np hpc
  have hsame : ∀ q, (m.setPhase p .free).phase q = m.phase q := setPhase_free hphase m.table
  refine ⟨?_, ?_, hreached'⟩
  · refine hex.child hplace hphase hembryo rfl rfl (fun q hq => ⟨?_, hsame q, rfl, hk q hq⟩) (.inr ?_) ((hsame np).symm ▸ hoff)
    · rw [setPhase_table, hproc q hq]
    · simp [freeSlot]
  · refine hbacked.forking hinv hpc (fun q hq => ?_) (.inr ?_) (fun q _ => hsame q)
      ((hsame np).symm ▸ Phase.reaps_of_isOff hoff) (fun q hq => ⟨?_, hg q hq⟩) (fun r c hr => ?_) (by rw [hphase]; rfl)
      (by rw [setPhase_self]; rfl) hk (fun _ _ => rfl) hf (.inr (.inr ⟨?_, hstart⟩))
    · rw [setPhase_table, hproc q hq]
    · simp [freeSlot, Proc.life]
    · exact goto_of_ne _ hq _
    · refine scan_congr (fun q => by rw [setPhase_table, hparent q]) (fun q hq => ?_) false slots
      have hqnp : q ≠ np := by
        rintro rfl
        rw [horphan] at hq
        cases hq
      rw [setPhase_table, hproc q hqnp]
      exact ⟨rfl, Iff.rfl⟩
    · exact goto_self ..

theorem Sound.fill (hstage : m.stage p = .copied)
    (hstep : step m.table (.own p .forkFill) = .next (t, es)) :
    Sound ({ m with table := t, stage := Function.update m.stage p .start }.setPhase p .free) := by
  have hembryo := hsound.embryo hpc
  obtain ⟨hex, hbacked, hreached⟩ := hsound
  obtain ⟨h, hinv⟩ := hreached.inv
  have hreached' := hreached.step hstep
  have ht := forkFill_table hpc hstep
  have hproc : ∀ q, q ≠ np → t.proc q = m.table.proc q := fun q hq => by rw [ht]; exact set_of_ne _ hq _
  have hstate : ∀ q, (t.proc q).state = (m.table.proc q).state := fun q => by rw [ht]; exact set_field Proc.state q rfl
  have hlife : ∀ q, (t.proc q).life = (m.table.proc q).life := fun q => by rw [ht]; exact set_field Proc.life q rfl
  subst ht
  obtain ⟨hstack, hoff⟩ := hbacked.stack p np hpc (by simp [hstage])
  have hdir := hbacked.copied p np hpc hstage
  have horphan := hinv.allocated p np hpc
  have hsame : ∀ q, (m.setPhase p .free).phase q = m.phase q := setPhase_free hphase m.table
  refine ⟨?_, ?_, hreached'⟩
  · refine hex.child hplace hphase hembryo rfl rfl (fun q _ => ⟨hstate q, hsame q, rfl, rfl⟩) (.inl ((hstate np).trans hembryo)) ?_
    show ((m.setPhase p .free).phase np).isOff = true
    rw [hsame, hoff]
    rfl
  · refine hbacked.forking hinv hpc (fun q _ => hlife q) (.inl ((hlife np).trans (life_eq_embryo.mpr hembryo)))
      (fun q _ => hsame q) ?_ (fun q hq => ⟨goto_of_ne _ hq _, Function.update_of_ne hq ..⟩) (fun r c hr => ?_)
      (by rw [hphase]; rfl) (by rw [setPhase_self]; rfl) (fun _ _ => rfl) (fun _ _ => rfl) (fun _ _ _ _ _ => rfl)
      (.inr (.inl ⟨goto_self .., Function.update_self .., hstack, hdir, (hsame np).trans hoff⟩))
    · show ((m.setPhase p .free).phase np).reaps = none
      rw [hsame, hoff]
      rfl
    · refine scan_congr (fun q => ?_) (fun q hq => ?_) false slots
      · by_cases hq : q = np
        · subst hq
          simp [horphan, Ne.symm hr]
        · rw [setPhase_table, hproc q hq]
      · have hqnp : q ≠ np := by
          rintro rfl
          rw [horphan] at hq
          cases hq
        rw [setPhase_table, hproc q hqnp]
        exact ⟨rfl, Iff.rfl⟩

end Fork

end Xv6.Sched
