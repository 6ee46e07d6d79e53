import Xv6.Proc.Jobs
import Xv6.Proc.Marks
import Xv6.Proc.Wait

/-!
# The jobs of the shell

To start a command the shell forks a child, attaches the child to a new job, and waits for it; the child forks
the command and exits. A process belongs to the job its parent had when it was forked. So all depends on
whether the child forks before or after the shell has attached it: before, the command has no job, and once
the child has exited nobody has.
-/

namespace Xv6.System

open Lib ProcTable

variable {t t' : Table} {h : List Event}

/-! ### Families -/

/-- Has the process with pid `y` forked the one with pid `x`? -/
def Forks (h : List Event) (y x : Int) : Prop := .forked y x ∈ h

/-- Is `x` the process `c`, a child of it, a child of these, and so on? -/
def Descends (h : List Event) (c x : Int) : Prop := Relation.ReflTransGen (Forks h) c x

def HasExited (h : List Event) (x : Int) : Prop := ∃ status, .exited x status ∈ h

/-- Forks were made by processes that had been started. -/
structure Lineage (t : Table) (h : List Event) : Prop where
  below : ∀ y x, Forks h y x → y < t.nextpid
  embryo : ∀ q, (t.proc q).life = .embryo → ∀ x, ¬Forks h (t.proc q).pid x

variable {c x : Int}

theorem Descends.mono (hdesc : Descends h c x) (es : List Event) : Descends (h ++ es) c x :=
  Relation.ReflTransGen.mono (fun _ _ hfork => List.mem_append_left es hfork) _ _ hdesc

variable {es : List Event}

theorem forks_append (hes : ∀ y x, .forked y x ∉ es) (y x : Int) : Forks (h ++ es) y x ↔ Forks h y x := by
  simp [Forks, hes]

theorem descends_append (hes : ∀ y x, .forked y x ∉ es) (c x : Int) :
    Descends (h ++ es) c x ↔ Descends h c x := by
  have hforks : Forks (h ++ es) = Forks h := by
    funext y x
    exact propext (forks_append hes y x)
  unfold Descends
  rw [hforks]

theorem descends_childless (hnone : ∀ x, ¬Forks h c x) (hdesc : Descends h c x) : x = c := by
  rcases Relation.ReflTransGen.cases_head hdesc with rfl | ⟨y, hy, -⟩
  · rfl
  · exact absurd hy (hnone y)

theorem descends_forked {y k : Int} (hnone : ∀ x, ¬Forks h k x) (hne : y ≠ k)
    (hdesc : Descends (h ++ [.forked y k]) c x) : Descends h c x ∨ x = k ∧ Descends h c y := by
  induction hdesc with
  | refl => exact .inl .refl
  | @tail b x hcb hbx ih =>
    have hedge : Forks h b x ∨ b = y ∧ x = k := by simpa [Forks] using hbx
    rcases ih with hold | ⟨rfl, -⟩
    · rcases hedge with hedge | ⟨rfl, rfl⟩
      · exact .inl (hold.tail hedge)
      · exact .inr ⟨rfl, hold⟩
    · rcases hedge with hedge | ⟨rfl, -⟩
      · exact absurd hedge (hnone x)
      · exact absurd rfl hne

variable {a : Act}

theorem not_forked_mem (hs : Step t a t' es) (hfill : ∀ p, a ≠ .own p .forkFill) (y x : Int) :
    .forked y x ∉ es := by
  cases hs with
  | @forkFill p => exact absurd rfl (hfill p)
  | _ => simp

/-! ### Every running descendant is attached -/

/-- The descendants of `c` that have not exited are in the table, filled in, and attached to the job. -/
def Held (t : Table) (h : List Event) (c : Int) (job : Nat) : Prop :=
  ∀ x, Descends h c x → ¬HasExited h x → ∃ q, (t.proc q).pid = x ∧ (t.proc q).life ≠ .unused ∧
    (∀ p, t.pc p ≠ .allocated q) ∧ (t.proc q).job = job

theorem lineage_step (hline : Lineage t h) (hinv : Inv t h) (hs : Step t a t' es) :
    Lineage t' (h ++ es) := by
  have hnext := step_nextpid hs
  have hedge : ∀ {y x}, Forks (h ++ es) y x → Forks h y x ∨ ∃ p, (t.proc p).life = .alive ∧ (t.proc p).pid = y := by
    intro y x hyx
    by_cases hfill : ∃ p, a = .own p .forkFill
    · obtain ⟨p, rfl⟩ := hfill
      cases hs with
      | @forkFill _ np hrun hpc =>
        have hnew : Forks h y x ∨ y = (t.proc p).pid ∧ x = (t.proc np).pid := by simpa [Forks] using hyx
        exact hnew.imp_right fun hy => ⟨p, life_of_running hrun, hy.1.symm⟩
    · rw [forks_append (not_forked_mem hs fun p hp => hfill ⟨p, hp⟩)] at hyx
      exact .inl hyx
  constructor
  · intro y x hyx
    rcases hedge hyx with hold | ⟨p, halive, rfl⟩
    · exact (hline.below y x hold).trans_le hnext
    · exact (hinv.pidLt p (by simp [halive])).trans_le hnext
  · intro q hq x hyx
    rcases step_life hs q with ⟨hlife, hpid⟩ | ⟨-, -, hpid, -⟩ | ⟨-, hother, -⟩ | ⟨-, hother, -⟩ | ⟨-, hother, -⟩ | ⟨-, hother, -⟩
    · rw [hlife] at hq
      rw [hpid] at hyx
      rcases hedge hyx with hold | ⟨p, halive, hp⟩
      · exact hline.embryo q hq x hold
      · obtain rfl := hinv.pidInj p q (by simp [halive]) (by simp [hq]) hp
        simp [halive] at hq
    · rw [hpid] at hyx
      rcases hedge hyx with hold | ⟨p, halive, hp⟩
      · exact absurd (hline.below _ x hold) (lt_irrefl _)
      · have hlt := hinv.pidLt p (by simp [halive])
        omega
    all_goals simp [hother] at hq

variable {job : Nat}

/-- A step that forks no child keeps the descendants attached, unless it attaches one of them to something else. -/
theorem Held.keep (hheld : Held t h c job)
    (hledger : Ledger t h) (hs : Step t a t' es) (ha : ∀ k j, a = .attachjob k j → ¬Descends h c k)
    (hx : Descends h c x) (hexit : ¬HasExited h x) : ∃ q, (t'.proc q).pid = x ∧ (t'.proc q).life ≠ .unused ∧
      (∀ p, t'.pc p ≠ .allocated q) ∧ (t'.proc q).job = job := by
  obtain ⟨q, rfl, hused, hfilled, hjob⟩ := hheld x hx hexit
  have hstays : ¬t.exits q := fun hexits => hexit ⟨_, hledger.status q hexits⟩
  have hnotZombie : (t.proc q).life ≠ .zombie := fun hzombie => hstays (.inl hzombie)
  have hlife : (t'.proc q).life ≠ .unused ∧ (t'.proc q).pid = (t.proc q).pid := by
    rcases step_life hs q with ⟨hlife, hpid⟩ | ⟨hunused, -⟩ | ⟨⟨p, hp⟩, -⟩ | ⟨-, hlife, hpid⟩ | ⟨-, hlife, hpid⟩ | ⟨hzombie, -⟩
    · exact ⟨by rwa [hlife], hpid⟩
    · exact absurd hunused hused
    · exact absurd hp (hfilled p)
    · exact ⟨by simp [hlife], hpid⟩
    · exact ⟨by simp [hlife], hpid⟩
    · exact absurd hzombie hnotZombie
  refine ⟨q, hlife.2, hlife.1, fun p hp => ?_, ?_⟩
  · exact (step_allocated hs hp).elim (hfilled p) hused
  · rcases step_job hs q with hsame | ⟨p, -, hp, -⟩ | ⟨-, hpc⟩ | hzombie | ⟨j, rfl⟩
    · exact hsame.trans hjob
    · exact absurd hp (hfilled p)
    · exact absurd (.inr (.inl hpc)) hstays
    · exact absurd (life_eq_zombie.mpr hzombie) hnotZombie
    · exact absurd hx (ha _ j rfl)

theorem Held.step (hheld : Held t h c job) (hinv : Inv t h)
    (hledger : Ledger t h) (hline : Lineage t h) (hs : Step t a t' es)
    (ha : ∀ k j, a = .attachjob k j → ¬Descends h c k) : Held t' (h ++ es) c job := by
  intro x hx hexit
  have hexit' : ¬HasExited h x := fun ⟨status, hstatus⟩ => hexit ⟨status, List.mem_append_left es hstatus⟩
  by_cases hfill : ∃ p, a = .own p .forkFill
  · obtain ⟨p, rfl⟩ := hfill
    cases hs with
    | @forkFill _ np hrun hpc =>
      have hembryo := hinv.embryo p np (by rw [hpc]; rfl)
      have halive := life_of_running hrun
      have hne : (t.proc p).pid ≠ (t.proc np).pid := by
        intro hpid
        obtain rfl := hinv.pidInj p np (by simp [halive]) (by simp [hembryo]) hpid
        simp [halive] at hembryo
      have hs : Step t (.own p .forkFill) _ _ := .forkFill hrun hpc
      rcases descends_forked (hline.embryo np hembryo) hne hx with hold | ⟨rfl, hparent⟩
      · exact hheld.keep hledger hs ha hold hexit'
      · -- the child has the job of its parent, which has not exited
        have hrunning : ¬HasExited h (t.proc p).pid := by
          rintro ⟨status, hstatus⟩
          obtain ⟨hexits, -⟩ := (hledger.exited _ status hstatus).2 p (by simp [halive]) rfl
          simp [Table.exits, halive, hpc] at hexits
        obtain ⟨q, hqpid, hqused, -, hqjob⟩ := hheld _ hparent hrunning
        obtain rfl := hinv.pidInj q p hqused (by simp [halive]) hqpid
        refine ⟨np, by simp, ?_, fun r hr => ?_, by simpa using hqjob⟩
        · have hlife : (t.proc np).life ≠ .unused := by simp [hembryo]
          simpa [Proc.life] using hlife
        · by_cases hrq : r = q
          · subst hrq
            simp at hr
          · rw [goto_of_ne _ hrq] at hr
            exact hrq (hinv.owner r q np (by rw [show t.pc r = .allocated np from hr]; rfl) (by rw [hpc]; rfl))
  · rw [descends_append (not_forked_mem hs fun p hp => hfill ⟨p, hp⟩)] at hx
    exact hheld.keep hledger hs ha hx hexit'

theorem held_attachjob {q : Slot} (hinv : Inv t h) (hpids : Pids t) (hq : (t.proc q).pid = c)
    (hlife : (t.proc q).life = .alive ∨ (t.proc q).life = .zombie) (hfirst : ∀ x, ¬Forks h c x) :
    Held (attachjob t c job) h c job := by
  intro x hx hexit
  obtain rfl := descends_childless hfirst hx
  have hused : (t.proc q).life ≠ .unused := by rcases hlife with hlife | hlife <;> simp [hlife]
  have hpos := hinv.pidPos q hused
  have hfind : slots.find? (fun p => (t.proc p).pid = x) = some q := by
    cases hfind : slots.find? fun p => (t.proc p).pid = x with
    | none => simpa [hq] using List.find?_eq_none.mp hfind q (mem_slots q)
    | some r =>
      have hr : (t.proc r).pid = x := by simpa using List.find?_some hfind
      rw [hpids.inj r q (hr.trans hq.symm) (by omega)]
  have hset : attachjob t x job = t.set q { t.proc q with job := job } := by rw [attachjob, hfind]
  rw [hset]
  refine ⟨q, by simpa using hq, by simpa [Proc.life] using hused, fun p hp => ?_, by simp⟩
  have hembryo := hinv.embryo p q (by rw [show t.pc p = .allocated q from hp]; rfl)
  rcases hlife with hlife | hlife <;> simp [hembryo] at hlife

variable {as : List Act} {s : Table × List Event}

theorem lineage_run (hrun : kernel.Run as s) : Lineage s.1 s.2 := by
  induction hrun with
  | @start s hs =>
    obtain ⟨-, hnil⟩ := hs
    rw [hnil]
    exact ⟨fun _ _ hfork => by simp [Forks] at hfork, fun _ _ _ hfork => by simp [Forks] at hfork⟩
  | step hrun ha ih =>
    obtain ⟨es, hstep, hes⟩ := kernel_step ha
    rw [hes]
    exact lineage_step ih (inv_run hrun) hstep

theorem exec_history {s' : Table × List Event} (hexec : kernel.exec s as = some s') :
    ∃ es, s'.2 = s.2 ++ es := by
  induction as generalizing s with
  | nil =>
    obtain rfl : s = s' := by simpa [Automaton.exec] using hexec
    exact ⟨[], by simp⟩
  | cons a as ih =>
    obtain ⟨s₁, hstep, hrest⟩ := Option.bind_eq_some_iff.mp hexec
    obtain ⟨es, -, hes⟩ := kernel_step (Outcome.state?_eq_some.mp hstep)
    obtain ⟨es', hes'⟩ := ih hrest
    exact ⟨es ++ es', by rw [hes', hes, List.append_assoc]⟩

theorem held_exec {bs : List Act} {s' : Table × List Event} (hrun : kernel.Run as s)
    (hheld : Held s.1 s.2 c job) (hexec : kernel.exec s bs = some s')
    (hothers : ∀ k j, .attachjob k j ∈ bs → ¬Descends s'.2 c k) : Held s'.1 s'.2 c job := by
  induction bs generalizing as s with
  | nil =>
    obtain rfl : s = s' := by simpa [Automaton.exec] using hexec
    exact hheld
  | cons a bs ih =>
    obtain ⟨es', hes'⟩ := exec_history hexec
    obtain ⟨s₁, hstep, hrest⟩ := Option.bind_eq_some_iff.mp hexec
    have hnext := Outcome.state?_eq_some.mp hstep
    obtain ⟨es, hs, hes⟩ := kernel_step hnext
    obtain ⟨hinv, hledger, -⟩ := ledger_run hrun
    have hkeep : ∀ k j, a = .attachjob k j → ¬Descends s.2 c k := by
      rintro k j rfl hdesc
      refine hothers k j List.mem_cons_self ?_
      rw [hes']
      exact hdesc.mono es'
    have hheld₁ := hheld.step hinv hledger (lineage_run hrun) hs hkeep
    rw [← hes] at hheld₁
    exact ih (hrun.step hnext) hheld₁ hrest fun k j hkj => hothers k j (List.mem_cons_of_mem a hkj)

/-- A slot has no job, or the one of a slot before the step, or the one of an `attachjob`. -/
theorem step_job_source (hs : Step t a t' es) (q : Slot) :
    (t'.proc q).job = 0 ∨ (∃ p, (t'.proc q).job = (t.proc p).job) ∨ ∃ pid, a = .attachjob pid (t'.proc q).job := by
  have hset : ∀ {t₁ : Table} {p : Slot} {v : Proc}, t₁.proc = (t.set p v).proc → (q = p → v.job = 0 ∨ (∃ r, v.job = (t.proc r).job) ∨
      ∃ pid, a = .attachjob pid v.job) → (t₁.proc q).job = 0 ∨ (∃ r, (t₁.proc q).job = (t.proc r).job) ∨
        ∃ pid, a = .attachjob pid (t₁.proc q).job := by
    intro t₁ p v ht₁ hv
    rw [ht₁, set_proc]
    split_ifs with hq
    · exact hv hq
    · exact .inr (.inl ⟨q, rfl⟩)
  cases hs with
  | noSlot | waitCall | failed => exact .inr (.inl ⟨q, rfl⟩)
  | forkAlloc | forkFail | forkFill | forkRun | exit | slept | fault | yield | sleep | schedule =>
    exact hset rfl fun _ => .inr (.inl ⟨_, rfl⟩)
  | exitClose | waited => exact hset rfl fun _ => .inl rfl
  | exitZombie => exact .inr (.inl ⟨q, (sameMarks_becomeZombie t _).job q⟩)
  | kill =>
    unfold kill
    split
    · exact hset rfl fun _ => .inr (.inl ⟨_, rfl⟩)
    · exact .inr (.inl ⟨q, rfl⟩)
  | attachjob =>
    unfold attachjob
    split
    · exact hset rfl fun _ => .inr (.inr ⟨_, rfl⟩)
    · exact .inr (.inl ⟨q, rfl⟩)
  | wakeup => exact .inr (.inl ⟨q, (sameMarks_wakeup1 t _).job q⟩)

theorem job_of_run (hrun : kernel.Run as s) : ∀ q, (s.1.proc q).job = 0 ∨ ∃ pid, .attachjob pid (s.1.proc q).job ∈ as := by
  induction hrun with
  | @start s hs =>
    obtain ⟨ht, -⟩ := hs
    have hfirst : firstTable = s.1 := by simpa [userinit_zeroTable] using ht
    intro q
    rw [← hfirst, firstTable_proc]
    split_ifs <;> exact .inl rfl
  | step hrun ha ih =>
    obtain ⟨es, hstep, -⟩ := kernel_step ha
    intro q
    rcases step_job_source hstep q with hnone | ⟨p, hp⟩ | ⟨pid, rfl⟩
    · exact .inl hnone
    · rw [hp]
      exact (ih p).imp_right fun ⟨pid, hmem⟩ => ⟨pid, List.mem_append_left _ hmem⟩
    · exact .inr ⟨pid, by simp⟩

/-- If the child that the shell has forked has not forked by the time it is attached, none of its descendants is
attached to anything else, and the jobs that processes get attached to are in the memory of the shell, then as long
as one of these has not exited the job is not empty for the shell. Address 0, which a process without a job has, can
be read as well. -/
theorem running_job_not_empty (pre post : List Act) (t₀ t : Table) (h₀ h : List Event) (c : Int) (job : Nat)
    (mem : Memory) (jid : Int) (hpre : kernel.Run pre (t₀, h₀))
    (hchild : ∃ q, (t₀.proc q).pid = c ∧ ((t₀.proc q).life = .alive ∨ (t₀.proc q).life = .zombie))
    (hfirst : ∀ x, ¬Forks h₀ c x) (hpost : kernel.exec (t₀, h₀) (.attachjob c job :: post) = some (t, h))
    (hothers : ∀ k j, .attachjob k j ∈ post → ¬Descends h c k) (hjid : mem.int job = some jid)
    (hread : ∀ k j, .attachjob k j ∈ pre ++ post → ∃ v, mem.int j = some v) (hnull : ∃ v, mem.int 0 = some v)
    (x : Int) (hx : Descends h c x) (hrunning : ¬HasExited h x) :
    (isJobEmpty t mem jid).2 = some 0 := by
  obtain ⟨q, hq, hlife⟩ := hchild
  obtain ⟨s₁, hstep, hrest⟩ := Option.bind_eq_some_iff.mp hpost
  obtain rfl : s₁ = (attachjob t₀ c job, h₀) := by simpa [kernel, step, Outcome.state?] using hstep.symm
  have hrun₁ : kernel.Run (pre ++ [.attachjob c job]) (attachjob t₀ c job, h₀) :=
    hpre.step (Outcome.state?_eq_some.mp hstep)
  have hattached : Held (attachjob t₀ c job) h₀ c job :=
    held_attachjob (inv_run hpre) (pids_run hpre) hq hlife hfirst
  have hheld : Held t h c job := held_exec hrun₁ hattached hrest hothers
  obtain ⟨r, -, -, -, hr⟩ := hheld x hx hrunning
  have hjob : ∀ p, ∃ v, mem.int (t.proc p).job = some v := fun p => by
    rcases job_of_run (hrun₁.exec hrest) p with hnone | ⟨k, hk⟩
    · rwa [hnone]
    · rw [List.append_assoc, List.mem_append, List.mem_append, List.mem_singleton] at hk
      rcases hk with hk | hk | hk
      · exact hread k _ (List.mem_append_left _ hk)
      · obtain ⟨-, heq⟩ := Act.attachjob.inj hk
        exact ⟨jid, by rw [heq, hjid]⟩
      · exact hread k _ (List.mem_append_right _ hk)
  rw [isJobEmpty, isJobEmptyFrom_eq fun p _ => hjob p, if_pos ⟨r, mem_slots r, by rw [hr, hjid]⟩]

/-- The start of a shell at slot 1, which is forked by init, and of its child at slot 2. -/
def startChild : List Act :=
  [.schedule 0, .own 0 .forkAlloc, .own 0 .forkFill, .own 0 .forkRun,
    .schedule 1, .own 1 .forkAlloc, .own 1 .forkFill, .own 1 .forkRun, .schedule 2]

def forkCommand : List Act := [.own 2 .forkAlloc, .own 2 .forkFill, .own 2 .forkRun]

def exitChild : List Act := [.own 2 (.exit 0), .own 2 .exitClose, .own 2 .exitZombie]

/-- The memory of a shell with job 1 at address 100, and another word at address 0. -/
def shellMemory : Memory where
  int a := some (if a = 100 then 1 else 83)
  string _ := some ""

/-- The child forks before the shell attaches it, and exits: the command runs, and the job is empty. -/
theorem running_job_reported_empty : ∃ t h, kernel.Run (startChild ++ forkCommand ++ [.attachjob 3 100] ++ exitChild) (t, h) ∧
    Descends h 3 4 ∧ ¬HasExited h 4 ∧ (t.proc 3).pid = 4 ∧ (t.proc 3).state = .runnable ∧
    (isJobEmpty t shellMemory 1).2 = some 1 := by
  have hexec : ((kernel.exec (firstTable, []) (startChild ++ forkCommand ++ [.attachjob 3 100] ++ exitChild)).map fun s =>
      decide (s.2 = [.forked 1 2, .forked 2 3, .forked 3 4, .exited 3 0] ∧ (s.1.proc 3).pid = 4 ∧
        (s.1.proc 3).state = .runnable ∧ (isJobEmpty s.1 shellMemory 1).2 = some 1)) = some true := by decide +kernel
  obtain ⟨⟨t, h⟩, hs, hall⟩ := Option.map_eq_some_iff.mp hexec
  obtain ⟨rfl, hpid, hstate, hempty⟩ := of_decide_eq_true hall
  refine ⟨t, _, run_firstTable.exec hs, .single (by simp [Forks]), ?_, hpid, hstate, hempty⟩
  rintro ⟨status, hstatus⟩
  simp at hstatus

/-- The child forks after it has been attached. -/
theorem running_job_not_empty_command : ∃ t₀ h₀ t h, kernel.Run startChild (t₀, h₀) ∧
    kernel.exec (t₀, h₀) (.attachjob 3 100 :: (forkCommand ++ exitChild)) = some (t, h) ∧
    Descends h 3 4 ∧ ¬HasExited h 4 ∧ (isJobEmpty t shellMemory 1).2 = some 0 := by
  have hexec : ((kernel.exec (firstTable, []) startChild).bind fun s =>
      (kernel.exec s (.attachjob 3 100 :: (forkCommand ++ exitChild))).map fun e =>
        decide (s.2 = [.forked 1 2, .forked 2 3] ∧ (s.1.proc 2).pid = 3 ∧ (s.1.proc 2).life = .alive ∧
          e.2 = [.forked 1 2, .forked 2 3, .forked 3 4, .exited 3 0])) = some true := by decide +kernel
  obtain ⟨⟨t₀, h₀⟩, hs, he⟩ := Option.bind_eq_some_iff.mp hexec
  obtain ⟨⟨t, h⟩, he, hall⟩ := Option.map_eq_some_iff.mp he
  obtain ⟨rfl, hpid, halive, rfl⟩ := of_decide_eq_true hall
  have hrunning : ¬HasExited [.forked 1 2, .forked 2 3, .forked 3 4, .exited 3 0] 4 := by
    rintro ⟨status, hstatus⟩
    simp at hstatus
  have hdesc : Descends [.forked 1 2, .forked 2 3, .forked 3 4, .exited 3 0] 3 4 := .single (by simp [Forks])
  refine ⟨t₀, _, t, _, run_firstTable.exec hs, he, hdesc, hrunning, ?_⟩
  exact running_job_not_empty startChild (forkCommand ++ exitChild) t₀ t _ _ 3 100 shellMemory 1 (run_firstTable.exec hs)
    ⟨2, hpid, .inl halive⟩ (by simp [Forks]) he (by simp [forkCommand, exitChild]) rfl (fun _ _ _ => ⟨_, rfl⟩) ⟨_, rfl⟩ 4 hdesc hrunning

end Xv6.System
