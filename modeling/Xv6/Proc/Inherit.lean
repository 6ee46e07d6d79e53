import Xv6.Proc.System
import Xv6.Proc.Marks

/-!
# What a child finds in its slot

`fork` copies the files and the job of the parent. The flag `killed` and the signal handlers are neither
copied nor cleared by `allocproc`, so a child has those that the slot was left with; the word of pending
signals is never written at all. Files are no leftover: a slot is only given back with its files closed.
-/

namespace Xv6.System

open Lib ProcTable Syscall

/-- The part of a new process that should come from its parent. -/
@[ext]
structure Inherited where
  killed : Bool
  pending : Word
  signalHandlers : Fin sigNum → Word
  ofile : Fin nofile → Option Nat
  job : Nat

def Sys.inherited (s : Sys) (q : Slot) : Inherited where
  killed := (s.table.proc q).killed
  pending := (s.fields q).pending
  signalHandlers := (s.fields q).signalHandlers
  ofile := (s.fields q).ofile
  job := (s.table.proc q).job

/-! ### Slots without files -/

/-- A slot whose files have been closed: before it is filled in, and from the loop of `exit` on. -/
def Closed (t : Table) (q : Slot) : Prop :=
  (t.proc q).life = .unused ∨ (t.proc q).life = .zombie ∨ t.pc q = .leaving ∨ ∃ p, t.pc p = .allocated q

structure Clean (s : Sys) : Prop where
  pending : ∀ q, (s.fields q).pending = 0
  files : ∀ q, Closed s.table q → ∀ fd, (s.fields q).ofile fd = none

variable {t t' : Table} {h : List Event} {s s' : Sys}

variable {q : Slot}

variable {es : List Event}

theorem step_leaving {a : Act} (hs : Step t a t' es) (h : t'.pc q = .leaving) : t.pc q = .leaving ∨ a = .own q .exitClose := by
  obtain hsame | ⟨b, rfl⟩ := step_pc hs q
  · exact .inl (hsame ▸ h)
  cases hs with
  | exitClose => exact .inr rfl
  | noSlot | slept | fault | yield | sleep => exact .inl h
  | _ => simp at h

theorem closed_step {a : Act} (hs : Step t a t' es) (hclosed : Closed t' q) :
    Closed t q ∨ a = .own q .exitClose := by
  have hlives : (t'.proc q).life = .unused ∨ (t'.proc q).life = .zombie → Closed t q := by
    rcases step_life hs q with ⟨hlife, -⟩ | ⟨hunused, -⟩ | ⟨halloc, -⟩ | ⟨-, halive, -⟩ | ⟨hleaving, -⟩ | ⟨hzombie, -⟩
    · rw [hlife]
      exact fun h => h.imp_right .inl
    · exact fun _ => .inl hunused
    · exact fun _ => .inr (.inr (.inr halloc))
    · simp [halive]
    · exact fun _ => .inr (.inr (.inl hleaving))
    · exact fun _ => .inr (.inl hzombie)
  rcases hclosed with hunused | hzombie | hleaving | ⟨r, hr⟩
  · exact .inl (hlives (.inl hunused))
  · exact .inl (hlives (.inr hzombie))
  · exact (step_leaving hs hleaving).imp_left fun h => .inr (.inr (.inl h))
  · exact .inl ((step_allocated hs hr).elim (fun h => .inr (.inr (.inr ⟨r, h⟩))) .inl)

/-! ### What steps do to the other fields -/

theorem fieldsAfter_cases (s : Sys) (a : Act) : fieldsAfter s a = s.fields ∨
    (∃ p np, a = .own p .forkFill ∧ s.table.pc p = .allocated np ∧
      fieldsAfter s a = Function.update s.fields np (forkFields (s.fields p) (s.fields np))) ∨
    (∃ p, a = .own p .exitClose ∧
      fieldsAfter s a = Function.update s.fields p { s.fields p with ofile := fun _ => none }) ∨
    ∃ q name, fieldsAfter s a = Function.update s.fields q { s.fields q with name := name } := by
  unfold fieldsAfter
  split
  · split
    · exact .inr (.inl ⟨_, _, rfl, ‹_›, rfl⟩)
    · exact .inl rfl
  · exact .inr (.inr (.inl ⟨_, rfl, rfl⟩))
  · split
    · split
      · exact .inr (.inr (.inr ⟨_, _, rfl⟩))
      · exact .inl rfl
    · exact .inl rfl
  · exact .inl rfl

theorem fieldsAfter_kept (s : Sys) (a : Act) (q : Slot) : (fieldsAfter s a q).pending = (s.fields q).pending ∧
    (fieldsAfter s a q).signalHandlers = (s.fields q).signalHandlers := by
  have hupdate : ∀ {r : Slot} {v : Fields}, v.pending = (s.fields r).pending ∧ v.signalHandlers = (s.fields r).signalHandlers →
      (Function.update s.fields r v q).pending = (s.fields q).pending ∧
      (Function.update s.fields r v q).signalHandlers = (s.fields q).signalHandlers := by
    intro r v hv
    rw [Function.update_apply]
    split
    · subst q
      exact hv
    · exact ⟨rfl, rfl⟩
  rcases fieldsAfter_cases s a with hsame | ⟨p, np, -, -, hsame⟩ | ⟨p, -, hsame⟩ | ⟨r, name, hsame⟩ <;> rw [hsame]
  · exact ⟨rfl, rfl⟩
  all_goals exact hupdate ⟨rfl, rfl⟩

theorem fieldsAfter_ofile (s : Sys) (a : Act) (q : Slot) : (fieldsAfter s a q).ofile = (s.fields q).ofile ∨
    (∃ p, a = .own p .forkFill ∧ s.table.pc p = .allocated q ∧
      (fieldsAfter s a q).ofile = (forkFields (s.fields p) (s.fields q)).ofile) ∨
    a = .own q .exitClose ∧ (fieldsAfter s a q).ofile = fun _ => none := by
  rcases fieldsAfter_cases s a with hsame | ⟨p, np, rfl, hpc, hsame⟩ | ⟨p, rfl, hsame⟩ | ⟨r, name, hsame⟩ <;> rw [hsame]
  · exact .inl rfl
  · by_cases hq : q = np
    · subst hq
      exact .inr (.inl ⟨p, rfl, hpc, by rw [Function.update_self]⟩)
    · exact .inl (by rw [Function.update_of_ne hq])
  · by_cases hq : q = p
    · subst hq
      exact .inr (.inr ⟨rfl, by rw [Function.update_self]⟩)
    · exact .inl (by rw [Function.update_of_ne hq])
  · by_cases hq : q = r
    · subst hq
      exact .inl (by rw [Function.update_self])
    · exact .inl (by rw [Function.update_of_ne hq])

theorem not_closed_of_running (hinv : Inv t h) {p : Slot} (hrun : (t.proc p).state = .running) (hpc : t.pc p = .kernel) :
    ¬Closed t p := by
  have halive := life_of_running hrun
  rintro (hunused | hzombie | hleaving | ⟨r, hr⟩)
  · simp [halive] at hunused
  · simp [halive] at hzombie
  · simp [hpc] at hleaving
  · have hembryo := hinv.embryo r p (by rw [hr]; rfl)
    simp [halive] at hembryo

theorem not_closed_of_filled (hinv : Inv t h) {p np : Slot} (hpc : t.pc p = .filled np) : ¬Closed t np := by
  have hembryo := hinv.embryo p np (by rw [hpc]; rfl)
  rintro (hunused | hzombie | hleaving | ⟨r, hr⟩)
  · simp [hembryo] at hunused
  · simp [hembryo] at hzombie
  · have halive := hinv.busy np (by simp [hleaving])
    simp [hembryo] at halive
  · obtain rfl := hinv.owner r p np (by rw [hr]; rfl) (by rw [hpc]; rfl)
    simp [hr] at hpc

theorem clean_step {a : SysAct} (hclean : Clean s) (hinv : Inv s.table h) (hinv' : ∃ h', Inv s'.table h')
    (hs : SysTrans s a s') : Clean s' := by
  obtain ⟨h', hinv'⟩ := hinv'
  cases hs with
  | badArgs => exact hclean
  | @table a t es _ hstep =>
    refine ⟨fun q => ((fieldsAfter_kept s a q).1).trans (hclean.pending q), fun q hq fd => ?_⟩
    rcases fieldsAfter_ofile s a q with hsame | ⟨p, rfl, hpc, -⟩ | ⟨rfl, hnone⟩
    · rcases closed_step (step_cases hstep) hq with hold | rfl
      · exact (congrFun hsame fd).trans (hclean.files q hold fd)
      · show (fieldsAfter s (.own q .exitClose) q).ofile fd = none
        simp only [fieldsAfter, Function.update_self]
    · -- the child that has just been filled in
      have hfilled : t.pc p = .filled q := by
        cases step_cases hstep with
        | @forkFill _ np hrun hpc' =>
          obtain rfl : np = q := by simpa [hpc] using hpc'.symm
          exact goto_self ..
      exact absurd hq (not_closed_of_filled hinv' hfilled)
    · exact congrFun hnone fd
  | @waitpid p c childPid status t es hpc hstep =>
    refine ⟨hclean.pending, fun q hq fd => ?_⟩
    rcases closed_step (step_cases hstep) hq with hold | hother
    · exact hclean.files q hold fd
    · cases hother
  | @fields p c v hrun hpc hpending =>
    have hother : ∀ q, q ≠ p → (s.setFields p v).fields q = s.fields q := fun q hq => Function.update_of_ne hq ..
    refine ⟨fun q => ?_, fun q hq fd => ?_⟩
    · by_cases hqp : q = p
      · subst hqp
        have hself : (s.setFields q v).fields q = v := Function.update_self ..
        rw [hself, hpending, hclean.pending q]
      · rw [hother q hqp, hclean.pending q]
    · have hqp : q ≠ p := by
        rintro rfl
        exact not_closed_of_running hinv hrun hpc hq
      rw [hother q hqp]
      exact hclean.files q hq fd

variable {as : List SysAct}

theorem clean_run (hrun : system.Run as s) : Clean s := by
  induction hrun with
  | @start s hs =>
    obtain ⟨-, hfields, -⟩ := hs
    have hcases : ∀ q, s.fields q = zeroFields ∨ s.fields q = { zeroFields with sz := 4096, name := initcodeName } := by
      intro q
      rw [hfields, Function.update_apply]
      split
      · exact .inr rfl
      · exact .inl rfl
    refine ⟨fun q => ?_, fun q _ fd => ?_⟩
    · rcases hcases q with hq | hq <;> rw [hq] <;> rfl
    · rcases hcases q with hq | hq <;> rw [hq] <;> rfl
  | step hrun hstep ih =>
    obtain ⟨h, hinv⟩ := inv_system hrun
    exact clean_step ih hinv (inv_system (hrun.step hstep)) (sysStep_cases hstep)

/-! ### One `fork`, with the steps of others in between -/

/-- Does a step end the `fork` of `p`, or name the parent or the child by its pid to change its job or to
kill the child? -/
def SysAct.disturbs (p : Slot) (parent child : Int) : SysAct → Prop
  | .table (.own q .forkFail) => q = p
  | .table (.own q .forkRun) => q = p
  | .table (.kill pid) => pid = child
  | .table (.attachjob pid _) => pid = child ∨ pid = parent
  | _ => False

/-- The process at `p` is in `fork`, and its child is going to be as `v` says. -/
structure Forking (s : Sys) (p np : Slot) (parent child : Int) (v : Inherited) : Prop where
  forks : (s.table.pc p).child = some np
  parentPid : (s.table.proc p).pid = parent
  childPid : (s.table.proc np).pid = child
  killed : (s.table.proc np).killed = v.killed
  handlers : (s.fields np).signalHandlers = v.signalHandlers
  files : (s.fields p).ofile = v.ofile
  job : (s.table.proc p).job = v.job
  filled : s.table.pc p = .filled np → (s.fields np).ofile = v.ofile ∧ (s.table.proc np).job = v.job

variable {p np : Slot} {parent child : Int} {v : Inherited}

theorem Forking.table {a : Act} (hfork : Forking s p np parent child v) (hclean : Clean s)
    (hinv : Inv s.table h) (hstep : step s.table a = .next (t, es))
    (ha : ¬(SysAct.table a).disturbs p parent child) :
    Forking { s with table := t, fields := fieldsAfter s a } p np parent child v := by
  obtain ⟨hchild, hparentPid, hchildPid, hkilled, hhandlers, hfiles, hjob, hfilled⟩ := hfork
  have hs := step_cases hstep
  have hembryo := life_eq_embryo.mp (hinv.embryo p np hchild)
  have halive : (s.table.proc p).life = .alive := hinv.busy p (by
    intro hpc
    simp [hpc, Pc.child] at hchild)
  have hfail : a ≠ .own p .forkFail := by
    rintro rfl
    exact ha rfl
  have hend : a ≠ .own p .forkRun := by
    rintro rfl
    exact ha rfl
  have hplace := step_forking hs hchild hfail hend
  -- the child is not running, and nobody else is filling it in
  have hidle : ∀ b, a ≠ .own np b := by
    rintro b rfl
    have hguard : (s.table.proc np).state = .running := by
      by_contra hstop
      rw [step, if_neg hstop] at hstep
      cases hstep
    rw [hembryo] at hguard
    cases hguard
  have howner : ∀ r, s.table.pc r = .allocated np → r = p := fun r hr =>
    hinv.owner r p np (by rw [hr]; rfl) hchild
  have hnotChild : ∀ r, s.table.pc r ≠ .allocated p := by
    intro r hr
    have := hinv.embryo r p (by rw [hr]; rfl)
    rw [halive] at this
    cases this
  have hnotZombie : (s.table.proc p).state ≠ .zombie ∧ (s.table.proc p).state ≠ .unused := by
    constructor <;>
      · intro hstate
        simp [Proc.life, hstate] at halive
  have hnotExit : s.table.pc p ≠ .exiting := by
    intro hpc
    simp [hpc, Pc.child] at hchild
  refine ⟨?_, ?_, ?_, ?_, ?_, ?_, ?_, ?_⟩
  · rcases hplace with ⟨hsame, -⟩ | ⟨-, -, hnow⟩
    · exact (congrArg Pc.child hsame).trans hchild
    · exact congrArg Pc.child hnow
  · rcases step_pid hs p with hsame | hdead | hdead
    · exact hsame.trans hparentPid
    · exact absurd hdead hnotZombie.2
    · exact absurd hdead hnotZombie.1
  · rcases step_pid hs np with hsame | hdead | hdead
    · exact hsame.trans hchildPid
    · simp [hembryo] at hdead
    · simp [hembryo] at hdead
  · rcases step_killed hs np with hsame | ⟨rfl | rfl, -⟩ | hdead
    · exact hsame.trans hkilled
    · exact absurd rfl (hidle _)
    · exact absurd hchildPid ha
    · simp [hembryo] at hdead
  · exact ((fieldsAfter_kept s a np).2).trans hhandlers
  · rcases fieldsAfter_ofile s a p with hsame | ⟨r, -, hr, -⟩ | ⟨rfl, -⟩
    · exact hsame.trans hfiles
    · exact absurd hr (hnotChild r)
    · cases hs with
      | exitClose hrun hpc => exact absurd hpc hnotExit
  · rcases step_job hs p with hsame | ⟨r, -, hr, -⟩ | ⟨-, hpc⟩ | hdead | ⟨job, rfl⟩
    · exact hsame.trans hjob
    · exact absurd hr (hnotChild r)
    · exact absurd hpc hnotExit
    · exact absurd hdead hnotZombie.1
    · exact absurd (.inr hparentPid) ha
  · intro hnow
    rcases hplace with ⟨hsame, hnofill⟩ | ⟨rfl, hpc, -⟩
    · obtain ⟨hfiles', hjob'⟩ := hfilled (hsame ▸ hnow)
      constructor
      · rcases fieldsAfter_ofile s a np with hsame' | ⟨r, rfl, hr, -⟩ | ⟨rfl, -⟩
        · exact hsame'.trans hfiles'
        · exact absurd (by rw [howner r hr]) hnofill
        · exact absurd rfl (hidle _)
      · rcases step_job hs np with hsame' | ⟨r, rfl, hr, -⟩ | ⟨rfl, -⟩ | hdead | ⟨job, rfl⟩
        · exact hsame'.trans hjob'
        · exact absurd (by rw [howner r hr]) hnofill
        · exact absurd rfl (hidle _)
        · simp [hembryo] at hdead
        · exact absurd (.inl hchildPid) ha
    · constructor
      · have hnone := hclean.files np (.inr (.inr (.inr ⟨p, hpc⟩)))
        show (fieldsAfter s (.own p .forkFill) np).ofile = v.ofile
        simp only [fieldsAfter, hpc, Function.update_self, forkFields, ← hfiles]
        funext fd
        rw [hnone fd]
        cases (s.fields p).ofile fd <;> rfl
      · cases hs with
        | @forkFill _ np' hrun hpc' =>
          obtain rfl : np' = np := by simpa [hpc] using hpc'.symm
          rw [← hjob]
          simp

theorem Forking.step {a : SysAct} (hfork : Forking s p np parent child v) (hclean : Clean s) (hinv : Inv s.table h)
    (hs : SysTrans s a s') (ha : ¬a.disturbs p parent child) : Forking s' p np parent child v := by
  cases hs with
  | badArgs => exact hfork
  | table _ hstep => exact hfork.table hclean hinv hstep ha
  | @waitpid q c childPid status t es hpc hstep =>
    have htable := hfork.table hclean hinv hstep (by simp [SysAct.disturbs])
    exact ⟨htable.forks, htable.parentPid, htable.childPid, htable.killed, hfork.handlers, hfork.files, htable.job,
      htable.filled⟩
  | @fields q c w hrun hpc hpending =>
    have hqp : p ≠ q := by
      rintro rfl
      have := hfork.forks
      simp [hpc, Pc.child] at this
    have hqnp : np ≠ q := by
      rintro rfl
      have hembryo := life_eq_embryo.mp (hinv.embryo p np hfork.forks)
      simp [hrun] at hembryo
    have hother : ∀ r, r ≠ q → (s.setFields q w).fields r = s.fields r := fun r hr => Function.update_of_ne hr ..
    refine ⟨hfork.forks, hfork.parentPid, hfork.childPid, hfork.killed, ?_, ?_, hfork.job, ?_⟩
    · rw [hother np hqnp]
      exact hfork.handlers
    · rw [hother p hqp]
      exact hfork.files
    · rw [hother np hqnp]
      exact hfork.filled

variable {e : Sys}

theorem Forking.exec {mid : List SysAct} {last : SysAct} (hfork : Forking s p np parent child v)
    (hrun : system.Run as s) (hmid : ∀ a ∈ mid, ¬a.disturbs p parent child)
    (hexec : system.exec s (mid ++ [last]) = some e) :
    ∃ as' s', system.Run as' s' ∧ Forking s' p np parent child v ∧ sysStep s' last = .next e := by
  induction mid generalizing as s with
  | nil =>
    obtain ⟨e', hstep, hrest⟩ := Option.bind_eq_some_iff.mp hexec
    obtain rfl : e' = e := by simpa [Automaton.exec] using hrest
    exact ⟨as, s, hrun, hfork, Outcome.state?_eq_some.mp hstep⟩
  | cons a mid ih =>
    obtain ⟨s', hstep, hrest⟩ := Option.bind_eq_some_iff.mp hexec
    have hnext := Outcome.state?_eq_some.mp hstep
    obtain ⟨h, hinv⟩ := inv_system hrun
    have hfork' := hfork.step (clean_run hrun) hinv (sysStep_cases hnext) (hmid a List.mem_cons_self)
    exact ih hfork' (hrun.step hnext) (fun b hb => hmid b (List.mem_cons_of_mem a hb)) hrest

/-- A `fork` of the process at `p` that leads from `s`, a state that is reached, to `e`, with its child at `np`. -/
def Forked (s : Sys) (p np : Slot) (e : Sys) : Prop :=
  (∃ as, system.Run as s) ∧ (allocproc s.table).map Prod.fst = some np ∧
  ∃ mid, (∀ a ∈ mid, ¬SysAct.disturbs p (s.table.proc p).pid s.table.nextpid a) ∧
    system.exec s (.table (.own p .forkAlloc) :: (mid ++ [.table (.own p .forkRun)])) = some e

theorem forkAlloc_next (hnp : (allocproc t).map Prod.fst = some np)
    (hstep : step t (.own p .forkAlloc) = .next (t', es)) : (t.proc p).state = .running ∧ (t.proc np).state = .unused ∧
    t' = ({ t.set np { t.proc np with state := .embryo, pid := t.nextpid } with nextpid := t.nextpid + 1 }).goto p
      (.allocated np) := by
  have hfind : slots.find? (fun q => (t.proc q).state = .unused) = some np := by
    simpa [allocproc, Function.comp_def] using hnp
  have hunused : (t.proc np).state = .unused := by simpa using List.find?_some hfind
  have hrun : (t.proc p).state = .running := by
    by_contra hstop
    rw [step, if_neg hstop] at hstep
    cases hstep
  rw [step, if_pos hrun] at hstep
  cases hpc : t.pc p with
  | kernel =>
    rw [hpc, ownStep, fork, allocproc, hfind] at hstep
    dsimp only [Option.map_some] at hstep
    split at hstep
    · exact ⟨hrun, hunused, (Prod.mk.inj (Outcome.next.inj hstep)).1.symm⟩
    · cases hstep
  | _ =>
    rw [hpc] at hstep
    cases hstep

/-- The child has the leftover flag and handlers of its slot, no pending signals, and its parent's files and job. -/
theorem forked_child (hforked : Forked s p np e) : e.inherited np =
    ⟨(s.table.proc np).killed, 0, (s.fields np).signalHandlers, (s.fields p).ofile, (s.table.proc p).job⟩ := by
  obtain ⟨⟨as, hrun⟩, hnp, mid, hmid, hexec⟩ := hforked
  obtain ⟨s₁, hfirst, hrest⟩ := Option.bind_eq_some_iff.mp hexec
  have hfirst : sysStep s (.table (.own p .forkAlloc)) = .next s₁ := Outcome.state?_eq_some.mp hfirst
  have hfork : Forking s₁ p np (s.table.proc p).pid s.table.nextpid
      ⟨(s.table.proc np).killed, 0, (s.fields np).signalHandlers, (s.fields p).ofile, (s.table.proc p).job⟩ := by
    cases sysStep_cases hfirst with
    | table _ hstep =>
      obtain ⟨hrunning, hunused, rfl⟩ := forkAlloc_next hnp hstep
      have hne : p ≠ np := by
        rintro rfl
        rw [hrunning] at hunused
        cases hunused
      refine ⟨?_, ?_, ?_, ?_, rfl, rfl, ?_, ?_⟩
      · rw [goto_self]
        rfl
      · simp [hne]
      · simp
      · simp
      · simp [hne]
      · simp
  have hrun₁ : system.Run (as ++ [.table (.own p .forkAlloc)]) s₁ := hrun.step hfirst
  obtain ⟨as', s', hrun', hfork', hlast⟩ := hfork.exec hrun₁ hmid hrest
  have hclean := clean_run hrun'
  cases sysStep_cases hlast with
  | table _ hstep =>
    cases step_cases hstep with
    | @forkRun _ np' hrunning hpc =>
      obtain rfl : np' = np := by simpa [hpc, Pc.child] using hfork'.forks
      obtain ⟨hfiles, hjob⟩ := hfork'.filled hpc
      ext1
      · simpa [Sys.inherited] using hfork'.killed
      · exact hclean.pending np'
      · exact hfork'.handlers
      · exact hfiles
      · simpa [Sys.inherited] using hjob

theorem signal_result (v : Fields) {signum : Word} (hsignum : signum.toNat < sigNum) (handler : Word) :
    (signal v signum handler).2 = v.signalHandlers ⟨signum.toNat, hsignum⟩ := by
  have hsmall : 2 * signum.toNat < 2 ^ 32 := by
    unfold sigNum at hsignum
    omega
  have hint : signum.toInt = signum.toNat := BitVec.toInt_eq_toNat_of_lt hsmall
  unfold signal
  rw [dif_neg]
  · simp only [hint, Int.toNat_natCast]
  · rw [hint]
    unfold sigNum at hsignum
    omega

/-- Two children whose parents have the same files and job agree on what they should have from their parents
iff their slots were left with the same flag `killed` and the same signal handlers. In particular a child
starts killed iff its slot was left so, and its first call of `signal` returns the handler left there. -/
theorem fork_leftovers_iff (s s' e e' : Sys) (p p' np np' : Slot) (hforked : Forked s p np e)
    (hforked' : Forked s' p' np' e') (hfiles : (s.fields p).ofile = (s'.fields p').ofile)
    (hjob : (s.table.proc p).job = (s'.table.proc p').job) :
    (e.inherited np = e'.inherited np' ↔ (s.table.proc np).killed = (s'.table.proc np').killed ∧
      (s.fields np).signalHandlers = (s'.fields np').signalHandlers) ∧
    ((e.table.proc np).killed = false ↔ (s.table.proc np).killed = false) ∧
    ∀ (signum handler : Word) (hsignum : signum.toNat < sigNum),
      (signal (e.fields np) signum handler).2 = (s.fields np).signalHandlers ⟨signum.toNat, hsignum⟩ := by
  have hchild := forked_child hforked
  refine ⟨?_, ?_, fun signum handler hsignum => ?_⟩
  · rw [hchild, forked_child hforked', Inherited.mk.injEq]
    simp [hfiles, hjob]
  · have hkilled : (e.table.proc np).killed = (s.table.proc np).killed := congrArg Inherited.killed hchild
    rw [hkilled]
  · have hhandlers : (e.fields np).signalHandlers = (s.fields np).signalHandlers :=
      congrArg Inherited.signalHandlers hchild
    rw [signal_result _ hsignum, hhandlers]

def forkNow : List SysAct := [.table (.own 0 .forkAlloc), .table (.own 0 .forkFill), .table (.own 0 .forkRun)]

theorem forked_forkNow (hs : system.exec firstSys as = some s)
    (hnp : (allocproc s.table).map Prod.fst = some np) (he : system.exec s forkNow = some e) : Forked s 0 np e :=
  ⟨⟨_, run_firstSys.exec hs⟩, hnp, [.table (.own 0 .forkFill)], by simp [SysAct.disturbs], he⟩

/-- The calls that lead to three forks of init into slot 1: at once; after `kill(0)`; and after a child of init
there has installed a handler for signal 3, exited and been waited for. -/
def atOnce : List SysAct := [.table (.schedule 0)]

def afterKill : List SysAct := [.table (.schedule 0), .table (.kill 0)]

def afterSignal : List SysAct :=
  .table (.schedule 0) :: forkNow ++
    [.table (.schedule 1), .call 1 (.signal 3 7), .table (.own 1 (.exit 0)), .table (.own 1 .exitClose),
      .table (.own 1 .exitZombie), .call 0 (.sysWait 0 fun _ => 100), .table (.own 0 .waitRound)]

/-- What is seen of such a fork: the slot, the parent's files and job, and the child's flag and third handler. -/
def observe (as : List SysAct) : Option (Option Slot × (Fin nofile → Option Nat) × Nat × Bool × Word) :=
  (system.exec firstSys as).bind fun s => (system.exec s forkNow).map fun e =>
    ((allocproc s.table).map Prod.fst, (s.fields 0).ofile, (s.table.proc 0).job, (e.table.proc 1).killed,
      (signal (e.fields 1) 3 0).2)

theorem forked_of_observe {np : Slot} {f : Fin nofile → Option Nat} {j : Nat} {b : Bool} {w : Word}
    (h : observe as = some (some np, f, j, b, w)) : ∃ s e, Forked s 0 np e ∧ (s.fields 0).ofile = f ∧
      (s.table.proc 0).job = j ∧ (e.table.proc 1).killed = b ∧ (signal (e.fields 1) 3 0).2 = w := by
  obtain ⟨s, hs, he⟩ := Option.bind_eq_some_iff.mp h
  obtain ⟨e, he, hall⟩ := Option.map_eq_some_iff.mp he
  simp only [Prod.mk.injEq] at hall
  obtain ⟨hnp, hfiles, hjob, hkilled, hsignal⟩ := hall
  exact ⟨s, e, forked_forkNow hs hnp he, hfiles, hjob, hkilled, hsignal⟩

/-- After `kill(0)`, which marks an unused slot, the child is killed; after a process with a handler has used the
slot, the first `signal` of the child returns that handler. Without these calls neither happens. -/
theorem fork_keeps_leftovers : ∃ s₁ s₂ s₃ e₁ e₂ e₃, Forked s₁ 0 1 e₁ ∧ Forked s₂ 0 1 e₂ ∧ Forked s₃ 0 1 e₃ ∧
    (s₁.fields 0).ofile = (s₂.fields 0).ofile ∧ (s₁.fields 0).ofile = (s₃.fields 0).ofile ∧
    (s₁.table.proc 0).job = (s₂.table.proc 0).job ∧ (s₁.table.proc 0).job = (s₃.table.proc 0).job ∧
    (e₁.table.proc 1).killed = false ∧ (e₂.table.proc 1).killed = true ∧
    (signal (e₁.fields 1) 3 0).2 = 0 ∧ (signal (e₃.fields 1) 3 0).2 = 7 := by
  have hfirst : observe atOnce = some (some 1, fun _ => none, 0, false, 0) := by decide +kernel
  have hkill : observe afterKill = some (some 1, fun _ => none, 0, true, 0) := by decide +kernel
  have hsignal : observe afterSignal = some (some 1, fun _ => none, 0, false, 7) := by decide +kernel
  obtain ⟨s₁, e₁, hforked₁, hfiles₁, hjob₁, hkilled₁, hsignal₁⟩ := forked_of_observe hfirst
  obtain ⟨s₂, e₂, hforked₂, hfiles₂, hjob₂, hkilled₂, -⟩ := forked_of_observe hkill
  obtain ⟨s₃, e₃, hforked₃, hfiles₃, hjob₃, -, hsignal₃⟩ := forked_of_observe hsignal
  exact ⟨s₁, s₂, s₃, e₁, e₂, e₃, hforked₁, hforked₂, hforked₃, hfiles₁.trans hfiles₂.symm, hfiles₁.trans hfiles₃.symm,
    hjob₁.trans hjob₂.symm, hjob₁.trans hjob₃.symm, hkilled₁, hkilled₂, hsignal₁, hsignal₃⟩

theorem fork_leftovers_iff_kill : ∃ s s' e e', Forked s 0 1 e ∧ Forked s' 0 1 e' ∧
    (e.inherited 1 = e'.inherited 1 ↔ (s.table.proc 1).killed = (s'.table.proc 1).killed ∧
      (s.fields 1).signalHandlers = (s'.fields 1).signalHandlers) := by
  have hfirst : observe atOnce = some (some 1, fun _ => none, 0, false, 0) := by decide +kernel
  have hkill : observe afterKill = some (some 1, fun _ => none, 0, true, 0) := by decide +kernel
  obtain ⟨s, e, hforked, hfiles, hjob, -⟩ := forked_of_observe hfirst
  obtain ⟨s', e', hforked', hfiles', hjob', -⟩ := forked_of_observe hkill
  exact ⟨s, s', e, e', hforked, hforked', (fork_leftovers_iff s s' e e' 0 0 1 1 hforked hforked'
    (hfiles.trans hfiles'.symm) (hjob.trans hjob'.symm)).1⟩

end Xv6.System
