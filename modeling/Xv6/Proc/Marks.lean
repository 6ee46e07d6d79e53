import Xv6.Proc.Invariant

/-!
# Who writes `killed` and `job`

These two fields of a slot are written by other processes too, which find the slot by its pid. Here is, for
each slot, which steps can change them, and what else a process in `fork` can count on for its child's slot.
-/

namespace Xv6.ProcTable

variable {t t' : Table} {h : List Event}

/-- The fields that waking a process and handing over children leave alone. -/
structure SameMarks (t t' : Table) : Prop where
  killed : ∀ q, (t'.proc q).killed = (t.proc q).killed
  job : ∀ q, (t'.proc q).job = (t.proc q).job

theorem SameMarks.refl (t : Table) : SameMarks t t := ⟨fun _ => rfl, fun _ => rfl⟩

theorem SameMarks.trans {t'' : Table} (h₁ : SameMarks t t') (h₂ : SameMarks t' t'') : SameMarks t t'' :=
  ⟨fun q => (h₂.killed q).trans (h₁.killed q), fun q => (h₂.job q).trans (h₁.job q)⟩

theorem sameMarks_set {p : Slot} {v : Proc} (hkilled : v.killed = (t.proc p).killed) (hjob : v.job = (t.proc p).job) :
    SameMarks t (t.set p v) :=
  ⟨fun q => set_field Proc.killed q hkilled, fun q => set_field Proc.job q hjob⟩

theorem sameMarks_wakeup1 (t : Table) (chan : Option Chan) : SameMarks t (wakeup1 t chan) := by
  constructor <;>
    · intro q
      simp only [wakeup1]
      split <;> rfl

theorem sameMarks_passToInit (self : Slot) (t : Table) (p : Slot) : SameMarks t (passToInit self t p) := by
  have hset : SameMarks t (t.set p { t.proc p with parent := some t.initproc }) := sameMarks_set rfl rfl
  unfold passToInit
  split
  · dsimp only
    split
    · exact hset.trans (sameMarks_wakeup1 _ _)
    · exact hset
  · exact .refl t

theorem sameMarks_foldl (self : Slot) (l : List Slot) (t : Table) : SameMarks t (l.foldl (passToInit self) t) := by
  induction l generalizing t with
  | nil => exact .refl t
  | cons p l ih => exact (sameMarks_passToInit self t p).trans (ih _)

theorem sameMarks_becomeZombie (t : Table) (self : Slot) : SameMarks t (becomeZombie t self) := by
  have hpass : SameMarks t (passChildren (wakeup1 t ((t.proc self).parent.map .slot)) self) := by
    unfold passChildren
    exact (sameMarks_wakeup1 t _).trans (sameMarks_foldl self slots _)
  exact hpass.trans (sameMarks_set rfl rfl)

variable {a : Act} {es : List Event}

theorem set_field_or {β : Type} (f : Proc → β) {p : Slot} {v : Proc} {P : Prop} {q : Slot} (h : q = p → P) :
    f ((t.set p v).proc q) = f (t.proc q) ∨ P := by
  by_cases hq : q = p
  · exact .inr (h hq)
  · exact .inl (congrArg f (set_of_ne _ hq _))

/-- A step that changes `killed` is a fault of the process or a `kill` of its pid, which set it, or its reaping. -/
theorem step_killed (hs : Step t a t' es) (q : Slot) :
    (t'.proc q).killed = (t.proc q).killed ∨ (a = .own q .fault ∨ a = .kill (t.proc q).pid) ∧ (t'.proc q).killed = true ∨
      (t.proc q).state = .zombie := by
  cases hs with
  | noSlot | waitCall | failed => exact .inl rfl
  | forkAlloc | forkFail | forkFill | forkRun | exit | exitClose | slept | yield | sleep | schedule => exact .inl (set_field Proc.killed q rfl)
  | exitZombie => exact .inl ((sameMarks_becomeZombie t _).killed q)
  | @waited p r c hrun hpc hr hzombie =>
    refine set_field_or Proc.killed ?_
    rintro rfl
    exact .inr hzombie
  | @fault p hrun =>
    refine set_field_or Proc.killed ?_
    rintro rfl
    exact .inl ⟨.inl rfl, by simp⟩
  | @kill pid =>
    unfold kill
    split
    · rename_i p hfind
      refine set_field_or Proc.killed ?_
      rintro rfl
      have hpid : (t.proc q).pid = pid := by simpa using List.find?_some hfind
      exact .inl ⟨.inr (by rw [hpid]), by simp⟩
    · exact .inl rfl
  | @attachjob pid job =>
    unfold attachjob
    split
    · exact .inl (set_field Proc.killed q rfl)
    · exact .inl rfl
  | wakeup => exact .inl ((sameMarks_wakeup1 t _).killed q)

/-- A step that changes `job` is the copying of `fork`, the process's own `exit`, its reaping, or an
`attachjob` of its pid. -/
theorem step_job (hs : Step t a t' es) (q : Slot) :
    (t'.proc q).job = (t.proc q).job ∨
    (∃ p, a = .own p .forkFill ∧ t.pc p = .allocated q ∧ (t'.proc q).job = (t.proc p).job) ∨
    a = .own q .exitClose ∧ t.pc q = .exiting ∨ (t.proc q).state = .zombie ∨ ∃ job, a = .attachjob (t.proc q).pid job := by
  cases hs with
  | noSlot | waitCall | failed => exact .inl rfl
  | forkAlloc | forkFail | forkRun | exit | slept | fault | yield | sleep | schedule => exact .inl (set_field Proc.job q rfl)
  | @forkFill p np hrun hpc =>
    refine set_field_or Proc.job ?_
    rintro rfl
    exact .inl ⟨p, rfl, hpc, by simp⟩
  | @exitClose p hrun hpc =>
    refine set_field_or Proc.job ?_
    rintro rfl
    exact .inr (.inl ⟨rfl, hpc⟩)
  | exitZombie => exact .inl ((sameMarks_becomeZombie t _).job q)
  | @waited p r c hrun hpc hr hzombie =>
    refine set_field_or Proc.job ?_
    rintro rfl
    exact .inr (.inr (.inl hzombie))
  | @kill pid =>
    unfold kill
    split
    · exact .inl (set_field Proc.job q rfl)
    · exact .inl rfl
  | @attachjob pid job =>
    unfold attachjob
    split
    · rename_i p hfind
      refine set_field_or Proc.job ?_
      rintro rfl
      have hpid : (t.proc q).pid = pid := by simpa using List.find?_some hfind
      exact .inr (.inr (.inr ⟨job, by rw [hpid]⟩))
    · exact .inl rfl
  | wakeup => exact .inl ((sameMarks_wakeup1 t _).job q)

/-- The life of a slot: it is allocated and given back or filled in, started, ended and reaped. -/
theorem step_life (hs : Step t a t' es) (q : Slot) :
    (t'.proc q).life = (t.proc q).life ∧ (t'.proc q).pid = (t.proc q).pid ∨
    (t.proc q).life = .unused ∧ (t'.proc q).life = .embryo ∧ (t'.proc q).pid = t.nextpid ∧ (∃ p, a = .own p .forkAlloc) ∨
    (∃ p, t.pc p = .allocated q) ∧ (t'.proc q).life = .unused ∧ (t'.proc q).pid = (t.proc q).pid ∨
    (∃ p, t.pc p = .filled q) ∧ (t'.proc q).life = .alive ∧ (t'.proc q).pid = (t.proc q).pid ∨
    t.pc q = .leaving ∧ (t'.proc q).life = .zombie ∧ (t'.proc q).pid = (t.proc q).pid ∨
    (t.proc q).life = .zombie ∧ (t'.proc q).life = .unused ∧ (t'.proc q).pid = 0 := by
  have hquiet : Quiet t t' → (t'.proc q).life = (t.proc q).life ∧ (t'.proc q).pid = (t.proc q).pid :=
    fun hquiet => ⟨(hquiet.kept q).life, (hquiet.kept q).pid⟩
  have hset : ∀ {p : Slot} {v : Proc} {P : Prop}, t'.proc = (t.set p v).proc → (q = p → P) →
      (t'.proc q).life = (t.proc q).life ∧ (t'.proc q).pid = (t.proc q).pid ∨ P := by
    intro p v P hproc hP
    by_cases hq : q = p
    · exact .inr (hP hq)
    · rw [hproc, set_of_ne _ hq]
      exact .inl ⟨rfl, rfl⟩
  cases hs with
  | noSlot | waitCall | failed => exact .inl ⟨rfl, rfl⟩
  | @forkAlloc p np hrun hpc hnp =>
    refine hset rfl ?_
    rintro rfl
    exact .inl ⟨life_eq_unused.mpr hnp, by simp [Proc.life], by simp, p, rfl⟩
  | @forkFail p np hrun hpc =>
    refine hset rfl ?_
    rintro rfl
    exact .inr (.inl ⟨⟨p, hpc⟩, by simp [freeSlot, Proc.life], by simp [freeSlot]⟩)
  | @forkRun p np hrun hpc =>
    refine hset rfl ?_
    rintro rfl
    exact .inr (.inr (.inl ⟨⟨p, hpc⟩, by simp [Proc.life], by simp⟩))
  | forkFill | exit | exitClose => exact .inl ⟨set_field Proc.life q rfl, set_field Proc.pid q rfl⟩
  | @exitZombie p hrun hpc =>
    have hexit := exited_becomeZombie t p
    by_cases hq : q = p
    · subst hq
      exact .inr (.inr (.inr (.inr (.inl ⟨hpc, hexit.life, hexit.pid⟩))))
    · exact .inl ⟨hexit.life_of_ne hq, hexit.pid_eq q⟩
  | @waited p r c hrun hpc hr hzombie =>
    refine hset rfl ?_
    rintro rfl
    exact .inr (.inr (.inr (.inr ⟨life_eq_zombie.mpr hzombie, by simp [reap, Proc.life], by simp [reap]⟩)))
  | slept hrun | yield hrun | sleep hrun | schedule hrun => exact .inl (hquiet (by simp [hrun]))
  | fault | kill | attachjob | wakeup => exact .inl (hquiet (by simp))

theorem step_pid (hs : Step t a t' es) (q : Slot) :
    (t'.proc q).pid = (t.proc q).pid ∨ (t.proc q).state = .unused ∨ (t.proc q).state = .zombie := by
  rcases step_life hs q with ⟨-, hpid⟩ | ⟨hunused, -⟩ | ⟨-, -, hpid⟩ | ⟨-, -, hpid⟩ | ⟨-, -, hpid⟩ | ⟨hzombie, -⟩
  · exact .inl hpid
  · exact .inr (.inl (life_eq_unused.mp hunused))
  · exact .inl hpid
  · exact .inl hpid
  · exact .inl hpid
  · exact .inr (.inr (life_eq_zombie.mp hzombie))

theorem step_pids (hs : Step t a t' es) :
    (∀ q, (t'.proc q).pid = (t.proc q).pid ∨ (t'.proc q).pid = 0) ∧ t'.nextpid = t.nextpid ∨
    ∃ np, (t'.proc np).pid = t.nextpid ∧ t'.nextpid = t.nextpid + 1 ∧ ∀ q, q ≠ np → (t'.proc q).pid = (t.proc q).pid := by
  have hlife := step_life hs
  have hpid : (∀ p, a ≠ .own p .forkAlloc) → ∀ q, (t'.proc q).pid = (t.proc q).pid ∨ (t'.proc q).pid = 0 := by
    intro ha q
    rcases hlife q with ⟨-, hpid⟩ | ⟨-, -, -, p, hp⟩ | ⟨-, -, hpid⟩ | ⟨-, -, hpid⟩ | ⟨-, -, hpid⟩ | ⟨-, -, hpid⟩
    · exact .inl hpid
    · exact absurd hp (ha p)
    · exact .inl hpid
    · exact .inl hpid
    · exact .inl hpid
    · exact .inr hpid
  cases hs with
  | noSlot => exact .inl ⟨fun q => .inl rfl, rfl⟩
  | @forkAlloc p np hrun hpc hnp =>
    exact .inr ⟨np, by simp, rfl, fun q hq => congrArg Proc.pid (set_of_ne _ hq _)⟩
  | exitZombie => exact .inl ⟨hpid (by simp), (exited_becomeZombie t _).nextpid⟩
  | kill => exact .inl ⟨hpid (by simp), (quiet_kill t _).nextpid⟩
  | attachjob => exact .inl ⟨hpid (by simp), (quiet_attachjob t _ _).nextpid⟩
  | _ => exact .inl ⟨hpid (by simp), rfl⟩

theorem step_nextpid (hs : Step t a t' es) : t.nextpid ≤ t'.nextpid := by
  obtain ⟨-, hnext⟩ | ⟨-, -, hnext, -⟩ := step_pids hs <;> omega

/-- All pids in the table, those that failed forks have left in unused slots included, are distinct. -/
structure Pids (t : Table) : Prop where
  next : 0 < t.nextpid
  nonneg : ∀ q, 0 ≤ (t.proc q).pid
  below : ∀ q, (t.proc q).pid < t.nextpid
  inj : ∀ q r, (t.proc q).pid = (t.proc r).pid → (t.proc q).pid ≠ 0 → q = r

theorem pids_step (hpids : Pids t) (hs : Step t a t' es) : Pids t' := by
  obtain ⟨hnext, hnonneg, hbelow, hinj⟩ := hpids
  rcases step_pids hs with ⟨hpid, hnext'⟩ | ⟨np, hnp, hnext', hothers⟩
  · refine ⟨by rwa [hnext'], fun q => ?_, fun q => ?_, fun q r hqr hq => ?_⟩
    · have := hnonneg q
      rcases hpid q with hsame | hzero <;> omega
    · rw [hnext']
      rcases hpid q with hsame | hzero
      · rw [hsame]
        exact hbelow q
      · rwa [hzero]
    · have hqsame := (hpid q).resolve_right hq
      have hrsame := (hpid r).resolve_right (hqr ▸ hq)
      rw [hqsame, hrsame] at hqr
      exact hinj q r hqr (hqsame ▸ hq)
  · have hcase : ∀ q, (t'.proc q).pid = t.nextpid ∧ q = np ∨ (t'.proc q).pid = (t.proc q).pid ∧ q ≠ np := by
      intro q
      by_cases hq : q = np
      · exact .inl ⟨hq ▸ hnp, hq⟩
      · exact .inr ⟨hothers q hq, hq⟩
    refine ⟨by omega, fun q => ?_, fun q => ?_, fun q r hqr hq => ?_⟩
    · have := hnonneg q
      rcases hcase q with ⟨hq, -⟩ | ⟨hq, -⟩ <;> omega
    · have := hbelow q
      rcases hcase q with ⟨hq, -⟩ | ⟨hq, -⟩ <;> omega
    · have hqlt := hbelow q
      have hrlt := hbelow r
      rcases hcase q with ⟨hq', rfl⟩ | ⟨hq', -⟩ <;> rcases hcase r with ⟨hr', rfl⟩ | ⟨hr', -⟩
      · rfl
      · omega
      · omega
      · exact hinj q r (by omega) (by omega)

theorem pids_run {as : List Act} {s : Table × List Event} (hrun : kernel.Run as s) : Pids s.1 := by
  refine hrun.invariant (I := fun _ s => Pids s.1) ?_ ?_
  · rintro ⟨t, es⟩ ⟨ht, -⟩
    obtain rfl : firstTable = t := by simpa [userinit_zeroTable] using ht
    have hpid : ∀ q, (firstTable.proc q).pid = if q = 0 then 1 else 0 := by
      intro q
      rw [firstTable_proc]
      split <;> rfl
    have hnext : firstTable.nextpid = 2 := rfl
    refine ⟨by simp [hnext], fun q => ?_, fun q => ?_, fun q r hqr hq => ?_⟩
    · rw [hpid]
      split <;> omega
    · rw [hpid, hnext]
      split <;> omega
    · have hzero : ∀ q, (firstTable.proc q).pid ≠ 0 → q = 0 := by
        intro q hq
        by_contra hne
        rw [hpid, if_neg hne] at hq
        exact hq rfl
      rw [hzero q hq, hzero r (hqr ▸ hq)]
  · intro as s a s' hpids ha
    obtain ⟨es, hstep, -⟩ := kernel_step ha
    exact pids_step hpids hstep

theorem step_pc (hs : Step t a t' es) (q : Slot) :
    t'.pc q = t.pc q ∨ ∃ b, a = .own q b := by
  have hgoto : ∀ {t : Table} {p : Slot} {pc : Pc}, q ≠ p → (t.goto p pc).pc q = t.pc q := fun hq => goto_of_ne _ hq _
  cases hs with
  | noSlot | slept | fault | yield | sleep | wakeup | schedule => exact .inl rfl
  | kill => exact .inl (by rw [kill_pc])
  | attachjob => exact .inl (by rw [attachjob_pc])
  | @exitZombie p hrun hpc =>
    by_cases hq : q = p
    · exact .inr ⟨_, by rw [hq]⟩
    · exact .inl ((hgoto hq).trans (by rw [(exited_becomeZombie t p).pc]))
  | @forkAlloc p | @forkFail p | @forkFill p | @forkRun p | @exit p | @exitClose p | @waitCall p | @waited p
    | @failed p =>
    by_cases hq : q = p
    · exact .inr ⟨_, by rw [hq]⟩
    · exact .inl (hgoto hq)

theorem step_allocated {r q : Slot} (hs : Step t a t' es) (h : t'.pc r = .allocated q) :
    t.pc r = .allocated q ∨ (t.proc q).life = .unused := by
  obtain hsame | ⟨b, rfl⟩ := step_pc hs r
  · exact .inl (hsame ▸ h)
  cases hs with
  | @forkAlloc _ np hrun hpc hnp =>
    obtain rfl : np = q := by simpa using h
    exact .inr (life_eq_unused.mpr hnp)
  | noSlot | slept | fault | yield | sleep => exact .inl h
  | _ => simp at h

/-- A process in `fork` stays with its child until it ends the fork, and fills the child in once. -/
theorem step_forking (hs : Step t a t' es) {p np : Slot} (hchild : (t.pc p).child = some np)
    (hfail : a ≠ .own p .forkFail) (hend : a ≠ .own p .forkRun) :
    t'.pc p = t.pc p ∧ a ≠ .own p .forkFill ∨ a = .own p .forkFill ∧ t.pc p = .allocated np ∧ t'.pc p = .filled np := by
  by_cases hown : ∃ b, a = .own p b
  · obtain ⟨b, rfl⟩ := hown
    cases hs with
    | forkFail => exact absurd rfl hfail
    | forkRun => exact absurd rfl hend
    | @forkFill _ np' hrun hpc =>
      obtain rfl : np' = np := by simpa [hpc, Pc.child] using hchild
      exact .inr ⟨rfl, hpc, goto_self ..⟩
    | noSlot | slept | fault | yield | sleep => exact .inl ⟨rfl, by simp⟩
    | forkAlloc hrun hpc | exit hrun hpc | exitClose hrun hpc | exitZombie hrun hpc | waitCall hrun hpc | waited hrun hpc
      | failed hrun hpc => simp [hpc, Pc.child] at hchild
  · refine .inl ⟨(step_pc hs p).resolve_right hown, ?_⟩
    rintro rfl
    exact hown ⟨_, rfl⟩

end Xv6.ProcTable
