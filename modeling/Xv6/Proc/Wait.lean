import Xv6.Proc.Invariant

/-!
# Exit statuses

A status travels from the `exit` of a child to a `waitpid` of its parent through the slot they share. The
history of events is the ledger: an exiting or dead slot still holds the status its process has exited
with, and a pid that `waitpid` has returned is no longer in the table, and never comes back.
-/

namespace Xv6.ProcTable

@[grind =] def Table.exits (t : Table) (q : Slot) : Prop :=
  (t.proc q).life = .zombie ∨ t.pc q = .exiting ∨ t.pc q = .leaving

@[mk_iff Ledger.iff]
structure Ledger (t : Table) (h : List Event) : Prop where
  status : ∀ q, t.exits q → .exited (t.proc q).pid (t.proc q).exitStatus ∈ h
  exited : ∀ k st, .exited k st ∈ h → k < t.nextpid ∧
    ∀ q, (t.proc q).life ≠ .unused → (t.proc q).pid = k → t.exits q ∧ (t.proc q).exitStatus = st
  once : ∀ k st st', .exited k st ∈ h → .exited k st' ∈ h → st = st'
  gone : ∀ P c k st, .waited P c k st ∈ h → k < t.nextpid ∧ ∀ q, (t.proc q).life ≠ .unused → (t.proc q).pid ≠ k

variable {t t' : Table} {h : List Event}

/-- An event that is neither an exit nor the return of a child. -/
def Event.plain : Event → Prop
  | .exited _ _ => False
  | .waited _ _ _ _ => False
  | _ => True

theorem Ledger.plain (hledger : Ledger t h) {e : Event} (he : e.plain) : Ledger t (h ++ [e]) := by
  have hexited : ∀ k st, .exited k st ∈ h ++ [e] ↔ .exited k st ∈ h := by
    intro k st
    cases e <;> simp_all [Event.plain]
  have hwaited : ∀ P c k st, .waited P c k st ∈ h ++ [e] ↔ .waited P c k st ∈ h := by
    intro P c k st
    cases e <;> simp_all [Event.plain]
  simpa only [Ledger.iff, hexited, hwaited] using hledger

/-- Steps after which the same processes are in the table, with the same statuses, and the same ones exit. -/
theorem Ledger.frame (hledger : Ledger t h) (hlife : ∀ q, (t'.proc q).life = .unused ↔ (t.proc q).life = .unused)
    (hpid : ∀ q, (t'.proc q).pid = (t.proc q).pid) (hstatus : ∀ q, (t'.proc q).exitStatus = (t.proc q).exitStatus)
    (hexits : ∀ q, t'.exits q ↔ t.exits q) (hnext : t'.nextpid = t.nextpid) : Ledger t' h := by
  obtain ⟨hheld, hexited, honce, hgone⟩ := hledger
  constructor
  all_goals grind

theorem Ledger.quiet (hledger : Ledger t h) (hquiet : Quiet t t') (hpc : t'.pc = t.pc) : Ledger t' h :=
  hledger.frame (fun q => by rw [(hquiet.kept q).life]) (fun q => (hquiet.kept q).pid)
    (fun q => (hquiet.kept q).exitStatus) (fun q => by simp only [Table.exits, (hquiet.kept q).life, hpc]) hquiet.nextpid

theorem Ledger.move (hledger : Ledger t h) {p : Slot} {pc : Pc}
    (hpc : pc = .exiting ∨ pc = .leaving ↔ t.pc p = .exiting ∨ t.pc p = .leaving) : Ledger (t.goto p pc) h := by
  refine hledger.frame (fun _ => .rfl) (fun _ => rfl) (fun _ => rfl) (fun q => ?_) rfl
  simp only [Table.exits, goto_proc, goto_pc]
  by_cases hq : q = p
  · subst hq
    simp [hpc]
  · simp [hq]

theorem Inv.idle (hinv : Inv t h) {q : Slot} (hq : (t.proc q).life ≠ .alive) : t.pc q = .kernel := by
  by_contra hpc
  exact hq (hinv.busy q hpc)

theorem Ledger.forkAlloc (hledger : Ledger t h) (hinv : Inv t h) {p np : Slot} (hpc : t.pc p = .kernel)
    (hnp : (t.proc np).state = .unused) :
    Ledger (({ t.set np { t.proc np with state := .embryo, pid := t.nextpid } with nextpid := t.nextpid + 1 }).goto p
      (.allocated np)) h := by
  have hunused : (t.proc np).life = .unused := life_eq_unused.mpr hnp
  have hidle : t.pc np = .kernel := hinv.idle (by simp [hunused])
  have hembryo : ∀ v : Proc, v.state = .embryo → v.life = .embryo := fun v => life_eq_embryo.mpr
  have hlt := hinv.pidLt
  obtain ⟨hheld, hexited, honce, hgone⟩ := hledger
  constructor
  all_goals
    simp only [Table.exits, goto_proc, goto_nextpid, goto_pc, set_proc, set_pc] at *
    grind

theorem Ledger.setEmbryo (hledger : Ledger t h) (hinv : Inv t h) {p np : Slot} {pc : Pc} (v : Proc)
    (hchild : (t.pc p).child = some np) (hv : v.life ≠ .zombie) (hpid : v.pid = (t.proc np).pid)
    (hpc : pc ≠ .exiting ∧ pc ≠ .leaving) : Ledger ((t.set np v).goto p pc) h := by
  have hembryo : (t.proc np).life = .embryo := hinv.embryo p np hchild
  have hidle : t.pc np = .kernel := hinv.idle (by simp [hembryo])
  have hforking : t.pc p ≠ .exiting ∧ t.pc p ≠ .leaving := by grind
  obtain ⟨hheld, hexited, honce, hgone⟩ := hledger
  constructor
  all_goals
    simp only [Table.exits, goto_proc, goto_nextpid, goto_pc, set_proc, set_nextpid, set_pc] at *
    grind

theorem Ledger.exit (hledger : Ledger t h) (hinv : Inv t h) {p : Slot} (hrun : (t.proc p).state = .running)
    (hpc : t.pc p = .kernel) (status : Int) :
    Ledger ((t.set p { t.proc p with exitStatus := status }).goto p .exiting)
      (h ++ [.exited (t.proc p).pid status]) := by
  have halive : (t.proc p).life = .alive := life_of_running hrun
  have hlife : ({ t.proc p with exitStatus := status } : Proc).life = (t.proc p).life := rfl
  have hlt := hinv.pidLt p (by simp [halive])
  have hinj := hinv.pidInj
  -- had the process exited before, it would be a zombie or on its way
  have hfirst : ∀ st, .exited (t.proc p).pid st ∉ h := by
    intro st hst
    obtain ⟨hexits, -⟩ := (hledger.exited _ st hst).2 p (by simp [halive]) rfl
    simp [Table.exits, halive, hpc] at hexits
  obtain ⟨hheld, hexited, honce, hgone⟩ := hledger
  constructor
  all_goals
    simp only [Table.exits, goto_proc, goto_nextpid, goto_pc, set_proc, set_nextpid, set_pc, List.mem_append,
      List.mem_singleton] at *
    grind

theorem Ledger.exitZombie (hledger : Ledger t h) {p : Slot} (hpc : t.pc p = .leaving)
    (halive : (t.proc p).life = .alive) (hexit : Exited t p t') : Ledger (t'.goto p .kernel) h := by
  refine hledger.frame (fun q => ?_) hexit.pid_eq hexit.exitStatus_eq (fun q => ?_) hexit.nextpid
  · by_cases hq : q = p
    · simp [hq, hexit.life, halive]
    · rw [goto_proc, hexit.life_of_ne hq]
  · by_cases hq : q = p
    · simp [Table.exits, hq, hexit.life, hpc]
    · simp only [Table.exits, goto_proc, goto_of_ne _ hq, hexit.life_of_ne hq, hexit.pc]

theorem Ledger.waited (hledger : Ledger t h) (hinv : Inv t h) {p q : Slot} {c : Int}
    (hpc : (t.pc p) ≠ .exiting ∧ t.pc p ≠ .leaving) (hzombie : (t.proc q).state = .zombie) :
    Ledger ((reap t q).goto p .kernel)
      (h ++ [.waited (t.proc p).pid c (t.proc q).pid (t.proc q).exitStatus]) := by
  have hdead : (t.proc q).life = .zombie := life_eq_zombie.mpr hzombie
  have hidle : t.pc q = .kernel := hinv.idle (by simp [hdead])
  have hunused : ∀ v : Proc, v.state = .unused → v.life = .unused := fun v => life_eq_unused.mpr
  have hlt := hinv.pidLt q (by simp [hdead])
  have hinj := hinv.pidInj
  obtain ⟨hheld, hexited, honce, hgone⟩ := hledger
  unfold reap
  constructor
  all_goals
    simp only [Table.exits, goto_proc, goto_nextpid, goto_pc, set_proc, set_nextpid, set_pc, List.mem_append,
      List.mem_singleton] at *
    grind

theorem Ledger.step {a : Act} {es : List Event} (hledger : Ledger t h) (hinv : Inv t h) (hstep : Step t a t' es) :
    Ledger t' (h ++ es) := by
  have hnone : ∀ {t' : Table}, Ledger t' h → Ledger t' (h ++ []) := by simp
  cases hstep with
  | noSlot => exact hnone hledger
  | forkAlloc hrun hpc hnp => exact hnone (hledger.forkAlloc hinv hpc hnp)
  | @forkFail p np hrun hpc =>
    exact hnone (hledger.setEmbryo hinv { t.proc np with state := .unused } (by rw [hpc]; rfl) (by simp [Proc.life])
      rfl (by simp))
  | @forkFill p np hrun hpc =>
    have hembryo : (t.proc np).state = .embryo := life_eq_embryo.mp (hinv.embryo p np (by rw [hpc]; rfl))
    have hset : Ledger ((t.set np { t.proc np with parent := some p, job := (t.proc p).job }).goto p (.filled np)) h :=
      hledger.setEmbryo hinv _ (by rw [hpc]; rfl) (by simp [Proc.life, hembryo]) rfl (by simp)
    exact hset.plain trivial
  | @forkRun p np hrun hpc =>
    exact hnone (hledger.setEmbryo hinv { t.proc np with state := .runnable } (by rw [hpc]; rfl) (by simp [Proc.life])
      rfl (by simp))
  | exit hrun hpc hinit => exact hledger.exit hinv hrun hpc _
  | exitClose hrun hpc => exact hnone ((hledger.quiet (quiet_job t _ 0) rfl).move (by simp [hpc]))
  | exitZombie hrun hpc => exact hnone (hledger.exitZombie hpc (life_of_running hrun) (exited_becomeZombie t _))
  | waitCall hrun hpc => exact hnone (hledger.move (by simp [hpc]))
  | waited hrun hpc hq hzombie => exact hledger.waited hinv (by simp [hpc]) hzombie
  | failed hrun hpc hwhy => exact (hledger.move (by simp [hpc])).plain trivial
  | slept hrun | yield hrun | sleep hrun | schedule hrun => exact hnone (hledger.quiet (by simp [hrun]) (by rfl))
  | fault | kill | attachjob => exact hnone (hledger.quiet (by simp) (by simp))
  | wakeup => exact hnone (hledger.quiet (by simp) (by rfl))

/-! ### Inherited children -/

/-- A child of init that init has not forked was inherited: the process that forked it has exited. -/
def Adopted (t : Table) (h : List Event) : Prop :=
  ∀ q, (t.proc q).parent = some t.initproc → .forked 1 (t.proc q).pid ∈ h ∨
    ∃ P st, .forked P (t.proc q).pid ∈ h ∧ .exited P st ∈ h

theorem Adopted.frame (hadopted : Adopted t h) (es : List Event) (hinit : t'.initproc = t.initproc)
    (hkept : ∀ q, (t'.proc q).parent = some t.initproc →
      (t.proc q).parent = some t.initproc ∧ (t'.proc q).pid = (t.proc q).pid) : Adopted t' (h ++ es) := by
  intro q hq
  rw [hinit] at hq
  obtain ⟨hparent, hpid⟩ := hkept q hq
  rw [hpid]
  rcases hadopted q hparent with hforked | ⟨P, st, hforked, hexited⟩
  · exact .inl (List.mem_append_left _ hforked)
  · exact .inr ⟨P, st, List.mem_append_left _ hforked, List.mem_append_left _ hexited⟩

theorem Adopted.quiet (hadopted : Adopted t h) (hquiet : Quiet t t') : Adopted t' (h ++ []) :=
  hadopted.frame [] hquiet.initproc fun q hq => ⟨(hquiet.kept q).parent ▸ hq, (hquiet.kept q).pid⟩

theorem Adopted.set (hadopted : Adopted t h) {p : Slot} {v : Proc} (es : List Event) (pc : Pc)
    (hv : v.parent = some t.initproc → (t.proc p).parent = some t.initproc ∧ v.pid = (t.proc p).pid) (q : Slot) :
    Adopted ((t.set p v).goto q pc) (h ++ es) := by
  refine hadopted.frame es rfl fun r hr => ?_
  rw [goto_proc, set_proc] at hr ⊢
  split_ifs at hr ⊢ with heq
  · exact heq ▸ hv hr
  · exact ⟨hr, rfl⟩

theorem Adopted.exitZombie (hadopted : Adopted t h) (hledger : Ledger t h) (hinv : Inv t h) {p : Slot}
    (hpc : t.pc p = .leaving) (hexit : Exited t p t') : Adopted t' h := by
  intro q hq
  have hparent : (t'.proc q).parent = (handOver p t.initproc (t.proc q)).parent := by
    by_cases hqp : q = p
    · exact hqp ▸ hexit.parent
    · exact (hexit.kept q hqp).parent
  rw [hexit.initproc, hparent, handOver] at hq
  rw [hexit.pid_eq q]
  split_ifs at hq with hchild
  · -- the child of the process that exits
    obtain hinit | hforked := (hinv.parent q p hchild).2
    · exact absurd hinit (hinv.mortal p (.inr hpc))
    · exact .inr ⟨_, _, hforked, hledger.status p (.inr (.inr hpc))⟩
  · exact hadopted q hq

theorem Adopted.step {a : Act} {es : List Event} (hadopted : Adopted t h) (hledger : Ledger t h) (hinv : Inv t h)
    (hstep : Step t a t' es) : Adopted t' (h ++ es) := by
  have hsame : ∀ {t' : Table} {es : List Event}, t'.proc = t.proc → t'.initproc = t.initproc → Adopted t' (h ++ es) :=
    fun hproc hinit => hadopted.frame _ hinit fun q hq => ⟨hproc ▸ hq, by rw [hproc]⟩
  cases hstep with
  | noSlot => exact hsame rfl rfl
  | waitCall | failed => exact hsame rfl rfl
  | @forkAlloc p np hrun hpc hnp =>
    have hnone := hinv.orphan np (life_eq_unused.mpr hnp)
    refine hadopted.frame _ rfl fun q hq => ?_
    by_cases hqnp : q = np
    · simp [hqnp, hnone] at hq
    · simpa [hqnp] using hq
  | forkFail | forkRun | exit | exitClose =>
    refine hadopted.set _ _ ?_ _
    exact fun hparent => ⟨hparent, rfl⟩
  | @forkFill p np hrun hpc =>
    intro q hq
    by_cases hqnp : q = np
    · obtain rfl : p = t.initproc := by simpa [hqnp] using hq
      left
      simp [hqnp, hinv.initPid]
    · have hkept := hadopted q (by simpa [hqnp] using hq)
      simpa [hqnp] using hkept.imp .inl fun ⟨P, st, hforked, hexited⟩ => ⟨P, .inl hforked, st, hexited⟩
  | @exitZombie p hrun hpc =>
    have hnew := hadopted.exitZombie hledger hinv hpc (exited_becomeZombie t p)
    simpa [Adopted] using hnew
  | waited hrun hpc hq hzombie => exact hadopted.set _ _ (fun hparent => by cases hparent) _
  | slept hrun | yield hrun | sleep hrun | schedule hrun => exact hadopted.quiet (by simp [hrun])
  | fault | kill | attachjob | wakeup => exact hadopted.quiet (by simp)

/-! ### Every delivery -/

/-- What is known of each return of a child, from the history alone. -/
def Delivered (initPid : Int) (h : List Event) : Prop :=
  ∀ h₁ h₂ P c k st, h = h₁ ++ .waited P c k st :: h₂ →
    0 < k ∧ (c = -1 ∨ c = k) ∧
    (.forked P k ∈ h₁ ∨ P = initPid ∧ ∃ P' st', .forked P' k ∈ h₁ ∧ .exited P' st' ∈ h₁) ∧ .exited k st ∈ h₁ ∧
    ∀ P' c' st', .waited P' c' k st' ∉ h₁ ++ h₂

theorem concat_eq_append_cons {α : Type} {l l₁ l₂ : List α} {a b : α} (h : l ++ [a] = l₁ ++ b :: l₂) :
    (l = l₁ ∧ a = b ∧ l₂ = []) ∨ ∃ l₃, l₂ = l₃ ++ [a] ∧ l = l₁ ++ b :: l₃ := by
  rcases List.eq_nil_or_concat l₂ with rfl | ⟨l₃, c, rfl⟩
  · obtain ⟨rfl, hab⟩ := List.append_inj' h rfl
    exact .inl ⟨rfl, by simpa using hab, rfl⟩
  · rw [List.concat_eq_append, ← List.cons_append, ← List.append_assoc] at h
    obtain ⟨rfl, hac⟩ := List.append_inj' h rfl
    obtain rfl : a = c := by simpa using hac
    exact .inr ⟨l₃, List.concat_eq_append, rfl⟩

theorem Delivered.other {initPid : Int} (hdel : Delivered initPid h) {e : Event}
    (he : ∀ P c k st, e ≠ .waited P c k st) : Delivered initPid (h ++ [e]) := by
  intro h₁ h₂ P c k st heq
  rcases concat_eq_append_cons heq with ⟨-, hlast, -⟩ | ⟨h₃, rfl, hold⟩
  · exact absurd hlast (he P c k st)
  · obtain ⟨hpos, hc, hparent, hexit, hunique⟩ := hdel h₁ h₃ P c k st hold
    refine ⟨hpos, hc, hparent, hexit, fun P' c' st' hmem => ?_⟩
    rw [← List.append_assoc, List.mem_append, List.mem_singleton] at hmem
    exact hmem.elim (hunique P' c' st') fun heq => he P' c' k st' heq.symm

/-- The child returned has exited, and no earlier call has returned it: its pid would be gone from the table. -/
theorem Delivered.waited (hdel : Delivered 1 h) (hledger : Ledger t h) (hadopted : Adopted t h) (hinv : Inv t h) {p q : Slot} {c : Int}
    (hq : Matches t p c q) (hzombie : (t.proc q).state = .zombie) :
    Delivered 1 (h ++ [.waited (t.proc p).pid c (t.proc q).pid (t.proc q).exitStatus]) := by
  have hdead : (t.proc q).life = .zombie := life_eq_zombie.mpr hzombie
  have hfresh : ∀ P' c' st', .waited P' c' (t.proc q).pid st' ∉ h := fun P' c' st' hmem =>
    (hledger.gone P' c' _ st' hmem).2 q (by simp [hdead]) rfl
  intro h₁ h₂ P c' k st heq
  rcases concat_eq_append_cons heq with ⟨rfl, hlast, rfl⟩ | ⟨h₃, rfl, hold⟩
  · obtain ⟨rfl, rfl, rfl, rfl⟩ := Event.waited.inj hlast
    have hpos := hinv.pidPos q (by simp [hdead])
    refine ⟨by omega, hq.2, ?_, hledger.status q (.inl hdead), by simpa using hfresh⟩
    obtain ⟨-, rfl | hforked⟩ := hinv.parent q p hq.1
    · rw [hinv.initPid]
      exact (hadopted q hq.1).imp_right fun hinherited => ⟨rfl, hinherited⟩
    · exact .inl hforked
  · obtain ⟨hpos, hc, hparent, hexit, hunique⟩ := hdel h₁ h₃ P c' k st hold
    refine ⟨hpos, hc, hparent, hexit, fun P' c'' st' hmem => ?_⟩
    rw [← List.append_assoc, List.mem_append, List.mem_singleton] at hmem
    rcases hmem with hmem | hmem
    · exact hunique P' c'' st' hmem
    · -- the child returned now would be the one returned then
      obtain ⟨rfl, rfl, rfl, rfl⟩ := Event.waited.inj hmem
      exact hfresh P c' st (by simp [hold])

theorem Delivered.step {a : Act} {es : List Event} (hdel : Delivered 1 h) (hledger : Ledger t h) (hadopted : Adopted t h)
    (hinv : Inv t h) (hstep : Step t a t' es) : Delivered 1 (h ++ es) := by
  cases hstep with
  | waited hrun hpc hq hzombie => exact hdel.waited hledger hadopted hinv hq hzombie
  | forkFill | exit | failed => exact hdel.other (by simp)
  | noSlot | forkAlloc | forkFail | forkRun | exitClose | exitZombie | waitCall | slept | fault | yield | sleep | kill
  | attachjob | wakeup | schedule => simpa using hdel

theorem ledger_firstTable : Ledger firstTable [] := by
  refine ⟨fun q hq => ?_, by simp, by simp, by simp⟩
  have hpc : firstTable.pc q = .kernel := rfl
  simp only [Table.exits, hpc, firstTable_proc] at hq
  split at hq <;> simp [Proc.life] at hq

theorem ledger_run {as : List Act} {s : Table × List Event} (h : kernel.Run as s) :
    Inv s.1 s.2 ∧ Ledger s.1 s.2 ∧ Adopted s.1 s.2 ∧ Delivered 1 s.2 := by
  refine h.invariant (I := fun _ s => Inv s.1 s.2 ∧ Ledger s.1 s.2 ∧ Adopted s.1 s.2 ∧ Delivered 1 s.2) ?_ ?_
  · rintro ⟨t, es⟩ ⟨ht, rfl⟩
    obtain rfl : firstTable = t := by simpa [userinit_zeroTable] using ht
    refine ⟨inv_firstTable, ledger_firstTable, fun q hq => ?_, fun h₁ h₂ P c k st heq => by simp at heq⟩
    simp [firstTable_proc, apply_ite Proc.parent] at hq
  · rintro as s a s' ⟨hinv, hledger, hadopted, hdel⟩ ha
    obtain ⟨es, hstep, hes⟩ := kernel_step ha
    rw [hes]
    exact ⟨hinv.step hstep, hledger.step hinv hstep, hadopted.step hledger hinv hstep, hdel.step hledger hadopted hinv hstep⟩

/-- Each `waitpid` that returns a child returns one it asked for, forked by the caller, or inherited by init from
a process that has exited, with the status of that child's `exit`, and no other call ever returns that child. One that has a status
pointer returns -1 only if its caller has been killed or has no child it asks for. -/
theorem exit_status_delivery (as : List Act) (t : Table) (h : List Event) (hrun : kernel.Run as (t, h)) :
    (∀ h₁ h₂ P c k st, h = h₁ ++ .waited P c k st :: h₂ →
      0 < k ∧ (c = -1 ∨ c = k) ∧
      (.forked P k ∈ h₁ ∨ P = (t.proc t.initproc).pid ∧ ∃ P' st', .forked P' k ∈ h₁ ∧ .exited P' st' ∈ h₁) ∧
      .exited k st ∈ h₁ ∧ (∀ st', .exited k st' ∈ h → st' = st) ∧
      ∀ P' c' st', .waited P' c' k st' ∉ h₁ ++ h₂) ∧
    ∀ a t' es P c, step t a = .next (t', es) → .failed P c true ∈ es →
      ∃ p, (t.proc p).state = .running ∧ (t.proc p).pid = P ∧
        ((∀ q, ¬Matches t p c q) ∨ (t.proc p).killed = true) := by
  obtain ⟨hinv, hledger, -, hdel⟩ := ledger_run hrun
  refine ⟨fun h₁ h₂ P c k st heq => ?_, fun a t' es P c hstep hmem => ?_⟩
  · obtain ⟨hpos, hc, hparent, hexit, hunique⟩ := hdel h₁ h₂ P c k st heq
    refine ⟨hpos, hc, ?_, hexit, fun st' hst' => ?_, hunique⟩
    · rwa [show (t.proc t.initproc).pid = 1 from hinv.initPid]
    · exact hledger.once k st' st hst' (by simp [show h = _ from heq, hexit])
  · cases step_cases hstep with
    | @failed p childPid status hprun hpc hwhy =>
      obtain ⟨rfl, rfl, rfl⟩ : P = (t.proc p).pid ∧ c = childPid ∧ true = status := by simpa using hmem
      exact ⟨p, hprun, rfl, hwhy rfl⟩
    | forkFill | exit | waited => simp at hmem
    | noSlot | forkAlloc | forkFail | forkRun | exitClose | exitZombie | waitCall | slept | fault | yield | sleep
    | kill | attachjob | wakeup | schedule => simp at hmem

/-- Init forks a child, which exits with 7, and waits for it. -/
theorem exit_status_delivery_seven : ∃ t h, kernel.Run
      [.schedule 0, .own 0 .forkAlloc, .own 0 .forkFill, .own 0 .forkRun, .schedule 1, .own 1 (.exit 7),
        .own 1 .exitClose, .own 1 .exitZombie, .own 0 (.waitCall (-1) true), .own 0 .waitRound] (t, h) ∧
    h = [.forked 1 2, .exited 2 7] ++ [.waited 1 (-1) 2 7] ∧ ∀ st', .exited 2 st' ∈ h → st' = 7 := by
  have hexec : ((kernel.exec (firstTable, [])
      [.schedule 0, .own 0 .forkAlloc, .own 0 .forkFill, .own 0 .forkRun, .schedule 1, .own 1 (.exit 7),
        .own 1 .exitClose, .own 1 .exitZombie, .own 0 (.waitCall (-1) true), .own 0 .waitRound]).map fun s => s.2) =
      some ([.forked 1 2, .exited 2 7] ++ [.waited 1 (-1) 2 7]) := by decide +kernel
  obtain ⟨⟨t, h⟩, hs, hh⟩ := Option.map_eq_some_iff.mp hexec
  obtain ⟨-, -, -, -, hstatus, -⟩ := (exit_status_delivery _ t h (run_firstTable.exec hs)).1 _ _ _ _ _ _ hh
  exact ⟨t, h, run_firstTable.exec hs, hh, hstatus⟩

end Xv6.ProcTable
