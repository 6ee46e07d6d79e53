import Xv6.Proc.Invariant

/-!
# No lost wakeup between `exit` and `waitpid`

A process sleeps in `waitpid` on its own slot. `exit` wakes the parent before the child is a zombie, and
init again for each zombie it hands over, all under `ptable.lock`. So a process that is still asleep when
the lock is free has nothing to be woken for: it waits for a child that has not exited.
-/

namespace Xv6.ProcTable

/-- Some sleepers may have been woken; nothing else has happened to states, channels and marks. -/
structure Roused (t t' : Table) : Prop where
  state : ∀ q, (t'.proc q).state = (t.proc q).state ∨
    (t.proc q).state = .sleeping ∧ (t'.proc q).state = .runnable
  chan : ∀ q, (t'.proc q).chan = (t.proc q).chan
  killed : ∀ q, (t'.proc q).killed = (t.proc q).killed

theorem Roused.refl (t : Table) : Roused t t := ⟨fun _ => .inl rfl, fun _ => rfl, fun _ => rfl⟩

theorem Roused.trans {t₁ t₂ t₃ : Table} (h : Roused t₁ t₂) (h' : Roused t₂ t₃) : Roused t₁ t₃ := by
  refine ⟨fun q => ?_, fun q => (h'.chan q).trans (h.chan q), fun q => (h'.killed q).trans (h.killed q)⟩
  rcases h.state q with hq | ⟨hsleeping, hrunnable⟩
  · rw [← hq]
    exact h'.state q
  · rcases h'.state q with hq' | ⟨hsleeping', -⟩
    · exact .inr ⟨hsleeping, hq'.trans hrunnable⟩
    · rw [hrunnable] at hsleeping'
      cases hsleeping'

theorem Roused.sleeping {t t' : Table} (h : Roused t t') {q : Slot} (hq : (t'.proc q).state = .sleeping) :
    (t.proc q).state = .sleeping := by
  rcases h.state q with hsame | ⟨hsleeping, -⟩
  · rw [← hsame, hq]
  · exact hsleeping

theorem Roused.zombie {t t' : Table} (h : Roused t t') (q : Slot) :
    (t'.proc q).state = .zombie ↔ (t.proc q).state = .zombie := by
  rcases h.state q with hsame | ⟨hsleeping, hrunnable⟩
  · rw [hsame]
  · simp [hsleeping, hrunnable]

theorem roused_wakeup1 (t : Table) (chan : Option Chan) : Roused t (wakeup1 t chan) := by
  have hproc : ∀ q, (wakeup1 t chan).proc q = t.proc q ∨
      (t.proc q).state = .sleeping ∧ (wakeup1 t chan).proc q = { t.proc q with state := .runnable } := by
    intro q
    simp only [wakeup1]
    split
    · exact .inr ⟨(‹_ ∧ _›).1, rfl⟩
    · exact .inl rfl
  refine ⟨fun q => ?_, fun q => ?_, fun q => ?_⟩
  · exact (hproc q).imp (fun h => by rw [h]) fun h => ⟨h.1, by rw [h.2]⟩
  · rcases hproc q with h | ⟨-, h⟩ <;> rw [h]
  · rcases hproc q with h | ⟨-, h⟩ <;> rw [h]

theorem wakeup1_awake (t : Table) (chan : Option Chan) (q : Slot)
    (hq : ((wakeup1 t chan).proc q).state = .sleeping) : (t.proc q).chan ≠ chan := by
  intro hchan
  have hsleeping := (roused_wakeup1 t chan).sleeping hq
  simp [wakeup1, hsleeping, hchan] at hq

/-! ### The loop of `exit` -/

theorem roused_setParent (t : Table) (p : Slot) (parent : Option Slot) :
    Roused t (t.set p { t.proc p with parent := parent }) := by
  refine ⟨fun q => .inl ?_, fun q => ?_, fun q => ?_⟩
  · exact set_field Proc.state q rfl
  · exact set_field _ q rfl
  · exact set_field _ q rfl

theorem roused_passToInit (self : Slot) (t : Table) (p : Slot) : Roused t (passToInit self t p) := by
  unfold passToInit
  split
  · dsimp only
    split
    · exact (roused_setParent t p _).trans (roused_wakeup1 _ _)
    · exact roused_setParent t p _
  · exact .refl t

theorem roused_foldl (self : Slot) (l : List Slot) (t : Table) : Roused t (l.foldl (passToInit self) t) := by
  induction l generalizing t with
  | nil => exact .refl t
  | cons p l ih => exact (roused_passToInit self t p).trans (ih _)

theorem roused_passChildren (t : Table) (self : Slot) : Roused t (passChildren t self) := by
  unfold passChildren
  exact roused_foldl self slots t

variable {p : Slot}

/-- The round that hands over a zombie wakes init, and no later round puts it to sleep. -/
theorem foldl_wakes_init (self : Slot) (l : List Slot) (t : Table) (hp : p ∈ l)
    (hchild : (t.proc p).parent = some self) (hzombie : (t.proc p).state = .zombie)
    (hinit : ((l.foldl (passToInit self) t).proc t.initproc).state = .sleeping) :
    (t.proc t.initproc).chan ≠ some (.slot t.initproc) := by
  induction l generalizing t with
  | nil => cases hp
  | cons q l ih =>
    rw [List.foldl_cons] at hinit
    have hround := roused_passToInit self t q
    by_cases hq : p = q
    · subst hq
      have hsleeping := (roused_foldl self l _).sleeping hinit
      rw [passToInit, if_pos hchild, if_pos hzombie] at hsleeping
      have hawake := wakeup1_awake _ _ _ hsleeping
      rwa [(roused_setParent t p _).chan] at hawake
    · have hkept := kept_passToInit self t q p
      rw [if_neg hq] at hkept
      have hrest := ih (passToInit self t q) ((List.mem_cons.mp hp).resolve_left hq)
        (hkept.parent.trans hchild) ((hround.zombie p).mpr hzombie)
      rw [passToInit_initproc, hround.chan] at hrest
      exact hrest hinit

theorem passChildren_wakes_init {t : Table} {self : Slot} (hchild : (t.proc p).parent = some self)
    (hzombie : (t.proc p).state = .zombie)
    (hinit : ((passChildren t self).proc t.initproc).state = .sleeping) :
    (t.proc t.initproc).chan ≠ some (.slot t.initproc) := by
  unfold passChildren at hinit
  exact foldl_wakes_init self slots t (mem_slots p) hchild hzombie hinit

/-! ### Processes asleep in `waitpid` -/

/-- A sleeper in `waitpid` has a child it waits for, and none of them has exited. -/
structure Waits (t : Table) (p : Slot) (childPid : Int) : Prop where
  chan : (t.proc p).chan = some (.slot p)
  alive : (t.proc p).killed = false
  kid : ∃ q, Matches t p childPid q
  none : ∀ q, Matches t p childPid q → (t.proc q).state ≠ .zombie

structure Asleep (t : Table) : Prop where
  waits : ∀ p c status, (t.proc p).state = .sleeping → t.pc p = .waiting c status → Waits t p c
  slot : ∀ p r, (t.proc p).state = .sleeping → (t.proc p).chan = some (.slot r) →
    r = p ∧ ∃ c status, t.pc p = .waiting c status

variable {t t' : Table} {h : List Event}

theorem Waits.frame {c : Int} (hwaits : Waits t p c) (hchan : (t'.proc p).chan = (t.proc p).chan)
    (hkilled : (t'.proc p).killed = (t.proc p).killed)
    (hkid : ∀ q, (t.proc q).parent = some p → (t'.proc q).parent = some p ∧ (t'.proc q).pid = (t.proc q).pid)
    (hdead : ∀ q, (t'.proc q).parent = some p → (t'.proc q).state = .zombie →
      (t.proc q).parent = some p ∧ (t.proc q).state = .zombie) : Waits t' p c := by
  obtain ⟨hslot, halive, ⟨q, hparent, hq⟩, hnone⟩ := hwaits
  obtain ⟨hparent', hpid⟩ := hkid q hparent
  refine ⟨hchan.trans hslot, hkilled.trans halive, ⟨q, hparent', hpid ▸ hq⟩, fun r hr hzombie => ?_⟩
  obtain ⟨hrparent, hrzombie⟩ := hdead r hr.1 hzombie
  have hrpid := (hkid r hrparent).2
  exact hnone r ⟨hrparent, hrpid ▸ hr.2⟩ hrzombie

theorem Waits.quiet {c : Int} (hwaits : Waits t p c) (hquiet : Quiet t t')
    (hchan : (t'.proc p).chan = (t.proc p).chan) (hkilled : (t'.proc p).killed = (t.proc p).killed) :
    Waits t' p c := by
  refine hwaits.frame hchan hkilled (fun q hq => ?_) fun q hq hzombie => ?_
  · exact ⟨(hquiet.kept q).parent.trans hq, (hquiet.kept q).pid⟩
  · refine ⟨(hquiet.kept q).parent ▸ hq, ?_⟩
    rw [← life_eq_zombie, ← (hquiet.kept q).life, life_eq_zombie]
    exact hzombie

theorem Asleep.frame (hasleep : Asleep t)
    (hsleep : ∀ p, (t'.proc p).state = .sleeping → (t.proc p).state = .sleeping ∧
      (t'.proc p).chan = (t.proc p).chan ∧ (t'.proc p).killed = (t.proc p).killed ∧ t'.pc p = t.pc p)
    (hkid : ∀ p q, (t'.proc p).state = .sleeping → (t.proc q).parent = some p →
      (t'.proc q).parent = some p ∧ (t'.proc q).pid = (t.proc q).pid)
    (hdead : ∀ p q, (t'.proc p).state = .sleeping → (t.proc p).chan = some (.slot p) →
      (t'.proc q).parent = some p → (t'.proc q).state = .zombie →
      (t.proc q).parent = some p ∧ (t.proc q).state = .zombie) : Asleep t' := by
  constructor
  · intro p c status hp hpc
    obtain ⟨hp', hchan, hkilled, hsame⟩ := hsleep p hp
    have hwaits := hasleep.waits p c status hp' (hsame ▸ hpc)
    exact hwaits.frame hchan hkilled (fun q => hkid p q hp) fun q => hdead p q hp hwaits.chan
  · intro p r hp hr
    obtain ⟨hp', hchan, -, hsame⟩ := hsleep p hp
    rw [hsame]
    exact hasleep.slot p r hp' (hchan ▸ hr)

theorem Asleep.quiet (hasleep : Asleep t) (hquiet : Quiet t t')
    (hsleep : ∀ p, (t'.proc p).state = .sleeping → (t.proc p).state = .sleeping ∧
      (t'.proc p).chan = (t.proc p).chan ∧ (t'.proc p).killed = (t.proc p).killed ∧ t'.pc p = t.pc p) :
    Asleep t' := by
  constructor
  · intro p c status hp hpc
    obtain ⟨hp', hchan, hkilled, hsame⟩ := hsleep p hp
    exact (hasleep.waits p c status hp' (hsame ▸ hpc)).quiet hquiet hchan hkilled
  · intro p r hp hr
    obtain ⟨hp', hchan, -, hsame⟩ := hsleep p hp
    rw [hsame]
    exact hasleep.slot p r hp' (hchan ▸ hr)

/-- A running process goes to sleep, in `waitpid` on its own slot and elsewhere on some other address. -/
theorem Asleep.sleep (hasleep : Asleep t) (hrun : (t.proc p).state = .running) {chan : Chan}
    (hwaits : ∀ c status, t.pc p = .waiting c status → Waits (sleep t p chan) p c)
    (hslot : ∀ r, chan = .slot r → r = p ∧ ∃ c status, t.pc p = .waiting c status) : Asleep (sleep t p chan) := by
  have hquiet := quiet_sleep hrun chan
  have hother : ∀ q, q ≠ p → (ProcTable.sleep t p chan).proc q = t.proc q := fun q hq => set_of_ne t hq _
  have hself : ((ProcTable.sleep t p chan).proc p).chan = some chan := by
    simp only [ProcTable.sleep, set_self]
  constructor
  · intro q c status hq hpc
    by_cases hqp : q = p
    · subst hqp
      exact hwaits c status hpc
    · rw [hother q hqp] at hq
      exact (hasleep.waits q c status hq hpc).quiet hquiet (by rw [hother q hqp]) (by rw [hother q hqp])
  · intro q r hq hr
    by_cases hqp : q = p
    · subst hqp
      rw [hself] at hr
      exact hslot r (by simpa using hr)
    · rw [hother q hqp] at hq hr
      exact hasleep.slot q r hq hr

variable {v : Proc}

/-- A step that changes one slot, which is not asleep afterwards and whose parent is not asleep. -/
theorem Asleep.set (hasleep : Asleep t) (hv : v.state ≠ .sleeping)
    (hfamily : v.parent = (t.proc p).parent ∧ v.pid = (t.proc p).pid ∧ (v.state = .zombie → (t.proc p).state = .zombie) ∨
      ∀ r, (t.proc r).state = .sleeping → (t.proc p).parent ≠ some r ∧ v.parent ≠ some r) : Asleep (t.set p v) := by
  have hne : ∀ q, ((t.set p v).proc q).state = .sleeping → q ≠ p := by
    rintro q hq rfl
    rw [set_self] at hq
    exact hv hq
  have hold : ∀ q, ((t.set p v).proc q).state = .sleeping → (t.proc q).state = .sleeping := by
    intro q hq
    rwa [set_of_ne t (hne q hq)] at hq
  refine hasleep.frame (fun q hq => ?_) (fun r q hr hq => ?_) fun r q hr _ hq hzombie => ?_
  · rw [set_of_ne t (hne q hq)]
    exact ⟨hold q hq, rfl, rfl, rfl⟩
  · by_cases hqp : q = p
    · subst hqp
      rw [set_self]
      rcases hfamily with ⟨hparent, hpid, -⟩ | hawake
      · exact ⟨hparent.trans hq, hpid⟩
      · exact absurd hq (hawake r (hold r hr)).1
    · rw [set_of_ne t hqp]
      exact ⟨hq, rfl⟩
  · by_cases hqp : q = p
    · subst hqp
      rw [set_self] at hq hzombie
      rcases hfamily with ⟨hparent, -, hdead⟩ | hawake
      · exact ⟨hparent ▸ hq, hdead hzombie⟩
      · exact absurd hq (hawake r (hold r hr)).2
    · rw [set_of_ne t hqp] at hq hzombie
      exact ⟨hq, hzombie⟩

theorem Asleep.congr (hasleep : Asleep t) (hproc : t'.proc = t.proc) (hpc : t'.pc = t.pc) : Asleep t' := by
  refine hasleep.frame (fun q hq => ?_) (fun _ q _ hq => ?_) fun _ q _ _ hq hzombie => ?_
  · rw [hproc] at hq ⊢
    exact ⟨hq, rfl, rfl, by rw [hpc]⟩
  · rw [hproc]
    exact ⟨hq, rfl⟩
  · rw [hproc] at hq hzombie
    exact ⟨hq, hzombie⟩

theorem Asleep.goto (hasleep : Asleep t) (hp : (t.proc p).state ≠ .sleeping) (pc : Pc) :
    Asleep (t.goto p pc) := by
  refine hasleep.frame (fun q hq => ?_) (fun _ q _ hq => ⟨hq, rfl⟩) fun _ q _ _ hq hzombie => ⟨hq, hzombie⟩
  have hne : q ≠ p := by
    rintro rfl
    exact hp hq
  exact ⟨hq, rfl, rfl, goto_of_ne t hne pc⟩

theorem Asleep.setGoto (hasleep : Asleep t) {q : Slot} {pc : Pc} (hrun : (t.proc p).state = .running)
    (hv : v.state ≠ .sleeping)
    (hfamily : v.parent = (t.proc q).parent ∧ v.pid = (t.proc q).pid ∧ (v.state = .zombie → (t.proc q).state = .zombie) ∨
      ∀ r, (t.proc r).state = .sleeping → (t.proc q).parent ≠ some r ∧ v.parent ≠ some r) :
    Asleep ((t.set q v).goto p pc) := by
  refine (hasleep.set hv hfamily).goto ?_ pc
  rw [set_proc]
  split
  · exact hv
  · simp [hrun]

/-- The exiting process wakes its parent, and init if it leaves it a zombie, so nobody asleep afterwards
has a new zombie among its children. -/
theorem Asleep.exitZombie (hasleep : Asleep t) (hself : (t.proc p).parent ≠ some p) :
    Asleep (becomeZombie t p) := by
  have hexit := exited_becomeZombie t p
  have hwake := roused_wakeup1 t ((t.proc p).parent.map .slot)
  have hpass := roused_passChildren (wakeup1 t ((t.proc p).parent.map .slot)) p
  have hroused := hwake.trans hpass
  have hproc : ∀ q, q ≠ p → (becomeZombie t p).proc q =
      (passChildren (wakeup1 t ((t.proc p).parent.map .slot)) p).proc q := fun q hq => set_of_ne _ hq _
  have hne : ∀ q, ((becomeZombie t p).proc q).state = .sleeping → q ≠ p := by
    rintro q hq rfl
    have hzombie := life_eq_zombie.mp hexit.life
    rw [hq] at hzombie
    cases hzombie
  refine hasleep.frame (fun r hr => ?_) (fun r q hr hq => ?_) fun r q hr hchan hq hzombie => ?_
  · have hrp := hne r hr
    rw [hproc r hrp] at hr ⊢
    exact ⟨hroused.sleeping hr, hroused.chan r, hroused.killed r, congrFun hexit.pc r⟩
  · have hstays : (t.proc q).parent ≠ some p := by
      rw [hq]
      simpa using hne r hr
    exact ⟨by rw [hexit.parent_eq, handOver, if_neg hstays, hq], hexit.pid_eq q⟩
  · have hrp := hne r hr
    rw [hproc r hrp] at hr
    rw [hexit.parent_eq, handOver] at hq
    by_cases hqp : q = p
    · -- the parent has been woken before the child is a zombie
      subst hqp
      rw [if_neg hself] at hq
      have hawake := wakeup1_awake t _ r (hpass.sleeping hr)
      rw [hq] at hawake
      exact absurd hchan hawake
    · rw [hproc q hqp, hroused.zombie] at hzombie
      split at hq
      · -- init has been woken for this zombie
        obtain rfl : t.initproc = r := by simpa using hq
        have hchild : ((wakeup1 t ((t.proc p).parent.map .slot)).proc q).parent = some p :=
          (kept_wakeup1 t _ q).parent.trans ‹_›
        have hawake := passChildren_wakes_init hchild ((hwake.zombie q).mpr hzombie) hr
        rw [hwake.chan] at hawake
        exact absurd hchan hawake
      · exact ⟨hq, hzombie⟩

/-! ### Every step -/

structure Rooted (t : Table) : Prop where
  init : (t.proc t.initproc).parent = none
  irrefl : ∀ q, (t.proc q).parent ≠ some q

theorem Rooted.frame (hrooted : Rooted t) (hparent : ∀ q, (t'.proc q).parent = (t.proc q).parent)
    (hinit : t'.initproc = t.initproc) : Rooted t' := by
  refine ⟨?_, fun q => ?_⟩
  · rw [hinit, hparent]
    exact hrooted.init
  · rw [hparent]
    exact hrooted.irrefl q

theorem Rooted.set (hrooted : Rooted t) (hinit : p = t.initproc → v.parent = none)
    (hself : v.parent ≠ some p) : Rooted (t.set p v) := by
  refine ⟨?_, fun q => ?_⟩
  · rw [set_initproc, set_proc]
    split
    · exact hinit (Eq.symm ‹_›)
    · exact hrooted.init
  · rw [set_proc]
    split
    · subst q
      exact hself
    · exact hrooted.irrefl q

theorem Rooted.quiet (hrooted : Rooted t) (hquiet : Quiet t t') : Rooted t' :=
  hrooted.frame (fun q => (hquiet.kept q).parent) hquiet.initproc

theorem Rooted.step {a : Act} {es : List Event} (hrooted : Rooted t) (hinv : Inv t h) (hstep : Step t a t' es) :
    Rooted t' := by
  cases hstep with
  | noSlot => exact hrooted
  | forkAlloc | forkFail | forkRun | exit | exitClose => exact hrooted.frame (fun q => set_field Proc.parent q rfl) rfl
  | @forkFill p np hrun hpc =>
    have hembryo : (t.proc np).life = .embryo := hinv.embryo p np (by rw [hpc]; rfl)
    have hset : Rooted (t.set np { t.proc np with parent := some p, job := (t.proc p).job }) := by
      refine hrooted.set ?_ ?_
      · rintro rfl
        rw [hinv.init] at hembryo
        cases hembryo
      · rintro heq
        obtain rfl : p = np := by simpa using heq
        rw [life_of_running hrun] at hembryo
        cases hembryo
    exact hset.frame (fun _ => rfl) rfl
  | @exitZombie p hrun hpc =>
    have hne : p ≠ t.initproc := hinv.mortal p (.inr hpc)
    have hexit := exited_becomeZombie t p
    refine ⟨?_, fun q => ?_⟩
    · rw [goto_initproc, goto_proc, hexit.initproc, hexit.parent_eq, handOver, if_neg (by simp [hrooted.init])]
      exact hrooted.init
    · rw [goto_proc, hexit.parent_eq, handOver]
      split
      · rintro heq
        obtain rfl : t.initproc = q := by simpa using heq
        simp [hrooted.init] at *
      · exact hrooted.irrefl q
  | waited => exact (hrooted.set (fun _ => rfl) (by simp)).frame (fun _ => rfl) rfl
  | waitCall | failed => exact hrooted.frame (fun _ => rfl) rfl
  | slept hrun | yield hrun | sleep hrun | schedule hrun => exact hrooted.quiet (by simp [hrun])
  | fault | kill | attachjob | wakeup => exact hrooted.quiet (by simp)

theorem Asleep.step {a : Act} {es : List Event} (hasleep : Asleep t) (hrooted : Rooted t) (hinv : Inv t h)
    (hstep : Step t a t' es) : Asleep t' := by
  cases hstep with
  | noSlot => exact hasleep
  | @forkAlloc p np hrun hpc hnp =>
    have horphan := hinv.orphan np (life_eq_unused.mpr hnp)
    have hset : Asleep ((t.set np { t.proc np with state := .embryo, pid := t.nextpid }).goto p (.allocated np)) :=
      hasleep.setGoto hrun (by simp) (.inr fun r _ => by simp [horphan])
    exact hset.congr rfl rfl
  | @forkFail p np hrun hpc =>
    have horphan := hinv.allocated p np hpc
    exact hasleep.setGoto hrun (by simp) (.inr fun r _ => by simp [horphan])
  | @forkFill p np hrun hpc =>
    have hembryo := life_eq_embryo.mp (hinv.embryo p np (by rw [hpc]; rfl))
    have horphan := hinv.allocated p np hpc
    refine hasleep.setGoto hrun (by simp [hembryo]) (.inr fun r hr => ⟨by simp [horphan], ?_⟩)
    intro heq
    obtain rfl : p = r := by simpa using heq
    simp [hrun] at hr
  | forkRun hrun hpc => exact hasleep.setGoto hrun (by simp) (.inl ⟨rfl, rfl, by simp⟩)
  | exit hrun | exitClose hrun => exact hasleep.setGoto hrun (by simp [hrun]) (.inl ⟨rfl, rfl, by simp [hrun]⟩)
  | @exitZombie p hrun hpc =>
    have hzombie := life_eq_zombie.mp (exited_becomeZombie t p).life
    exact (hasleep.exitZombie (hrooted.irrefl p)).goto (by simp [hzombie]) _
  | waitCall hrun | failed hrun => exact hasleep.goto (by simp [hrun]) _
  | @waited p q c hrun hpc hq hzombie =>
    refine hasleep.setGoto hrun (by simp) (.inr fun r hr => ⟨fun heq => ?_, by simp⟩)
    obtain rfl : p = r := by simpa [hq.1] using heq
    simp [hrun] at hr
  | @slept p c status hrun hpc halive hkid hnone =>
    refine hasleep.sleep hrun (fun c' status' hpc' => ?_) fun r hr => ⟨by simpa using hr.symm, c, status, hpc⟩
    obtain ⟨rfl, -⟩ := Pc.waiting.inj (hpc.symm.trans hpc')
    -- the scan has seen the table the process goes to sleep in, its own state apart
    have hmatches : ∀ q, Matches (ProcTable.sleep t p (.slot p)) p c q ↔ Matches t p c q := fun q => by
      have hkept := (quiet_sleep hrun (.slot p)).kept q
      simp only [Matches, hkept.parent, hkept.pid]
    refine ⟨by simp [ProcTable.sleep], by simpa [ProcTable.sleep] using halive, ?_, fun q hq hzombie => ?_⟩
    · obtain ⟨q, hq⟩ := hkid
      exact ⟨q, (hmatches q).mpr hq⟩
    · refine hnone q ((hmatches q).mp hq) ?_
      rw [← life_eq_zombie, ← ((quiet_sleep hrun (.slot p)).kept q).life, life_eq_zombie]
      exact hzombie
  | sleep hrun hpc =>
    refine hasleep.sleep hrun (fun c status hwait => ?_) fun r hr => by simp at hr
    rw [hwait] at hpc
    simp at hpc
  | fault hrun => exact hasleep.set (by simp [hrun]) (.inl ⟨rfl, rfl, by simp [hrun]⟩)
  | yield hrun | schedule hrunnable => exact hasleep.set (by simp) (.inl ⟨rfl, rfl, by simp⟩)
  | wakeup =>
    have hroused := roused_wakeup1 t (some (.other ‹_›))
    exact hasleep.quiet (quiet_wakeup1 t _) fun p hp => ⟨hroused.sleeping hp, hroused.chan p, hroused.killed p, rfl⟩
  | @kill pid =>
    unfold ProcTable.kill
    split
    · refine hasleep.set ?_ (.inl ⟨rfl, rfl, fun hzombie => ?_⟩)
      · dsimp only
        split <;> simp_all
      · dsimp only at hzombie
        split at hzombie <;> simp_all
    · exact hasleep
  | @attachjob pid job =>
    have hsame : ∀ q, ((ProcTable.attachjob t pid job).proc q).state = (t.proc q).state ∧
        ((ProcTable.attachjob t pid job).proc q).chan = (t.proc q).chan ∧
        ((ProcTable.attachjob t pid job).proc q).killed = (t.proc q).killed := by
      intro q
      unfold ProcTable.attachjob
      split
      · exact ⟨set_field Proc.state q rfl, set_field Proc.chan q rfl, set_field Proc.killed q rfl⟩
      · exact ⟨rfl, rfl, rfl⟩
    refine hasleep.quiet (quiet_attachjob t pid job) fun q hq => ?_
    obtain ⟨hstate, hchan, hkilled⟩ := hsame q
    exact ⟨hstate ▸ hq, hchan, hkilled, by rw [attachjob_pc]⟩

/-! ### Every run -/

theorem asleep_run {as : List Act} {s : Table × List Event} (hrun : kernel.Run as s) : Asleep s.1 := by
  have hall : Inv s.1 s.2 ∧ Rooted s.1 ∧ Asleep s.1 := by
    refine hrun.invariant (I := fun _ s => Inv s.1 s.2 ∧ Rooted s.1 ∧ Asleep s.1) ?_ ?_
    · rintro ⟨t, es⟩ ⟨ht, rfl⟩
      obtain rfl : firstTable = t := by simpa [userinit_zeroTable] using ht
      have hnone : ∀ q, (firstTable.proc q).parent = none ∧ (firstTable.proc q).state ≠ .sleeping := by
        intro q
        rw [firstTable_proc]
        split <;> simp
      exact ⟨inv_firstTable, ⟨(hnone _).1, fun q => by simp [(hnone q).1]⟩,
        ⟨fun p _ _ hp => absurd hp (hnone p).2, fun p _ hp => absurd hp (hnone p).2⟩⟩
    · rintro as s a s' ⟨hinv, hrooted, hasleep⟩ ha
      obtain ⟨es, hstep, hes⟩ := kernel_step ha
      rw [hes]
      exact ⟨hinv.step hstep, hrooted.step hinv hstep, hasleep.step hrooted hinv hstep⟩
  exact hall.2.2

end Xv6.ProcTable
