import Xv6.Sched.Refine

/-!
# One processor for each running process

While a processor is in a process, or between `proc = p` and `proc = 0` in its scheduler, no other processor
is with that process. What carries this across `swtch` is the lock: from the moment a process gives up the
state `RUNNING` until its processor has cleared `proc`, and from `proc = p` until the process releases it,
the lock is held, so no other processor looks at the table.
-/

namespace Xv6.Sched

open ProcTable

variable {κ : Type}

def Place.slot? : Place → Option Slot
  | .idle | .loop => none
  | .picked p | .loaded p | .running p | .returned p | .unloaded p => some p

def Phase.locked : Phase → Bool
  | .free | .off _ => false
  | .held | .reap _ | .reapVm _ | .reaped _ | .done | .sched _ | .on _ => true

def Phase.isOff : Phase → Bool
  | .off _ => true
  | _ => false

/-- Does the processor hold the lock, in its scheduler or in the process it runs? -/
def Machine.holds (m : Machine κ) (c : κ) : Bool :=
  match (m.cpu c).place with
  | .idle => false
  | .running p => (m.phase p).locked
  | .loop | .picked _ | .loaded _ | .returned _ | .unloaded _ => true

def Caller.leaves : Caller → ProcState
  | .forkret | .yield => .runnable
  | .sleep | .waitpid => .sleeping
  | .exit => .zombie

def Phase.Fits (s : ProcState) : Phase → Prop
  | .off k => s ≠ .running ∧ (s = .runnable ∨ s = .sleeping → k ≠ .exit)
  | .sched k => s = k.leaves
  | _ => s = .running

def Machine.Fits (m : Machine κ) (c : κ) : Prop :=
  let v := m.cpu c
  match v.place with
  | .idle | .loop => v.proc = none ∧ v.cr3 = none ∧ v.stack = none
  | .picked p => v.proc = some p ∧ v.cr3 = none ∧ v.stack = none ∧ (m.table.proc p).state = .runnable
  | .loaded p => v.proc = some p ∧ v.cr3 = m.pgdir p ∧ v.stack = none ∧ (m.table.proc p).state = .runnable
  | .running p => v.proc = some p ∧ v.cr3 = m.pgdir p ∧ v.stack = m.kstack p ∧ (m.phase p).isOff = false
  | .returned p => v.proc = some p ∧ v.cr3 = m.pgdir p ∧ v.stack = none ∧ (m.phase p).isOff = true ∧
    (m.table.proc p).state ≠ .unused ∧ (m.table.proc p).state ≠ .embryo
  | .unloaded p => v.proc = some p ∧ v.cr3 = none ∧ v.stack = none ∧ (m.phase p).isOff = true ∧
    (m.table.proc p).state ≠ .unused ∧ (m.table.proc p).state ≠ .embryo

structure Exclusive (m : Machine κ) : Prop where
  cpu : ∀ c, m.Fits c
  slot : ∀ p, (m.phase p).Fits (m.table.proc p).state
  unique : ∀ c d p, (m.cpu c).place.slot? = some p → (m.cpu d).place.slot? = some p → c = d
  lock : ∀ c, m.lock = some c ↔ m.holds c = true
  onCpu : ∀ p, (m.phase p).isOff = false → ∃ c, (m.cpu c).place = .running p

variable {m m' : Machine κ}

/-- The parts of the machine that `Fits` and `holds` read for the process at `q`. -/
structure Machine.Keeps (m m' : Machine κ) (q : Slot) : Prop where
  state : (m'.table.proc q).state = (m.table.proc q).state
  phase : m'.phase q = m.phase q
  pgdir : m'.pgdir q = m.pgdir q
  kstack : m'.kstack q = m.kstack q

theorem Machine.Fits.congr {d : κ} (h : m.Fits d) (hcpu : m'.cpu d = m.cpu d)
    (hkeep : ∀ q, (m.cpu d).place.slot? = some q → m.Keeps m' q) : m'.Fits d := by
  unfold Machine.Fits at h ⊢
  rw [hcpu]
  dsimp only at h ⊢
  split at h
  · exact h
  · exact h
  all_goals
    rename_i q hplace
    obtain ⟨hstate, hphase, hpgdir, hkstack⟩ := hkeep q (by rw [hplace]; rfl)
    simpa only [hstate, hphase, hpgdir, hkstack] using h

theorem holds_congr {d : κ} (hcpu : m'.cpu d = m.cpu d)
    (hkeep : ∀ q, (m.cpu d).place.slot? = some q → m.Keeps m' q) : m'.holds d = m.holds d := by
  unfold Machine.holds
  rw [hcpu]
  split
  · rfl
  · rename_i q hplace
    rw [(hkeep q (by rw [hplace]; rfl)).phase]
  all_goals rfl

/-- A step of processor `c`. It leaves the other processors and the processes they are with alone, and what
changes at `c` and in the other slots is in order. -/
theorem Exclusive.step (hex : Exclusive m) {c : κ} (hcpu : ∀ d, d ≠ c → m'.cpu d = m.cpu d)
    (hkeep : ∀ d, d ≠ c → ∀ q, (m.cpu d).place.slot? = some q → m.Keeps m' q) (hfits : m'.Fits c)
    (hslot : ∀ q, m'.phase q = m.phase q ∧ (m'.table.proc q).state = (m.table.proc q).state ∨
      (m'.phase q).Fits (m'.table.proc q).state)
    (hunique : ∀ d, d ≠ c → ∀ q, (m'.cpu c).place.slot? = some q → (m.cpu d).place.slot? ≠ some q)
    (hlock : m'.lock = m.lock ∧ m'.holds c = m.holds c ∨ m.lock = none ∧ m'.lock = some c ∧ m'.holds c = true ∨
      m.holds c = true ∧ m'.lock = none ∧ m'.holds c = false)
    (honCpu : ∀ q, (m'.phase q).isOff = false → (m'.cpu c).place = .running q ∨
      (m.phase q).isOff = false ∧ (m.cpu c).place ≠ .running q) : Exclusive m' := by
  constructor
  · intro d
    by_cases hd : d = c
    · rw [hd]
      exact hfits
    · exact (hex.cpu d).congr (hcpu d hd) (hkeep d hd)
  · intro q
    rcases hslot q with ⟨hphase, hstate⟩ | hq
    · rw [hphase, hstate]
      exact hex.slot q
    · exact hq
  · intro d e q hd he
    by_cases hdc : d = c
    · by_cases hec : e = c
      · rw [hdc, hec]
      · subst hdc
        rw [hcpu e hec] at he
        exact absurd he (hunique e hec q hd)
    · rw [hcpu d hdc] at hd
      by_cases hec : e = c
      · subst hec
        exact absurd hd (hunique d hdc q he)
      · rw [hcpu e hec] at he
        exact hex.unique d e q hd he
  · intro d
    by_cases hd : d = c
    · subst hd
      rcases hlock with ⟨hsame, hholds⟩ | ⟨-, hnew, hholds⟩ | ⟨-, hnew, hholds⟩
      · rw [hsame, hholds]
        exact hex.lock d
      · simp [hnew, hholds]
      · simp [hnew, hholds]
    · have hholds := holds_congr (hcpu d hd) (hkeep d hd)
      rw [hholds, ← hex.lock d]
      rcases hlock with ⟨hsame, -⟩ | ⟨hnone, hnew, -⟩ | ⟨hc, hnew, -⟩
      · rw [hsame]
      · simp [hnone, hnew, Ne.symm hd]
      · simp [hnew, (hex.lock c).mpr hc, Ne.symm hd]
  · intro q hq
    rcases honCpu q hq with hc | ⟨hold, hc⟩
    · exact ⟨c, hc⟩
    · obtain ⟨d, hd⟩ := hex.onCpu q hold
      have hdc : d ≠ c := by
        rintro rfl
        exact hc hd
      exact ⟨d, by rw [hcpu d hdc]; exact hd⟩

/-- A processor without the lock is idle or in a process that runs without it. -/
theorem Exclusive.without (hex : Exclusive m) {d : κ} (hlock : m.lock ≠ some d) {q : Slot} (hq : (m.cpu d).place.slot? = some q) :
    (m.cpu d).place = .running q ∧ m.phase q = .free ∧ (m.table.proc q).state = .running := by
  have hfree : m.holds d = false := by rwa [Ne, hex.lock d, Bool.not_eq_true] at hlock
  have hfits := hex.cpu d
  have hslot := hex.slot q
  cases hplace : (m.cpu d).place with
  | running r =>
    obtain rfl : r = q := by simpa [hplace, Place.slot?] using hq
    simp only [Machine.holds, hplace] at hfree
    simp only [Machine.Fits, hplace] at hfits
    cases hphase : m.phase r <;> simp_all [Phase.locked, Phase.isOff, Phase.Fits]
  | idle | loop => simp [hplace, Place.slot?] at hq
  | picked | loaded | returned | unloaded => simp [Machine.holds, hplace] at hfree

theorem Exclusive.others (hex : Exclusive m) {c d : κ} (hlock : m.lock = some c) (hd : d ≠ c) {q : Slot}
    (hq : (m.cpu d).place.slot? = some q) :
    (m.cpu d).place = .running q ∧ m.phase q = .free ∧ (m.table.proc q).state = .running :=
  hex.without (by simpa [hlock] using Ne.symm hd) hq

theorem Exclusive.unborn (hex : Exclusive m) {q : Slot}
    (hq : (m.table.proc q).state = .unused ∨ (m.table.proc q).state = .embryo) (d : κ) :
    (m.cpu d).place.slot? ≠ some q := by
  intro hd
  have hfits := hex.cpu d
  have hslot := hex.slot q
  cases hplace : (m.cpu d).place with
  | running r =>
    obtain rfl : r = q := by simpa [hplace, Place.slot?] using hd
    simp only [Machine.Fits, hplace] at hfits
    cases hphase : m.phase r with
    | sched k => cases k <;> simp_all [Phase.Fits, Caller.leaves]
    | _ => simp_all [Phase.Fits, Phase.isOff]
  | idle | loop => simp [hplace, Place.slot?] at hd
  | picked r | loaded r | returned r | unloaded r =>
    obtain rfl : r = q := by simpa [hplace, Place.slot?] using hd
    simp only [Machine.Fits, hplace] at hfits
    simp_all

theorem Exclusive.fits (hex : Exclusive m) {p : Slot} {ph : Phase} (hphase : m.phase p = ph) : ph.Fits (m.table.proc p).state :=
  hphase ▸ hex.slot p

theorem Exclusive.offOf (hex : Exclusive m) {q : Slot} (hq : ∀ d, (m.cpu d).place.slot? ≠ some q) :
    (m.phase q).isOff = true := by
  by_contra hon
  obtain ⟨d, hd⟩ := hex.onCpu q (by simpa using hon)
  exact hq d (by rw [hd]; rfl)

/-- A step of the scheduler of `c`, which changes the variables of this processor and perhaps the lock. -/
theorem Exclusive.setCpu [DecidableEq κ] (hex : Exclusive m) {c : κ} {v : Cpu} {l : Option κ}
    (hout : ∀ q, (m.cpu c).place ≠ .running q) (hfits : ({ m with lock := l }.setCpu c v).Fits c)
    (hslot : ∀ q, v.place.slot? = some q → (m.cpu c).place.slot? = some q ∨ ∀ d, d ≠ c → (m.cpu d).place.slot? ≠ some q)
    (hlock : l = m.lock ∧ ({ m with lock := l }.setCpu c v).holds c = m.holds c ∨
      m.lock = none ∧ l = some c ∧ ({ m with lock := l }.setCpu c v).holds c = true ∨
      m.holds c = true ∧ l = none ∧ ({ m with lock := l }.setCpu c v).holds c = false) :
    Exclusive ({ m with lock := l }.setCpu c v) := by
  refine hex.step (c := c) (fun d hd => Function.update_of_ne hd ..) (fun _ _ q _ => ⟨rfl, rfl, rfl, rfl⟩) hfits
    (fun q => .inl ⟨rfl, rfl⟩) (fun d hd q hq hdq => ?_) hlock fun q hq => .inr ⟨hq, hout q⟩
  have hv : (({ m with lock := l }.setCpu c v).cpu c) = v := Function.update_self ..
  rw [hv] at hq
  rcases hslot q hq with hc | hnone
  · exact hd (hex.unique d c q hdq hc)
  · exact hnone d hd hdq

/-- A step of the process that `c` runs. Of the other slots it changes only such as no processor is with. -/
theorem Exclusive.process (hex : Exclusive m) {c : κ} {p : Slot} (hplace : (m.cpu c).place = .running p)
    (hcpu : m'.cpu = m.cpu) (hphase : (m'.phase p).isOff = false)
    (hstate : (m'.phase p).Fits (m'.table.proc p).state) (hpages : m'.pgdir p = m.pgdir p ∧ m'.kstack p = m.kstack p)
    (hothers : ∀ q, q ≠ p → m.Keeps m' q ∨ (∀ d, (m.cpu d).place.slot? ≠ some q) ∧
      (m'.phase q).isOff = true ∧ (m'.phase q).Fits (m'.table.proc q).state)
    (hlock : m'.lock = m.lock ∧ (m'.phase p).locked = (m.phase p).locked ∨
      m.lock = none ∧ m'.lock = some c ∧ (m'.phase p).locked = true ∨
      (m.phase p).locked = true ∧ m'.lock = none ∧ (m'.phase p).locked = false) : Exclusive m' := by
  have hslot : (m.cpu c).place.slot? = some p := by rw [hplace]; rfl
  have hholds : m.holds c = (m.phase p).locked := by simp only [Machine.holds, hplace]
  have hholds' : m'.holds c = (m'.phase p).locked := by simp only [Machine.holds, hcpu, hplace]
  refine hex.step (c := c) (fun d _ => by rw [hcpu]) (fun d hd q hq => ?_) ?_ (fun q => ?_) (fun d hd q hq hdq => ?_) ?_
    fun q hq => ?_
  · have hqp : q ≠ p := by
      rintro rfl
      exact hd (hex.unique d c q hq hslot)
    exact (hothers q hqp).resolve_right fun hnone => hnone.1 d hq
  · have hfits := hex.cpu c
    simp only [Machine.Fits, hcpu, hplace] at hfits ⊢
    exact ⟨hfits.1, hfits.2.1.trans hpages.1.symm, hfits.2.2.1.trans hpages.2.symm, hphase⟩
  · by_cases hqp : q = p
    · rw [hqp]
      exact .inr hstate
    · exact (hothers q hqp).imp (fun hkeep => ⟨hkeep.phase, hkeep.state⟩) fun hnone => hnone.2.2
  · rw [hcpu] at hq
    exact hd (hex.unique d c q hdq hq)
  · rw [hholds, hholds']
    exact hlock
  · by_cases hqp : q = p
    · rw [hqp, hcpu]
      exact .inl hplace
    · refine .inr ⟨?_, by simpa [hplace] using Ne.symm hqp⟩
      rcases hothers q hqp with hkeep | ⟨-, hoff, -⟩
      · rwa [← hkeep.phase]
      · rw [hoff] at hq
        cases hq

/-! ### The scheduler -/

section Scheduler

variable [DecidableEq κ] {c : κ} {p : Slot}

@[simp] theorem setCpu_self (m : Machine κ) (c : κ) (v : Cpu) : (m.setCpu c v).cpu c = v := Function.update_self ..

theorem Exclusive.acquire (hex : Exclusive m) (hplace : (m.cpu c).place = .idle) (hlock : m.lock = none) :
    Exclusive ({ m with lock := some c }.setCpu c { m.cpu c with place := .loop, slot := 0 }) := by
  have hfits := hex.cpu c
  simp only [Machine.Fits, hplace] at hfits
  exact hex.setCpu (by simp [hplace]) (by simpa [Machine.Fits] using hfits) (by simp [Place.slot?])
    (.inr (.inl ⟨hlock, rfl, by simp [Machine.holds]⟩))

theorem Exclusive.skip (hex : Exclusive m) (hplace : (m.cpu c).place = .loop) :
    Exclusive (m.setCpu c { m.cpu c with slot := (m.cpu c).slot + 1 }) := by
  have hfits := hex.cpu c
  simp only [Machine.Fits, hplace] at hfits
  exact hex.setCpu (l := m.lock) (by simp [hplace]) (by simpa [Machine.Fits, hplace] using hfits)
    (by simp [hplace, Place.slot?]) (.inl ⟨rfl, by simp [Machine.holds, hplace]⟩)

theorem Exclusive.pick (hex : Exclusive m) (hplace : (m.cpu c).place = .loop)
    (hrunnable : (m.table.proc p).state = .runnable) :
    Exclusive (m.setCpu c { m.cpu c with place := .picked p, proc := some p }) := by
  have hfits := hex.cpu c
  have hlock : m.lock = some c := (hex.lock c).mpr (by simp [Machine.holds, hplace])
  simp only [Machine.Fits, hplace] at hfits
  refine hex.setCpu (l := m.lock) (by simp [hplace]) ?_ (fun q hq => .inr fun d hd hdq => ?_)
    (.inl ⟨rfl, by simp [Machine.holds, hplace]⟩)
  · simpa [Machine.Fits] using ⟨hfits.2.1, hfits.2.2, hrunnable⟩
  · -- a process that another processor is with is running
    obtain rfl : p = q := by simpa [Place.slot?] using hq
    rw [(hex.others hlock hd hdq).2.2] at hrunnable
    cases hrunnable

theorem Exclusive.endLoop (hex : Exclusive m) (hplace : (m.cpu c).place = .loop) :
    Exclusive ({ m with lock := none }.setCpu c { m.cpu c with place := .idle }) := by
  have hfits := hex.cpu c
  simp only [Machine.Fits, hplace] at hfits
  exact hex.setCpu (by simp [hplace]) (by simpa [Machine.Fits] using hfits) (by simp [Place.slot?])
    (.inr (.inr ⟨by simp [Machine.holds, hplace], rfl, by simp [Machine.holds]⟩))

theorem Exclusive.load (hex : Exclusive m) {d : Page} (hplace : (m.cpu c).place = .picked p)
    (hpgdir : m.pgdir p = some d) : Exclusive (m.setCpu c { m.cpu c with place := .loaded p, cr3 := some d }) := by
  have hfits := hex.cpu c
  simp only [Machine.Fits, hplace] at hfits
  refine hex.setCpu (l := m.lock) (by simp [hplace]) ?_ (fun q hq => .inl ?_)
    (.inl ⟨rfl, by simp [Machine.holds, hplace]⟩)
  · simpa [Machine.Fits, Machine.setCpu, hpgdir] using ⟨hfits.1, hfits.2.2.1, hfits.2.2.2⟩
  · simpa [hplace, Place.slot?] using hq

theorem Exclusive.unload (hex : Exclusive m) (hplace : (m.cpu c).place = .returned p) :
    Exclusive (m.setCpu c { m.cpu c with place := .unloaded p, cr3 := none }) := by
  have hfits := hex.cpu c
  simp only [Machine.Fits, hplace] at hfits
  refine hex.setCpu (l := m.lock) (by simp [hplace]) ?_ (fun q hq => .inl ?_)
    (.inl ⟨rfl, by simp [Machine.holds, hplace]⟩)
  · simpa [Machine.Fits, Machine.setCpu] using ⟨hfits.1, hfits.2.2⟩
  · simpa [hplace, Place.slot?] using hq

theorem Exclusive.clear (hex : Exclusive m) (hplace : (m.cpu c).place = .unloaded p) :
    Exclusive (m.setCpu c { m.cpu c with place := .loop, slot := (m.cpu c).slot + 1, proc := none }) := by
  have hfits := hex.cpu c
  simp only [Machine.Fits, hplace] at hfits
  refine hex.setCpu (l := m.lock) (by simp [hplace]) ?_ (by simp [Place.slot?])
    (.inl ⟨rfl, by simp [Machine.holds, hplace]⟩)
  simpa [Machine.Fits] using ⟨hfits.2.1, hfits.2.2.1⟩

/-- The switch to a process or away from it: the lock stays with the processor. -/
theorem Exclusive.swtch (hex : Exclusive m) {v : Cpu} (hslot : (m.cpu c).place.slot? = some p) (hv : v.place.slot? = some p)
    (hcpu : m'.cpu = Function.update m.cpu c v) (hkeep : ∀ q, q ≠ p → m.Keeps m' q) (hlock : m'.lock = m.lock)
    (hholds : m'.holds c = m.holds c) (hfits : m'.Fits c) (hstate : (m'.phase p).Fits (m'.table.proc p).state)
    (hon : (m'.phase p).isOff = false → v.place = .running p) : Exclusive m' := by
  have hself : m'.cpu c = v := by rw [hcpu, Function.update_self]
  refine hex.step (c := c) (fun d hd => by rw [hcpu, Function.update_of_ne hd]) (fun d hd q hq => hkeep q ?_) hfits (fun q => ?_)
    (fun d hd q hq hdq => ?_) (.inl ⟨hlock, hholds⟩) fun q hq => ?_
  · rintro rfl
    exact hd (hex.unique d c q hq hslot)
  · by_cases hqp : q = p
    · rw [hqp]
      exact .inr hstate
    · exact .inl ⟨(hkeep q hqp).phase, (hkeep q hqp).state⟩
  · rw [hself, hv] at hq
    obtain rfl := Option.some.inj hq
    exact hd (hex.unique d c p hdq hslot)
  · rw [hself]
    by_cases hqp : q = p
    · rw [hqp] at hq ⊢
      exact .inl (hon hq)
    · refine .inr ⟨(hkeep q hqp).phase ▸ hq, fun hplace => ?_⟩
      rw [hplace] at hslot
      exact hqp (Option.some.inj hslot)

theorem Exclusive.enter (hex : Exclusive m) {k : Caller} (hplace : (m.cpu c).place = .loaded p) :
    Exclusive (({ m with table := m.table.set p { m.table.proc p with state := .running } }.setPhase p (.on k)).setCpu c
      { m.cpu c with place := .running p, stack := m.kstack p }) := by
  have hfits := hex.cpu c
  simp only [Machine.Fits, hplace] at hfits
  refine hex.swtch (by rw [hplace]; rfl) rfl rfl (fun q hq => ?_) rfl ?_ ?_ ?_ fun _ => rfl
  · exact ⟨by simp [Machine.setCpu, Machine.setPhase, hq], by simp [Machine.setCpu, Machine.setPhase, hq], rfl, rfl⟩
  · simp [Machine.holds, hplace, Machine.setPhase, Machine.setCpu, Phase.locked]
  · simpa [Machine.Fits, Machine.setCpu, Machine.setPhase, Phase.isOff] using ⟨hfits.1, hfits.2.1⟩
  · simp [Machine.setCpu, Machine.setPhase, Phase.Fits]

theorem Caller.leaves_cases (k : Caller) : k.leaves ≠ .running ∧ k.leaves ≠ .unused ∧ k.leaves ≠ .embryo ∧
    (k.leaves = .runnable ∨ k.leaves = .sleeping → k ≠ .exit) := by
  cases k <;> simp [Caller.leaves]

theorem Exclusive.leave (hex : Exclusive m) {k : Caller} (hplace : (m.cpu c).place = .running p)
    (hphase : m.phase p = .sched k) :
    Exclusive ((m.setPhase p (.off k)).setCpu c { m.cpu c with place := .returned p, stack := none }) := by
  have hfits := hex.cpu c
  have hstate : (m.table.proc p).state = k.leaves := hex.fits hphase
  obtain ⟨hrunning, hunused, hembryo, halive⟩ := k.leaves_cases
  simp only [Machine.Fits, hplace] at hfits
  refine hex.swtch (by rw [hplace]; rfl) rfl rfl (fun q hq => ?_) rfl ?_ ?_ ?_ fun hon => ?_
  · exact ⟨rfl, by simp [Machine.setCpu, Machine.setPhase, hq], rfl, rfl⟩
  · simp [Machine.holds, hplace, hphase, Phase.locked]
  · simpa [Machine.Fits, Machine.setCpu, Machine.setPhase, Phase.isOff, hstate, hunused, hembryo] using
      ⟨hfits.1, hfits.2.1⟩
  · simpa [Machine.setCpu, Machine.setPhase, Phase.Fits, hstate] using ⟨hrunning, halive⟩
  · simp [Machine.setCpu, Machine.setPhase, Phase.isOff] at hon

end Scheduler

/-! ### Processes -/

section Process

variable {c : κ} {p : Slot}

@[simp] theorem setPhase_table (m : Machine κ) (p : Slot) (ph : Phase) : (m.setPhase p ph).table = m.table := rfl

@[simp] theorem setPhase_self (m : Machine κ) (p : Slot) (ph : Phase) : (m.setPhase p ph).phase p = ph :=
  Function.update_self ..

@[simp] theorem setPhase_of_ne (m : Machine κ) {p q : Slot} (hq : q ≠ p) (ph : Phase) :
    (m.setPhase p ph).phase q = m.phase q := Function.update_of_ne hq ..

/-- A process that runs takes the lock, gives it back or keeps what it has; no state changes. -/
theorem Exclusive.move (hex : Exclusive m) (hplace : (m.cpu c).place = .running p) {t : Table} {l : Option κ} {ph : Phase}
    (hrun : (t.proc p).state = .running) (hstate : ∀ q, q ≠ p → (t.proc q).state = (m.table.proc q).state)
    (hph : ph.Fits .running ∧ ph.isOff = false)
    (hlock : l = m.lock ∧ ph.locked = (m.phase p).locked ∨ m.lock = none ∧ l = some c ∧ ph.locked = true ∨
      (m.phase p).locked = true ∧ l = none ∧ ph.locked = false) :
    Exclusive ({ m with table := t, lock := l }.setPhase p ph) := by
  refine hex.process hplace rfl ?_ ?_ ⟨rfl, rfl⟩ (fun q hq => .inl ⟨hstate q hq, setPhase_of_ne _ hq _, rfl, rfl⟩) ?_
  · rw [setPhase_self]
    exact hph.2
  · rw [setPhase_self]
    simpa [Machine.setPhase, hrun] using hph.1
  · rw [setPhase_self]
    exact hlock

/-- What a step on the table with the lock may do to the state of another slot. -/
def Turns (t t' : Table) (p q : Slot) : Prop :=
  (t'.proc q).state = (t.proc q).state ∨
  (t.proc q).state = .sleeping ∧ (t'.proc q).state = .runnable ∨
  (t.proc q).state = .unused ∧ (t'.proc q).state = .embryo ∨
  (t.proc q).state = .zombie ∧ (t'.proc q).state = .unused ∨
  t.pc p = .filled q ∧ (t.proc q).state = .embryo ∧ (t'.proc q).state = .runnable

theorem Exclusive.withLock (hex : Exclusive m) (hplace : (m.cpu c).place = .running p) {t : Table} {ph : Phase}
    (hlocked : (m.phase p).locked = true) (hph : ph.Fits (t.proc p).state ∧ ph.isOff = false ∧ ph.locked = true)
    (hborn : ∀ q, m.table.pc p = .filled q → m.phase q = .off .forkret)
    (hturns : ∀ q, q ≠ p → Turns m.table t p q) : Exclusive ({ m with table := t }.setPhase p ph) := by
  have hlock : m.lock = some c := (hex.lock c).mpr (by simpa [Machine.holds, hplace] using hlocked)
  refine hex.process hplace rfl ?_ ?_ ⟨rfl, rfl⟩ (fun q hq => ?_) (.inl ⟨rfl, ?_⟩)
  · rw [setPhase_self]
    exact hph.2.1
  · rw [setPhase_self]
    exact hph.1
  · by_cases hsame : (t.proc q).state = (m.table.proc q).state
    · exact .inl ⟨hsame, setPhase_of_ne _ hq _, rfl, rfl⟩
    -- the slot was not running, so no processor is with it
    have hidle : (m.table.proc q).state ≠ .running := by
      have := hturns q hq
      unfold Turns at this
      grind
    have hnone : ∀ d, (m.cpu d).place.slot? ≠ some q := by
      intro d hd
      by_cases hdc : d = c
      · rw [hdc, hplace] at hd
        exact hq (by simpa [Place.slot?] using hd.symm)
      · exact hidle (hex.others hlock hdc hd).2.2
    have hoff := hex.offOf hnone
    refine .inr ⟨hnone, ?_, ?_⟩
    · rw [setPhase_of_ne _ hq]
      exact hoff
    · rw [setPhase_of_ne _ hq]
      have hfits := hex.slot q
      cases hphase : m.phase q with
      | off k =>
        rw [hphase] at hfits
        have hturn := hturns q hq
        have hk := hborn q
        unfold Turns at hturn
        simp only [Phase.Fits, setPhase_table, hphase] at hfits hk ⊢
        grind
      | _ => simp [hphase, Phase.isOff] at hoff
  · rw [setPhase_self, hlocked]
    exact hph.2.2

end Process

end Xv6.Sched
