import Xv6.Sched.Safe

/-!
# Freeing a zombie

`waitpid` frees the stack and the page directory of a zombie step by step, with the lock. While it does, any
other processor is idle or in a process that runs, so it is on another stack and another directory.
-/

namespace Xv6.Sched

open Lib ProcTable

variable {κ : Type} {m : Machine κ} {c : κ} {p q : Slot}

section Reaping

variable (hsound : Sound m) (hplace : (m.cpu c).place = .running p) (hreaps : (m.phase p).reaps = some q)

include hsound hreaps

theorem Sound.zombie : (m.table.proc q).state = .zombie := by
  obtain ⟨childPid, -, hscan⟩ := hsound.backed.found p q hreaps
  exact (scan_zombie hscan).2

theorem Sound.reaper : (m.table.proc p).state = .running := by
  have hfits := hsound.exclusive.slot p
  cases hphase : m.phase p <;> simp_all [Phase.reaps, Phase.Fits]

theorem Sound.neReaper : q ≠ p := by
  rintro rfl
  have hzombie := hsound.zombie hreaps
  rw [hsound.reaper hreaps] at hzombie
  cases hzombie

theorem Sound.soleReaper {r q' : Slot} (hr : (m.phase r).reaps = some q') : r = p ∧ q' = q := by
  obtain rfl := hsound.exclusive.sole (Phase.locked_of_reaps hr) (Phase.locked_of_reaps hreaps)
  exact ⟨rfl, by simpa [hreaps] using hr.symm⟩

include hplace

theorem Sound.onlyRunning {d : κ} {r : Slot} (hr : (m.cpu d).place.slot? = some r) :
    (m.cpu d).place = .running r ∧ (m.table.proc r).state = .running := by
  have hlock : m.lock = some c :=
    (hsound.exclusive.lock c).mpr (by simpa [Machine.holds, hplace] using Phase.locked_of_reaps hreaps)
  by_cases hd : d = c
  · subst hd
    obtain rfl : p = r := by simpa [hplace, Place.slot?] using hr
    exact ⟨hplace, hsound.reaper hreaps⟩
  · obtain ⟨hrunning, -, hstate⟩ := hsound.exclusive.others hlock hd hr
    exact ⟨hrunning, hstate⟩

theorem Sound.notWith (d : κ) : (m.cpu d).place.slot? ≠ some q := by
  intro hd
  have hstate := (hsound.onlyRunning hplace hreaps hd).2
  rw [hsound.zombie hreaps] at hstate
  cases hstate

theorem Sound.notUsed (d : κ) : (∀ a, m.page a = some (.kstack q) → (m.cpu d).stack ≠ some a) ∧
    ∀ a, m.page a = some (.pgdir q) → (m.cpu d).cr3 ≠ some a := by
  have hfits := hsound.exclusive.cpu d
  have hrunning : ∀ r, (m.cpu d).place = .running r → r ≠ q ∧ m.Stacked r ∧ m.Mapped r := by
    intro r hr
    have hstate := (hsound.onlyRunning hplace hreaps (d := d) (r := r) (by rw [hr]; rfl)).2
    refine ⟨?_, hsound.backed.alive r (life_of_running hstate)⟩
    rintro rfl
    exact hsound.notWith hplace hreaps d (by rw [hr]; rfl)
  have hnone : ∀ {r}, (m.cpu d).place.slot? = some r → (m.cpu d).place = .running r := fun hr =>
    (hsound.onlyRunning hplace hreaps hr).1
  cases hd : (m.cpu d).place with
  | idle | loop =>
    simp only [Machine.Fits, hd] at hfits
    simp [hfits]
  | running r =>
    obtain ⟨hne, ⟨a', hkstack, hstack⟩, ⟨d', hpgdir, hdir⟩⟩ := hrunning r hd
    simp only [Machine.Fits, hd, hkstack, hpgdir] at hfits
    refine ⟨fun a ha hstack' => ?_, fun a ha hcr3 => ?_⟩
    · obtain rfl : a' = a := by simpa [hfits.2.2.1] using hstack'
      rw [ha] at hstack
      exact hne (by simpa using hstack.symm)
    · obtain rfl : d' = a := by simpa [hfits.2.1] using hcr3
      rw [ha] at hdir
      exact hne (by simpa using hdir.symm)
  | picked r | loaded r | returned r | unloaded r =>
    have := hnone (r := r) (by rw [hd]; rfl)
    rw [hd] at this
    cases this

end Reaping

/-- Before its stack is freed a zombie has both its pages, and its directory until that is freed. -/
theorem Sound.unfreedDir (hsound : Sound m) (hphase : m.phase p = .reap q ∨ m.phase p = .reapVm q) : m.Mapped q := by
  have hreaps : (m.phase p).reaps = some q := by rcases hphase with hphase | hphase <;> rw [hphase] <;> rfl
  refine (hsound.backed.zombieDir q (life_eq_zombie.mpr (hsound.zombie hreaps))).resolve_right ?_
  rintro ⟨r, hr⟩
  obtain rfl := (hsound.soleReaper hreaps (r := r) (by rw [hr]; rfl)).1
  simp [hr] at hphase

theorem Sound.unfreed (hsound : Sound m) (hphase : m.phase p = .reap q) : m.Stacked q ∧ m.Mapped q := by
  have hreaps : (m.phase p).reaps = some q := by rw [hphase]; rfl
  refine ⟨?_, hsound.unfreedDir (.inl hphase)⟩
  refine (hsound.backed.zombieStack q (life_eq_zombie.mpr (hsound.zombie hreaps))).resolve_right ?_
  rintro ⟨r, hr⟩
  have hr' : (m.phase r).reaps = some q := by rcases hr with hr | hr <;> rw [hr] <;> rfl
  obtain rfl := (hsound.soleReaper hreaps hr').1
  simp [hphase] at hr

/-! ### The steps of `waitpid` -/

/-- The child of a process in `fork` is neither the process that frees a zombie nor the zombie. -/
theorem Sound.childNe (hsound : Sound m) {r np : Slot} (hnp : (m.table.pc r).child = some np)
    (hp : (m.table.proc p).state = .running ∨ (m.table.proc p).state = .zombie) : np ≠ p := by
  obtain ⟨h, hinv⟩ := hsound.reached.inv
  rintro rfl
  have hembryo := life_eq_embryo.mp (hinv.embryo r np hnp)
  rw [hembryo] at hp
  simp at hp

theorem Sound.found (hsound : Sound m) {childPid : Int} (hplace : (m.cpu c).place = .running p)
    (hphase : m.phase p = .held) (hpc : m.table.pc p = .waiting childPid true)
    (hscan : scan m.table p childPid false slots = .zombie q) : Sound (m.setPhase p (.reap q)) := by
  have hrun : (m.table.proc p).state = .running := hsound.exclusive.fits hphase
  have hchild : ∀ {r np}, (m.table.pc r).child = some np → (m.setPhase p (.reap q)).phase np = m.phase np := fun hnp =>
    setPhase_of_ne _ (hsound.childNe hnp (.inl hrun)) _
  have hkeep : ∀ {r ph q'}, m.phase r = ph → ph.reaps = some q' → (m.setPhase p (.reap q)).phase r = ph := by
    intro r ph q' hr hq'
    have hrp : r ≠ p := by
      rintro rfl
      rw [hphase] at hr
      subst hr
      cases hq'
    rw [setPhase_of_ne _ hrp, hr]
  obtain ⟨hex, hbacked, hreached⟩ := hsound
  refine ⟨?_, .of_fosters (fun r => ?_) hbacked.alive (fun q' hq' => ?_) (fun q' hq' => ?_) fun r q' hr => ?_, hreached⟩
  · exact hex.move (t := m.table) (l := m.lock) hplace hrun (fun _ _ => rfl) ⟨rfl, rfl⟩ (.inl ⟨rfl, by rw [hphase]; rfl⟩)
  · exact (hbacked.fosters r).keep rfl rfl fun np hnp => ⟨id, id, hchild hnp⟩
  · exact (hbacked.zombieStack q' hq').imp_right fun ⟨r, hr⟩ =>
      ⟨r, hr.imp (fun hr => hkeep hr rfl) fun hr => hkeep hr rfl⟩
  · exact (hbacked.zombieDir q' hq').imp_right fun ⟨r, hr⟩ => ⟨r, hkeep hr rfl⟩
  · by_cases hrp : r = p
    · subst hrp
      rw [setPhase_self] at hr
      obtain rfl : q = q' := by simpa [Phase.reaps] using hr
      exact ⟨childPid, hpc, hscan⟩
    · rw [setPhase_of_ne _ hrp] at hr
      exact hbacked.found r q' hr

/-- A step that frees a page of the zombie `q` and takes the process at `p` to its next phase. -/
theorem Sound.free (hsound : Sound m) {ph : Phase} {a : Page} {k : Slot → Option Page}
    (hplace : (m.cpu c).place = .running p) (hreaps : (m.phase p).reaps = some q) (hph : ph.reaps = some q)
    (hheld : m.page a = some (.kstack q) ∨ m.page a = some (.pgdir q)) (hk : ∀ r, r ≠ q → k r = m.kstack r)
    (hstack : ph = .reapVm q ∨ ph = .reaped q)
    (hdir : m.page a = some (.kstack q) ∧ m.Mapped q ∨ ph = .reaped q) :
    Sound ({ m with page := Function.update m.page a none, kstack := k }.setPhase p ph) := by
  have hrun := hsound.reaper hreaps
  have hzombie := hsound.zombie hreaps
  have hne := hsound.neReaper hreaps
  have hnone := hsound.notWith hplace hreaps
  have hsole : ∀ {r q'}, (m.phase r).reaps = some q' → r = p ∧ q' = q := fun hr => hsound.soleReaper hreaps hr
  have hpage : ∀ b v, m.page b = some v → v ≠ .kstack q → v ≠ .pgdir q → Function.update m.page a none b = m.page b := by
    intro b v hb hv hv'
    refine Function.update_of_ne ?_ ..
    rintro rfl
    rcases hheld with hheld | hheld
    · exact hv (by simpa [hb] using hheld)
    · exact hv' (by simpa [hb] using hheld)
  have hstacked : ∀ r, r ≠ q → m.Stacked r →
      ({ m with page := Function.update m.page a none, kstack := k }.setPhase p ph).Stacked r := fun r hr hold =>
    hold.mono (hk r hr) fun b hb => hpage b _ hb (by simpa using hr) (by simp)
  have hmapped : ∀ r, r ≠ q → m.Mapped r →
      ({ m with page := Function.update m.page a none, kstack := k }.setPhase p ph).Mapped r := fun r hr hold =>
    hold.mono rfl fun b hb => hpage b _ hb (by simp) (by simpa using hr)
  have hchild : ∀ {r np}, (m.table.pc r).child = some np → np ≠ p ∧ np ≠ q := fun hnp =>
    ⟨hsound.childNe hnp (.inl hrun), hsound.childNe hnp (.inr hzombie)⟩
  obtain ⟨hex, hbacked, hreached⟩ := hsound
  have hlocked := Phase.locked_of_reaps hreaps
  have hfits : ph.Fits .running ∧ ph.isOff = false ∧ ph.locked = true := by
    rcases hstack with rfl | rfl <;> exact ⟨rfl, rfl, rfl⟩
  refine ⟨?_, .of_fosters (fun r => ?_) (fun r hr => ?_) (fun r hr => ?_) (fun r hr => ?_) fun r q' hr => ?_, hreached⟩
  · refine hex.process hplace rfl ?_ ?_ ⟨rfl, hk p (Ne.symm hne)⟩ (fun r hr => ?_) (.inl ⟨rfl, ?_⟩)
    · rw [setPhase_self]
      exact hfits.2.1
    · rw [setPhase_self, setPhase_table]
      show ph.Fits (m.table.proc p).state
      rw [hrun]
      exact hfits.1
    · by_cases hrq : r = q
      · subst hrq
        refine .inr ⟨hnone, ?_, ?_⟩
        · rw [setPhase_of_ne _ hr]
          exact hex.offOf hnone
        · rw [setPhase_of_ne _ hr]
          exact hex.slot r
      · exact .inl ⟨rfl, setPhase_of_ne _ hr _, rfl, hk r hrq⟩
    · rw [setPhase_self, hlocked, hfits.2.2]
  · refine (hbacked.fosters r).keep rfl rfl fun np hnp => ?_
    obtain ⟨hnp, hnq⟩ := hchild hnp
    exact ⟨hstacked np hnq, hmapped np hnq, setPhase_of_ne _ hnp _⟩
  · have hrq : r ≠ q := by
      rintro rfl
      have hlife : (m.table.proc r).life = .alive := hr
      rw [life_eq_zombie.mpr hzombie] at hlife
      cases hlife
    exact ⟨hstacked r hrq (hbacked.alive r hr).1, hmapped r hrq (hbacked.alive r hr).2⟩
  · by_cases hrq : r = q
    · subst hrq
      exact .inr ⟨p, by rw [setPhase_self]; exact hstack⟩
    · refine .inl (hstacked r hrq ((hbacked.zombieStack r hr).resolve_right ?_))
      rintro ⟨r', hr' | hr'⟩ <;> exact hrq (hsole (by rw [hr']; rfl)).2
  · by_cases hrq : r = q
    · subst hrq
      rcases hdir with ⟨hkstack, hmap⟩ | hreaped
      · refine .inl (hmap.mono rfl fun b hb => Function.update_of_ne ?_ ..)
        rintro rfl
        rw [hkstack] at hb
        cases hb
      · exact .inr ⟨p, by rw [setPhase_self]; exact hreaped⟩
    · refine .inl (hmapped r hrq ((hbacked.zombieDir r hr).resolve_right ?_))
      rintro ⟨r', hr'⟩
      exact hrq (hsole (by rw [hr']; rfl)).2
  · by_cases hrp : r = p
    · subst hrp
      rw [setPhase_self, hph] at hr
      obtain rfl : q = q' := by simpa using hr
      exact hbacked.found r q hreaps
    · rw [setPhase_of_ne _ hrp] at hr
      exact absurd (hsole hr).1 hrp

theorem waited_table {t t' : Table} {es : List Event} {childPid : Int} (hrun : (t.proc p).state = .running)
    (hpc : t.pc p = .waiting childPid true) (hscan : scan t p childPid false slots = .zombie q)
    (hstep : step t (.own p .waitRound) = .next (t', es)) : t' = (ProcTable.reap t q).goto p .kernel := by
  rw [step, if_pos hrun, hpc] at hstep
  have heq := Outcome.next.inj hstep
  simp only [waitpid, hscan, if_true] at heq
  exact (Prod.mk.inj heq).1.symm

theorem Sound.reaped (hsound : Sound m) {t : Table} {es : List Event} (hplace : (m.cpu c).place = .running p)
    (hphase : m.phase p = .reaped q) (hstep : step m.table (.own p .waitRound) = .next (t, es)) :
    Sound ({ m with table := t }.setPhase p .done) := by
  have hreaps : (m.phase p).reaps = some q := by rw [hphase]; rfl
  have hlocked := Phase.locked_of_reaps hreaps
  have hrun := hsound.reaper hreaps
  have hzombie := hsound.zombie hreaps
  have hne := hsound.neReaper hreaps
  have hsole : ∀ {r q'}, (m.phase r).reaps = some q' → r = p ∧ q' = q := fun hr => hsound.soleReaper hreaps hr
  have hchild : ∀ {r np}, (m.table.pc r).child = some np → np ≠ p := fun hnp => hsound.childNe hnp (.inl hrun)
  have hreached := hsound.reached.step hstep
  obtain ⟨hex, hbacked, -⟩ := hsound
  obtain ⟨childPid, hpc, hscan⟩ := hbacked.found p q hreaps
  have ht := waited_table hrun hpc hscan hstep
  have hproc : ∀ r, r ≠ q → t.proc r = m.table.proc r := fun r hr => by rw [ht]; exact set_of_ne _ hr _
  have hunused : (t.proc q).state = .unused := by simp [ht, ProcTable.reap]
  have hlife : (t.proc q).life = .unused := life_eq_unused.mpr hunused
  have hothers : ∀ r, r ≠ p → t.pc r = m.table.pc r := fun r hr => by rw [ht]; exact goto_of_ne _ hr _
  subst ht
  refine ⟨hex.withLock hplace hlocked ⟨?_, rfl, rfl⟩ (fun r hr => ?_) (fun r _ => ?_), ?_, hreached⟩
  · rw [hproc p (Ne.symm hne)]
    exact hrun
  · rw [hpc] at hr
    cases hr
  · by_cases hrq : r = q
    · subst hrq
      exact .inr (.inr (.inr (.inl ⟨hzombie, hunused⟩)))
    · exact .inl (by rw [hproc r hrq])
  · refine hbacked.withLock (fun r hr => ?_) (fun r => ?_) (fun r => ?_) rfl rfl rfl rfl
    · have hrq : r ≠ q := by
        rintro rfl
        rw [setPhase_table, hlife] at hr
        simp at hr
      rw [setPhase_table, hproc r hrq] at hr
      rcases hr with halive | hzombie'
      · exact hbacked.alive r halive
      · exact hbacked.zombie hzombie' fun r' =>
          ⟨fun hr' => hrq (hsole (by rw [hr']; rfl)).2, fun hr' => hrq (hsole (by rw [hr']; rfl)).2⟩
    · by_cases hrp : r = p
      · rw [hrp, setPhase_self]
        rfl
      · rw [setPhase_of_ne _ hrp]
        cases hr : (m.phase r).reaps with
        | none => rfl
        | some q' => exact absurd (hsole hr).1 hrp
    · by_cases hrp : r = p
      · subst hrp
        exact .inr ⟨hbacked.start_of_pc (by simp [hpc]), by simp⟩
      · exact .inl ⟨hothers r hrp, fun np hnp => setPhase_of_ne _ (hchild hnp) _⟩

/-! ### Interrupts -/

theorem Sound.interrupt (hsound : Sound m) (hlock : m.lock = none) (addr : Nat) :
    Sound { m with table := wakeup1 m.table (some (.other addr)) } := by
  obtain ⟨hex, hbacked, hreached⟩ := hsound
  obtain ⟨h, hinv⟩ := hreached.inv
  have hquiet := quiet_wakeup1 m.table (some (.other addr))
  have hroused := roused_wakeup1 m.table (some (.other addr))
  have hawake : ∀ r, (m.table.proc r).state ≠ .sleeping →
      ((wakeup1 m.table (some (.other addr))).proc r).state = (m.table.proc r).state := fun r hr =>
    (hroused.state r).resolve_right fun hsleeping => hr hsleeping.1
  have hkeep : ∀ d r, (m.cpu d).place.slot? = some r →
      m.Keeps { m with table := wakeup1 m.table (some (.other addr)) } r := by
    intro d r hr
    have hrun := (hex.without (by simp [hlock]) hr).2.2
    exact ⟨hawake r (by simp [hrun]), rfl, rfl, rfl⟩
  refine ⟨⟨fun d => ?_, fun r => ?_, hex.unique, fun d => ?_, hex.onCpu⟩, ?_, hreached.step (a := .wakeup addr) rfl⟩
  · exact (hex.cpu d).congr rfl (hkeep d)
  · have hfits := hex.slot r
    rcases hroused.state r with hsame | ⟨hsleeping, hrunnable⟩
    · show (m.phase r).Fits _
      rw [hsame]
      exact hfits
    · -- a process that sleeps without the lock held is switched away from
      show (m.phase r).Fits _
      rw [hrunnable]
      rw [hsleeping] at hfits
      cases hphase : m.phase r with
      | off k =>
        rw [hphase] at hfits
        exact ⟨by simp, fun _ => hfits.2 (.inr rfl)⟩
      | sched k =>
        obtain ⟨d, hd⟩ := hex.onCpu r (by rw [hphase]; rfl)
        have hrun := (hex.without (d := d) (q := r) (by simp [hlock]) (by rw [hd]; rfl)).2.2
        rw [hsleeping] at hrun
        cases hrun
      | _ => simp [hphase, Phase.Fits] at hfits
  · have hholds : ({ m with table := wakeup1 m.table (some (.other addr)) } : Machine κ).holds d = m.holds d :=
      holds_congr rfl (hkeep d)
    rw [hholds]
    exact hex.lock d
  · exact hbacked.frame (fun q => (hquiet.kept q).life) (fun _ => .inl rfl) (fun _ => .inl rfl) hinv.embryo
      (fun r q c _ => scan_same (fun q => (hquiet.kept q).parent) (fun q => (hquiet.kept q).pid)
        (fun q => (hquiet.kept q).life) r c) rfl rfl rfl rfl

end Xv6.Sched
