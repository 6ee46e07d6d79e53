import Xv6.Lib.Monitor

/-!
# Rules for code under locks

By these rules facts about single actions of the code of a monitor become facts about all its runs: a sleeper
is blocked whenever its lock is free, nobody who is killed is left asleep, the events of a call are what its
program points say.
-/

namespace Lib.Monitor

variable {ι ℓ κ σ π ω γ : Type} [DecidableEq ι] [DecidableEq ℓ] [DecidableEq κ]

/-! ### Sleepers and what they wait for -/

/-- A process sleeps on the channel, or is past the release of its lock and about to. -/
def Sleeper (s : State ι ℓ κ σ π ω γ) (j : ι) (c : κ) : Prop :=
  (∃ k q, s.pos j = .dozing k c q) ∨ s.status j = .sleeping ∧ s.chan j = some c

variable {j : ι} {c : κ}

variable {s : State ι ℓ κ σ π ω γ} {C : Code ℓ κ σ π ω γ}

omit [DecidableEq ι] [DecidableEq ℓ] [DecidableEq κ] in
theorem Sleeper.asleep (hj : Sleeper s j c)
    (hwf : Wf C s) (hfree : s.table = none) : s.status j = .sleeping ∧ s.chan j = some c := by
  refine hj.resolve_left fun ⟨k, q, hq⟩ => ?_
  have hheld := (hwf.table j).mpr (by
    rw [hq]
    trivial)
  rw [hfree] at hheld
  cases hheld

/-- What is known at the points of the code: `same l` says that what the lock `l` protects is as it was, `pre q`
what holds at a point while the lock is held. -/
structure Assertions (C : Code ℓ κ σ π ω γ) where
  same : ℓ → σ → σ → Prop
  pre : π → σ → Prop
  pre_same : ∀ q d d', same (C.lock q) d d' → pre q d → pre q d'
  entry : ∀ g d, pre (C.entry g) d
  run : ∀ q d b d' q' es, C.act q d b = .run d' q' es → pre q d → pre q' d' ∧ ∀ l, l ≠ C.lock q → same l d d'
  wakeup : ∀ q d b c q', C.act q d b = .wakeup c q' → pre q d → pre q' d
  sleep : ∀ q d b c q', C.act q d b = .sleep c q' → ∀ d', pre q' d'

variable {i : ι} {k : Nat} {q q' : π} {es : List ω} {p : Pos κ π} {a : Label ι γ} {init : σ → Prop}
  {as : List (Label ι γ)}

/-- Who is in a call and not under the lock is at the entry of the call or where a sleep ends. -/
theorem resume_of_run {R : π → Prop} (hentry : ∀ g, R (C.entry g))
    (hsleep : ∀ q d b c q', C.act q d b = .sleep c q' → R q') (h : (machine C init).Run as s) :
    ∀ i q, (s.pos i).point? = some q → (∀ k, s.pos i ≠ .inside k q) → R q := by
  refine Automaton.Run.invariant (I := fun _ s => ∀ i q, (s.pos i).point? = some q → (∀ k, s.pos i ≠ .inside k q) → R q)
    ?_ ?_ h
  · intro s hs i q hq
    rw [hs.1.pos] at hq
    cases hq
  · intro as s a s' hinv ha j q hq hout
    -- the others stay where they are
    have hmove : ∀ i p, s'.pos = Function.update s.pos i p → (p.point? = some q → (∀ k, p ≠ .inside k q) → R q) → R q := by
      intro i p hpos hp
      rw [hpos] at hq hout
      by_cases hji : j = i
      · subst hji
        rw [Function.update_self] at hq hout
        exact hp hq hout
      · rw [Function.update_of_ne hji] at hq hout
        exact hinv j q hq hout
    cases step_cases ha with
    | @call i g hpos =>
      refine hmove i _ rfl fun hp _ => ?_
      obtain rfl : C.entry g = q := by simpa [Pos.point?] using hp
      exact hentry g
    | @sleep i k _ q' c hpos hact =>
      refine hmove i (.locking k c q') rfl fun hp _ => ?_
      obtain rfl : q' = q := by simpa [Pos.point?] using hp
      exact hsleep _ _ _ _ _ hact
    | @enter i k q' | @run i k _ q' | @wakeup i k _ q' =>
      refine hmove i (.inside k q') rfl fun hp hnot => ?_
      obtain rfl : q' = q := by simpa [Pos.point?] using hp
      exact absurd rfl (hnot k)
    | @leave i => exact hmove i .out rfl (by simp [Pos.point?])
    | @lockTable i _ _ q' hpos | @unlock i _ _ q' hpos | @doze i _ _ q' hpos | @dispatch i _ _ q' hpos | @awake i _ q' hpos =>
      refine hmove i _ rfl fun hp _ => hinv i q ?_ (by simp [hpos])
      obtain rfl : q' = q := by simpa [Pos.point?] using hp
      simp [hpos, Pos.point?]
    | kill hfree => exact hinv j q hq hout

namespace Assertions

variable {C : Code ℓ κ σ π ω γ} {s s' : State ι ℓ κ σ π ω γ} (A : Assertions C)

structure Inv (s : State ι ℓ κ σ π ω γ) : Prop where
  points : ∀ i k q, s.pos i = .inside k q → A.pre q s.data

variable {A}

omit [DecidableEq ι] [DecidableEq ℓ] [DecidableEq κ] in
/-- Nobody else is under the lock of the process that acts, so what the others know is about data that stay. -/
theorem same_of_run {d : σ} {l : ℓ} (h : A.Inv s) (hwf : Wf C s)
    (hq : s.pos i = .inside k q) (hact : C.act q s.data (s.killed i) = .run d q' es) (hji : j ≠ i)
    (hj : (s.pos j).Holds C l) : A.same l s.data d := by
  refine (A.run _ _ _ _ _ _ hact (h.points i k q hq)).2 l fun hl => hji ?_
  subst hl
  exact hwf.mutex hj (by simp [hq, Pos.Holds])

omit [DecidableEq ℓ] [DecidableEq κ] in
theorem Inv.move (h : A.Inv s) (hpos : s'.pos = Function.update s.pos i p)
    (hothers : ∀ j k q, j ≠ i → s.pos j = .inside k q → A.pre q s.data → A.pre q s'.data)
    (hinside : ∀ k q, p = .inside k q → A.pre q s'.data) : A.Inv s' where
  points j k q hj := by
    by_cases hji : j = i
    · subst hji
      exact hinside k q (by simpa [hpos] using hj)
    · have hj' : s.pos j = .inside k q := by simpa [hpos, hji] using hj
      exact hothers j k q hji hj' (h.points j k q hj')

theorem Inv.step (h : A.Inv s) (hrun : (machine C init).Run as s) (hs : Trans C s a s') : A.Inv s' := by
  cases hs with
  | @enter i k q hpos hfree =>
    refine h.move (i := i) rfl (fun _ _ _ _ _ hpre => hpre) ?_
    intro k' q' hq
    obtain ⟨-, rfl⟩ : k = k' ∧ q = q' := by simpa using hq
    refine resume_of_run (R := fun q => ∀ d, A.pre q d) A.entry A.sleep hrun i q ?_ ?_ s.data <;> simp [hpos, Pos.point?]
  | @run i k q q' d es hpos hact =>
    refine h.move (i := i) rfl ?_ ?_
    · intro j m r hji hr hpre
      exact A.pre_same r _ _ (same_of_run h (.run hrun) hpos hact hji (by simp [hr, Pos.Holds])) hpre
    · intro k' r hr
      obtain ⟨-, rfl⟩ : k = k' ∧ q' = r := by simpa using hr
      exact (A.run _ _ _ _ _ _ hact (h.points i k q hpos)).1
  | @wakeup i k q q' c hpos hact hfree =>
    refine h.move (i := i) rfl (fun _ _ _ _ _ hpre => hpre) ?_
    intro k' r hr
    obtain ⟨-, rfl⟩ : k = k' ∧ q' = r := by simpa using hr
    exact A.wakeup _ _ _ _ _ hact (h.points i k q hpos)
  | kill hfree => exact ⟨h.points⟩
  | @call i | @sleep i | @leave i | @lockTable i | @unlock i | @doze i | @dispatch i | @awake i =>
    exact h.move (i := i) rfl (fun _ _ _ _ _ hpre => hpre) (by simp)

theorem Inv.of_run (hrun : (machine C init).Run as s) : A.Inv s := by
  induction hrun with
  | start hs => exact ⟨by simp [hs.1.pos]⟩
  | step hrun ha ih => exact ih.step hrun (step_cases ha)

end Assertions

/-- A proof outline of the code: `blocked c` is what a sleeper on `c` waits to end, and at a point that `owes` a
channel a wakeup is still to come. -/
structure Outline (C : Code ℓ κ σ π ω γ) extends Assertions C where
  home : κ → ℓ
  blocked : κ → σ → Prop
  owes : π → κ → Prop
  blocked_same : ∀ c d d', same (home c) d d' → blocked c d → blocked c d'
  run_owes : ∀ q d b d' q' es c, C.act q d b = .run d' q' es → pre q d → home c = C.lock q → blocked c d ∨ owes q c →
    blocked c d' ∨ owes q' c
  wakeup_owes : ∀ q d b c q' c', C.act q d b = .wakeup c q' → c' ≠ c → owes q c' → owes q' c'
  sleep_blocked : ∀ q d b c q', C.act q d b = .sleep c q' → pre q d → home c = C.lock q ∧ blocked c d ∧
    ∀ c', home c' = C.lock q → owes q c' → blocked c' d

namespace Outline

variable {C : Code ℓ κ σ π ω γ} {s s' : State ι ℓ κ σ π ω γ} (O : Outline C)

structure Inv (s : State ι ℓ κ σ π ω γ) : Prop where
  going : ∀ i k c q, s.pos i = .locking k c q ∨ s.pos i = .unlocking k c q → O.home c = C.lock q ∧ O.blocked c s.data
  asleep : ∀ j c, Sleeper s j c → O.blocked c s.data ∨ ∃ i k q, s.pos i = .inside k q ∧ C.lock q = O.home c ∧ O.owes q c

/-- A call that leaves with a wakeup still owed leaves no sleeper without a reason. -/
def Settled (s : State ι ℓ κ σ π ω γ) : Label ι γ → Prop
  | .go i => ∀ k q es c, s.pos i = .inside k q → C.act q s.data (s.killed i) = .leave es → O.home c = C.lock q →
      O.owes q c → (∃ j, Sleeper s j c) → O.blocked c s.data
  | _ => True

variable {O}

omit [DecidableEq ι] [DecidableEq ℓ] [DecidableEq κ] in
/-- Who holds the lock of a channel and is in the code owes its wakeup, or the sleepers are blocked. -/
theorem Inv.holder (h : O.Inv s) (hwf : Wf C s) (hi : (s.pos i).Holds C (O.home c))
    (hj : Sleeper s j c) : O.blocked c s.data ∨ ∃ k q, s.pos i = .inside k q ∧ O.owes q c := by
  rcases h.asleep j c hj with hblocked | ⟨i', k, q, hpos, hlock, howes⟩
  · exact .inl hblocked
  · obtain rfl := hwf.mutex (i := i') (by simp [hpos, Pos.Holds, hlock]) hi
    exact .inr ⟨k, q, hpos, howes⟩

omit [DecidableEq ι] [DecidableEq ℓ] [DecidableEq κ] in
theorem Inv.free (h : O.Inv s) (hwf : Wf C s) (hfree : s.lock (O.home c) = none)
    (hj : Sleeper s j c) : O.blocked c s.data := by
  rcases h.asleep j c hj with hblocked | ⟨i, k, q, hpos, hlock, -⟩
  · exact hblocked
  · have hheld := (hwf.holds (O.home c) i).mpr (by simp [hpos, Pos.Holds, hlock])
    rw [hfree] at hheld
    cases hheld

omit [DecidableEq ℓ] [DecidableEq κ] in
theorem Inv.move (h : O.Inv s) (hdata : s'.data = s.data)
    (hpos : s'.pos = Function.update s.pos i p)
    (hgoing : ∀ k c q, p = .locking k c q ∨ p = .unlocking k c q → O.home c = C.lock q ∧ O.blocked c s.data)
    (hasleep : ∀ j c, Sleeper s' j c → Sleeper s j c ∨ O.blocked c s.data)
    (howes : ∀ k q j c, s.pos i = .inside k q → C.lock q = O.home c → O.owes q c → Sleeper s j c → Sleeper s' j c →
      O.blocked c s.data ∨ ∃ k' q', p = .inside k' q' ∧ C.lock q' = O.home c ∧ O.owes q' c) : O.Inv s' where
  going j k c q hj := by
    rw [hdata]
    by_cases hji : j = i
    · subst hji
      exact hgoing k c q (by simpa [hpos] using hj)
    · exact h.going j k c q (by simpa [hpos, hji] using hj)
  asleep j c hj := by
    rw [hdata]
    rcases hasleep j c hj with hold | hblocked
    · rcases h.asleep j c hold with hblocked | ⟨i', k, q, hq, hlock, howed⟩
      · exact .inl hblocked
      · by_cases hi : i' = i
        · subst hi
          refine (howes k q j c hq hlock howed hold hj).imp_right fun ⟨k', q', hp, hrest⟩ => ?_
          exact ⟨i', k', q', by simp [hpos, hp], hrest⟩
        · exact .inr ⟨i', k, q, by simp [hpos, hi, hq], hlock, howed⟩
    · exact .inl hblocked

omit [DecidableEq κ] in
theorem Inv.act {d : σ} (h : O.Inv s) (hA : O.toAssertions.Inv s) (hwf : Wf C s)
    (hq : s.pos i = .inside k q) (hact : C.act q s.data (s.killed i) = .run d q' es) :
    O.Inv (({ s with data := d }.goto i (.inside k q')).emit k es) := by
  have hpre := hA.points i k q hq
  have hi : (s.pos i).Holds C (C.lock q) := by simp [hq, Pos.Holds]
  refine ⟨fun j m c r hj => ?_, fun j c hj => ?_⟩
  · have hji : j ≠ i := by
      rintro rfl
      simp [State.emit] at hj
    have hr : s.pos j = .locking m c r ∨ s.pos j = .unlocking m c r := by simpa [State.emit, hji] using hj
    obtain ⟨hhome, hblocked⟩ := h.going j m c r hr
    refine ⟨hhome, O.blocked_same c _ _ (Assertions.same_of_run hA hwf hq hact hji ?_) hblocked⟩
    rcases hr with hr | hr <;> simp [hr, Pos.Holds, hhome]
  · have hold : Sleeper s j c := by
      refine hj.imp_left ?_
      rintro ⟨m, r, hr⟩
      refine ⟨m, r, ?_⟩
      by_cases hji : j = i
      · subst hji
        simp [State.emit] at hr
      · simpa [State.emit, hji] using hr
    by_cases hc : O.home c = C.lock q
    · have hstill : O.blocked c s.data ∨ O.owes q c := by
        refine (h.holder hwf (hc ▸ hi) hold).imp_right ?_
        rintro ⟨m, r, hr, howes⟩
        obtain ⟨-, rfl⟩ : k = m ∧ q = r := by simpa [hq] using hr
        exact howes
      refine (O.run_owes _ _ _ _ _ _ c hact hpre hc hstill).imp_right fun howes => ⟨i, k, q', by simp [State.emit], ?_, howes⟩
      rw [C.lock_run _ _ _ _ _ _ hact, hc]
    · rcases h.asleep j c hold with hblocked | ⟨i', m, r, hr, hlock, howes⟩
      · exact .inl (O.blocked_same c _ _ ((O.run _ _ _ _ _ _ hact hpre).2 _ hc) hblocked)
      · have hi' : i' ≠ i := by
          rintro rfl
          obtain ⟨-, rfl⟩ : k = m ∧ q = r := by simpa [hq] using hr
          exact hc hlock.symm
        exact .inr ⟨i', m, r, by simp [State.emit, hi', hr], hlock, howes⟩

omit [DecidableEq ℓ] [DecidableEq κ] in
/-- A sleeper is neither where the step starts nor where it ends, unless it goes to doze. -/
theorem sleeper_of_move (hj : Sleeper s' j c)
    (hpos : s'.pos = Function.update s.pos i p) (hdoze : ∀ k c q, p ≠ .dozing k c q)
    (hstatus : s'.status j = .sleeping ∧ s'.chan j = some c → s.status j = .sleeping ∧ s.chan j = some c) :
    Sleeper s j c := by
  rcases hj with ⟨k, q, hq⟩ | hsleeping
  · by_cases hji : j = i
    · subst hji
      exact absurd (by simpa [hpos] using hq) (hdoze k c q)
    · exact .inl ⟨k, q, by simpa [hpos, hji] using hq⟩
  · exact .inr (hstatus hsleeping)

theorem Inv.wakeup (h : O.Inv s) (hwf : Wf C s) (hpos : s.pos i = .inside k q)
    (hact : C.act q s.data (s.killed i) = .wakeup c q') (hfree : s.table = none) :
    O.Inv ((s.wake c).goto i (.inside k q')) := by
  -- nobody is dozing while the table is free, so the wakeup reaches every sleeper
  have hold : ∀ j c', Sleeper ((s.wake c).goto i (.inside k q')) j c' → Sleeper s j c' := fun j c' hj =>
    sleeper_of_move hj rfl (by simp) fun hsleeping => ⟨((wake_status s c j).mp hsleeping.1).1, hsleeping.2⟩
  refine h.move (i := i) rfl rfl (by simp) (fun j c' hj => .inl (hold j c' hj)) ?_
  · intro k' r j c' hr hlock hc' hj hj'
    obtain ⟨rfl, rfl⟩ : k = k' ∧ q = r := by simpa [hpos] using hr
    have hne : c' ≠ c := by
      rintro rfl
      have hwf' := hwf.step (.wakeup hpos hact hfree)
      obtain ⟨hsleeping, hchan⟩ := hj'.asleep hwf' hfree
      exact ((wake_status s c' j).mp hsleeping).2 hchan
    exact .inr ⟨k, q', rfl, by rw [C.lock_wakeup _ _ _ _ _ hact, hlock], O.wakeup_owes _ _ _ _ _ _ hact hne hc'⟩

theorem Inv.step (h : O.Inv s) (hA : O.toAssertions.Inv s) (hwf : Wf C s) (hsettled : O.Settled s a)
    (hs : Trans C s a s') : O.Inv s' := by
  cases hs with
  | @call i g hpos | @enter i k q hpos =>
    refine h.move (i := i) rfl rfl (by simp) (fun j c hj => .inl (sleeper_of_move hj rfl (by simp) fun h => h)) ?_
    simp [hpos]
  | run hpos hact => exact h.act hA hwf hpos hact
  | wakeup hpos hact hfree => exact h.wakeup hwf hpos hact hfree
  | @sleep i k q q' c hpos hact =>
    obtain ⟨hhome, hblocked, howes⟩ := O.sleep_blocked _ _ _ _ _ hact (hA.points i k q hpos)
    refine h.move (i := i) rfl rfl ?_ (fun j c hj => .inl (sleeper_of_move hj rfl (by simp) fun h => h)) ?_
    · intro k' c' r hr
      obtain ⟨-, rfl, rfl⟩ : k = k' ∧ c = c' ∧ q' = r := by simpa using hr
      exact ⟨by rw [C.lock_sleep _ _ _ _ _ hact, hhome], hblocked⟩
    · intro k' r j c' hr hlock hc' _ _
      obtain ⟨-, rfl⟩ : k = k' ∧ q = r := by simpa [hpos] using hr
      exact .inl (howes c' hlock.symm hc')
  | @leave i k q es hpos hact =>
    refine h.move (i := i) rfl rfl (by simp) (fun j c hj => .inl (sleeper_of_move hj rfl (by simp) fun h => h)) ?_
    intro k' r j c hr hlock hc hj _
    obtain ⟨-, rfl⟩ : k = k' ∧ q = r := by simpa [hpos] using hr
    exact .inl (hsettled k q es c hpos hact hlock.symm hc ⟨j, hj⟩)
  | @lockTable i k c q hpos hfree =>
    refine h.move (i := i) rfl rfl ?_ (fun j c hj => .inl (sleeper_of_move hj rfl (by simp) fun h => h)) (by simp [hpos])
    intro k' c' r hr
    obtain ⟨-, rfl, rfl⟩ : k = k' ∧ c = c' ∧ q = r := by simpa using hr
    exact h.going i k c q (.inl hpos)
  | @unlock i k c q hpos =>
    obtain ⟨-, hblocked⟩ := h.going i k c q (.inr hpos)
    refine h.move (i := i) rfl rfl (by simp) ?_ (by simp [hpos])
    rintro j c' (⟨m, r, hr⟩ | hsleeping)
    · by_cases hji : j = i
      · subst hji
        obtain ⟨-, rfl, -⟩ : k = m ∧ c = c' ∧ q = r := by simpa using hr
        exact .inr hblocked
      · exact .inl (.inl ⟨m, r, by simpa [hji] using hr⟩)
    · exact .inl (.inr hsleeping)
  | @doze i k c q hpos =>
    refine h.move (i := i) rfl rfl (by simp) (fun j c' hj => .inl ?_) (by simp [hpos])
    by_cases hji : j = i
    · subst hji
      obtain rfl : c = c' := by simpa [Sleeper] using hj
      exact .inl ⟨k, q, hpos⟩
    · simpa [Sleeper, hji] using hj
  | @dispatch i k c q hpos | @awake i k q hpos =>
    refine h.move (i := i) rfl rfl (by simp) (fun j c' hj => .inl (sleeper_of_move hj rfl (by simp) ?_)) (by simp [hpos])
    intro hsleeping
    by_cases hji : j = i
    · subst hji
      simp at hsleeping
    · simpa [hji] using hsleeping
  | @kill i hfree =>
    refine ⟨h.going, fun j c hj => h.asleep j c ?_⟩
    exact hj.imp_right fun hsleeping => ⟨((kill_status s i j).mp hsleeping.1).1, hsleeping.2⟩

/-- No wakeup is lost in a run whose calls settle what they owe: with the lock free every sleeper is blocked. -/
theorem blocked_of_sleeper
    (hrun : (machine C init).RunIn O.Settled as s) (hfree : s.lock (O.home c) = none)
    (hj : Sleeper s j c) : O.blocked c s.data := by
  have hinv : O.Inv s := by
    refine Automaton.RunIn.invariant (I := fun _ s => O.Inv s) ?_ ?_ hrun
    · intro s hs
      exact ⟨by simp [hs.1.pos], by simp [Sleeper, hs.1.pos, hs.1.status]⟩
    · intro as s a s' hrun hinv hsettled ha
      exact hinv.step (.of_run hrun) (.run hrun) hsettled (step_cases ha)
  exact hinv.free (.run hrun.run) hfree hj

end Outline

/-! ### Kills -/

/-- The points that a call reaches only by having seen that the process is not killed; it sleeps from no other. -/
structure Tests (C : Code ℓ κ σ π ω γ) where
  tested : π → Prop
  entry : ∀ g, ¬tested (C.entry g)
  run : ∀ q d b d' q' es, C.act q d b = .run d' q' es → tested q' → b = false ∨ tested q
  wakeup : ∀ q d b c q', C.act q d b = .wakeup c q' → tested q' → b = false ∨ tested q
  sleep : ∀ q d b c q', C.act q d b = .sleep c q' → tested q ∧ ¬tested q'

namespace Tests

variable {C : Code ℓ κ σ π ω γ} {s s' : State ι ℓ κ σ π ω γ} (T : Tests C)

def Window : Pos κ π → Prop
  | .inside _ q => T.tested q
  | .locking .. => True
  | _ => False

def Spared (s : State ι ℓ κ σ π ω γ) : Label ι γ → Prop
  | .kill i => ¬T.Window (s.pos i)
  | _ => True

structure Inv (s : State ι ℓ κ σ π ω γ) : Prop where
  window : ∀ i, T.Window (s.pos i) ∨ (∃ k c q, s.pos i = .unlocking k c q ∨ s.pos i = .dozing k c q) →
    s.killed i = false
  asleep : ∀ i, s.status i = .sleeping → s.killed i = false

variable {T}

omit [DecidableEq ℓ] [DecidableEq κ] in
theorem Inv.move (h : T.Inv s) (hkilled : s'.killed = s.killed)
    (hpos : s'.pos = Function.update s.pos i p)
    (hwindow : T.Window p ∨ (∃ k c q, p = .unlocking k c q ∨ p = .dozing k c q) → s.killed i = false)
    (hasleep : ∀ j, s'.status j = .sleeping → s.status j = .sleeping ∨ s.killed j = false) : T.Inv s' where
  window j hj := by
    rw [hkilled]
    by_cases hji : j = i
    · subst hji
      exact hwindow (by simpa [hpos] using hj)
    · exact h.window j (by simpa [hpos, hji] using hj)
  asleep j hj := by
    rw [hkilled]
    exact (hasleep j hj).elim (h.asleep j) id

theorem Inv.step (h : T.Inv s) (hrun : (machine C init).Run as s) (hspared : T.Spared s a) (hs : Trans C s a s') :
    T.Inv s' := by
  cases hs with
  | @enter i k q hpos hfree =>
    have hnot : ¬T.tested q := by
      refine resume_of_run (R := fun q => ¬T.tested q) T.entry (fun _ _ _ _ _ hact => (T.sleep _ _ _ _ _ hact).2) hrun i q ?_ ?_ <;>
        simp [hpos, Pos.point?]
    exact h.move (i := i) rfl rfl (by simp [Window, hnot]) fun j hj => .inl hj
  | @run i k q q' d es hpos hact =>
    refine h.move (i := i) rfl rfl (fun hwindow => ?_) fun j hj => .inl hj
    have htested : T.tested q' := by simpa [Window] using hwindow
    exact (T.run _ _ _ _ _ _ hact htested).elim id fun hq => h.window i (.inl (by simpa [Window, hpos] using hq))
  | @wakeup i k q q' c hpos hact hfree =>
    refine h.move (i := i) rfl rfl (fun hwindow => ?_) fun j hj => .inl ((wake_status s c j).mp hj).1
    have htested : T.tested q' := by simpa [Window] using hwindow
    exact (T.wakeup _ _ _ _ _ hact htested).elim id fun hq => h.window i (.inl (by simpa [Window, hpos] using hq))
  | @sleep i k q q' c hpos hact =>
    refine h.move (i := i) rfl rfl (fun _ => h.window i (.inl ?_)) fun j hj => .inl hj
    simpa [Window, hpos] using (T.sleep _ _ _ _ _ hact).1
  | @lockTable i k c q hpos hfree =>
    exact h.move (i := i) rfl rfl (fun _ => h.window i (.inl (by simp [Window, hpos]))) fun j hj => .inl hj
  | @unlock i k c q hpos =>
    exact h.move (i := i) rfl rfl (fun _ => h.window i (.inr ⟨k, c, q, .inl hpos⟩)) fun j hj => .inl hj
  | @doze i k c q hpos =>
    refine h.move (i := i) rfl rfl (by simp [Window]) fun j hj => ?_
    by_cases hji : j = i
    · subst hji
      exact .inr (h.window j (.inr ⟨k, c, q, .inr hpos⟩))
    · exact .inl (by simpa [hji] using hj)
  | @dispatch i k c q hpos hfree hrunnable =>
    refine h.move (i := i) rfl rfl (by simp [Window]) fun j hj => .inl ?_
    by_cases hji : j = i
    · subst hji
      simp at hj
    · simpa [hji] using hj
  | @call i | @leave i | @awake i => exact h.move (i := i) rfl rfl (by simp [Window]) fun j hj => .inl hj
  | @kill i hfree =>
    have hkilled : ∀ j, j ≠ i → (kill s i).killed j = s.killed j := fun j hj => Function.update_of_ne hj _ _
    refine ⟨fun j hj => ?_, fun j hj => ?_⟩
    · have hji : j ≠ i := by
        rintro rfl
        rcases hj with hwindow | ⟨k, c, q, hq⟩
        · exact hspared hwindow
        · -- the table's lock is held on the way to sleep
          have hheld := ((Wf.run hrun).table j).mpr (by
            rcases hq with hq | hq <;> rw [show s.pos j = _ from hq] <;> trivial)
          rw [hfree] at hheld
          cases hheld
      rw [hkilled j hji]
      exact h.window j hj
    · obtain ⟨hsleeping, hji⟩ := (kill_status s i j).mp hj
      rw [hkilled j hji]
      exact h.asleep j hsleeping

theorem not_killed (hrun : (machine C init).RunIn T.Spared as s)
    (hi : s.status i = .sleeping) : s.killed i = false := by
  have hinv : T.Inv s := by
    refine Automaton.RunIn.invariant (I := fun _ s => T.Inv s) ?_ ?_ hrun
    · intro s hs
      exact ⟨by simp [hs.1.pos, Window], by simp [hs.1.status]⟩
    · intro as s a s' hrun hinv hspared ha
      exact hinv.step hrun hspared (step_cases ha)
  exact hinv.asleep i hi

end Tests

/-! ### What the calls have done -/

/-- What is true of the shared data and the trace and kept by every action is true in every run. -/
theorem data_invariant
    {J : σ → List (Nat × ω) → Prop} (hinit : ∀ d, init d → J d [])
    (hrun : ∀ q d b d' q' es k t, C.act q d b = .run d' q' es → J d t → J d' (t ++ es.map (k, ·)))
    (hleave : ∀ q d b es k t, C.act q d b = .leave es → J d t → J d (t ++ es.map (k, ·)))
    (h : (machine C init).Run as s) : J s.data s.trace := by
  refine Automaton.Run.invariant (I := fun _ s => J s.data s.trace) ?_ ?_ h
  · intro s hs
    rw [hs.1.trace]
    exact hinit _ hs.2
  · intro as s a s' hJ ha
    cases step_cases ha with
    | run hpos hact => exact hrun _ _ _ _ _ _ _ _ hact hJ
    | leave hpos hact => exact hleave _ _ _ _ _ _ hact hJ
    | _ => exact hJ

theorem kill_mem
    (h : (machine C init).Run as s) (hi : s.killed i = true) : .kill i ∈ as := by
  refine Automaton.Run.invariant (I := fun as s => s.killed i = true → .kill i ∈ as) ?_ ?_ h hi
  · intro s hs hi
    rw [hs.1.killed] at hi
    cases hi
  · intro as s a s' hinv ha hi
    cases step_cases ha with
    | @kill j hfree =>
      by_cases hij : i = j
      · simp [hij]
      · exact List.mem_append_left _ (hinv (by simpa [kill, hij] using hi))
    | _ => exact List.mem_append_left _ (hinv hi)

theorem call_mem
    (h : (machine C init).Run as s) (hk : (s.pos i).call? = some k) :
    ∃ g, s.calls[k]? = some g ∧ .call i g ∈ as := by
  refine Automaton.Run.invariant (I := fun as s => ∀ i k, (s.pos i).call? = some k → ∃ g, s.calls[k]? = some g ∧ .call i g ∈ as)
    ?_ ?_ h i k hk
  · intro s hs i k hk
    rw [hs.1.pos] at hk
    cases hk
  · intro as s a s' hinv ha j k hk
    have hold : (s.pos j).call? = some k → s'.calls = s.calls → ∃ g, s'.calls[k]? = some g ∧ .call j g ∈ as ++ [a] := by
      intro hcall hcalls
      obtain ⟨g, hg, hmem⟩ := hinv j k hcall
      exact ⟨g, hcalls ▸ hg, List.mem_append_left _ hmem⟩
    have hmove : ∀ i p, s'.pos = Function.update s.pos i p → (∀ k, p.call? = some k → (s.pos i).call? = some k) → s'.calls = s.calls →
        ∃ g, s'.calls[k]? = some g ∧ .call j g ∈ as ++ [a] := by
      intro i p hpos hp hcalls
      refine hold ?_ hcalls
      rw [hpos] at hk
      by_cases hji : j = i
      · subst hji
        rw [Function.update_self] at hk
        exact hp k hk
      · rwa [Function.update_of_ne hji] at hk
    cases step_cases ha with
    | @call i g hpos =>
      by_cases hji : j = i
      · subst hji
        obtain rfl : s.calls.length = k := by simpa [Pos.call?] using hk
        exact ⟨g, by simp, by simp⟩
      · obtain ⟨g', hg', hmem⟩ := hinv j k (by simpa [hji] using hk)
        refine ⟨g', ?_, List.mem_append_left _ hmem⟩
        show (s.calls ++ [g])[k]? = some g'
        rw [List.getElem?_append_left (List.getElem?_eq_some_iff.mp hg').1, hg']
    | kill hfree => exact hold hk rfl
    | @leave i => exact hmove i .out rfl nofun rfl
    | run hpos | wakeup hpos | sleep hpos | enter hpos | lockTable hpos | unlock hpos | doze hpos | dispatch hpos
    | awake hpos => exact hmove _ _ rfl (fun k hk => by rw [hpos, ← hk]; rfl) rfl

def own (k : Nat) (t : List (Nat × ω)) : List ω := t.filterMap fun e => if e.1 = k then some e.2 else none

theorem own_append (k : Nat) (t t' : List (Nat × ω)) : own k (t ++ t') = own k t ++ own k t' :=
  List.filterMap_append ..

theorem own_map (k k' : Nat) (es : List ω) : own k (es.map (k', ·)) = if k' = k then es else [] := by
  induction es with
  | nil => simp [own]
  | cons e es ih =>
    by_cases hk : k' = k <;> simp_all [own]

theorem own_nil_of_le {t : List (Nat × ω)} (h : ∀ e ∈ t, e.1 < k) : own k t = [] := by
  refine List.filterMap_eq_nil_iff.mpr fun e he => if_neg ?_
  exact (h e he).ne

/-- What is known at a point of a call about its own events, and when it has returned. -/
structure Record (C : Code ℓ κ σ π ω γ) where
  note : γ → π → List ω → Prop
  final : γ → List ω → Prop
  entry : ∀ g, note g (C.entry g) []
  run : ∀ g q d b d' q' es o, C.act q d b = .run d' q' es → note g q o → note g q' (o ++ es)
  wakeup : ∀ g q d b c q' o, C.act q d b = .wakeup c q' → note g q o → note g q' o
  sleep : ∀ g q d b c q' o, C.act q d b = .sleep c q' → note g q o → note g q' o
  leave : ∀ g q d b es o, C.act q d b = .leave es → note g q o → final g (o ++ es)

namespace Record

variable {C : Code ℓ κ σ π ω γ} {s s' : State ι ℓ κ σ π ω γ} (R : Record C)

structure Inv (s : State ι ℓ κ σ π ω γ) : Prop where
  active : ∀ i k q, (s.pos i).call? = some k → (s.pos i).point? = some q →
    ∃ g, s.calls[k]? = some g ∧ R.note g q (own k s.trace)
  unique : ∀ i j k, (s.pos i).call? = some k → (s.pos j).call? = some k → i = j
  done : ∀ k g, s.calls[k]? = some g → (∀ i, (s.pos i).call? ≠ some k) → R.final g (own k s.trace)
  fresh : ∀ e ∈ s.trace, e.1 < s.calls.length

variable {R}

omit [DecidableEq ι] [DecidableEq ℓ] [DecidableEq κ] in
theorem Inv.lt (h : R.Inv s) (hk : (s.pos i).call? = some k) : k < s.calls.length := by
  obtain ⟨q, hq⟩ : ∃ q, (s.pos i).point? = some q := by
    cases hpos : s.pos i <;> simp_all [Pos.call?, Pos.point?]
  obtain ⟨g, hg, -⟩ := h.active i k q hk hq
  exact (List.getElem?_eq_some_iff.mp hg).1

omit [DecidableEq ℓ] [DecidableEq κ] in
theorem Inv.move (h : R.Inv s) (es : List ω)
    (hpos : s'.pos = Function.update s.pos i p) (hcalls : s'.calls = s.calls)
    (htrace : s'.trace = s.trace ++ es.map (k, ·)) (hk : (s.pos i).call? = some k) (hq : (s.pos i).point? = some q)
    (hk' : p.call? = some k) (hq' : p.point? = some q') (hnote : ∀ g o, R.note g q o → R.note g q' (o ++ es)) :
    R.Inv s' := by
  have hcall : ∀ j, (s'.pos j).call? = (s.pos j).call? := by
    intro j
    by_cases hj : j = i
    · subst hj
      simp [hpos, hk, hk']
    · simp [hpos, hj]
  have hown : ∀ m, own m s'.trace = own m s.trace ++ if k = m then es else [] := by
    intro m
    rw [htrace, own_append, own_map]
  refine ⟨fun j m r hm hr => ?_, fun j j' m hm hm' => ?_, fun m g hg hm => ?_, fun e he => ?_⟩
  · rw [hcalls, hown]
    by_cases hj : j = i
    · subst hj
      obtain rfl : k = m := by simpa [hpos, hk'] using hm
      obtain rfl : q' = r := by simpa [hpos, hq'] using hr
      obtain ⟨g, hg, hold⟩ := h.active j k q hk hq
      exact ⟨g, hg, by simpa using hnote g _ hold⟩
    · have hm' : (s.pos j).call? = some m := by simpa [hpos, hj] using hm
      have hne : k ≠ m := by
        rintro rfl
        exact hj (h.unique j i k hm' hk)
      simpa [hne] using h.active j m r hm' (by simpa [hpos, hj] using hr)
  · rw [hcall] at hm hm'
    exact h.unique j j' m hm hm'
  · rw [hcalls] at hg
    have hne : k ≠ m := by
      rintro rfl
      exact hm i (by rw [hcall, hk])
    have hdone := h.done m g hg fun j hj => hm j (by rw [hcall, hj])
    simpa [hown, hne] using hdone
  · rw [htrace, List.mem_append, List.mem_map] at he
    rw [hcalls]
    rcases he with he | ⟨x, -, rfl⟩
    · exact h.fresh e he
    · exact h.lt hk

omit [DecidableEq ℓ] [DecidableEq κ] in
theorem Inv.call {g : γ} (h : R.Inv s) (hpos : s.pos i = .out) :
    R.Inv ({ s with calls := s.calls ++ [g] }.goto i (.entering s.calls.length (C.entry g))) := by
  have hnew : own s.calls.length s.trace = [] := own_nil_of_le h.fresh
  have hold : ∀ m g', (s.calls ++ [g])[m]? = some g' → m ≠ s.calls.length → s.calls[m]? = some g' := by
    intro m g' hm hne
    have hlt : m < s.calls.length := by
      have := (List.getElem?_eq_some_iff.mp hm).1
      rw [List.length_append, List.length_singleton] at this
      omega
    rwa [List.getElem?_append_left hlt] at hm
  refine ⟨fun j m r hm hr => ?_, fun j j' m hm hm' => ?_, fun m g' hg hm => ?_, fun e he => ?_⟩
  · by_cases hj : j = i
    · subst hj
      obtain rfl : s.calls.length = m := by simpa [Pos.call?] using hm
      obtain rfl : C.entry g = r := by simpa [Pos.point?] using hr
      refine ⟨g, by simp, ?_⟩
      rw [goto_trace, hnew]
      exact R.entry g
    · have hm' : (s.pos j).call? = some m := by simpa [hj] using hm
      obtain ⟨g', hg', hnote⟩ := h.active j m r hm' (by simpa [hj] using hr)
      exact ⟨g', (List.getElem?_append_left (h.lt hm')).trans hg', hnote⟩
  · -- the new call has a number that no call in progress has
    have hother : ∀ x, x ≠ i → (s.pos x).call? ≠ some s.calls.length := fun x _ hx => (h.lt hx).false
    by_cases hj : j = i <;> by_cases hj' : j' = i
    · rw [hj, hj']
    · obtain rfl : s.calls.length = m := by simpa [hj, Pos.call?] using hm
      exact absurd (by simpa [hj'] using hm') (hother j' hj')
    · obtain rfl : s.calls.length = m := by simpa [hj', Pos.call?] using hm'
      exact absurd (by simpa [hj] using hm) (hother j hj)
    · exact h.unique j j' m (by simpa [hj] using hm) (by simpa [hj'] using hm')
  · have hne : m ≠ s.calls.length := by
      rintro rfl
      exact hm i (by simp [Pos.call?])
    refine h.done m g' (hold m g' hg hne) fun j hj => ?_
    have hji : j ≠ i := by
      rintro rfl
      simp [hpos, Pos.call?] at hj
    exact hm j (by simpa [hji] using hj)
  · have := h.fresh e he
    simp only [goto_calls, List.length_append, List.length_singleton]
    omega

omit [DecidableEq ℓ] [DecidableEq κ] in
theorem Inv.leave {f : ℓ → Option ι} (h : R.Inv s) (hpos : s.pos i = .inside k q)
    (hfinal : ∀ g o, R.note g q o → R.final g (o ++ es)) :
    R.Inv (({ s with lock := f }.goto i .out).emit k es) := by
  have hk : (s.pos i).call? = some k := by simp [hpos, Pos.call?]
  have hown : ∀ m, own m (s.trace ++ es.map (k, ·)) = own m s.trace ++ if k = m then es else [] := by
    intro m
    rw [own_append, own_map]
  have hstill : ∀ j m, ((({ s with lock := f }.goto i .out).emit k es).pos j).call? = some m →
      j ≠ i ∧ (s.pos j).call? = some m := by
    intro j m hm
    by_cases hj : j = i
    · subst hj
      simp [State.emit, Pos.call?] at hm
    · exact ⟨hj, by simpa [State.emit, hj] using hm⟩
  refine ⟨fun j m r hm hr => ?_, fun j j' m hm hm' => ?_, fun m g hg hm => ?_, fun e he => ?_⟩
  · obtain ⟨hj, hm'⟩ := hstill j m hm
    have hne : k ≠ m := by
      rintro rfl
      exact hj (h.unique j i k hm' hk)
    obtain ⟨g, hg, hnote⟩ := h.active j m r hm' (by simpa [State.emit, hj] using hr)
    exact ⟨g, hg, by simpa [State.emit, hown, hne] using hnote⟩
  · exact h.unique j j' m (hstill j m hm).2 (hstill j' m hm').2
  · by_cases hkm : k = m
    · subst hkm
      obtain ⟨g', hg', hnote⟩ := h.active i k q hk (by simp [hpos, Pos.point?])
      obtain rfl : g' = g := Option.some.inj (hg'.symm.trans hg)
      simpa [State.emit, hown] using hfinal g' _ hnote
    · have hdone := h.done m g hg fun j hj => by
        have hji : j ≠ i := by
          rintro rfl
          exact hkm (Option.some.inj (hk.symm.trans hj))
        exact hm j (by simpa [State.emit, hji] using hj)
      simpa [State.emit, hown, hkm] using hdone
  · rw [State.emit, List.mem_append, List.mem_map] at he
    rcases he with he | ⟨x, -, rfl⟩
    · exact h.fresh e he
    · exact h.lt hk

theorem Inv.step (h : R.Inv s) (hs : Trans C s a s') : R.Inv s' := by
  cases hs with
  | call hpos => exact h.call hpos
  | @run i k q q' d es hpos hact =>
    exact h.move es rfl rfl rfl (by rw [hpos]; rfl) (by rw [hpos]; rfl) rfl rfl fun g o => R.run g _ _ _ _ _ _ o hact
  | @wakeup i k q q' c hpos hact hfree =>
    refine h.move [] rfl rfl (by simp [State.wake]) (by rw [hpos]; rfl) (by rw [hpos]; rfl) rfl rfl fun g o hnote => ?_
    simpa using R.wakeup g _ _ _ _ _ o hact hnote
  | @sleep i k q q' c hpos hact =>
    refine h.move [] rfl rfl (by simp) (by rw [hpos]; rfl) (by rw [hpos]; rfl) rfl rfl fun g o hnote => ?_
    simpa using R.sleep g _ _ _ _ _ o hact hnote
  | leave hpos hact => exact h.leave hpos fun g o => R.leave g _ _ _ _ o hact
  | kill hfree => exact ⟨h.active, h.unique, h.done, h.fresh⟩
  | enter hpos | lockTable hpos | unlock hpos | doze hpos | dispatch hpos | awake hpos =>
    exact h.move [] rfl rfl (by simp) (by rw [hpos]; rfl) (by rw [hpos]; rfl) rfl rfl fun g o hnote => by simpa using hnote

theorem Inv.of_run (hrun : (machine C init).Run as s) : R.Inv s := by
  refine Automaton.Run.invariant (I := fun _ s => R.Inv s) ?_ ?_ hrun
  · intro s hs
    exact ⟨by simp [hs.1.pos, Pos.call?], by simp [hs.1.pos, Pos.call?], by simp [hs.1.calls], by simp [hs.1.trace]⟩
  · intro as s a s' hinv ha
    exact hinv.step (step_cases ha)

omit [DecidableEq ι] [DecidableEq ℓ] [DecidableEq κ] in
/-- The events of a call are as noted at some point of it, or as they are when it has returned. -/
theorem Inv.note_or_final (h : R.Inv s) {g : γ} (hg : s.calls[k]? = some g) :
    (∃ q, R.note g q (own k s.trace)) ∨ R.final g (own k s.trace) := by
  by_cases hactive : ∃ i, (s.pos i).call? = some k
  · obtain ⟨i, hi⟩ := hactive
    obtain ⟨q, hq⟩ : ∃ q, (s.pos i).point? = some q := by
      cases hpos : s.pos i <;> simp_all [Pos.call?, Pos.point?]
    obtain ⟨g', hg', hnote⟩ := h.active i k q hi hq
    obtain rfl : g' = g := Option.some.inj (hg'.symm.trans hg)
    exact .inl ⟨q, hnote⟩
  · exact .inr (h.done k g hg fun i hi => hactive ⟨i, hi⟩)

end Record

end Lib.Monitor
