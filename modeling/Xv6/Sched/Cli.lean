import Xv6.Lib.Transition

/-!
# Interrupts and nested locks on one CPU

`ncli` and `intena` belong to the CPU, but the nesting of locks that they count belongs to the process that runs. `sched`
keeps `intena` on the stack of the process across the switch. The lock of the process table is taken by one context and
released by another; what other CPUs do only makes `acquire` wait longer.
-/

namespace Xv6.Cli

open Lib

abbrev Lock := Nat

/-- `ptable.lock`. -/
def ptableLock : Lock := 0

/-- The fields of `struct cpu` for nested `cli`s, and `FL_IF` of the flags register. -/
structure Cpu where
  ncli : Int
  intena : Bool
  enabled : Bool

def Cpu.pushcli (c : Cpu) : Cpu := ⟨c.ncli + 1, if c.ncli = 0 then c.enabled else c.intena, false⟩

def Cpu.popcli (c : Cpu) : Except String Cpu :=
  if c.enabled then .error "popcli - interruptible"
  else if c.ncli - 1 < 0 then .error "popcli"
  else .ok ⟨c.ncli - 1, c.intena, c.ncli - 1 = 0 && c.intena⟩

inductive Context where
  /-- `scheduler`, before it takes the lock of the table or in its loop over the table. -/
  | scheduler (inLoop : Bool)
  | process (p : Nat)

structure State where
  cpu : Cpu
  /-- The locks that this CPU holds. -/
  held : List Lock
  context : Context
  /-- The variable of `sched` on the stack of a process that has called it. A new process has none and begins in `forkret`. -/
  intena : Nat → Option Bool
  /-- How many calls of `pushcli` the running process has not yet undone. -/
  pushes : Nat
  /-- The number of those calls and `FL_IF`, as they were when a process acquired the first of the locks that it holds. -/
  outer : Nat → Option (Nat × Bool)

def boot : State := ⟨⟨0, false, false⟩, [], .scheduler false, fun _ => none, 0, fun _ => none⟩

namespace State

def acquire (s : State) (l : Lock) : Except String State :=
  if l ∈ s.held then .error "acquire" else .ok { s with cpu := s.cpu.pushcli, held := l :: s.held }

/-- `acquire`, called by the process `p`. If it holds no other lock, the state remembers how things were. -/
def acquireBy (s : State) (p : Nat) (l : Lock) : Except String State :=
  (s.acquire l).map fun t =>
    if s.held = [] then { t with outer := Function.update s.outer p (some (s.pushes, s.cpu.enabled)) } else t

def release (s : State) (l : Lock) : Except String State :=
  if l ∈ s.held then s.cpu.popcli.map fun c => { s with cpu := c, held := s.held.erase l } else .error "release"

/-- The first part of `sched`, up to `swtch`. That the process is not in the state `RUNNING` is left out. -/
def sched (s : State) (p : Nat) : Except String State :=
  if ptableLock ∉ s.held then .error "sched ptable.lock"
  else if s.cpu.ncli ≠ 1 then .error "sched locks"
  else if s.cpu.enabled then .error "sched interruptible"
  else .ok { s with intena := Function.update s.intena p (some s.cpu.intena), context := .scheduler true }

/-- Back in `sched` of a process, or at the beginning of `forkret`. -/
def swtch (s : State) (p : Nat) : State :=
  { s with cpu.intena := (s.intena p).getD s.cpu.intena, context := .process p }

end State

inductive Event where
  /-- The scheduler enables interrupts and takes the lock of the table. -/
  | round
  | swtch (p : Nat)
  /-- The scheduler releases the lock at the end of the table. -/
  | finish
  | acquire (l : Lock)
  | release (l : Lock)
  | pushcli
  | popcli
  | sched
  /-- An interrupt or the return from it, in a process that holds interrupts off by nothing else. -/
  | setFlag (enabled : Bool)

def panics : Except String State → Outcome String State
  | .ok s => .next s
  | .error msg => .fail msg

def step (s : State) (e : Event) : Outcome String State :=
  match s.context, e with
  | .scheduler false, .round =>
    panics ((State.acquire { s with cpu.enabled := true } ptableLock).map fun s => { s with context := .scheduler true })
  | .scheduler true, .swtch p => .next (s.swtch p)
  | .scheduler true, .finish => panics ((s.release ptableLock).map fun s => { s with context := .scheduler false })
  | .process p, .acquire l => panics (s.acquireBy p l)
  | .process _, .release l => panics (s.release l)
  | .process _, .pushcli => .next { s with cpu := s.cpu.pushcli, pushes := s.pushes + 1 }
  | .process _, .popcli =>
    if 0 < s.pushes then panics (s.cpu.popcli.map fun c => { s with cpu := c, pushes := s.pushes - 1 }) else .disabled
  | .process p, .sched => panics (s.sched p)
  | .process _, .setFlag b => if s.cpu.ncli = 0 then .next { s with cpu.enabled := b } else .disabled
  | _, _ => .disabled

def system : Automaton State Event String := ⟨(· = boot), step⟩

/-! ### Counting -/

/-- `ncli` counts `n` reasons to hold interrupts off, and they are off if there is one. -/
structure Counts (c : Cpu) (n : Nat) : Prop where
  ncli : c.ncli = n
  off : 0 < n → c.enabled = false

variable {c : Cpu} {n : Nat} {b : Bool} {s : State} {l : Lock} {p : Nat}

theorem Counts.pushcli (h : Counts c n) : Counts c.pushcli (n + 1) :=
  ⟨by simp [Cpu.pushcli, h.ncli], fun _ => rfl⟩

theorem Counts.intena_pushcli (h : Counts c n) (hpos : 0 < n) : c.pushcli.intena = c.intena :=
  if_neg (by rw [h.ncli]; omega)

theorem Counts.popcli (h : Counts c (n + 1)) : ∃ c', c.popcli = .ok c' ∧ Counts c' n ∧ c'.intena = c.intena ∧
    (n = 0 → c'.enabled = c.intena) := by
  have hncli : c.ncli - 1 = n := by simp [h.ncli]
  refine ⟨⟨n, c.intena, decide ((n : Int) = 0) && c.intena⟩, ?_, ⟨rfl, fun hpos => ?_⟩, rfl, fun hzero => by simp [hzero]⟩
  · rw [Cpu.popcli, h.off n.succ_pos, if_neg Bool.false_ne_true, hncli, if_neg (by omega)]
  · simp [Nat.ne_of_gt hpos]

/-- The value of `intena` for a process: that of the CPU while it runs, or the one on its stack. -/
def State.remembered (s : State) (p : Nat) : Option Bool :=
  match s.context with
  | .process q => if q = p then some s.cpu.intena else s.intena p
  | .scheduler _ => s.intena p

/-- What is remembered for a process suits what was so when it acquired its outermost lock. -/
def Suits (outer : Option (Nat × Bool)) (remembered : Option Bool) : Prop :=
  ∀ k b, outer = some (k, b) → if k = 0 then remembered = some b else b = false

structure Inv (s : State) : Prop where
  counts : Counts s.cpu (s.held.length + s.pushes)
  scheduler : ∀ b, s.context = .scheduler b → s.held = (if b then [ptableLock] else []) ∧ s.pushes = 0
  suits : ∀ p, (s.context = .process p → s.held ≠ []) → Suits (s.outer p) (s.remembered p)

/-- The panics that are not those of `popcli`. -/
def Other (msg : String) : Prop := msg ≠ "popcli" ∧ msg ≠ "popcli - interruptible"

theorem inv_boot : Inv boot := by
  refine ⟨⟨rfl, fun h => absurd h (lt_irrefl 0)⟩, fun b hb => ?_, fun p _ k b hk => by cases hk⟩
  cases hb
  exact ⟨rfl, rfl⟩

/-- A step of the process that runs leaves the others alone. -/
theorem Inv.goes (h : Inv s) (hp : s.context = .process p) {held : List Lock} {outer : Nat → Option (Nat × Bool)}
    (hcounts : Counts c (held.length + n)) (houter : ∀ q, q ≠ p → outer q = s.outer q)
    (hsuits : held ≠ [] → Suits (outer p) (some c.intena)) : Inv { s with cpu := c, held := held, pushes := n, outer := outer } := by
  refine ⟨hcounts, fun b hb => ?_, fun q hq => ?_⟩
  · cases hp.symm.trans hb
  · by_cases heq : p = q
    · subst heq
      simpa [State.remembered, hp] using hsuits (hq hp)
    · have hother := h.suits q fun hq => absurd (Context.process.inj (hp.symm.trans hq)) heq
      simpa [State.remembered, hp, heq, houter q (Ne.symm heq)] using hother

theorem Inv.running (h : Inv s) (hp : s.context = .process p) (hheld : s.held ≠ []) : Suits (s.outer p) (some s.cpu.intena) := by
  simpa [State.remembered, hp] using h.suits p fun _ => hheld

/-- A step of the scheduler by itself. -/
theorem Inv.turns (h : Inv s) {b b' : Bool} (hcontext : s.context = .scheduler b) {held : List Lock} (hcounts : Counts c held.length)
    (hheld : held = if b' then [ptableLock] else []) : Inv { s with cpu := c, held := held, context := .scheduler b' } := by
  obtain ⟨-, hpushes⟩ := h.scheduler b hcontext
  refine ⟨by simpa [hpushes] using hcounts, fun b hb => ?_, fun p _ => ?_⟩
  · obtain rfl := Context.scheduler.inj hb
    exact ⟨hheld, hpushes⟩
  · simpa [State.remembered, hcontext] using h.suits p (by simp [hcontext])

/-- A release takes one lock away and undoes one `pushcli`. -/
theorem Inv.released (h : Inv s) (hl : l ∈ s.held) : ∃ c, s.release l = .ok { s with cpu := c, held := s.held.erase l } ∧
    Counts c ((s.held.erase l).length + s.pushes) ∧ c.intena = s.cpu.intena ∧
    ((s.held.erase l).length + s.pushes = 0 → c.enabled = s.cpu.intena) := by
  have hlength : (s.held.erase l).length + s.pushes + 1 = s.held.length + s.pushes := by
    have hpos := List.length_pos_of_mem hl
    rw [List.length_erase_of_mem hl]
    omega
  obtain ⟨c, hpop, hcounts, hintena, henabled⟩ := Counts.popcli (hlength ▸ h.counts)
  exact ⟨c, by rw [State.release, if_pos hl, hpop]; rfl, hcounts, hintena, henabled⟩

theorem Inv.acquireBy (h : Inv s) (hp : s.context = .process p) : (panics (s.acquireBy p l)).Meets Inv Other := by
  rw [State.acquireBy, State.acquire]
  by_cases hl : l ∈ s.held
  · rw [if_pos hl]
    exact ⟨by decide, by decide⟩
  · rw [if_neg hl]
    have hcounts : Counts s.cpu.pushcli ((l :: s.held).length + s.pushes) := by
      simpa [Nat.add_right_comm] using h.counts.pushcli
    by_cases hnone : s.held = []
    · rw [Except.map, if_pos hnone]
      refine h.goes hp hcounts (fun q hq => Function.update_of_ne hq _ _) fun _ k b hk => ?_
      rw [Function.update_self] at hk
      obtain ⟨rfl, rfl⟩ := Prod.mk.inj (Option.some.inj hk)
      have hncli : s.cpu.ncli = s.pushes := by simpa [hnone] using h.counts.ncli
      split
      · simp [Cpu.pushcli, *]
      · exact h.counts.off (by omega)
    · rw [Except.map, if_neg hnone]
      refine h.goes hp hcounts (fun _ _ => rfl) fun _ => ?_
      rw [h.counts.intena_pushcli (Nat.add_pos_left (List.length_pos_of_ne_nil hnone) _)]
      exact h.running hp hnone

theorem Inv.sched (h : Inv s) (hp : s.context = .process p) : (panics (s.sched p)).Meets Inv Other := by
  rw [State.sched]
  by_cases hlock : ptableLock ∈ s.held
  case neg =>
    rw [if_pos hlock]
    exact ⟨by decide, by decide⟩
  rw [if_neg (not_not.mpr hlock)]
  split_ifs with hncli henabled
  · exact ⟨by decide, by decide⟩
  · exact ⟨by decide, by decide⟩
  -- The only reason to hold interrupts off is the lock of the table.
  have hone : s.held.length + s.pushes = 1 := by
    have := h.counts.ncli
    omega
  have hpos := List.length_pos_of_mem hlock
  have hpushes : s.pushes = 0 := by omega
  have hheld : s.held = [ptableLock] := by
    obtain ⟨l, hl⟩ := List.length_eq_one_iff.mp (by omega : s.held.length = 1)
    rw [hl] at hlock
    rw [hl, List.mem_singleton.mp hlock]
  refine ⟨h.counts, fun b hb => ?_, fun q _ => ?_⟩
  · obtain rfl := Context.scheduler.inj hb
    exact ⟨hheld, hpushes⟩
  · have hsuits := h.suits q fun _ => by simp [hheld]
    by_cases heq : p = q
    · subst heq
      simpa [State.remembered, hp] using hsuits
    · simpa [State.remembered, hp, heq, Ne.symm heq] using hsuits

theorem Inv.swtch (h : Inv s) (hcontext : s.context = .scheduler true) (p : Nat) : Inv (s.swtch p) := by
  refine ⟨⟨h.counts.ncli, h.counts.off⟩, fun b hb => (by cases hb), fun q _ => ?_⟩
  have hsuits := h.suits q (by simp [hcontext])
  by_cases heq : p = q
  · subst heq
    intro k b hk
    have hold := hsuits k b hk
    split at hold
    · rename_i hzero
      simp only [State.remembered, hcontext] at hold
      simp [State.remembered, State.swtch, hold, hzero]
    · rwa [if_neg ‹_›]
  · simpa [State.remembered, State.swtch, hcontext, heq] using hsuits

theorem Inv.step (h : Inv s) (e : Event) : (step s e).Meets Inv Other := by
  unfold Cli.step
  split
  case h_1 hcontext =>
    obtain ⟨hheld, hpushes⟩ := h.scheduler _ hcontext
    have hcounts : Counts { s.cpu with enabled := true } 0 := ⟨by simpa [hheld, hpushes] using h.counts.ncli, by simp⟩
    rw [State.acquire, if_neg (by simp [hheld])]
    exact h.turns hcontext (by simpa [hheld] using hcounts.pushcli) (by simp [hheld])
  case h_2 p hcontext => exact h.swtch hcontext p
  case h_3 hcontext =>
    obtain ⟨hheld, hpushes⟩ := h.scheduler _ hcontext
    obtain ⟨c, hrelease, hcounts, -⟩ := h.released (l := ptableLock) (by simp [hheld])
    rw [hrelease]
    exact h.turns hcontext (by simpa [hpushes] using hcounts) (by simp [hheld])
  case h_4 p l hp => exact h.acquireBy hp
  case h_5 p l hp =>
    by_cases hl : l ∈ s.held
    · obtain ⟨c, hrelease, hcounts, hintena, -⟩ := h.released hl
      rw [hrelease]
      exact h.goes hp hcounts (fun _ _ => rfl) fun _ => hintena ▸ h.running hp (List.ne_nil_of_mem hl)
    · rw [State.release, if_neg hl]
      exact ⟨by decide, by decide⟩
  case h_6 p hp =>
    refine h.goes hp h.counts.pushcli (fun _ _ => rfl) fun hheld => ?_
    rw [h.counts.intena_pushcli (Nat.add_pos_left (List.length_pos_of_ne_nil hheld) _)]
    exact h.running hp hheld
  case h_7 p hp =>
    refine Outcome.Meets.ite (fun hpos => ?_) fun _ => trivial
    obtain ⟨c, hpop, hcounts, hintena, -⟩ := Counts.popcli (n := s.held.length + (s.pushes - 1)) (c := s.cpu)
      (by rw [Nat.add_assoc, Nat.sub_add_cancel hpos]; exact h.counts)
    rw [hpop]
    exact h.goes hp hcounts (fun _ _ => rfl) fun hheld => hintena ▸ h.running hp hheld
  case h_8 p hp => exact h.sched hp
  case h_9 p b hp =>
    refine Outcome.Meets.ite (fun hzero => ?_) fun _ => trivial
    have hnone : s.held.length + s.pushes = 0 := by
      have := h.counts.ncli
      omega
    exact h.goes hp ⟨h.counts.ncli, fun hpos => absurd hnone (Nat.ne_of_gt hpos)⟩ (fun _ _ => rfl) (h.running hp)
  case h_10 => trivial

/-- Interrupts are off while something holds them off, `popcli` does not panic, and with its last lock a process gets back the
flag that it had before the first, unless a `pushcli` of its own has begun or ended in between. -/
theorem interrupts_kept {es : List Event} {s : State} (hrun : system.Run es s) :
    (0 < s.cpu.ncli → s.cpu.enabled = false) ∧
    (∀ e msg, step s e = .fail msg → msg ≠ "popcli" ∧ msg ≠ "popcli - interruptible") ∧
    ∀ p l s' k b, s.context = .process p → s.outer p = some (k, b) → step s (.release l) = .next s' → s'.held = [] →
      s'.pushes = k → s'.cpu.enabled = b := by
  have hinv : Inv s := by
    refine hrun.invariant (I := fun _ => Inv) (fun s (hs : s = boot) => hs ▸ inv_boot) fun _ s e s' hs he => ?_
    have hmeets := hs.step e
    rwa [show step s e = _ from he] at hmeets
  refine ⟨fun hpos => hinv.counts.off (by have := hinv.counts.ncli; omega), fun e msg he => ?_, ?_⟩
  · have hmeets := hinv.step e
    rwa [he] at hmeets
  · intro p l s' k b hp hk hstep hheld hpushes
    simp only [step, hp] at hstep
    by_cases hl : l ∈ s.held
    · obtain ⟨c, hrelease, hcounts, -, henabled⟩ := hinv.released hl
      rw [hrelease] at hstep
      obtain rfl := Outcome.next.inj hstep
      have hlast : s.held.erase l = [] := hheld
      have hsuits := hinv.running hp (List.ne_nil_of_mem hl) k b hk
      have hsame : s.pushes = k := hpushes
      rw [hlast, hsame, List.length_nil, Nat.zero_add] at hcounts henabled
      split at hsuits
      · exact (henabled ‹_›).trans (Option.some.inj hsuits)
      · exact (hcounts.off (Nat.pos_of_ne_zero ‹_›)).trans hsuits.symm
    · rw [State.release, if_neg hl] at hstep
      cases hstep

/-- Process 1 waits in `sched` with interrupts to be enabled, process 2 runs with interrupts disabled, then process 1 goes on. -/
def between : List Event := [.round, .swtch 1, .release ptableLock, .setFlag true, .acquire 7, .acquire ptableLock, .release 7, .sched, .swtch 2,
  .release ptableLock, .setFlag false, .acquire ptableLock, .sched, .swtch 1]

theorem interrupts_kept_between :
    ∃ s s', system.Run between s ∧ step s (.release ptableLock) = .next s' ∧ s'.cpu.enabled = true := by
  have hexec : system.exec boot between = some _ := rfl
  have hrun : system.Run between _ := Automaton.Run.exec (.start rfl) hexec
  exact ⟨_, _, hrun, rfl, (interrupts_kept hrun).2.2 1 ptableLock _ 0 true rfl rfl rfl rfl rfl⟩

end Xv6.Cli
