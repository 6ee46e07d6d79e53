import Xv6.Sleep.Code

/-!
# No lost wakeup on pipes

Sleepers on `&p->nread` wait for a byte or for the last writer to close, sleepers on `&p->nwrite` for room or
for the last reader to close. Whoever ends such a wait wakes the sleepers before it releases the lock, with
one exception: a `pipewrite` that finds the pipe full and gives up, because it is killed or there is no reader
any more, returns without waking the readers for the bytes that it has stored.
-/

namespace Xv6.Sleep

open Lib Monitor

variable {p : Pipe}

namespace Pipe

def Blocked (p : Pipe) : End → Prop
  | .nread => p.Empty ∧ p.writeopen = true
  | .nwrite => p.Full ∧ p.readopen = true

theorem not_empty_of_full (h : p.Full) : ¬p.Empty := by
  intro hempty
  have hzero : UInt32.ofNat pipesize = 0 := by
    rw [Full, ← hempty] at h
    exact left_eq_add.mp h
  revert hzero
  decide

end Pipe

/-! ### The points of the calls -/

def WritePc.Pre (p : Pipe) : WritePc → Prop
  | .wake _ | .sleep _ => p.Full ∧ p.readopen = true
  | _ => True

def ReadPc.Pre (n : Int) (p : Pipe) : ReadPc → Prop
  | .wait => True
  | .sleep => p.Empty ∧ p.writeopen = true
  | .copy i => i = 0 → p.Empty → p.writeopen = false
  | .done i | .ret i => 0 < n → i = 0 → p.Empty ∧ p.writeopen = false

def ConsolePc.Pre (s : Input) : ConsolePc → Prop
  | .sleep _ => s.r = s.w
  | _ => True

def WritePc.Owes : WritePc → End → Prop
  | .loop _, e | .wake _, e | .done, e => e = .nread
  | _, _ => False

def ReadPc.Owes : ReadPc → End → Prop
  | .copy _, e | .done _, e => e = .nwrite
  | _, _ => False

def ClosePc.Owes (writable : Bool) : ClosePc → End → Prop
  | .wake, e => e = if writable then .nread else .nwrite
  | _, _ => False

def IntrPc.Owes : IntrPc → Prop
  | .wake _ => True
  | _ => False

variable {n : Int} {p' : Pipe} {killed : Bool} {es : List PipeEvent}

theorem pipewrite_run {addr : Nat → UInt8} {pc pc' : WritePc}
    (h : pipewrite addr n pc p killed = .run p' pc' es) : pc'.Pre p' ∧
      ∀ e, p.Blocked e ∨ pc.Owes e → p'.Blocked e ∨ pc'.Owes e := by
  cases pc with
  | loop i =>
    simp only [pipewrite] at h
    split at h
    · split at h
      · split at h
        · cases h
        · rename_i hfull hgo
          cases h
          rw [not_or, Bool.not_eq_false] at hgo
          exact ⟨⟨hfull, hgo.1⟩, fun e => id⟩
      · rename_i hroom
        cases h
        refine ⟨trivial, fun e he => .inr ?_⟩
        rcases he with hblocked | howes
        · cases e with
          | nread => rfl
          | nwrite => exact absurd hblocked.1 hroom
        · exact howes
    · cases h
      exact ⟨trivial, fun e => id⟩
  | _ => cases h

theorem piperead_run {pc pc' : ReadPc}
    (h : piperead n pc p killed = .run p' pc' es) (hpre : pc.Pre n p) : pc'.Pre n p' ∧
      ∀ e, p.Blocked e ∨ pc.Owes e → p'.Blocked e ∨ pc'.Owes e := by
  cases pc with
  | wait =>
    simp only [piperead] at h
    split at h
    · split at h
      · cases h
      · cases h
        exact ⟨‹_›, fun e he => he.imp_right False.elim⟩
    · rename_i hgo
      cases h
      refine ⟨fun _ hempty => ?_, fun e he => he.imp_right False.elim⟩
      exact Bool.eq_false_iff.mpr fun hopen => hgo ⟨hempty, hopen⟩
  | copy i =>
    simp only [piperead] at h
    split at h
    · split at h
      · rename_i hempty
        cases h
        exact ⟨fun _ hi => ⟨hempty, hpre hi hempty⟩, fun e => id⟩
      · rename_i hbytes
        cases h
        refine ⟨fun hi => absurd hi (Nat.succ_ne_zero i), fun e he => .inr ?_⟩
        rcases he with hblocked | howes
        · cases e with
          | nread => exact absurd hblocked.1 hbytes
          | nwrite => rfl
        · exact howes
    · rename_i hn
      cases h
      refine ⟨fun hpos hi => absurd ?_ hn, fun e => id⟩
      rw [hi]
      exact hpos
  | _ => cases h

theorem pipeclose_run {writable : Bool} {pc pc' : ClosePc}
    (h : pipeclose writable pc p killed = .run p' pc' es) (e : End) (he : p.Blocked e ∨ pc.Owes writable e) :
    p'.Blocked e ∨ pc'.Owes writable e := by
  cases pc with
  | close =>
    cases h
    cases writable <;> cases e <;> simp_all [Pipe.Blocked, ClosePc.Owes, Pipe.Empty, Pipe.Full]
  | wake => cases h
  | free =>
    simp only [pipeclose] at h
    split at h <;> cases h

theorem consoleread_run {target : Int} {pc pc' : ConsolePc} {s s' : Input} {es : List InputEvent}
    (h : consoleread target pc s killed = .run s' pc' es) : pc'.Pre s' ∧ (s.r = s.w → s'.r = s'.w) := by
  cases pc with
  | loop n =>
    simp only [consoleread] at h
    split at h
    · split at h
      · split at h
        · cases h
        · cases h
          exact ⟨‹_›, id⟩
      · rename_i hbytes
        refine ⟨?_, fun hempty => absurd hempty hbytes⟩
        split at h
        · cases h
          trivial
        · obtain ⟨-, rfl, -⟩ := Action.run.inj h
          split <;> trivial
    · cases h
      exact ⟨trivial, id⟩
  | _ => cases h

theorem consoleintr_run {pc pc' : IntrPc} {s s' : Input} {es : List InputEvent}
    (h : consoleintr pc s killed = .run s' pc' es) (hs : s.r = s.w ∨ pc.Owes) : s'.r = s'.w ∨ pc'.Owes := by
  cases pc with
  | loop cs =>
    have hempty : s.r = s.w := hs.resolve_right id
    cases cs with
    | nil => cases h
    | cons c cs =>
      simp only [consoleintr, insertChar] at h
      split_ifs at h <;> cases h <;> first | exact .inl hempty | exact .inr trivial
  | killLine cs =>
    have hempty : s.r = s.w := hs.resolve_right id
    simp only [consoleintr] at h
    split at h <;> cases h <;> exact .inl hempty
  | wake cs => cases h

/-! ### The outline -/

def Same : Lock → Shared → Shared → Prop
  | .pipe p, s, s' => s'.pipe p = s.pipe p
  | .input, s, s' => s'.input = s.input
  | .ticks, s, s' => s'.ticks = s.ticks

def Point.Pre : Point → Shared → Prop
  | .pipewrite p _ _ pc, s => pc.Pre (s.pipe p)
  | .piperead p n pc, s => pc.Pre n (s.pipe p)
  | .consoleread _ pc, s => pc.Pre s.input
  | _, _ => True

def Chan.home : Chan → Lock
  | .pipe p _ => .pipe p
  | .input => .input
  | .ticks => .ticks

def Chan.Blocked : Chan → Shared → Prop
  | .pipe p e, s => (s.pipe p).Blocked e
  | .input, s => s.input.r = s.input.w
  | .ticks, _ => True

/-- A wakeup of the channel is still to come in the call. -/
def Point.Owes : Point → Chan → Prop
  | .pipewrite p _ _ pc, .pipe p' e => p' = p ∧ pc.Owes e
  | .piperead p _ pc, .pipe p' e => p' = p ∧ pc.Owes e
  | .pipeclose p writable pc, .pipe p' e => p' = p ∧ pc.Owes writable e
  | .consoleintr pc, .input => pc.Owes
  | _, _ => False

@[simp] theorem setPipe_self (s : Shared) (p : Nat) (v : Pipe) : (s.setPipe p v).pipe p = v := Function.update_self ..

theorem same_setPipe (s : Shared) {p : Nat} {l : Lock} (v : Pipe) (hl : l ≠ .pipe p) : Same l s (s.setPipe p v) := by
  cases l with
  | pipe p' =>
    refine Function.update_of_ne (fun hp => hl ?_) _ _
    rw [hp]
  | _ => rfl

def assertions : Assertions code where
  same := Same
  pre := Point.Pre
  pre_same q s s' hsame hpre := by
    cases q with
    | pipewrite | piperead | consoleread =>
      change _ = _ at hsame
      simpa only [Point.Pre, hsame] using hpre
    | _ => trivial
  entry g s := by cases g <;> trivial
  run q s killed s' q' es h hpre := by
    cases q with
    | pipewrite p addr n pc =>
      obtain ⟨v, pc', _, hact, rfl, rfl, -⟩ := Action.lift_eq_run.mp h
      refine ⟨?_, fun l hl => same_setPipe s v hl⟩
      simpa [Point.Pre] using (pipewrite_run hact).1
    | piperead p n pc =>
      obtain ⟨v, pc', _, hact, rfl, rfl, -⟩ := Action.lift_eq_run.mp h
      refine ⟨?_, fun l hl => same_setPipe s v hl⟩
      simpa [Point.Pre] using (piperead_run hact hpre).1
    | pipeclose p writable pc =>
      obtain ⟨v, pc', _, hact, rfl, rfl, -⟩ := Action.lift_eq_run.mp h
      exact ⟨trivial, fun l hl => same_setPipe s v hl⟩
    | consoleread target pc =>
      obtain ⟨v, pc', _, hact, rfl, rfl, -⟩ := Action.lift_eq_run.mp h
      exact ⟨(consoleread_run hact).1, fun l hl => by cases l <;> first | rfl | exact absurd rfl hl⟩
    | consoleintr | sysSleep | tick =>
      obtain ⟨v, pc', _, hact, rfl, rfl, -⟩ := Action.lift_eq_run.mp h
      exact ⟨trivial, fun l hl => by cases l <;> first | rfl | exact absurd rfl hl⟩
  wakeup q s killed c q' h hpre := by
    cases q with
    | pipewrite p addr n pc =>
      obtain ⟨e, pc', hact, rfl, rfl⟩ := Action.lift_eq_wakeup.mp h
      obtain ⟨-, ⟨i, rfl, rfl⟩ | ⟨rfl, rfl⟩⟩ := pipewrite_wakeup hact
      · exact hpre
      · trivial
    | piperead p n pc =>
      obtain ⟨e, pc', hact, rfl, rfl⟩ := Action.lift_eq_wakeup.mp h
      obtain ⟨i, rfl, -, rfl⟩ := piperead_wakeup hact
      exact hpre
    | consoleread target pc =>
      obtain ⟨e, pc', hact, -, -⟩ := Action.lift_eq_wakeup.mp h
      exact absurd hact consoleread_wakeup
    | _ =>
      obtain ⟨e, pc', hact, rfl, rfl⟩ := Action.lift_eq_wakeup.mp h
      trivial
  sleep q s killed c q' h s' := by
    cases q with
    | pipewrite p addr n pc =>
      obtain ⟨e, pc', hact, rfl, rfl⟩ := Action.lift_eq_sleep.mp h
      obtain ⟨i, -, -, rfl⟩ := pipewrite_sleep hact
      trivial
    | piperead p n pc =>
      obtain ⟨e, pc', hact, rfl, rfl⟩ := Action.lift_eq_sleep.mp h
      obtain ⟨-, -, rfl⟩ := piperead_sleep hact
      trivial
    | consoleread target pc =>
      obtain ⟨e, pc', hact, rfl, rfl⟩ := Action.lift_eq_sleep.mp h
      obtain ⟨n, -, rfl⟩ := consoleread_sleep hact
      trivial
    | _ =>
      obtain ⟨e, pc', hact, rfl, rfl⟩ := Action.lift_eq_sleep.mp h
      trivial

def outline : Outline code where
  toAssertions := assertions
  home := Chan.home
  blocked := Chan.Blocked
  owes := Point.Owes
  blocked_same c s s' hsame hblocked := by
    cases c with
    | ticks => trivial
    | _ =>
      change _ = _ at hsame
      simpa only [Chan.Blocked, hsame] using hblocked
  run_owes q s killed s' q' es c h hpre hc hblocked := by
    cases q with
    | pipewrite p addr n pc =>
      obtain ⟨v, pc', _, hact, rfl, rfl, -⟩ := Action.lift_eq_run.mp h
      cases c with
      | pipe p' e =>
        obtain rfl : p' = p := Lock.pipe.inj hc
        simpa [Chan.Blocked, Point.Owes] using (pipewrite_run hact).2 e (by simpa [Chan.Blocked, Point.Owes] using hblocked)
      | _ => cases hc
    | piperead p n pc =>
      obtain ⟨v, pc', _, hact, rfl, rfl, -⟩ := Action.lift_eq_run.mp h
      cases c with
      | pipe p' e =>
        obtain rfl : p' = p := Lock.pipe.inj hc
        simpa [Chan.Blocked, Point.Owes] using (piperead_run hact hpre).2 e (by simpa [Chan.Blocked, Point.Owes] using hblocked)
      | _ => cases hc
    | pipeclose p writable pc =>
      obtain ⟨v, pc', _, hact, rfl, rfl, -⟩ := Action.lift_eq_run.mp h
      cases c with
      | pipe p' e =>
        obtain rfl : p' = p := Lock.pipe.inj hc
        simpa [Chan.Blocked, Point.Owes] using pipeclose_run hact e (by simpa [Chan.Blocked, Point.Owes] using hblocked)
      | _ => cases hc
    | consoleread target pc =>
      obtain ⟨v, pc', _, hact, rfl, rfl, -⟩ := Action.lift_eq_run.mp h
      cases c with
      | input => exact .inl ((consoleread_run hact).2 (hblocked.resolve_right id))
      | _ => cases hc
    | consoleintr pc =>
      obtain ⟨v, pc', _, hact, rfl, rfl, -⟩ := Action.lift_eq_run.mp h
      cases c with
      | input => exact consoleintr_run hact hblocked
      | _ => cases hc
    | sysSleep | tick =>
      cases c with
      | ticks => exact .inl trivial
      | _ => cases hc
  wakeup_owes q s killed c q' c' h hne howes := by
    cases q with
    | pipewrite p addr n pc =>
      obtain ⟨e, pc', hact, rfl, rfl⟩ := Action.lift_eq_wakeup.mp h
      cases c' with
      | pipe p' e' =>
        obtain ⟨rfl, howed⟩ := howes
        obtain ⟨rfl, ⟨i, rfl, rfl⟩ | ⟨rfl, rfl⟩⟩ := pipewrite_wakeup hact <;> exact absurd (congrArg _ howed) hne
      | _ => exact howes.elim
    | piperead p n pc =>
      obtain ⟨e, pc', hact, rfl, rfl⟩ := Action.lift_eq_wakeup.mp h
      cases c' with
      | pipe p' e' =>
        obtain ⟨rfl, howed⟩ := howes
        obtain ⟨i, rfl, rfl, rfl⟩ := piperead_wakeup hact
        exact absurd (congrArg _ howed) hne
      | _ => exact howes.elim
    | pipeclose p writable pc =>
      obtain ⟨e, pc', hact, rfl, rfl⟩ := Action.lift_eq_wakeup.mp h
      cases c' with
      | pipe p' e' =>
        obtain ⟨rfl, howed⟩ := howes
        obtain ⟨rfl, rfl, rfl⟩ := pipeclose_wakeup hact
        exact absurd (congrArg _ howed) hne
      | _ => exact howes.elim
    | consoleintr pc =>
      obtain ⟨e, pc', hact, rfl, rfl⟩ := Action.lift_eq_wakeup.mp h
      cases c' with
      | input => exact absurd rfl hne
      | _ => exact howes.elim
    | _ => exact howes.elim
  sleep_blocked q s killed c q' h hpre := by
    -- where a call sleeps it owes no wakeup any more
    cases q with
    | pipewrite p addr n pc =>
      obtain ⟨e, pc', hact, rfl, rfl⟩ := Action.lift_eq_sleep.mp h
      obtain ⟨i, rfl, rfl, rfl⟩ := pipewrite_sleep hact
      exact ⟨rfl, hpre, fun c' _ howes => by cases c' <;> first | exact howes.2.elim | exact howes.elim⟩
    | piperead p n pc =>
      obtain ⟨e, pc', hact, rfl, rfl⟩ := Action.lift_eq_sleep.mp h
      obtain ⟨rfl, rfl, rfl⟩ := piperead_sleep hact
      exact ⟨rfl, hpre, fun c' _ howes => by cases c' <;> first | exact howes.2.elim | exact howes.elim⟩
    | pipeclose p writable pc =>
      obtain ⟨e, pc', hact, -, -⟩ := Action.lift_eq_sleep.mp h
      exact absurd hact pipeclose_sleep
    | consoleread target pc =>
      obtain ⟨e, pc', hact, rfl, rfl⟩ := Action.lift_eq_sleep.mp h
      obtain ⟨n, rfl, rfl⟩ := consoleread_sleep hact
      exact ⟨rfl, hpre, fun c' _ howes => by cases c' <;> exact howes.elim⟩
    | consoleintr pc =>
      obtain ⟨e, pc', hact, -, -⟩ := Action.lift_eq_sleep.mp h
      exact absurd hact consoleintr_sleep
    | sysSleep n pc =>
      obtain ⟨e, pc', hact, rfl, rfl⟩ := Action.lift_eq_sleep.mp h
      exact ⟨rfl, trivial, fun c' _ howes => by cases c' <;> exact howes.elim⟩
    | tick pc =>
      obtain ⟨e, pc', hact, -, -⟩ := Action.lift_eq_sleep.mp h
      exact absurd hact tick_sleep

/-! ### Runs -/

/-- A `pipewrite` gives up on a full pipe only when nobody sleeps on `&p->nread`, or is about to. -/
def GivesUpAlone (s : State) : Label → Prop
  | .go i => ∀ k p addr n j, s.pos i = .inside k (.pipewrite p addr n (.loop j)) → j < n → (s.data.pipe p).Full →
      ((s.data.pipe p).readopen = false ∨ s.killed i = true) → ∀ r, ¬Sleeper s r (.pipe p .nread)
  | _ => True

variable {s : State}

theorem GivesUpAlone.settled {a : Label} (h : GivesUpAlone s a) : outline.Settled s a := by
  cases a with
  | go i =>
    intro k q es c hpos hact _ howes ⟨r, hr⟩
    cases q with
    | pipewrite p addr n pc =>
      obtain ⟨_, hleave, -⟩ := Action.lift_eq_leave.mp hact
      cases c with
      | pipe p' e =>
        obtain ⟨rfl, howed⟩ := howes
        rcases pipewrite_leave hleave with ⟨j, rfl, hj, hfull, hgive, -⟩ | ⟨rfl, -⟩
        · obtain rfl : e = .nread := howed
          exact absurd hr (h k p' addr n j hpos hj hfull hgive r)
        · exact howed.elim
      | _ => exact howes.elim
    | piperead p n pc =>
      obtain ⟨_, hleave, -⟩ := Action.lift_eq_leave.mp hact
      cases c with
      | pipe p' e => rcases piperead_leave hleave with ⟨rfl, -⟩ | ⟨j, rfl, -⟩ <;> exact howes.2.elim
      | _ => exact howes.elim
    | pipeclose p writable pc =>
      obtain ⟨_, hleave, -⟩ := Action.lift_eq_leave.mp hact
      cases c with
      | pipe p' e =>
        obtain ⟨rfl, -⟩ := pipeclose_leave hleave
        exact howes.2.elim
      | _ => exact howes.elim
    | consoleintr pc =>
      obtain ⟨_, hleave, -⟩ := Action.lift_eq_leave.mp hact
      cases pc with
      | wake cs => cases hleave
      | _ => cases c <;> exact howes.elim
    | _ => exact howes.elim
  | _ => trivial

/-- With `p->lock` and `ptable.lock` free, who sleeps on the pipe has something to wait for. -/
def NoLostWakeup (s : State) (p : Nat) : Prop :=
  s.lock (.pipe p) = none → s.table = none → ∀ i, s.status i = .sleeping →
    (s.chan i = some (.pipe p .nread) → (s.data.pipe p).Empty ∧ (s.data.pipe p).writeopen = true) ∧
    (s.chan i = some (.pipe p .nwrite) → (s.data.pipe p).Full ∧ (s.data.pipe p).readopen = true)

theorem lost_of_giveUp {s' : State} {a : Label} (hwf : Wf code s) (htable : s.table = none) (hgive : ¬GivesUpAlone s a)
    (hstep : system.step s a = .next s') : ∃ p, ¬NoLostWakeup s' p := by
  cases a with
  | go i =>
    simp only [GivesUpAlone, not_forall, not_not] at hgive
    obtain ⟨k, p, addr, n, j, hpos, hj, hfull, hwhy, r, hr⟩ := hgive
    have hact : code.act (.pipewrite p addr n (.loop j)) s.data (s.killed i) = .leave [.pipe p (.returned (-1))] := by
      change onPipe _ _ _ (pipewrite addr n (.loop j) (s.data.pipe p) (s.killed i)) = _
      rw [pipewrite, if_pos hj, if_pos hfull, if_pos hwhy]
      rfl
    obtain rfl := Outcome.next.inj ((step_of_trans (.leave hpos hact)).symm.trans hstep)
    refine ⟨p, fun hlost => ?_⟩
    obtain ⟨hsleeping, hchan⟩ := hr.asleep hwf htable
    exact Pipe.not_empty_of_full hfull ((hlost (Function.update_self ..) htable r hsleeping).1 hchan).1
  | _ => exact absurd trivial hgive

theorem pipe_no_lost_wakeup (as : List Label) (s : State) : (system.RunIn GivesUpAlone as s → ∀ p, NoLostWakeup s p) ∧
    (system.Run as s → s.table = none → ∀ a s', ¬GivesUpAlone s a → system.step s a = .next s' →
      ∃ p, ¬NoLostWakeup s' p) := by
  refine ⟨fun hrun p hlock _ i hi => ?_, fun hrun htable a s' hgive hstep => ?_⟩
  · have hsettled := hrun.mono fun _ _ => GivesUpAlone.settled
    exact ⟨fun hchan => outline.blocked_of_sleeper (c := Chan.pipe p .nread) hsettled hlock (.inr ⟨hi, hchan⟩),
      fun hchan => outline.blocked_of_sleeper (c := Chan.pipe p .nwrite) hsettled hlock (.inr ⟨hi, hchan⟩)⟩
  · exact lost_of_giveUp (.run hrun) htable hgive hstep

/-! ### A reader asleep on a full pipe -/

def idle : State where
  data := ⟨fun _ => ⟨fun _ => 0, 0, 0, true, true⟩, ⟨fun _ => 0, 0, 0, 0⟩, 0⟩
  lock _ := none
  table := none
  pos _ := .out
  status _ := .running
  chan _ := none
  killed _ := false
  calls := []
  trace := []

theorem start_idle : system.start idle :=
  ⟨⟨fun _ => rfl, rfl, fun _ => rfl, fun _ => rfl, fun _ => rfl, rfl, rfl⟩, fun _ => ⟨rfl, rfl, rfl, rfl⟩, rfl, rfl, rfl⟩

/-- Process 0 reads from the empty pipe 0 and sleeps. -/
def readerSleeps : List Label := .call 0 (.piperead 0 1) :: List.replicate 6 (.go 0)

/-- Process 1 has the lock of the pipe and is to write 513 bytes. -/
def writerEnters : List Label := [.call 1 (.pipewrite 0 (fun _ => 0) 513), .go 1]

theorem fill {as : List Label} {i k p : Nat} {addr : Nat → UInt8} (hrun : system.Run as s)
    (hpos : s.pos i = .inside k (.pipewrite p addr n (.loop 0))) (hread : (s.data.pipe p).nread = 0)
    (hwrite : (s.data.pipe p).nwrite = 0) {m : Nat} (hm : m ≤ pipesize) (hn : m ≤ n) :
    ∃ s', system.Run (as ++ List.replicate m (.go i)) s' ∧ s'.pos i = .inside k (.pipewrite p addr n (.loop m)) ∧
      (s'.data.pipe p).nread = 0 ∧ (s'.data.pipe p).nwrite = UInt32.ofNat m ∧ s'.status = s.status ∧
      s'.chan = s.chan ∧ s'.table = s.table := by
  induction m with
  | zero => exact ⟨s, by simpa using hrun, hpos, hread, hwrite, rfl, rfl, rfl⟩
  | succ m ih =>
    obtain ⟨t, ht, htpos, htread, htwrite, hstatus, hchan, htable⟩ := ih (by omega) (by omega)
    have hroom : ¬(t.data.pipe p).Full := by
      rw [Pipe.Full, htread, htwrite]
      intro hfull
      have hlt : pipesize < 2 ^ 32 := by decide
      have := Ring.add_ofNat_inj 0 (j := m) (k := pipesize) (by omega) hlt (by simpa using hfull)
      omega
    have hact : code.act (.pipewrite p addr n (.loop m)) t.data (t.killed i) =
        .run (t.data.setPipe p ((t.data.pipe p).store (addr m))) (.pipewrite p addr n (.loop (m + 1)))
          [.pipe p (.stored (addr m))] := by
      change onPipe _ _ _ (pipewrite addr n (.loop m) (t.data.pipe p) (t.killed i)) = _
      rw [pipewrite, if_pos (by omega), if_neg hroom]
      rfl
    have hnext := Run.trans ht (.run htpos hact)
    rw [List.append_assoc, ← List.replicate_succ'] at hnext
    refine ⟨_, hnext, ?_, ?_, ?_, hstatus, hchan, htable⟩
    · simp [State.emit]
    · simpa [State.emit, Pipe.store] using htread
    · simp [State.emit, Pipe.store, htwrite, Ring.ofNat_succ]

/-- The writer fills the pipe, is killed and gives up; the reader that slept when the pipe was empty sleeps on. -/
theorem reader_left_asleep : ∃ as s, system.Run as s ∧ s.lock (.pipe 0) = none ∧ s.table = none ∧
    s.status 0 = .sleeping ∧ s.chan 0 = some (.pipe 0 .nread) ∧ (s.data.pipe 0).Full := by
  obtain ⟨s, hs, hpos, hread, hwrite, htable, hsleeping, hchan, hrunning⟩ :
      ∃ s, system.exec idle (readerSleeps ++ writerEnters) = some s ∧
        s.pos 1 = .inside 1 (.pipewrite 0 (fun _ => 0) 513 (.loop 0)) ∧ (s.data.pipe 0).nread = 0 ∧
        (s.data.pipe 0).nwrite = 0 ∧ s.table = none ∧ s.status 0 = .sleeping ∧
        s.chan 0 = some (.pipe 0 .nread) ∧ s.status 1 = .running := ⟨_, rfl, rfl, rfl, rfl, rfl, rfl, rfl, rfl⟩
  have hrun := (Automaton.Run.start start_idle).exec hs
  obtain ⟨t, ht, htpos, htread, htwrite, hstatus, htchan, httable⟩ :=
    fill hrun hpos hread hwrite (le_refl pipesize) (by decide)
  rw [htable] at httable
  have hfull : (t.data.pipe 0).Full := by
    rw [Pipe.Full, htread, htwrite, zero_add]
  have hkill := Run.trans ht (.kill (i := 1) httable)
  have hact : code.act (.pipewrite 0 (fun _ => 0) 513 (.loop pipesize)) t.data ((kill t 1).killed 1) =
      .leave [.pipe 0 (.returned (-1))] := by
    change onPipe _ _ _ (pipewrite _ _ (.loop pipesize) (t.data.pipe 0) ((kill t 1).killed 1)) = _
    rw [pipewrite, if_pos (by decide), if_pos hfull, if_pos (.inr (by simp [kill]))]
    rfl
  refine ⟨_, _, Run.trans hkill (.leave (s := kill t 1) htpos hact), by simp [State.emit, code, Point.lock], httable, ?_, ?_, hfull⟩
  · refine (kill_status t 1 0).mpr ⟨?_, by decide⟩
    rw [hstatus, hsleeping]
  · exact (congrFun htchan 0).trans hchan

theorem pipe_no_lost_wakeup_reader : ∃ s, system.RunIn GivesUpAlone readerSleeps s ∧ s.status 0 = .sleeping ∧
    s.chan 0 = some (.pipe 0 .nread) ∧ NoLostWakeup s 0 := by
  -- the only process reads
  have hgo : ∀ {as : List Label} {s s' : State}, system.RunIn GivesUpAlone as s →
      (∀ k p addr n j, s.pos 0 ≠ .inside k (.pipewrite p addr n (.loop j))) → system.step s (.go 0) = .next s' →
      system.RunIn GivesUpAlone (as ++ [.go 0]) s' := fun h hpos ha =>
    h.step (fun k p addr n j hpos' => absurd hpos' (hpos k p addr n j)) ha
  have h0 : system.RunIn GivesUpAlone [.call 0 (.piperead 0 1)] _ := (Automaton.RunIn.start start_idle).step trivial rfl
  have h1 := hgo (hgo (hgo h0 (by rintro - - - - - ⟨⟩) rfl) (by rintro - - - - - ⟨⟩) rfl) (by rintro - - - - - ⟨⟩) rfl
  have h2 := hgo (hgo (hgo h1 (by rintro - - - - - ⟨⟩) rfl) (by rintro - - - - - ⟨⟩) rfl) (by rintro - - - - - ⟨⟩) rfl
  exact ⟨_, h2, rfl, rfl, (pipe_no_lost_wakeup _ _).1 h2 0⟩

end Xv6.Sleep
