import Xv6.Lib.MonitorRules
import Xv6.Lib.Ring

/-!
# Calls that sleep under a lock of their own

The code of `pipe.c`, of the console's input in `console.c`, of `sys_sleep` and of the clock interrupt, as
actions between two points at which another process can be noticed: the lock that is held, the table of
processes, or a kill. Any number of processes and interrupt handlers run these calls at once.
-/

namespace Xv6.Sleep

open Lib Monitor

def pipesize : Nat := 512

def inputBuf : Nat := 128

instance : NeZero pipesize := ⟨by decide⟩

instance : NeZero inputBuf := ⟨by decide⟩

/-! ### Pipes -/

structure Pipe where
  data : Fin pipesize → UInt8
  nread : UInt32
  nwrite : UInt32
  readopen : Bool
  writeopen : Bool

namespace Pipe

def Empty (p : Pipe) : Prop := p.nread = p.nwrite

def Full (p : Pipe) : Prop := p.nwrite = p.nread + UInt32.ofNat pipesize

instance (p : Pipe) : Decidable p.Empty := inferInstanceAs (Decidable (p.nread = p.nwrite))

instance (p : Pipe) : Decidable p.Full := inferInstanceAs (Decidable (p.nwrite = p.nread + UInt32.ofNat pipesize))

def store (p : Pipe) (b : UInt8) : Pipe :=
  { p with data := Function.update p.data (Ring.slot pipesize p.nwrite) b, nwrite := p.nwrite + 1 }

def front (p : Pipe) : UInt8 := p.data (Ring.slot pipesize p.nread)

def take (p : Pipe) : Pipe := { p with nread := p.nread + 1 }

/-- What `pipealloc` sets up; the data are what the page held. -/
def Fresh (p : Pipe) : Prop := p.nread = 0 ∧ p.nwrite = 0 ∧ p.readopen = true ∧ p.writeopen = true

end Pipe

inductive End where
  | nread | nwrite
deriving DecidableEq

inductive PipeEvent where
  | stored (b : UInt8)
  | took (b : UInt8)
  | returned (r : Int)
  | freed
deriving DecidableEq

inductive WritePc where
  | loop (i : Nat)
  | wake (i : Nat)
  | sleep (i : Nat)
  | done
  | ret

def pipewrite (addr : Nat → UInt8) (n : Int) : WritePc → Pipe → Bool → Action End Pipe WritePc PipeEvent
  | .loop i, p, killed =>
    if i < n then
      if p.Full then
        if p.readopen = false ∨ killed then .leave [.returned (-1)] else .run p (.wake i) []
      else .run (p.store (addr i)) (.loop (i + 1)) [.stored (addr i)]
    else .run p .done []
  | .wake i, _, _ => .wakeup .nread (.sleep i)
  | .sleep i, _, _ => .sleep .nwrite (.loop i)
  | .done, _, _ => .wakeup .nread .ret
  | .ret, _, _ => .leave [.returned n]

inductive ReadPc where
  | wait
  | sleep
  | copy (i : Nat)
  | done (i : Nat)
  | ret (i : Nat)

/-- `piperead(p, addr, n)`; the bytes put at `addr` are those taken. -/
def piperead (n : Int) : ReadPc → Pipe → Bool → Action End Pipe ReadPc PipeEvent
  | .wait, p, killed =>
    if p.Empty ∧ p.writeopen then
      if killed then .leave [.returned (-1)] else .run p .sleep []
    else .run p (.copy 0) []
  | .sleep, _, _ => .sleep .nread .wait
  | .copy i, p, _ =>
    if i < n then
      if p.Empty then .run p (.done i) [] else .run p.take (.copy (i + 1)) [.took p.front]
    else .run p (.done i) []
  | .done i, _, _ => .wakeup .nwrite (.ret i)
  | .ret i, _, _ => .leave [.returned i]

inductive ClosePc where
  | close
  | wake
  | free

def pipeclose (writable : Bool) : ClosePc → Pipe → Bool → Action End Pipe ClosePc PipeEvent
  | .close, p, _ => .run (if writable then { p with writeopen := false } else { p with readopen := false }) .wake []
  | .wake, _, _ => .wakeup (if writable then .nread else .nwrite) .free
  | .free, p, _ => if p.readopen = false ∧ p.writeopen = false then .leave [.freed] else .leave []

/-! ### The console's input -/

structure Input where
  buf : Fin inputBuf → UInt8
  r : UInt32
  w : UInt32
  e : UInt32

inductive InputEvent where
  | char (c : UInt8)
  | returned (r : Int)
deriving DecidableEq

def ctrl (x : Char) : UInt8 := x.toNat.toUInt8 - '@'.toNat.toUInt8

def newline : UInt8 := '\n'.toNat.toUInt8

def carriageReturn : UInt8 := '\r'.toNat.toUInt8

def Input.get (s : Input) (x : UInt32) : UInt8 := s.buf (Ring.slot inputBuf x)

inductive ConsolePc where
  | loop (n : Int)
  | sleep (n : Int)
  | ret (n : Int)

/-- `consoleread(ip, dst, target)` between its `iunlock` and `ilock`; `n` is what is left to read. -/
def consoleread (target : Int) : ConsolePc → Input → Bool → Action Unit Input ConsolePc InputEvent
  | .loop n, s, killed =>
    if 0 < n then
      if s.r = s.w then
        if killed then .leave [.returned (-1)] else .run s (.sleep n) []
      else if s.get s.r = ctrl 'D' then
        -- a ^D that ends a read with bytes is kept for the next call
        .run (if n < target then s else { s with r := s.r + 1 }) (.ret n) []
      else
        .run { s with r := s.r + 1 } (if s.get s.r = newline then .ret (n - 1) else .loop (n - 1)) [.char (s.get s.r)]
    else .run s (.ret n) []
  | .sleep n, _, _ => .sleep () (.loop n)
  | .ret n, _, _ => .leave [.returned (target - n)]

inductive IntrPc where
  | loop (cs : List UInt8)
  | killLine (cs : List UInt8)
  | wake (cs : List UInt8)

def insertChar (s : Input) (c : UInt8) (cs : List UInt8) : Action Unit Input IntrPc InputEvent :=
  if c ≠ 0 ∧ s.e - s.r < UInt32.ofNat inputBuf then
    let c := if c = carriageReturn then newline else c
    let s' := { s with buf := Function.update s.buf (Ring.slot inputBuf s.e) c, e := s.e + 1 }
    if c = newline ∨ c = ctrl 'D' ∨ s'.e = s.r + UInt32.ofNat inputBuf then .run { s' with w := s'.e } (.wake cs) []
    else .run s' (.loop cs) []
  else .run s (.loop cs) []

/-- `consoleintr(getc)` for the characters that `getc` gives before it has no more. What the echo and the
process listing print is not kept. -/
def consoleintr : IntrPc → Input → Bool → Action Unit Input IntrPc InputEvent
  | .loop [], _, _ => .leave []
  | .loop (c :: cs), s, _ =>
    if c = ctrl 'P' then .run s (.loop cs) []
    else if c = ctrl 'U' then .run s (.killLine cs) []
    else if c = ctrl 'H' ∨ c = 0x7f then .run (if s.e = s.w then s else { s with e := s.e - 1 }) (.loop cs) []
    else insertChar s c cs
  | .killLine cs, s, _ =>
    if s.e ≠ s.w ∧ s.get (s.e - 1) ≠ newline then .run { s with e := s.e - 1 } (.killLine cs) [] else .run s (.loop cs) []
  | .wake cs, _, _ => .wakeup () (.loop cs)

/-! ### The clock -/

inductive SleepPc where
  | start
  | loop (ticks0 : UInt32)
  | sleep (ticks0 : UInt32)

/-- `sys_sleep` with the argument `n`, which the comparison takes as unsigned; the event is the result. -/
def sysSleep (n : UInt32) : SleepPc → UInt32 → Bool → Action Unit UInt32 SleepPc Int
  | .start, ticks, _ => .run ticks (.loop ticks) []
  | .loop ticks0, ticks, killed =>
    if ticks - ticks0 < n then
      if killed then .leave [-1] else .run ticks (.sleep ticks0) []
    else .leave [0]
  | .sleep ticks0, _, _ => .sleep () (.loop ticks0)

inductive TickPc where
  | incr | wake | ret

def tick : TickPc → UInt32 → Bool → Action Unit UInt32 TickPc Int
  | .incr, ticks, _ => .run (ticks + 1) .wake []
  | .wake, _, _ => .wakeup () .ret
  | .ret, _, _ => .leave []

/-! ### The system -/

structure Shared where
  pipe : Nat → Pipe
  input : Input
  ticks : UInt32

def Shared.setPipe (s : Shared) (p : Nat) (v : Pipe) : Shared := { s with pipe := Function.update s.pipe p v }

/-- The locks `p->lock`, `input.lock` and `tickslock`. -/
inductive Lock where
  | pipe (p : Nat)
  | input
  | ticks
deriving DecidableEq

inductive Chan where
  | pipe (p : Nat) (e : End)
  | input
  | ticks
deriving DecidableEq

inductive Event where
  | pipe (p : Nat) (e : PipeEvent)
  | input (e : InputEvent)
  | ticks (r : Int)
deriving DecidableEq

inductive Call where
  | pipewrite (p : Nat) (addr : Nat → UInt8) (n : Int)
  | piperead (p : Nat) (n : Int)
  | pipeclose (p : Nat) (writable : Bool)
  | consoleread (n : Int)
  | consoleintr (cs : List UInt8)
  | sysSleep (n : UInt32)
  | tick

inductive Point where
  | pipewrite (p : Nat) (addr : Nat → UInt8) (n : Int) (pc : WritePc)
  | piperead (p : Nat) (n : Int) (pc : ReadPc)
  | pipeclose (p : Nat) (writable : Bool) (pc : ClosePc)
  | consoleread (target : Int) (pc : ConsolePc)
  | consoleintr (pc : IntrPc)
  | sysSleep (n : UInt32) (pc : SleepPc)
  | tick (pc : TickPc)

def Point.lock : Point → Lock
  | .pipewrite p .. | .piperead p .. | .pipeclose p .. => .pipe p
  | .consoleread .. | .consoleintr .. => .input
  | .sysSleep .. | .tick .. => .ticks

def Call.entry : Call → Point
  | .pipewrite p addr n => .pipewrite p addr n (.loop 0)
  | .piperead p n => .piperead p n .wait
  | .pipeclose p writable => .pipeclose p writable .close
  | .consoleread n => .consoleread n (.loop n)
  | .consoleintr cs => .consoleintr (.loop cs)
  | .sysSleep n => .sysSleep n .start
  | .tick => .tick .incr

def onPipe {π : Type} (s : Shared) (p : Nat) (point : π → Point) (a : Action End Pipe π PipeEvent) :
    Action Chan Shared Point Event := a.lift (.pipe p) (s.setPipe p) point (.pipe p)

def onInput {π : Type} (s : Shared) (point : π → Point) (a : Action Unit Input π InputEvent) :
    Action Chan Shared Point Event := a.lift (fun _ => .input) (fun v => { s with input := v }) point .input

def onTicks {π : Type} (s : Shared) (point : π → Point) (a : Action Unit UInt32 π Int) :
    Action Chan Shared Point Event := a.lift (fun _ => .ticks) (fun v => { s with ticks := v }) point .ticks

def Point.act (q : Point) (s : Shared) (killed : Bool) : Action Chan Shared Point Event :=
  match q with
  | .pipewrite p addr n pc => onPipe s p (.pipewrite p addr n) (Sleep.pipewrite addr n pc (s.pipe p) killed)
  | .piperead p n pc => onPipe s p (.piperead p n) (Sleep.piperead n pc (s.pipe p) killed)
  | .pipeclose p writable pc => onPipe s p (.pipeclose p writable) (Sleep.pipeclose writable pc (s.pipe p) killed)
  | .consoleread target pc => onInput s (.consoleread target) (Sleep.consoleread target pc s.input killed)
  | .consoleintr pc => onInput s .consoleintr (Sleep.consoleintr pc s.input killed)
  | .sysSleep n pc => onTicks s (.sysSleep n) (Sleep.sysSleep n pc s.ticks killed)
  | .tick pc => onTicks s .tick (Sleep.tick pc s.ticks killed)

/-! ### Where the calls wake, sleep and leave -/

variable {addr : Nat → UInt8} {n : Int} {pc : WritePc} {p : Pipe} {killed : Bool}

theorem pipewrite_wakeup {pc' : WritePc} {e : End}
    (h : pipewrite addr n pc p killed = .wakeup e pc') :
    e = .nread ∧ ((∃ i, pc = .wake i ∧ pc' = .sleep i) ∨ pc = .done ∧ pc' = .ret) := by
  cases pc with
  | loop i =>
    simp only [pipewrite] at h
    split_ifs at h
  | wake i =>
    cases h
    exact ⟨rfl, .inl ⟨i, rfl, rfl⟩⟩
  | done =>
    cases h
    exact ⟨rfl, .inr ⟨rfl, rfl⟩⟩
  | _ => cases h

theorem pipewrite_sleep {pc' : WritePc} {e : End}
    (h : pipewrite addr n pc p killed = .sleep e pc') : ∃ i, pc = .sleep i ∧ e = .nwrite ∧ pc' = .loop i := by
  cases pc with
  | loop i =>
    simp only [pipewrite] at h
    split_ifs at h
  | sleep i =>
    cases h
    exact ⟨i, rfl, rfl, rfl⟩
  | _ => cases h

variable {es : List PipeEvent}

theorem pipewrite_leave
    (h : pipewrite addr n pc p killed = .leave es) :
    (∃ i : Nat, pc = .loop i ∧ i < n ∧ p.Full ∧ (p.readopen = false ∨ killed = true) ∧ es = [.returned (-1)]) ∨
      pc = .ret ∧ es = [.returned n] := by
  cases pc with
  | loop i =>
    simp only [pipewrite] at h
    split_ifs at h with hn hfull hgive
    cases h
    exact .inl ⟨i, rfl, hn, hfull, hgive, rfl⟩
  | ret =>
    cases h
    exact .inr ⟨rfl, rfl⟩
  | _ => cases h

theorem piperead_wakeup {pc pc' : ReadPc} {e : End}
    (h : piperead n pc p killed = .wakeup e pc') : ∃ i, pc = .done i ∧ e = .nwrite ∧ pc' = .ret i := by
  cases pc with
  | done i =>
    cases h
    exact ⟨i, rfl, rfl, rfl⟩
  | sleep | ret => cases h
  | _ =>
    simp only [piperead] at h
    split_ifs at h

theorem piperead_sleep {pc pc' : ReadPc} {e : End}
    (h : piperead n pc p killed = .sleep e pc') : pc = .sleep ∧ e = .nread ∧ pc' = .wait := by
  cases pc with
  | sleep =>
    cases h
    exact ⟨rfl, rfl, rfl⟩
  | done | ret => cases h
  | _ =>
    simp only [piperead] at h
    split_ifs at h

theorem piperead_leave {pc : ReadPc}
    (h : piperead n pc p killed = .leave es) :
    pc = .wait ∧ es = [.returned (-1)] ∨ ∃ i : Nat, pc = .ret i ∧ es = [.returned i] := by
  cases pc with
  | wait =>
    simp only [piperead] at h
    split_ifs at h
    cases h
    exact .inl ⟨rfl, rfl⟩
  | ret i =>
    cases h
    exact .inr ⟨i, rfl, rfl⟩
  | copy =>
    simp only [piperead] at h
    split_ifs at h
  | _ => cases h

variable {writable : Bool}

theorem pipeclose_wakeup {pc pc' : ClosePc} {e : End}
    (h : pipeclose writable pc p killed = .wakeup e pc') :
    pc = .wake ∧ (e = if writable then .nread else .nwrite) ∧ pc' = .free := by
  cases pc with
  | close => cases h
  | wake =>
    cases h
    exact ⟨rfl, rfl, rfl⟩
  | free =>
    simp only [pipeclose] at h
    split_ifs at h

theorem pipeclose_sleep {pc pc' : ClosePc} {e : End} :
    pipeclose writable pc p killed ≠ .sleep e pc' := by
  intro h
  cases pc with
  | free =>
    simp only [pipeclose] at h
    split_ifs at h
  | _ => cases h

theorem pipeclose_leave {pc : ClosePc}
    (h : pipeclose writable pc p killed = .leave es) : pc = .free ∧ (es = [] ∨ es = [.freed]) := by
  cases pc with
  | free =>
    simp only [pipeclose] at h
    split_ifs at h <;> cases h <;> simp
  | _ => cases h

variable {e : Unit} {s : Input}

theorem consoleread_wakeup {target : Int} {pc pc' : ConsolePc} :
    consoleread target pc s killed ≠ .wakeup e pc' := by
  intro h
  cases pc with
  | loop n =>
    simp only [consoleread] at h
    split_ifs at h
  | _ => cases h

theorem consoleread_sleep {target : Int} {pc pc' : ConsolePc}
    (h : consoleread target pc s killed = .sleep e pc') : ∃ n, pc = .sleep n ∧ pc' = .loop n := by
  cases pc with
  | loop n =>
    simp only [consoleread] at h
    split_ifs at h
  | sleep n =>
    cases h
    exact ⟨n, rfl, rfl⟩
  | ret n => cases h

theorem consoleintr_wakeup {pc pc' : IntrPc}
    (h : consoleintr pc s killed = .wakeup e pc') : ∃ cs, pc = .wake cs ∧ pc' = .loop cs := by
  cases pc with
  | loop cs =>
    cases cs with
    | nil => cases h
    | cons c cs =>
      simp only [consoleintr, insertChar] at h
      split_ifs at h
  | killLine cs =>
    simp only [consoleintr] at h
    split_ifs at h
  | wake cs =>
    cases h
    exact ⟨cs, rfl, rfl⟩

theorem consoleintr_sleep {pc pc' : IntrPc} :
    consoleintr pc s killed ≠ .sleep e pc' := by
  intro h
  cases pc with
  | loop cs =>
    cases cs with
    | nil => cases h
    | cons c cs =>
      simp only [consoleintr, insertChar] at h
      split_ifs at h
  | killLine cs =>
    simp only [consoleintr] at h
    split_ifs at h
  | wake cs => cases h

variable {ticks : UInt32}

theorem sysSleep_wakeup {n : UInt32} {pc pc' : SleepPc} :
    sysSleep n pc ticks killed ≠ .wakeup e pc' := by
  intro h
  cases pc with
  | loop t =>
    simp only [sysSleep] at h
    split_ifs at h
  | _ => cases h

theorem sysSleep_sleep {n : UInt32} {pc pc' : SleepPc}
    (h : sysSleep n pc ticks killed = .sleep e pc') : ∃ t, pc = .sleep t ∧ pc' = .loop t := by
  cases pc with
  | start => cases h
  | loop t =>
    simp only [sysSleep] at h
    split_ifs at h
  | sleep t =>
    cases h
    exact ⟨t, rfl, rfl⟩

theorem tick_sleep {pc pc' : TickPc} : tick pc ticks killed ≠ .sleep e pc' := by
  intro h
  cases pc <;> cases h

/-! ### The code of the system -/

variable {q q' : Point}

theorem lock_of_run {s s' : Shared} {es : List Event}
    (h : q.act s killed = .run s' q' es) : q'.lock = q.lock := by
  cases q with
  | _ =>
    obtain ⟨_, _, _, -, -, rfl, -⟩ := Action.lift_eq_run.mp h
    rfl

theorem lock_of_wakeup {s : Shared} {c : Chan} (h : q.act s killed = .wakeup c q') :
    q'.lock = q.lock := by
  cases q with
  | _ =>
    obtain ⟨_, _, -, -, rfl⟩ := Action.lift_eq_wakeup.mp h
    rfl

theorem lock_of_sleep {s : Shared} {c : Chan} (h : q.act s killed = .sleep c q') :
    q'.lock = q.lock := by
  cases q with
  | _ =>
    obtain ⟨_, _, -, -, rfl⟩ := Action.lift_eq_sleep.mp h
    rfl

def code : Code Lock Chan Shared Point Event Call where
  lock := Point.lock
  entry := Call.entry
  act := Point.act
  lock_run _ _ _ _ _ _ h := lock_of_run h
  lock_wakeup _ _ _ _ _ h := lock_of_wakeup h
  lock_sleep _ _ _ _ _ h := lock_of_sleep h

abbrev State : Type := Monitor.State Nat Lock Chan Shared Point Event Call

abbrev Label : Type := Monitor.Label Nat Call

/-- Every pipe as `pipealloc` leaves it, no input yet; the clock may show any time. -/
def Shared.Start (s : Shared) : Prop := (∀ p, (s.pipe p).Fresh) ∧ s.input.r = 0 ∧ s.input.w = 0 ∧ s.input.e = 0

/-- Any number of processes and interrupts in these calls, on any number of cpus. -/
def system : Automaton State Label Empty := machine code Shared.Start

end Xv6.Sleep
