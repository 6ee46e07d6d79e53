import Xv6.Lib.Links
import Xv6.Log.Protocol

/-!
# The buffer cache

`bio.c` over a disk, as called by any number of processes, in any interleaving of the sections that hold `bcache.lock`
and of the disk's transfers. The processes also call `begin_op`, `log_write` and `end_op`; a commit is what a process
does with buffers between `end_op` and the moment it clears the log. A process changes only the data of buffers it holds,
and has called `log_write` or `bwrite` on a buffer it has changed before it releases it.
-/

namespace Xv6.Bio

open Lib

/-! ### The cache -/

structure Buf (D : Type) where
  busy : Bool
  valid : Bool
  dirty : Bool
  dev : UInt32
  sector : UInt32
  data : D

abbrev Node := Option (Fin nbuf)

structure Cache (D : Type) where
  buf : Fin nbuf → Buf D
  next : Node → Node
  prev : Node → Node

namespace Cache

variable {D : Type}

def setNext (c : Cache D) (n m : Node) : Cache D := { c with next := Function.update c.next n m }

def setPrev (c : Cache D) (n m : Node) : Cache D := { c with prev := Function.update c.prev n m }

def setBuf (c : Cache D) (b : Fin nbuf) (v : Buf D) : Cache D := { c with buf := Function.update c.buf b v }

def pushFront (c : Cache D) (b : Fin nbuf) : Cache D :=
  let c := c.setNext b (c.next none)
  let c := c.setPrev b none
  let c := c.setPrev (c.next none) b
  c.setNext none b

def unlink (c : Cache D) (b : Fin nbuf) : Cache D :=
  let c := c.setPrev (c.next b) (c.prev b)
  c.setNext (c.prev b) (c.next b)

def initBuf (c : Cache D) (b : Fin nbuf) : Cache D := (c.setBuf b { c.buf b with dev := -1 }).pushFront b

def binit (c : Cache D) : Cache D := (List.finRange nbuf).foldl initBuf ((c.setPrev none none).setNext none none)

def caches (c : Cache D) (dev sector : UInt32) (b : Fin nbuf) : Bool := (c.buf b).dev = dev ∧ (c.buf b).sector = sector

def clean (c : Cache D) (b : Fin nbuf) : Bool := !(c.buf b).busy && !(c.buf b).dirty

inductive Got where
  | found (b : Fin nbuf)
  | busy (b : Fin nbuf)
  | recycled (b : Fin nbuf)
  | noBuffers
  | loops

def bget (c : Cache D) (dev sector : UInt32) : Got :=
  match LinkedRing.scan c.next none (Option.any (c.caches dev sector)) (nbuf + 1) (c.next none) with
  | none => .loops
  | some (some b) => if (c.buf b).busy then .busy b else .found b
  | some none =>
    match LinkedRing.scan c.prev none (Option.any c.clean) (nbuf + 1) (c.prev none) with
    | none => .loops
    | some (some b) => .recycled b
    | some none => .noBuffers

def brelse (c : Cache D) (b : Fin nbuf) : Cache D :=
  let c := (c.unlink b).pushFront b
  c.setBuf b { c.buf b with busy := false }

end Cache

inductive Panic where
  /-- The call `panic("bget: no buffers")`. -/
  | noBuffers
  /-- A loop of `bget` that does not end. -/
  | loops
  | bwrite
  | brelse
  /-- The call `panic("iderw: buf not busy")`. -/
  | notBusy
  /-- The call `panic("iderw: nothing to do")`. -/
  | nothingToDo
  | log (e : RedoLog.Panic)
deriving DecidableEq

/-- `iderw` on a buffer and the disk's block for it. -/
def iderw {D : Type} (b : Buf D) (block : D) : Except Panic (Buf D × D) :=
  if b.busy = false then .error .notBusy
  else if b.valid ∧ b.dirty = false then .error .nothingToDo
  else if b.dirty then .ok ({ b with dirty := false, valid := true }, b.data)
  else .ok ({ b with data := block, valid := true }, block)

/-! ### The processes -/

inductive Pos where
  | out
  /-- In `bget`, before the search. -/
  | looking (dev sector : UInt32)
  /-- Asleep on a busy buffer. -/
  | asleep (b : Fin nbuf) (dev sector : UInt32)
  /-- In `bread`, before `iderw`. -/
  | filling (b : Fin nbuf)
  /-- In `bwrite`, before `iderw`. -/
  | writing (b : Fin nbuf)
  /-- In `log_write`, past its tests and before `acquire`. -/
  | logging (b : Fin nbuf)
deriving DecidableEq

/-- `bread` returns data, or data are written or released. -/
inductive Event (D : Type) where
  | got (dev sector : UInt32) (d : D)
  | put (dev sector : UInt32) (d : D)
deriving DecidableEq

structure State (ι D : Type) where
  cache : Cache D
  disk : UInt32 → UInt32 → D
  ops : RedoLog.Sys ι
  pos : ι → Pos
  /-- The buffers a process has from `bread` and has not released. -/
  holds : ι → Finset (Fin nbuf)
  /-- Changed since the last `log_write` or `bwrite`. -/
  changed : Fin nbuf → Bool
  trace : List (Event D)

inductive Label (ι D : Type) where
  | bread (p : ι) (dev sector : UInt32)
  | go (p : ι)
  | modify (p : ι) (b : Fin nbuf) (d : D)
  | logWrite (p : ι) (b : Fin nbuf)
  | bwrite (p : ι) (b : Fin nbuf)
  | brelse (p : ι) (b : Fin nbuf)
  | kill (p : ι)
  | enter (p : ι)
  | tryBegin (p : ι)
  | endOp (p : ι)
  | commit (p : ι)
  | finish (p : ι)

def Real (dev : UInt32) : Prop := dev = 0 ∨ dev = 1

instance (dev : UInt32) : Decidable (Real dev) := inferInstanceAs (Decidable (dev = 0 ∨ dev = 1))

def AtWork : RedoLog.Pc → Prop
  | .idle | .op _ | .committing => True
  | _ => False

instance : (pc : RedoLog.Pc) → Decidable (AtWork pc)
  | .idle | .op _ | .committing => isTrue trivial
  | .beginning | .asleep | .logging .. | .committed => isFalse id

def Pos.wake : Pos → Pos
  | .asleep _ dev sector => .looking dev sector
  | pos => pos

def Pos.wakeOn (b : Fin nbuf) : Pos → Pos
  | .asleep b' dev sector => if b' = b then .looking dev sector else .asleep b' dev sector
  | pos => pos

namespace State

variable {ι D : Type} [DecidableEq ι]

def goto (s : State ι D) (p : ι) (pos : Pos) : State ι D := { s with pos := Function.update s.pos p pos }

@[simp] theorem goto_pos (s : State ι D) (p q : ι) (pos : Pos) : (s.goto p pos).pos q = if q = p then pos else s.pos q := by
  rw [goto]
  by_cases hq : q = p <;> simp [hq]

def setBuf (s : State ι D) (b : Fin nbuf) (v : Buf D) : State ι D := { s with cache := s.cache.setBuf b v }

def hold (s : State ι D) (p : ι) (b : Fin nbuf) : State ι D :=
  { s with holds := Function.update s.holds p (insert b (s.holds p)) }

def drop (s : State ι D) (p : ι) (b : Fin nbuf) : State ι D :=
  { s with holds := Function.update s.holds p ((s.holds p).erase b) }

def setChanged (s : State ι D) (b : Fin nbuf) (v : Bool) : State ι D := { s with changed := Function.update s.changed b v }

def setDisk (s : State ι D) (dev sector : UInt32) (d : D) : State ι D :=
  { s with disk := Function.update s.disk dev (Function.update (s.disk dev) sector d) }

def emit (s : State ι D) (e : Event D) : State ι D := { s with trace := s.trace ++ [e] }

def Ready (s : State ι D) (p : ι) : Prop := s.pos p = .out ∧ AtWork (s.ops.pc p)

instance (s : State ι D) (p : ι) : Decidable (s.Ready p) := inferInstanceAs (Decidable (_ ∧ _))

/-- A round of `bget`, and the test of `B_VALID` in `bread`. -/
def look (s : State ι D) (p : ι) (dev sector : UInt32) : Outcome Panic (State ι D) :=
  match s.cache.bget dev sector with
  | .found b =>
    let v := s.cache.buf b
    let s := (s.setBuf b { v with busy := true }).hold p b
    if v.valid then .next ((s.goto p .out).emit (.got dev sector v.data)) else .next (s.goto p (.filling b))
  | .busy b => .next (s.goto p (.asleep b dev sector))
  | .recycled b =>
    let v : Buf D := ⟨true, false, false, dev, sector, (s.cache.buf b).data⟩
    .next (((s.setBuf b v).hold p b).goto p (.filling b))
  | .noBuffers => .fail .noBuffers
  | .loops => .fail .loops

def fill (s : State ι D) (p : ι) (b : Fin nbuf) : Outcome Panic (State ι D) :=
  let v := s.cache.buf b
  match iderw v (s.disk v.dev v.sector) with
  | .error e => .fail e
  | .ok (v', d) => .next ((((s.setBuf b v').setDisk v.dev v.sector d).goto p .out).emit (.got v.dev v.sector v'.data))

def write (s : State ι D) (p : ι) (b : Fin nbuf) : Outcome Panic (State ι D) :=
  let v := s.cache.buf b
  match iderw v (s.disk v.dev v.sector) with
  | .error e => .fail e
  | .ok (v', d) =>
    .next (((((s.setBuf b v').setDisk v.dev v.sector d).setChanged b false).goto p .out).emit (.put v.dev v.sector v'.data))

def onLog (s : State ι D) (a : RedoLog.Act ι) (f : RedoLog.Sys ι → State ι D) : Outcome Panic (State ι D) :=
  match RedoLog.freeStep s.ops a with
  | .next ops => .next (f ops)
  | .fail e => .fail (.log e)
  | .disabled => .disabled

def record (s : State ι D) (p : ι) (b : Fin nbuf) : Outcome Panic (State ι D) :=
  let v := s.cache.buf b
  s.onLog (.append p v.sector.toNat) fun ops =>
    ((({ s with ops := ops }).setBuf b { v with dirty := true }).setChanged b false).goto p .out

def step (s : State ι D) : Label ι D → Outcome Panic (State ι D)
  | .bread p dev sector => if s.Ready p ∧ Real dev then .next (s.goto p (.looking dev sector)) else .disabled
  | .go p =>
    match s.pos p with
    | .looking dev sector => s.look p dev sector
    | .filling b => s.fill p b
    | .writing b => s.write p b
    | .logging b => s.record p b
    | _ => .disabled
  | .modify p b d =>
    if s.Ready p ∧ b ∈ s.holds p then .next ((s.setBuf b { s.cache.buf b with data := d }).setChanged b true) else .disabled
  | .logWrite p b =>
    if s.Ready p ∧ b ∈ s.holds p then
      s.onLog (.check p (s.cache.buf b).sector.toNat) fun ops => { s with ops := ops }.goto p (.logging b)
    else .disabled
  | .bwrite p b =>
    if s.Ready p ∧ b ∈ s.holds p then
      if (s.cache.buf b).busy = false then .fail .bwrite
      else .next ((s.setBuf b { s.cache.buf b with dirty := true }).goto p (.writing b))
    else .disabled
  | .brelse p b =>
    if s.Ready p ∧ b ∈ s.holds p ∧ s.changed b = false then
      let v := s.cache.buf b
      if v.busy = false then .fail .brelse
      else
        let s := { s with cache := s.cache.brelse b, pos := fun q => (s.pos q).wakeOn b }
        .next ((s.drop p b).emit (.put v.dev v.sector v.data))
    else .disabled
  | .kill p => s.onLog (.kill p) fun ops => { s with ops := ops }.goto p (s.pos p).wake
  | .enter p => if s.Ready p then s.onLog (.enter p) fun ops => { s with ops := ops } else .disabled
  | .tryBegin p => s.onLog (.tryBegin p) fun ops => { s with ops := ops }
  | .endOp p => if s.Ready p then s.onLog (.endOp p) fun ops => { s with ops := ops } else .disabled
  | .commit p => if s.Ready p then s.onLog (.commit p) fun ops => { s with ops := ops } else .disabled
  | .finish p => s.onLog (.finish p) fun ops => { s with ops := ops }

end State

structure Start {ι D : Type} (disk : UInt32 → UInt32 → D) (s : State ι D) : Prop where
  cache : ∃ c : Cache D, s.cache = c.binit ∧ ∀ b, (c.buf b).busy = false ∧ (c.buf b).valid = false ∧ (c.buf b).dirty = false
  disk : s.disk = disk
  ops : ∃ sb, s.ops = RedoLog.initial sb
  pos : ∀ p, s.pos p = .out
  holds : ∀ p, s.holds p = ∅
  changed : ∀ b, s.changed b = false
  trace : s.trace = []

/-- The cache over the disk with the given contents. -/
def system {ι D : Type} [DecidableEq ι] (disk : UInt32 → UInt32 → D) : Automaton (State ι D) (Label ι D) Panic where
  start := Start disk
  step := State.step

end Xv6.Bio
