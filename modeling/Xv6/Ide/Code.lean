import Xv6.Lib.Queue
import Xv6.Bio.Code

/-!
# The IDE driver

`iderw`, `ideintr` and `idestart` of `ide.c` with the device they drive, and the `iderw` of `memide.c`, which keeps the
disk in memory. Any number of processes call `iderw`, each with a buffer of its own; what a process does to the buffer
before the call is part of the call. The sections under `idelock` are single steps, and the one of `iderw` is cut before
each test of the flags, so that more interleavings are possible than the lock allows. The device takes one request at a
time, carries it out and raises one interrupt, without errors.
-/

namespace Xv6.Ide

open Lib Bio

inductive Panic where
  /-- The call `panic("iderw: buf not busy")`. -/
  | notBusy
  /-- The call `panic("iderw: nothing to do")`. -/
  | nothingToDo
  /-- The call `panic("iderw: ide disk 1 not present")`. -/
  | noDisk1
  /-- The call `panic("idestart")`. -/
  | idestart
  /-- A search for the end of the queue that does not end. -/
  | loops
  /-- A request to a device that has one already. -/
  | overrun
  /-- The call `panic("iderw: request not for disk 1")` of `memide.c`. -/
  | notForDisk1
  /-- The call `panic("iderw: sector out of range")` of `memide.c`. -/
  | outOfRange
deriving DecidableEq

/-! ### The disk in memory -/

def disksize (size : UInt32) : Nat := size.toNat / 512

def memIderw {D : Type} (size : UInt32) (memdisk : Nat → D) (b : Buf D) : Except Panic (Buf D × (Nat → D)) :=
  if b.busy = false then .error .notBusy
  else if b.valid ∧ b.dirty = false then .error .nothingToDo
  else if b.dev ≠ 1 then .error .notForDisk1
  else if disksize size ≤ b.sector.toNat then .error .outOfRange
  else if b.dirty then .ok ({ b with dirty := false, valid := true }, Function.update memdisk b.sector.toNat b.data)
  else .ok ({ b with data := memdisk b.sector.toNat, valid := true }, memdisk)

/-- `iderw` of `memide.c` on one buffer after the other. -/
def sequential {D β : Type} (size : UInt32) : (Nat → D) → List (β × Buf D) → Except Panic (List (β × Buf D) × (Nat → D))
  | memdisk, [] => .ok ([], memdisk)
  | memdisk, (b, v) :: rest => do
    let (v', memdisk) ← memIderw size memdisk v
    let (done, memdisk) ← sequential size memdisk rest
    return ((b, v') :: done, memdisk)

/-! ### The device -/

/-- A request as it stands in the registers of the device. -/
structure Request (D : Type) where
  drive : UInt32
  lba : Nat
  /-- The data of a write. -/
  data : Option D

/-- The block number from the bytes in ports 0x1f3 to 0x1f6. -/
def lba (sector : UInt32) : Nat :=
  sector.toNat % 256 + sector.toNat / 256 % 256 * 256 + sector.toNat / 65536 % 256 * 65536 + sector.toNat / 16777216 % 16 * 16777216

def idestart {D : Type} (b : Buf D) : Request D where
  drive := b.dev &&& 1
  lba := lba b.sector
  data := if b.dirty then some b.data else none

inductive Device (D : Type) where
  | idle
  | busy (r : Request D)
  /-- The request is carried out and the interrupt raised; `d` is the block read or written. -/
  | done (d : D)

/-- What `ideintr` makes of the buffer, with the block that the device has for it. -/
def complete {D : Type} (b : Buf D) (d : D) : Buf D :=
  let b := if b.dirty then b else { b with data := d }
  { b with valid := true, dirty := false }

abbrev Disk (D : Type) := UInt32 → Nat → D

def Request.perform {D : Type} (r : Request D) (disk : Disk D) : D × Disk D :=
  match r.data with
  | some d => (d, Function.update disk r.drive (Function.update (disk r.drive) r.lba d))
  | none => (disk r.drive r.lba, disk)

/-! ### The driver -/

/-- Where a process is in `iderw`; `k` is the number of its request. -/
inductive Pos where
  | out
  /-- Before `acquire`. -/
  | entering (b : Fin nbuf)
  /-- At the test of the flags. -/
  | waiting (b : Fin nbuf) (k : Nat)
  /-- Asleep on the buffer. -/
  | asleep (b : Fin nbuf) (k : Nat)
deriving DecidableEq

structure State (ι D : Type) where
  buf : Fin nbuf → Buf D
  queue : Queue (Fin nbuf)
  device : Device D
  disk : Disk D
  pos : ι → Pos
  /-- The buffers that processes are in `iderw` with. -/
  active : Finset (Fin nbuf)
  /-- All requests in the order of the queue, with the buffer as it was. -/
  queued : List (Fin nbuf × Buf D)
  /-- Those that have left the queue, with the buffer as it then was. -/
  served : List (Fin nbuf × Buf D)
  /-- The buffers that `iderw` has returned with, each with the number of the request. -/
  returned : List (Nat × Buf D)

inductive Label (ι D : Type) where
  | iderw (p : ι) (b : Fin nbuf) (v : Buf D)
  | go (p : ι)
  | kill (p : ι)
  | device
  | ideintr

def Pos.wake : Pos → Pos
  | .asleep b k => .waiting b k
  | pos => pos

def Pos.wakeOn (b : Fin nbuf) : Pos → Pos
  | .asleep b' k => if b' = b then .waiting b' k else .asleep b' k
  | pos => pos

namespace State

variable {ι D : Type} [DecidableEq ι]

def goto (s : State ι D) (p : ι) (pos : Pos) : State ι D := { s with pos := Function.update s.pos p pos }

def start (s : State ι D) : Option (Fin nbuf) → Outcome Panic (State ι D)
  | none => .fail .idestart
  | some b =>
    match s.device with
    | .idle => .next { s with device := .busy (idestart (s.buf b)) }
    | _ => .fail .overrun

def check (havedisk1 : Bool) (v : Buf D) : Option Panic :=
  if v.busy = false then some .notBusy
  else if v.valid ∧ v.dirty = false then some .nothingToDo
  else if v.dev ≠ 0 ∧ havedisk1 = false then some .noDisk1
  else none

def enqueue (s : State ι D) (p : ι) (b : Fin nbuf) : Outcome Panic (State ι D) :=
  match s.queue.append b (nbuf + 1) with
  | none => .fail .loops
  | some queue =>
    let s := { s with queue := queue, queued := s.queued ++ [(b, s.buf b)] }.goto p (.waiting b s.queued.length)
    if queue.head = some b then s.start (some b) else .next s

def wait (s : State ι D) (p : ι) (b : Fin nbuf) (k : Nat) : State ι D :=
  if (s.buf b).valid = true ∧ (s.buf b).dirty = false then
    { s with active := s.active.erase b, returned := s.returned ++ [(k, s.buf b)] }.goto p .out
  else s.goto p (.asleep b k)

def ideintr (s : State ι D) (d : D) : Outcome Panic (State ι D) :=
  match s.queue.head with
  | none => .next { s with device := .idle }
  | some b =>
    let v := complete (s.buf b) d
    let s := { s with
      queue := { s.queue with head := s.queue.next b }
      buf := Function.update s.buf b v
      pos := fun q => (s.pos q).wakeOn b
      device := .idle
      served := s.served ++ [(b, v)] }
    if s.queue.head = none then .next s else s.start s.queue.head

def step (havedisk1 : Bool) (s : State ι D) : Label ι D → Outcome Panic (State ι D)
  | .iderw p b v =>
    match s.pos p with
    | .out =>
      if b ∈ s.active then .disabled
      else
        match check havedisk1 v with
        | some e => .fail e
        | none => .next ({ s with buf := Function.update s.buf b v, active := insert b s.active }.goto p (.entering b))
    | _ => .disabled
  | .go p =>
    match s.pos p with
    | .entering b => s.enqueue p b
    | .waiting b k => .next (s.wait p b k)
    | _ => .disabled
  | .kill p => .next (s.goto p (s.pos p).wake)
  | .device =>
    match s.device with
    | .busy r => .next { s with device := .done (r.perform s.disk).1, disk := (r.perform s.disk).2 }
    | _ => .disabled
  | .ideintr =>
    match s.device with
    | .done d => s.ideintr d
    | _ => .disabled

end State

structure Start {ι D : Type} (disk : Disk D) (s : State ι D) : Prop where
  queue : s.queue.head = none
  device : s.device = .idle
  disk : s.disk = disk
  pos : ∀ p, s.pos p = .out
  active : s.active = ∅
  queued : s.queued = []
  served : s.served = []
  returned : s.returned = []

/-- The driver on the disks with the given contents. -/
def system {ι D : Type} [DecidableEq ι] (havedisk1 : Bool) (disk : Disk D) : Automaton (State ι D) (Label ι D) Panic where
  start := Start disk
  step := State.step havedisk1

end Xv6.Ide
