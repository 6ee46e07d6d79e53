import Xv6.Lib.Prog
import Xv6.Param

/-!
# The log and the buffers under it

`log.c` over the part of `bio.c` it uses. The functions that reach the disk are programs over the buffer
cache: `bread` gives the contents of a sector, `bwrite` stores a buffer and writes it to disk, and `pin`
is what `log_write` does to a buffer its caller has changed. Reading a sector may recycle any buffer that
is not dirty, so a semantics of `bread` lets clean buffers disappear. `writes` records what reached the
disk since the machine was started, in order.
-/

namespace Xv6.RedoLog

open Lib

inductive Panic where
  /-- The call `panic("too big a transaction")` of `log_write`. -/
  | tooBig
  /-- The call `panic("log_write outside of trans")` of `log_write`. -/
  | outsideTrans
  /-- The call `panic("log.committing")` of `end_op`. -/
  | committing
deriving DecidableEq, Repr

/-- The `struct log`, with the sector numbers `lh.sector[0..lh.n)` as a list. -/
structure Log where
  start : Nat
  size : Nat
  outstanding : Nat
  committing : Bool
  lh : List Nat
deriving DecidableEq, Repr

def Log.check (log : Log) : Option Panic :=
  if logSize ≤ log.lh.length ∨ (log.size : Int) - 1 ≤ log.lh.length then some .tooBig
  else if log.outstanding < 1 then some .outsideTrans
  else none

/-- The locked part of `log_write`: a sector already in the log is absorbed. -/
def Log.record (log : Log) (sector : Nat) : Log :=
  if sector ∈ log.lh then log else { log with lh := log.lh ++ [sector] }

theorem check_eq_none {log : Log} (h : log.check = none) :
    log.lh.length < logSize ∧ log.lh.length + 1 < log.size ∧ 0 < log.outstanding := by
  unfold Log.check at h
  split at h
  · simp at h
  · split at h
    · simp at h
    · omega

theorem mem_record {log : Log} {b b' : Nat} : b' ∈ (log.record b).lh ↔ b' ∈ log.lh ∨ b' = b := by
  unfold Log.record
  split
  · constructor
    · exact .inl
    · rintro (h | rfl) <;> assumption
  · simp

theorem length_record (log : Log) (b : Nat) : (log.record b).lh.length ≤ log.lh.length + 1 := by
  unfold Log.record
  split <;> simp

@[simp] theorem record_size (log : Log) (b : Nat) : (log.record b).size = log.size := by
  unfold Log.record
  split <;> rfl

@[simp] theorem record_outstanding (log : Log) (b : Nat) : (log.record b).outstanding = log.outstanding := by
  unfold Log.record
  split <;> rfl

@[simp] theorem record_committing (log : Log) (b : Nat) : (log.record b).committing = log.committing := by
  unfold Log.record
  split <;> rfl

theorem nodup_record {log : Log} (h : log.lh.Nodup) (b : Nat) : (log.record b).lh.Nodup := by
  unfold Log.record
  split
  · exact h
  · exact List.nodup_append_comm.mp (List.nodup_cons.mpr ⟨‹b ∉ log.lh›, h⟩)

/-! ### The header block -/

/-- The count `lh->n` as the kernel reads it, a signed integer: a negative count stops every loop at once. -/
def headerCount (b : Block) : Nat := if (get32 b 0).toNat < 2 ^ 31 then (get32 b 0).toNat else 0

def headerSectors (b : Block) : List Nat := (List.range (headerCount b)).map fun i => (get32 b (4 + 4 * i)).toNat

def putSectors (b : Block) (i : Nat) : List Nat → Block
  | [] => b
  | sector :: rest => putSectors (put32 b (4 + 4 * i) (UInt32.ofNat sector)) (i + 1) rest

/-- The header block after `hb->n` and `hb->sector[0..n)` have been assigned; the rest keeps its bytes. -/
def putHeader (b : Block) (lh : List Nat) : Block := putSectors (put32 b 0 (UInt32.ofNat lh.length)) 0 lh

/-! ### The machine -/

structure Buf where
  data : Block
  dirty : Bool

structure Machine where
  disk : Nat → Block
  cache : Nat → Option Buf
  log : Log
  writes : List (Nat × Block)

/-- What `bread` returns: the cached contents, or those on disk. -/
def Machine.view (s : Machine) (sector : Nat) : Block := ((s.cache sector).map Buf.data).getD (s.disk sector)

def Recycled (before after : Nat → Option Buf) : Prop :=
  ∀ b, after b = before b ∨ after b = none ∧ ∃ data, before b = some ⟨data, false⟩

/-- A machine just started: nothing survives but the disk. -/
def boot (disk : Nat → Block) : Machine where
  disk := disk
  cache := fun _ => none
  log := ⟨0, 0, 0, false, []⟩
  writes := []

inductive Cmd where
  | bread (sector : Nat)
  | bwrite (sector : Nat) (data : Block)
  | pin (sector : Nat) (data : Block)
  | getLog
  | setLog (log : Log)

def Ret : Cmd → Type
  | .bread _ => Block
  | .getLog => Log
  | _ => Unit

def sem : Prog.Semantics Cmd Ret Machine
  | .bread sector, s, data, t => data = s.view sector ∧ ∃ cache, Recycled s.cache cache ∧
      t = { s with cache := Function.update cache sector (some ((s.cache sector).getD ⟨s.disk sector, false⟩)) }
  | .bwrite sector data, s, _, t =>
      t = { s with disk := Function.update s.disk sector data,
                   cache := Function.update s.cache sector (some ⟨data, false⟩),
                   writes := s.writes ++ [(sector, data)] }
  | .pin sector data, s, _, t => t = { s with cache := Function.update s.cache sector (some ⟨data, true⟩) }
  | .getLog, s, log, t => log = s.log ∧ t = s
  | .setLog log, s, _, t => t = { s with log := log }

abbrev LogProg := Prog Cmd Ret

def bread (sector : Nat) : LogProg Block := .call (Cmd.bread sector)
def bwrite (sector : Nat) (data : Block) : LogProg Unit := .call (Cmd.bwrite sector data)
def pin (sector : Nat) (data : Block) : LogProg Unit := .call (Cmd.pin sector data)
def getLog : LogProg Log := .call Cmd.getLog
def setLog (log : Log) : LogProg Unit := .call (Cmd.setLog log)

/-! ### `log.c` -/

/-- Copy committed blocks from log to their home location. -/
def installTrans : LogProg Unit := do
  let log ← getLog
  .loop log.lh.length fun tail => do
    let lbuf ← bread (log.start + tail + 1)
    let _dbuf ← bread (log.lh.getD tail 0)
    bwrite (log.lh.getD tail 0) lbuf

/-- Read the log header from disk into the in-memory log header. -/
def readHead : LogProg Unit := do
  let log ← getLog
  let buf ← bread log.start
  setLog { log with lh := headerSectors buf }

def writeHead : LogProg Unit := do
  let log ← getLog
  let buf ← bread log.start
  bwrite log.start (putHeader buf log.lh)

def clearHead : LogProg Unit := do
  let log ← getLog
  setLog { log with lh := [] }

def recoverFromLog : LogProg Unit := do
  readHead
  installTrans
  clearHead
  writeHead

/-- Here `readsb` reads sector 1, where every image keeps the same super block `sb`. -/
def initlog (sb : Superblock) : LogProg Unit := do
  let _ ← bread 1
  let log ← getLog
  setLog { log with start := sb.size - sb.nlog, size := sb.nlog }
  recoverFromLog

def writeLog : LogProg Unit := do
  let log ← getLog
  .loop log.lh.length fun tail => do
    let _to ← bread (log.start + tail + 1)
    let from_ ← bread (log.lh.getD tail 0)
    bwrite (log.start + tail + 1) from_

def commit : LogProg Unit := do
  let log ← getLog
  if log.lh.length > 0 then
    writeLog
    writeHead
    installTrans
    clearHead
    writeHead
  else
    return ()

/-- A caller's `bread`, its change of the buffer to `data`, and `log_write`. -/
def logWrite (sector : Nat) (data : Block) : LogProg (Option Panic) := do
  let _ ← bread sector
  let log ← getLog
  match log.check with
  | some panic => return some panic
  | none =>
    setLog (log.record sector)
    pin sector data
    return none

/-! ### A kernel's life -/

/-- The `log_write` calls of one transaction, with the contents each leaves in its buffer. -/
abbrev Txn := List (Nat × Block)

def logWrites : Txn → LogProg (Option Panic)
  | [] => return none
  | (sector, data) :: rest => do
    match ← logWrite sector data with
    | some panic => return some panic
    | none => logWrites rest

/-- The count `log.outstanding`, as `begin_op` and `end_op` change it. -/
def setOutstanding (n : Nat) : LogProg Unit := do
  let log ← getLog
  setLog { log with outstanding := n }

/-- Transactions one after another; a panic stops the machine. -/
def transactions : List Txn → LogProg Unit
  | [] => return ()
  | t :: rest => do
    setOutstanding 1
    match ← logWrites t with
    | some _ => return ()
    | none =>
      setOutstanding 0
      commit
      transactions rest

/-- A kernel from start to power cut: it recovers the log and then runs transactions. -/
def kernel (sb : Superblock) (txns : List Txn) : LogProg Unit := do
  initlog sb
  transactions txns

end Xv6.RedoLog
