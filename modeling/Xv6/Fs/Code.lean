import Xv6.Lib.Wp
import Xv6.Param

/-!
# Blocks and inodes

The lower half of `fs.c`: the block allocator, the inode cache and the reading and writing of files. Disk
blocks are seen through the buffer cache, so `blocks b` is what `bread` returns for block `b`. There is one
device. An in-memory inode is known by its inode number: the cache holds at most one entry for each, and
its `NINODE` slots enter only through the number of entries in use. `trace` records the transactions, the
blocks passed to `log_write` and the blocks `balloc` has returned; the log header is what these leave in it.

Calls that cannot go on are errors: the panics of the source, `asleep` for a lock that is held, `logFull` for
a transaction that waits for room in the log, and `noRef` for a pointer its caller does not hold.
-/

namespace Xv6.Fs

open Lib

inductive Panic where
  /-- The call `panic("balloc: out of blocks")`. -/
  | outOfBlocks
  /-- The call `panic("freeing free block")`. -/
  | freeingFree
  /-- The call `panic("ialloc: no inodes")`. -/
  | noInodes
  /-- The call `panic("iget: no inodes")`. -/
  | cacheFull
  /-- The call `panic("ilock: no type")`. -/
  | noType
  /-- The call `panic("iunlock")`. -/
  | iunlock
  /-- The call `panic("iput busy")`. -/
  | iputBusy
  /-- The call `panic("bmap: out of range")`. -/
  | outOfRange
  /-- The call `panic("dirlookup not DIR")`. -/
  | notDir
  /-- The call `panic("dirlink read")`, which `dirlookup` makes too. -/
  | dirlinkRead
  /-- The call `panic("short filewrite")`. -/
  | shortFilewrite
  /-- The call `panic("filewrite")`. -/
  | filewrite
  /-- The call `panic("too big a transaction")`. -/
  | tooBig
  /-- The call `panic("log_write outside of trans")`. -/
  | outsideTrans
  | logFull
  | asleep
  | noRef
deriving DecidableEq, Repr

/-- Does the log stop the call? -/
def Panic.ofLog : Panic → Bool
  | .tooBig | .outsideTrans | .logFull => true
  | _ => false

/-! ### The disk format of inodes -/

/-- The `struct dinode`, and the part of `struct inode` copied from it. -/
@[ext]
structure Dinode where
  type : Int16
  major : Int16
  minor : Int16
  nlink : Int16
  size : UInt32
  addrs : Fin (ndirect + 1) → UInt32
deriving DecidableEq

def Dinode.zero : Dinode := ⟨0, 0, 0, 0, 0, fun _ => 0⟩

def Dinode.ofType (type : Int16) : Dinode := { Dinode.zero with type := type }

abbrev tDir : Int16 := 1
abbrev tFile : Int16 := 2
abbrev tDev : Int16 := 3

/-- The inode at byte offset `o` of an inode block. -/
def getDinode (b : Block) (o : Nat) : Dinode where
  type := get16 b o
  major := get16 b (o + 2)
  minor := get16 b (o + 4)
  nlink := get16 b (o + 6)
  size := get32 b (o + 8)
  addrs := fun i => get32 b (o + 12 + 4 * i)

def putAddrs (b : Block) (o : Nat) (addrs : Fin (ndirect + 1) → UInt32) : Nat → Block
  | 0 => b
  | n + 1 =>
    let b' := putAddrs b o addrs n
    if h : n < ndirect + 1 then put32 b' (o + 4 * n) (addrs ⟨n, h⟩) else b'

def putDinode (b : Block) (o : Nat) (d : Dinode) : Block :=
  let b := put16 b o d.type
  let b := put16 b (o + 2) d.major
  let b := put16 b (o + 4) d.minor
  let b := put16 b (o + 6) d.nlink
  let b := put32 b (o + 8) d.size
  putAddrs b (o + 12) d.addrs (ndirect + 1)

def ioffset (i : Nat) : Nat := dinodeSize * (i % ipb)

/-! ### State -/

/-- An entry of the inode cache with `ref > 0`; `busy` and `valid` are `I_BUSY` and `I_VALID`. -/
structure Inode where
  ref : Nat
  busy : Bool
  valid : Bool
  din : Dinode
deriving DecidableEq

inductive Event where
  | beginOp
  | endOp
  | logWrite (b : Nat)
  /-- A return of `balloc`, and whether it had a free block below the log to return. -/
  | balloc (b : Nat) (room : Bool)
deriving DecidableEq, Repr

/-- Is this the beginning or the end of a transaction? -/
def Event.isMark : Event → Bool
  | .beginOp | .endOp => true
  | _ => false

/-- The log header in memory: the number of open transactions, and the sectors they have written. -/
structure LogHeader where
  outstanding : Nat
  sectors : List Nat
deriving DecidableEq

def LogHeader.next (log : LogHeader) : Event → LogHeader
  | .beginOp => { log with outstanding := log.outstanding + 1 }
  -- the last transaction to end commits
  | .endOp => if log.outstanding ≤ 1 then ⟨0, []⟩ else { log with outstanding := log.outstanding - 1 }
  -- a sector that is in the header already is absorbed
  | .logWrite b => if b ∈ log.sectors then log else { log with sectors := log.sectors ++ [b] }
  | .balloc _ _ => log

structure State where
  blocks : Nat → Block
  icache : Nat → Option Inode
  ncached : Nat
  /-- The field `log.size`, which `initlog` takes from the super block. -/
  logsize : Nat
  trace : List Event

def State.super (s : State) : Superblock := Superblock.ofBlock (s.blocks 1)

def State.log (s : State) : LogHeader := s.trace.foldl .next ⟨0, []⟩

abbrev FsM := StateT State (Except Panic)

def bread (b : Nat) : FsM Block := (fun s => s.blocks b) <$> get

def State.write (s : State) (b : Nat) (data : Block) : State :=
  { s with blocks := Function.update s.blocks b data, trace := s.trace ++ [.logWrite b] }

/-- Replace the contents of a buffer and call `log_write`. -/
def logWrite (b : Nat) (data : Block) : FsM PUnit := do
  let s ← get
  if logSize ≤ s.log.sectors.length ∨ s.logsize ≤ s.log.sectors.length + 1 then throw .tooBig
  else if s.log.outstanding < 1 then throw .outsideTrans
  else set (s.write b data)

def note (e : Event) : FsM PUnit := modify fun s => { s with trace := s.trace ++ [e] }

def beginOp : FsM PUnit := do
  let s ← get
  if logSize < s.log.sectors.length + (s.log.outstanding + 1) * maxOpBlocks then throw .logFull else note .beginOp

def endOp : FsM PUnit := note .endOp

def inode (ip : Nat) : FsM Inode := do
  match (← get).icache ip with
  | some e => return e
  | none => throw .noRef

def State.setInode (s : State) (ip : Nat) (e : Option Inode) : State :=
  { s with icache := Function.update s.icache ip e }

def setInode (ip : Nat) (e : Inode) : FsM PUnit := modify fun s => s.setInode ip (some e)

def readsb : FsM Superblock := Superblock.ofBlock <$> bread 1

/-! ### Blocks -/

def bzero (b : Nat) : FsM PUnit := logWrite b Bytes.zero

def State.marked (s : State) (ninodes b : Nat) : Bool := (s.blocks (bblock b ninodes)).getBit (b % bpb)

/-- Allocate a zeroed disk block: the first one whose bit is clear. -/
def balloc : FsM UInt32 := do
  let sb ← readsb
  let s ← get
  match (List.range sb.size).find? fun b => !s.marked sb.ninodes b with
  | none => throw .outOfBlocks
  | some b =>
    let bp ← bread (bblock b sb.ninodes)
    logWrite (bblock b sb.ninodes) (bp.setBit (b % bpb) true)
    bzero b
    modify fun t => { t with
      trace := t.trace ++ [.balloc b ((List.range (sb.size - sb.nlog)).any fun b' => !s.marked sb.ninodes b')] }
    return UInt32.ofNat b

def bfree (b : UInt32) : FsM PUnit := do
  let sb ← readsb
  let bp ← bread (bblock b.toNat sb.ninodes)
  if bp.getBit (b.toNat % bpb) = false then throw .freeingFree
  else logWrite (bblock b.toNat sb.ninodes) (bp.setBit (b.toNat % bpb) false)

/-! ### Inodes -/

/-- Find or make the cache entry of `inum`, and take a reference to it. -/
def iget (inum : Nat) : FsM PUnit := do
  let s ← get
  match s.icache inum with
  | some e => setInode inum { e with ref := e.ref + 1 }
  | none =>
    if ninode ≤ s.ncached then throw .cacheFull
    else set { s.setInode inum (some ⟨1, false, false, Dinode.zero⟩) with ncached := s.ncached + 1 }

/-- Allocate a new inode with the given type: the first one whose type is zero. -/
def ialloc (type : Int16) : FsM Nat := do
  let sb ← readsb
  let s ← get
  match (List.range sb.ninodes).find? fun i => 1 ≤ i ∧ (getDinode (s.blocks (iblock i)) (ioffset i)).type = 0 with
  | none => throw .noInodes
  | some inum =>
    let bp ← bread (iblock inum)
    logWrite (iblock inum) (putDinode bp (ioffset inum) (Dinode.ofType type))
    iget inum
    return inum

def iupdate (ip : Nat) : FsM PUnit := do
  let e ← inode ip
  let bp ← bread (iblock ip)
  logWrite (iblock ip) (putDinode bp (ioffset ip) e.din)

def idup (ip : Nat) : FsM PUnit := do
  let e ← inode ip
  setInode ip { e with ref := e.ref + 1 }

/-- Lock an inode, and read it from disk if necessary. -/
def ilock (ip : Nat) : FsM PUnit := do
  let e ← inode ip
  if e.busy then throw .asleep
  else if e.valid then setInode ip { e with busy := true }
  else
    let bp ← bread (iblock ip)
    let din := getDinode bp (ioffset ip)
    setInode ip { e with busy := true, valid := true, din := din }
    if din.type = 0 then throw .noType else pure ⟨⟩

def iunlock (ip : Nat) : FsM PUnit := do
  let e ← inode ip
  if e.busy then setInode ip { e with busy := false } else throw .iunlock

def setAddr (ip : Nat) (i : Fin (ndirect + 1)) (addr : UInt32) : FsM PUnit := do
  let e ← inode ip
  setInode ip { e with din := { e.din with addrs := Function.update e.din.addrs i addr } }

def freeDirect (ip : Nat) (i : Nat) : FsM PUnit := do
  let e ← inode ip
  if h : i < ndirect + 1 then
    if e.din.addrs ⟨i, h⟩ ≠ 0 then
      bfree (e.din.addrs ⟨i, h⟩)
      setAddr ip ⟨i, h⟩ 0
    else pure ⟨⟩
  else pure ⟨⟩

/-- The blocks listed in an indirect block, which is left as it is. -/
def freeEntries (a : Block) : FsM PUnit :=
  forTo (fun j => if get32 a (4 * j) ≠ 0 then bfree (get32 a (4 * j)) else pure ⟨⟩) nindirect

def itrunc (ip : Nat) : FsM PUnit := do
  forTo (freeDirect ip) ndirect
  let e ← inode ip
  let ind := e.din.addrs (Fin.last ndirect)
  if ind ≠ 0 then
    let a ← bread ind.toNat
    freeEntries a
    bfree ind
    setAddr ip (Fin.last ndirect) 0
  else pure ⟨⟩
  let e ← inode ip
  setInode ip { e with din := { e.din with size := 0 } }
  iupdate ip

/-- The end of `iput`; an entry without references is free. -/
def dropRef (ip : Nat) : FsM PUnit := do
  let e ← inode ip
  if e.ref ≤ 1 then modify fun s => { s.setInode ip none with ncached := s.ncached - 1 }
  else setInode ip { e with ref := e.ref - 1 }

/-- Drop a reference. The last one to an inode without links frees the inode on disk. -/
def iput (ip : Nat) : FsM PUnit := do
  let e ← inode ip
  if e.ref = 1 ∧ e.valid ∧ e.din.nlink = 0 then
    if e.busy then throw .iputBusy
    else
      setInode ip { e with busy := true }
      itrunc ip
      let e ← inode ip
      setInode ip { e with din := { e.din with type := 0 } }
      iupdate ip
      let e ← inode ip
      setInode ip { e with busy := false, valid := false }
      dropRef ip
  else dropRef ip

/-! ### Inode content -/

/-- The address in slot `i` of the inode; a zero one is allocated first. -/
def addrOf (ip : Nat) (i : Fin (ndirect + 1)) : FsM UInt32 := do
  let e ← inode ip
  if e.din.addrs i = 0 then
    let addr ← balloc
    setAddr ip i addr
    return addr
  else return e.din.addrs i

/-- The disk block address of block `bn` of an inode, which is allocated if there is none. -/
def bmap (ip : Nat) (bn : Nat) : FsM UInt32 := do
  if h : bn < ndirect then addrOf ip ⟨bn, Nat.lt_succ_of_lt h⟩
  else if bn - ndirect < nindirect then
    let ind ← addrOf ip (Fin.last ndirect)
    let a ← bread ind.toNat
    let addr := get32 a (4 * (bn - ndirect))
    if addr = 0 then
      let addr ← balloc
      logWrite ind.toNat (put32 a (4 * (bn - ndirect)) addr)
      return addr
    else return addr
  else throw .outOfRange

/-- What `devsw` holds for a major number: functions that read and write outside the file system. They
return the bytes they store or the count they take, or nothing for -1. -/
structure Devsw where
  read : Int16 → Option (UInt32 → Option (List UInt8))
  write : Int16 → Option ((Nat → UInt8) → UInt32 → Option Nat)

/-- The loop of `readi`; no sum in it exceeds the file size. -/
def readLoop (ip : Nat) : Nat → Nat → Nat → FsM (List UInt8)
  | 0, _, _ => return []
  | fuel + 1, off, n => do
    if n = 0 then return []
    else
      let addr ← bmap ip (off / bsize)
      let bp ← bread addr.toNat
      let m := min n (bsize - off % bsize)
      let rest ← readLoop ip fuel (off + m) (n - m)
      return bp.slice (off % bsize) m ++ rest

/-- Read data from an inode: the bytes stored at `dst`, whose number is returned, or nothing for -1. -/
def readi (devsw : Devsw) (ip : Nat) (off n : UInt32) : FsM (Option (List UInt8)) := do
  let e ← inode ip
  if e.din.type = tDev then
    if e.din.major < 0 ∨ (ndev : Int) ≤ e.din.major.toInt then return none
    else
      match devsw.read e.din.major with
      | none => return none
      | some read => return read n
  else if off > e.din.size ∨ off + n < off then return none
  else
    let n := if off + n > e.din.size then e.din.size - off else n
    some <$> readLoop ip n.toNat off.toNat n.toNat

/-- The loop of `writei`; `src` gives the bytes still to be written. -/
def writeLoop (ip : Nat) : Nat → (Nat → UInt8) → Nat → Nat → FsM PUnit
  | 0, _, _, _ => return ⟨⟩
  | fuel + 1, src, off, n => do
    if n = 0 then return ⟨⟩
    else
      let addr ← bmap ip (off / bsize)
      let bp ← bread addr.toNat
      let m := min n (bsize - off % bsize)
      logWrite addr.toNat (bp.copyIn (off % bsize) m src)
      writeLoop ip fuel (fun i => src (m + i)) (off + m) (n - m)

/-- Write data to an inode: the count that is returned, or nothing for -1. -/
def writei (devsw : Devsw) (ip : Nat) (src : Nat → UInt8) (off n : UInt32) : FsM (Option Nat) := do
  let e ← inode ip
  if e.din.type = tDev then
    if e.din.major < 0 ∨ (ndev : Int) ≤ e.din.major.toInt then return none
    else
      match devsw.write e.din.major with
      | none => return none
      | some write => return write src n
  else if off > e.din.size ∨ off + n < off then return none
  else if (off + n).toNat > maxFile * bsize then return none
  else
    writeLoop ip n.toNat src off.toNat n.toNat
    let e ← inode ip
    if n > 0 ∧ off + n > e.din.size then
      setInode ip { e with din := { e.din with size := off + n } }
      iupdate ip
      return some n.toNat
    else return some n.toNat

end Xv6.Fs
