import Xv6.Fs.Code
import Xv6.Lib.Memory

/-!
# Directories and paths

The upper half of `fs.c`: the search in a directory and the walk along a path. A path is the list of its bytes
before the terminating zero. The inode that a function returns is referenced for its caller, and on every
other way out all references and locks are given back.
-/

namespace Xv6.Fs

open Lib

/-! ### Names -/

/-- The sign of the difference is not used, only whether there is one. -/
def strncmp : Nat → List UInt8 → List UInt8 → Int
  | 0, _, _ => 0
  | n + 1, p, q =>
    if p.headD 0 ≠ 0 ∧ p.headD 0 = q.headD 0 then strncmp n p.tail q.tail
    else ((p.headD 0).toNat : Int) - (q.headD 0).toNat

def namecmp (s t : List UInt8) : Int := strncmp dirSiz s t

def slash : UInt8 := 0x2F

/-- The next path element, cut to `DIRSIZ` bytes, and the path after it without leading slashes. -/
def skipelem (path : List UInt8) : Option (List UInt8 × List UInt8) :=
  let s := path.dropWhile (· == slash)
  if s = [] then none
  else some ((s.takeWhile (· != slash)).take dirSiz, (s.dropWhile (· != slash)).dropWhile (· == slash))

/-! ### Directories -/

def direntSize : UInt32 := 16

/-- The loop of `dirlookup` from `off` on: the inode number and the offset of the entry. -/
def lookupLoop (devsw : Devsw) (dp : Nat) (name : List UInt8) : Nat → UInt32 → FsM (Option (Nat × UInt32))
  | 0, _ => return none
  | n + 1, off => do
    if off < (← inode dp).din.size then
      match ← readi devsw dp off direntSize with
      | none => throw .dirlinkRead
      | some de =>
        let inum := leNat (de.take 2)
        if de.length ≠ direntSize.toNat then throw .dirlinkRead
        else if inum = 0 then lookupLoop devsw dp name n (off + direntSize)
        else if namecmp name (de.drop 2) = 0 then
          iget inum
          return some (inum, off)
        else lookupLoop devsw dp name n (off + direntSize)
    else return none

/-- Look for a directory entry; a read past the largest file panics, so there are no more rounds than entries. -/
def dirlookup (devsw : Devsw) (dp : Nat) (name : List UInt8) : FsM (Option (Nat × UInt32)) := do
  let e ← inode dp
  if e.din.type ≠ tDir then throw .notDir
  else lookupLoop devsw dp name (e.din.size.toNat / direntSize.toNat + 1) 0

/-! ### Paths -/

def iunlockput (ip : Nat) : FsM PUnit := do
  iunlock ip
  iput ip

/-- The loop of `namex`: the inode, and the last path element for `nameiparent`. Each round takes an element off
the path. -/
def namexLoop (devsw : Devsw) (parent : Bool) : Nat → Nat → List UInt8 → FsM (Option (Nat × List UInt8))
  | 0, _, _ => return none
  | n + 1, ip, path => do
    match skipelem path with
    | none =>
      if parent then
        iput ip
        return none
      else return some (ip, [])
    | some (name, path) =>
      ilock ip
      if (← inode ip).din.type ≠ tDir then
        iunlockput ip
        return none
      else if parent ∧ path = [] then
        -- stop one level early
        iunlock ip
        return some (ip, name)
      else
        match ← dirlookup devsw ip name with
        | none =>
          iunlockput ip
          return none
        | some (next, _) =>
          iunlockput ip
          namexLoop devsw parent n next path

/-- Look up the inode of a path; `cwd` is that of the current directory. -/
def namex (devsw : Devsw) (cwd : Nat) (path : List UInt8) (parent : Bool) : FsM (Option (Nat × List UInt8)) := do
  if path.head? = some slash then
    iget rootIno
    namexLoop devsw parent (path.length + 1) rootIno path
  else
    idup cwd
    namexLoop devsw parent (path.length + 1) cwd path

def namei (devsw : Devsw) (cwd : Nat) (path : List UInt8) : FsM (Option Nat) :=
  Option.map Prod.fst <$> namex devsw cwd path false

def nameiparent (devsw : Devsw) (cwd : Nat) (path : List UInt8) : FsM (Option (Nat × List UInt8)) :=
  namex devsw cwd path true

end Xv6.Fs
