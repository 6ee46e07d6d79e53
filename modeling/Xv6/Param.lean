import Xv6.Lib.Bytes

/-!
# Parameters and the disk format

The constants of `param.h`, `fs.h` and `memlayout.h`, the block type and the superblock. A disk is an image of blocks of
`bsize` bytes:

* block 0 is unused and block 1 holds the superblock;
* the inodes follow from block 2, `ipb` to a block;
* then the bitmap, one bit for each block of the image;
* then the data blocks;
* and the log in the last `nlog` blocks.
-/

namespace Xv6

open Lib

abbrev nproc : Nat := 64
abbrev nofile : Nat := 16
abbrev nfile : Nat := 100
abbrev ninode : Nat := 50
abbrev ndev : Nat := 10
/-- Maximum number of blocks any file-system operation writes. -/
abbrev maxOpBlocks : Nat := 10
/-- Maximum number of data sectors in the on-disk log. -/
abbrev logSize : Nat := maxOpBlocks * 3
abbrev nbuf : Nat := maxOpBlocks * 3

-- Named, so that a numeral of an index type means the same term in every module.
instance neZero_two : NeZero 2 := ⟨by decide⟩
instance neZero_nproc : NeZero nproc := ⟨by decide⟩
instance neZero_nofile : NeZero nofile := ⟨by decide⟩
instance neZero_nbuf : NeZero nbuf := ⟨by decide⟩

abbrev bsize : Nat := 512
abbrev rootIno : Nat := 1
abbrev ndirect : Nat := 12
abbrev nindirect : Nat := bsize / 4
abbrev maxFile : Nat := ndirect + nindirect
abbrev dinodeSize : Nat := 64
abbrev ipb : Nat := bsize / dinodeSize
abbrev bpb : Nat := bsize * 8
abbrev dirSiz : Nat := 14

def kernbase : Nat := 0x80000000

abbrev Block := Bytes bsize

structure Superblock where
  size : Nat
  nblocks : Nat
  ninodes : Nat
  nlog : Nat
deriving DecidableEq, Repr

def mkfsSuperblock : Superblock where
  size := 1024
  nblocks := 995 - logSize
  ninodes := 200
  nlog := logSize

def iblock (i : Nat) : Nat := i / ipb + 2

/-- The block that holds the bitmap bit of block `b`. -/
def bblock (b ninodes : Nat) : Nat := b / bpb + ninodes / ipb + 3

def get32 (b : Block) (o : Nat) : UInt32 := UInt32.ofNat (b.getLE o 4)

def put32 (b : Block) (o : Nat) (v : UInt32) : Block := b.putLE o 4 v.toNat

theorem toNat_get32 (b : Block) (o : Nat) : (get32 b o).toNat = b.getLE o 4 := by
  have hlt := b.getLE_lt o 4
  rw [get32, UInt32.toNat_ofNat_of_lt' (by simpa using hlt)]

theorem get32_put32_same {b : Block} {o : Nat} {v : UInt32} (ho : o + 4 ≤ bsize) : get32 (put32 b o v) o = v := by
  apply UInt32.toNat_inj.mp
  rw [toNat_get32, put32, Bytes.getLE_putLE_same ho]
  exact Nat.mod_eq_of_lt v.toNat_lt

theorem get32_put32_disjoint {b : Block} {o o' : Nat} {v : UInt32} (ho : o' + 4 ≤ bsize)
    (h : o' + 4 ≤ o ∨ o + 4 ≤ o') : get32 (put32 b o v) o' = get32 b o' := by
  rw [get32, put32, Bytes.getLE_putLE_disjoint ho h, ← get32]

@[simp] theorem get32_zero (o : Nat) : get32 Bytes.zero o = 0 := by
  simp [get32]

/-- The 16-bit word at byte offset `o`, as a C `short`. -/
def get16 (b : Block) (o : Nat) : Int16 := ⟨UInt16.ofNat (b.getLE o 2)⟩

def put16 (b : Block) (o : Nat) (v : Int16) : Block := b.putLE o 2 v.toUInt16.toNat

@[simp] theorem get16_zero (o : Nat) : get16 Bytes.zero o = 0 := by
  simp [get16]
  rfl

def Superblock.ofBlock (b : Block) : Superblock where
  size := (get32 b 0).toNat
  nblocks := (get32 b 4).toNat
  ninodes := (get32 b 8).toNat
  nlog := (get32 b 12).toNat

end Xv6
