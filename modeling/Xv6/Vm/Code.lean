import Xv6.Lib.Wp
import Xv6.Param
import Xv6.Syscall.Args

/-!
# Physical memory and page tables

The functions of `kalloc.c` and `vm.c`. Physical memory is an array of pages, known by their numbers; a
kernel pointer to a page is its number too. Page directories and page tables lie in pages of this memory, so
a stray store could change them. The free list is kept apart from the pages on it. Every call of `kalloc` may
fail, as other processors may have taken the last page, and `luck` says which ones do.

Calls that cannot go on are errors: the panics of the source, and the use of a null pointer.
-/

namespace Xv6.Vm

open Lib Syscall

/-! ### The layout of memory -/

abbrev pgsize : Nat := 4096

def extmem : Nat := 0x100000
def phystop : Nat := 0xE000000
def devspace : Nat := 0xFE000000
def kernlink : Nat := kernbase + extmem

/-- Where the linker puts the kernel: its data from `data` on, and `fin` is the symbol `end`. -/
structure Layout where
  data : Nat
  fin : Nat
  data_gt : kernlink < data
  data_aligned : data % pgsize = 0
  fin_gt : data < fin
  fin_le : fin ≤ kernbase + phystop

/-- The pages between the kernel and the top of memory, which `kfree` takes. -/
def Layout.Ram (L : Layout) (q : Nat) : Prop := L.fin ≤ kernbase + pgsize * q ∧ pgsize * q < phystop

instance (L : Layout) : DecidablePred L.Ram := fun _ => inferInstanceAs (Decidable (_ ∧ _))

/-! ### State -/

inductive Panic where
  | kfree
  | remap
  | physTop
  /-- The call `panic("inituvm: more than a page")`. -/
  | inituvm
  /-- The call `panic("loaduvm: addr must be page aligned")`. -/
  | loaduvmAlign
  /-- The call `panic("loaduvm: address should exist")`. -/
  | loaduvmMissing
  /-- The call `panic("freevm: no pgdir")`. -/
  | freevm
  | clearpteu
  /-- The call `panic("copyuvm: pte should exist")`. -/
  | copyuvmMissing
  /-- The call `panic("copyuvm: page not present")`. -/
  | copyuvmAbsent
  /-- The call `panic("userinit: out of memory?")`. -/
  | userinit
  | nullPointer
deriving DecidableEq, Repr

abbrev Page := Bytes pgsize

structure Memory where
  page : Nat → Page
  free : List Nat
  /-- Does the `n`th of the coming calls of `kalloc` fail? -/
  luck : Nat → Bool

abbrev VmM := StateT Memory (Except Panic)

def Memory.setPage (s : Memory) (q : Nat) (b : Page) : Memory := { s with page := Function.update s.page q b }

/-- Entry `i` of the page directory or page table in page `q`. -/
def Memory.entry (s : Memory) (q : Nat) (i : Fin 1024) : Word := BitVec.ofNat 32 ((s.page q).getLE (4 * i) 4)

def Memory.setEntry (s : Memory) (q : Nat) (i : Fin 1024) (e : Word) : Memory :=
  s.setPage q ((s.page q).putLE (4 * i) 4 e.toNat)

def setPage (q : Nat) (b : Page) : VmM PUnit := modify fun s => s.setPage q b

def setEntry (q : Nat) (i : Fin 1024) (e : Word) : VmM PUnit := modify fun s => s.setEntry q i e

/-! ### `kalloc.c` -/

/-- A page filled with junk to catch dangling references. -/
def junk : Page := fun _ => 1

def kfree (L : Layout) (q : Nat) : VmM PUnit :=
  if L.Ram q then modify fun s => { s.setPage q junk with free := q :: s.free } else throw .kfree

def kalloc : VmM (Option Nat) := do
  let s ← get
  let s' := { s with luck := fun n => s.luck (n + 1) }
  match s.luck 0, s.free with
  | false, q :: rest =>
    set { s' with free := rest }
    return some q
  | _, _ =>
    set s'
    return none

/-! ### Page tables -/

def pteP : Word := 0x001
def pteW : Word := 0x002
def pteU : Word := 0x004

/-- The page that `PTE_ADDR` of an entry points to. -/
def pteAddr (e : Word) : Nat := e.toNat / pgsize

def pteFlags (e : Word) : Word := e &&& 0xFFF

def v2p (q : Nat) : Word := BitVec.ofNat 32 (pgsize * q)

def pgroundup (a : Word) : Word := (a + 4095) &&& ~~~4095

def pgrounddown (a : Word) : Word := a &&& ~~~4095

def pdx (va : Word) : Fin 1024 := ⟨va.toNat / 2 ^ 22, by have := va.isLt; omega⟩

def ptx (va : Word) : Fin 1024 := ⟨va.toNat / pgsize % 1024, by omega⟩

/-- The entry of `va`, given by its page table and index there. -/
def walkpgdir (pgdir : Nat) (va : Word) (alloc : Bool) : VmM (Option (Nat × Fin 1024)) := do
  let pde := (← get).entry pgdir (pdx va)
  if pde &&& pteP ≠ 0 then return some (pteAddr pde, ptx va)
  else if alloc = false then return none
  else
    match ← kalloc with
    | none => return none
    | some pgtab =>
      setPage pgtab Bytes.zero
      setEntry pgdir (pdx va) (v2p pgtab ||| pteP ||| pteW ||| pteU)
      return some (pgtab, ptx va)

/-- The loop of `mappages`; it takes as many rounds as there are pages from `a` to `last`. -/
def mapLoop (pgdir : Nat) (perm : Word) : Nat → Word → Word → Word → VmM Bool
  | 0, _, _, _ => return true
  | n + 1, a, last, pa => do
    match ← walkpgdir pgdir a true with
    | none => return false
    | some (t, j) =>
      if (← get).entry t j &&& pteP ≠ 0 then throw .remap
      else
        setEntry t j (pa ||| perm ||| pteP)
        if a = last then return true else mapLoop pgdir perm n (a + 4096) last (pa + 4096)

/-- Returns whether all pages of the range have been mapped. -/
def mappages (pgdir : Nat) (va size pa perm : Word) : VmM Bool :=
  let a := pgrounddown va
  let last := pgrounddown (va + size - 1)
  mapLoop pgdir perm ((last - a).toNat / pgsize + 1) a last pa

/-- The table `kmap`: the address, the bounds of the physical addresses and the permissions of each range. -/
def kmap (L : Layout) : List (Word × Word × Word × Word) :=
  [(BitVec.ofNat 32 kernbase, 0, BitVec.ofNat 32 extmem, pteW),
    (BitVec.ofNat 32 kernlink, BitVec.ofNat 32 (kernlink - kernbase), BitVec.ofNat 32 (L.data - kernbase), 0),
    (BitVec.ofNat 32 L.data, BitVec.ofNat 32 (L.data - kernbase), BitVec.ofNat 32 phystop, pteW),
    (BitVec.ofNat 32 devspace, BitVec.ofNat 32 devspace, 0, pteW)]

def mapKernel (pgdir : Nat) : List (Word × Word × Word × Word) → VmM Bool
  | [] => return true
  | (virt, start, stop, perm) :: ks => do
    if ← mappages pgdir virt (stop - start) start perm then mapKernel pgdir ks else return false

/-- Set up the kernel part of a page table. What has been allocated before a failure is lost. -/
def setupkvm (L : Layout) : VmM (Option Nat) := do
  match ← kalloc with
  | none => return none
  | some pgdir =>
    setPage pgdir Bytes.zero
    if kernbase + phystop > devspace then throw .physTop
    else if ← mapKernel pgdir (kmap L) then return some pgdir else return none

/-! ### User memory -/

def inituvm (pgdir : Nat) (init : List UInt8) : VmM PUnit := do
  if init.length ≥ pgsize then throw .inituvm
  else
    match ← kalloc with
    | none => throw .nullPointer
    | some mem =>
      setPage mem Bytes.zero
      let _ ← mappages pgdir 0 4096 (v2p mem) (pteW ||| pteU)
      modify fun s => s.setPage mem ((s.page mem).copyIn 0 init.length fun i => init.getD i 0)

/-- The bytes that `readi` reads from a file, or nothing for -1. -/
abbrev Readi := Word → Word → Option (List UInt8)

def loadLoop (pgdir : Nat) (addr : Word) (readi : Readi) (offset sz : Word) : Nat → Word → VmM Bool
  | 0, _ => return true
  | n + 1, i => do
    if i < sz then
      match ← walkpgdir pgdir (addr + i) false with
      | none => throw .loaduvmMissing
      | some (t, j) =>
        let q := pteAddr ((← get).entry t j)
        let m := if sz - i < 4096 then sz - i else 4096
        match readi (offset + i) m with
        | none => return false
        | some bs =>
          modify fun s => s.setPage q ((s.page q).copyIn 0 bs.length fun k => bs.getD k 0)
          if bs.length ≠ m.toNat then return false else loadLoop pgdir addr readi offset sz n (i + 4096)
    else return true

/-- Load a program segment; the pages must already be mapped. -/
def loaduvm (pgdir : Nat) (addr : Word) (readi : Readi) (offset sz : Word) : VmM Bool :=
  if addr.toNat % pgsize ≠ 0 then throw .loaduvmAlign
  else loadLoop pgdir addr readi offset sz (sz.toNat / pgsize + 1) 0

/-- The loop of `deallocuvm`; where there is no page table it skips as many pages as one has entries. -/
def deallocLoop (L : Layout) (pgdir : Nat) (oldsz : Word) : Nat → Word → VmM PUnit
  | 0, _ => return ⟨⟩
  | n + 1, a => do
    if a < oldsz then
      match ← walkpgdir pgdir a false with
      | none => deallocLoop L pgdir oldsz n (a + 1023 * 4096 + 4096)
      | some (t, j) =>
        let pte := (← get).entry t j
        if pte &&& pteP ≠ 0 then
          if pteAddr pte = 0 then throw .kfree
          else
            kfree L (pteAddr pte)
            setEntry t j 0
            deallocLoop L pgdir oldsz n (a + 4096)
        else deallocLoop L pgdir oldsz n (a + 4096)
    else return ⟨⟩

def deallocuvm (L : Layout) (pgdir : Nat) (oldsz newsz : Word) : VmM Word := do
  if newsz ≥ oldsz then return oldsz
  else
    deallocLoop L pgdir oldsz (oldsz.toNat / pgsize + 1) (pgroundup newsz)
    return newsz

/-- The loop of `allocuvm`, which does not look at what `mappages` returns. -/
def allocLoop (L : Layout) (pgdir : Nat) (oldsz newsz : Word) : Nat → Word → VmM Word
  | 0, _ => return newsz
  | n + 1, a => do
    if a < newsz then
      match ← kalloc with
      | none =>
        let _ ← deallocuvm L pgdir newsz oldsz
        return 0
      | some mem =>
        setPage mem Bytes.zero
        let _ ← mappages pgdir a 4096 (v2p mem) (pteW ||| pteU)
        allocLoop L pgdir oldsz newsz n (a + 4096)
    else return newsz

/-- Grow a process; returns the new size, or 0 on error. -/
def allocuvm (L : Layout) (pgdir : Nat) (oldsz newsz : Word) : VmM Word :=
  if newsz.toNat ≥ kernbase then return 0
  else if newsz < oldsz then return oldsz
  else allocLoop L pgdir oldsz newsz (newsz.toNat / pgsize + 1) (pgroundup oldsz)

def freeTables (L : Layout) (pgdir : Nat) : VmM PUnit :=
  forTo (fun i => do
    if h : i < 1024 then
      let pde := (← get).entry pgdir ⟨i, h⟩
      if pde &&& pteP ≠ 0 then kfree L (pteAddr pde) else pure ⟨⟩
    else pure ⟨⟩) 1024

/-- Free a page table and the pages in its user part. -/
def freevm (L : Layout) (pgdir : Option Nat) : VmM PUnit := do
  match pgdir with
  | none => throw .freevm
  | some d =>
    let _ ← deallocuvm L d (BitVec.ofNat 32 kernbase) 0
    freeTables L d
    kfree L d

def clearpteu (pgdir : Nat) (uva : Word) : VmM PUnit := do
  match ← walkpgdir pgdir uva false with
  | none => throw .clearpteu
  | some (t, j) => modify fun s => s.setEntry t j (s.entry t j &&& ~~~pteU)

/-- The loop of `copyuvm`; returns whether all pages have been copied. -/
def copyLoop (pgdir d : Nat) (sz : Word) : Nat → Word → VmM Bool
  | 0, _ => return true
  | n + 1, i => do
    if i < sz then
      match ← walkpgdir pgdir i false with
      | none => throw .copyuvmMissing
      | some (t, j) =>
        let pte := (← get).entry t j
        if pte &&& pteP = 0 then throw .copyuvmAbsent
        else
          match ← kalloc with
          | none => return false
          | some mem =>
            modify fun s => s.setPage mem (s.page (pteAddr pte))
            if ← mappages d i 4096 (v2p mem) (pteFlags pte) then copyLoop pgdir d sz n (i + 4096) else return false
    else return true

def copyuvm (L : Layout) (pgdir : Nat) (sz : Word) : VmM (Option Nat) := do
  match ← setupkvm L with
  | none => return none
  | some d =>
    if ← copyLoop pgdir d sz (sz.toNat / pgsize + 1) 0 then return some d
    else
      freevm L (some d)
      return none

def uva2ka (pgdir : Nat) (uva : Word) : VmM (Option Nat) := do
  match ← walkpgdir pgdir uva false with
  | none => throw .nullPointer
  | some (t, j) =>
    let pte := (← get).entry t j
    if pte &&& pteP = 0 then return none
    else if pte &&& pteU = 0 then return none
    else return some (pteAddr pte)

def copyoutLoop (pgdir : Nat) : Nat → Word → List UInt8 → VmM Bool
  | 0, _, _ => return true
  | n + 1, va, buf => do
    if buf.length > 0 then
      let va0 := pgrounddown va
      match ← uva2ka pgdir va0 with
      | none => return false
      | some q =>
        let m := min (pgsize - (va - va0).toNat) buf.length
        modify fun s => s.setPage q ((s.page q).copyIn (va - va0).toNat m fun k => buf.getD k 0)
        copyoutLoop pgdir n (va0 + 4096) (buf.drop m)
    else return true

def copyout (pgdir : Nat) (va : Word) (buf : List UInt8) : VmM Bool :=
  copyoutLoop pgdir (buf.length / pgsize + 2) va buf

end Xv6.Vm
