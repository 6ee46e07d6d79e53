import Xv6.Lib.Circle
import Xv6.Lib.Transition

/-!
# The user memory allocator

`umalloc.c`. Memory is seen in pieces of the size of a `Header`, eight bytes, which is all that the allocator reads and
writes; a store by the program changes one such piece of a block that it has. Addresses and sizes are 32-bit numbers. Only
the allocator calls `sbrk`; the kernel's part of it is `growproc`, which may leave pages of the new memory unmapped. The
allocator stores to new memory in two places, where it makes a header. A call that does not return, because a loop does
not end or because the process is killed, has no result.
-/

namespace Xv6.Umalloc

open Lib

structure Header where
  ptr : Nat
  size : Nat

structure Heap where
  mem : Nat → Header
  freep : Nat
  /-- The end of the memory of the process. -/
  brk : Nat
  /-- The pages below the end that are not mapped, by their numbers. -/
  holes : List Nat

/-- The answer of the kernel to a process that grows: no memory, or memory but for the pages that `allocuvm` could not map. -/
abbrev Grant := Option (List Nat)

/-- Every page of the memory that is granted is mapped. -/
def Whole (grants : List Grant) : Prop := ∀ g ∈ grants, g = none ∨ g = some []

instance (grants : List Grant) : Decidable (Whole grants) := inferInstanceAs (Decidable (∀ g ∈ grants, _))

def add (p n : Nat) : Nat := (p + 8 * n) % 2 ^ 32

def rounds : Nat := 2 ^ 34

namespace Heap

def ptr (s : Heap) (p : Nat) : Nat := (s.mem p).ptr

def size (s : Heap) (p : Nat) : Nat := (s.mem p).size

def setPtr (s : Heap) (p v : Nat) : Heap := { s with mem := Function.update s.mem p { s.mem p with ptr := v } }

def setSize (s : Heap) (p v : Nat) : Heap := { s with mem := Function.update s.mem p { s.mem p with size := v } }

def precedes (s : Heap) (bp p : Nat) : Bool :=
  (p < bp && bp < s.ptr p) || (s.ptr p ≤ p && (p < bp || bp < s.ptr p))

/-- `free` joins the block to the next free one, or links it to that. -/
def joinNext (s : Heap) (bp p : Nat) : Heap :=
  if add bp (s.size bp) = s.ptr p then
    let s := s.setSize bp ((s.size bp + s.size (s.ptr p)) % 2 ^ 32)
    s.setPtr bp (s.ptr (s.ptr p))
  else s.setPtr bp (s.ptr p)

/-- `free` joins the block to the free one before it, or links that to it. -/
def joinPrev (s : Heap) (bp p : Nat) : Heap :=
  if add p (s.size p) = bp then
    let s := s.setSize p ((s.size p + s.size bp) % 2 ^ 32)
    s.setPtr p (s.ptr bp)
  else s.setPtr p bp

def link (s : Heap) (bp p : Nat) : Heap := { (s.joinNext bp p).joinPrev bp p with freep := p }

def free (s : Heap) (ap : Nat) : Option Heap :=
  let bp := (ap + (2 ^ 32 - 8)) % 2 ^ 32
  (seek s.ptr (s.precedes bp) rounds s.freep).map (s.link bp)

/-- The end of the last page. -/
def mapped (s : Heap) : Nat := (s.brk + 4095) / 4096 * 4096

def grow (s : Heap) (n : Nat) (holes : List Nat) : Heap :=
  { s with
    brk := s.brk + n
    holes := s.holes.filter (4096 * · < s.mapped) ++ holes.filter fun q => s.mapped ≤ 4096 * q ∧ 4096 * q < s.brk + n }

/-- The system call `sbrk` for a signed number. The kernel refuses to grow up to `KERNBASE`, and it may have no memory. -/
def sbrk (s : Heap) (n : Nat) (grant : Grant) : Option (Heap × Nat) :=
  if n = 0 then some (s, s.brk)
  else if n < 2 ^ 31 then
    match grant with
    | some holes => if s.brk + n < 2 ^ 31 then some (s.grow n holes, s.brk) else some (s, 2 ^ 32 - 1)
    | none => some (s, 2 ^ 32 - 1)
  else
    let sz := (s.brk + n) % 2 ^ 32
    -- `deallocuvm` changes nothing when the new size is not smaller, and with size 0 the program itself is gone
    if s.brk ≤ sz then some (s, s.brk)
    else if sz = 0 then none
    else some ({ s with brk := sz }, s.brk)

def morecore (s : Heap) (nu : Nat) (grant : Grant) : Option (Heap × Nat) := do
  let nu := if nu < 4096 then 4096 else nu
  let (s, p) ← s.sbrk (nu * 8 % 2 ^ 32) grant
  if p = 2 ^ 32 - 1 then return (s, 0)
  -- the store of the size is a page fault
  else if s.mapped ≤ p ∨ p / 4096 ∈ s.holes then none
  else ((s.setSize p nu).free (add p 1)).map fun s => (s, s.freep)

/-- The result of `malloc` from the block behind `prevp`. -/
def carve (s : Heap) (nunits prevp : Nat) : Option (Heap × Nat) :=
  let p := s.ptr prevp
  if s.size p = nunits then some ({ s.setPtr prevp (s.ptr p) with freep := prevp }, add p 1)
  else
    let s := s.setSize p (s.size p - nunits)
    let p := add p (s.size p)
    if p / 4096 ∈ s.holes then none else some ({ s.setSize p nunits with freep := prevp }, add p 1)

/-- The loop of `malloc` looks at the block behind `prevp`, and ends at a large one or at `freep`. -/
def ends (s : Heap) (nunits prevp : Nat) : Bool := nunits ≤ s.size (s.ptr prevp) || s.ptr prevp = s.freep

/-- The loop of `malloc`; each call of `morecore` takes one answer of the kernel. -/
def mallocLoop (nunits : Nat) : List Grant → Heap → Option (Heap × Nat)
  | grants, s => do
    let prevp ← seek s.ptr (s.ends nunits) rounds s.freep
    if nunits ≤ s.size (s.ptr prevp) then s.carve nunits prevp
    else
      match grants with
      | [] => return (s, 0)
      | grant :: grants =>
        let (s, p) ← s.morecore nunits grant
        if p = 0 then return (s, 0) else mallocLoop nunits grants s

def init (base : Nat) (s : Heap) : Heap :=
  if s.freep = 0 then { (s.setPtr base base).setSize base 0 with freep := base } else s

end Heap

def nunits (nbytes : Nat) : Nat := (nbytes + 7) % 2 ^ 32 / 8 + 1

def malloc (base : Nat) (s : Heap) (nbytes : Nat) (grants : List Grant) : Option (Heap × Nat) :=
  (s.init base).mallocLoop (nunits nbytes) grants

structure State where
  heap : Heap
  /-- The blocks that the program has, by their addresses, with the numbers of bytes it asked for. -/
  live : Nat → Option Nat

inductive Label where
  | malloc (nbytes : Nat) (grants : List Grant)
  | free (ap : Nat)
  | store (a : Nat) (h : Header)

inductive Stuck where
  /-- A loop does not end, or the process is killed. -/
  | loops

def orLoops : Option State → Outcome Stuck State
  | none => .fail .loops
  | some s => .next s

def State.step (base : Nat) (s : State) : Label → Outcome Stuck State
  | .malloc nbytes grants =>
    orLoops ((malloc base s.heap nbytes grants).map fun (heap, p) =>
      { heap := heap, live := if p = 0 then s.live else Function.update s.live p (some nbytes) })
  | .free ap => orLoops ((s.heap.free ap).map fun heap => { heap := heap, live := Function.update s.live ap none })
  | .store a h => .next { s with heap := { s.heap with mem := Function.update s.heap.mem a h } }

/-- What a program may do: ask for less than 2^31 bytes with the header, free what it has, and store to what it has. The
kernel maps all the memory that it grants. -/
def State.Legal (s : State) : Label → Prop
  | .malloc nbytes grants => nbytes + 7 ≤ 2 ^ 31 - 1 ∧ nunits nbytes * 8 ≤ 2 ^ 31 - 1 ∧ Whole grants
  | .free ap => s.live ap ≠ none
  | .store a _ => ∃ p nbytes, s.live p = some nbytes ∧ p ≤ a ∧ a < p + nbytes ∧ (a - p) % 8 = 0

structure Start (base start : Nat) (s : State) : Prop where
  base_pos : 0 < base
  base_lt : base + 8 ≤ start
  start_lt : start < 2 ^ 32
  freep : s.heap.freep = 0
  brk : s.heap.brk = start
  live : ∀ p, s.live p = none
  whole : s.heap.holes = []

/-- A program whose header `base` is at the given address, and whose memory ends at `start`. -/
def system (base start : Nat) : Automaton State Label Stuck where
  start := Start base start
  step := State.step base

end Xv6.Umalloc
