import Xv6.Fs.View

/-!
# Who owns a block

A block belongs to an inode at a position: as one of its addresses, the last of which is its indirect
block, or as an entry of that indirect block. Addresses change in memory first, so the addresses of a
cached inode are those of its in-memory copy.

`Own` is what every call keeps, even one that stops half way: blocks have one owner, owned blocks are data
blocks marked in use, and the blocks before the data are marked in use as well. It does not say that files
have no holes, or that a marked block has an owner.
-/

namespace Xv6.Fs

/-- The places of an inode where a block number is kept. -/
inductive Pos where
  | slot (k : Fin (ndirect + 1))
  | entry (j : Fin nindirect)
deriving DecidableEq, Fintype

abbrev Pos.indirect : Pos := .slot (Fin.last ndirect)

def posOf (bn : Nat) : Pos :=
  if h : bn < ndirect then .slot ⟨bn, Nat.lt_succ_of_lt h⟩
  else if h : bn - ndirect < nindirect then .entry ⟨bn - ndirect, h⟩
  else .indirect

theorem posOf_ne_indirect {bn : Nat} (hbn : bn < maxFile) : posOf bn ≠ .indirect := by
  unfold posOf
  simp only [maxFile, nindirect, bsize] at *
  split
  · simp only [Pos.indirect, ne_eq, Pos.slot.injEq, Fin.ext_iff, Fin.val_last]
    omega
  · split
    · simp
    · omega

theorem posOf_inj {m n : Nat} (hm : m < maxFile) (hn : n < maxFile) (h : posOf m = posOf n) : m = n := by
  unfold posOf at h
  simp only [maxFile, nindirect, bsize] at *
  grind

def Dinode.at (data : Nat → Block) (d : Dinode) : Pos → UInt32
  | .slot k => d.addrs k
  | .entry j => if d.addrs (Fin.last ndirect) = 0 then 0 else get32 (data (d.addrs (Fin.last ndirect)).toNat) (4 * j)

def View.cur (v : View) (i : Nat) : Dinode :=
  match v.icache i with
  | some e => if e.valid then e.din else v.dinode i
  | none => v.dinode i

/-- The block inode `i` has at position `p`, or zero. -/
def View.own (v : View) (i : Nat) (p : Pos) : UInt32 := (v.cur i).at v.data p

/-- The byte of inode `i` at offset `x`; a hole reads as zero. -/
def View.byte (v : View) (i x : Nat) : UInt8 :=
  if v.own i (posOf (x / bsize)) = 0 then 0 else (v.data (v.own i (posOf (x / bsize))).toNat).get (x % bsize)

def View.nfree (sb : Superblock) (v : View) : Nat := ((Finset.range sb.size).filter fun b => v.bit b = false).card

def View.nblocks (v : View) (i : Nat) : Nat := (Finset.univ.filter fun p => v.own i p ≠ 0).card

structure Own (sb : Superblock) (v : View) : Prop where
  metadata : ∀ b < dataStart sb, v.bit b = true
  handle : ∀ i e, v.icache i = some e → i < sb.ninodes
  range : ∀ i p, v.own i p ≠ 0 → dataStart sb ≤ (v.own i p).toNat ∧ (v.own i p).toNat < sb.size ∧
    v.bit (v.own i p).toNat = true
  unique : ∀ i p j q, v.own i p ≠ 0 → v.own i p = v.own j q → i = j ∧ p = q

variable {sb : Superblock} {v v' : View}

variable {i : Nat} {e : Inode}

theorem cur_of_valid (he : v.icache i = some e) (hvalid : e.valid = true) : v.cur i = e.din := by
  simp only [View.cur, he, hvalid, if_true]

theorem own_slot (v : View) (i : Nat) (k : Fin (ndirect + 1)) : v.own i (.slot k) = (v.cur i).addrs k := rfl

theorem own_entry (v : View) (i : Nat) (j : Fin nindirect) : v.own i (.entry j) =
    if v.own i .indirect = 0 then 0 else get32 (v.data (v.own i .indirect).toNat) (4 * j) := rfl

variable {ip : Nat}

theorem cur_setInode_self (hvalid : e.valid = true) : (v.setInode ip e).cur ip = e.din :=
  cur_of_valid (setInode_same v ip e) hvalid

theorem cur_setInode_ne (hi : i ≠ ip) (e : Inode) : (v.setInode ip e).cur i = v.cur i := by
  simp only [View.cur, setInode_other v hi]
  rfl

theorem cur_setInode (hcur : (if e.valid then e.din else v.dinode ip) = v.cur ip) (i : Nat) :
    (v.setInode ip e).cur i = v.cur i := by
  by_cases hi : i = ip
  · subst hi
    rw [← hcur, View.cur, setInode_same]
    rfl
  · exact cur_setInode_ne hi e

/-- Ownership depends on the addresses and on the contents of the indirect blocks. -/
theorem own_congr (hcur : (v'.cur i).addrs = (v.cur i).addrs)
    (hdata : v.own i .indirect ≠ 0 → v'.data (v.own i .indirect).toNat = v.data (v.own i .indirect).toNat) (p : Pos) :
    v'.own i p = v.own i p := by
  cases p with
  | slot k => rw [own_slot, own_slot, hcur]
  | entry j =>
    have hind : v'.own i .indirect = v.own i .indirect := by rw [own_slot, own_slot, hcur]
    rw [own_entry, own_entry, hind]
    split
    · rfl
    · rw [hdata ‹_›]

theorem own_of_cur (hcur : (v'.cur i).addrs = (v.cur i).addrs) (hdata : v'.data = v.data) (p : Pos) :
    v'.own i p = v.own i p :=
  own_congr hcur (fun _ => by rw [hdata]) p

theorem own_eq_zero (haddrs : ∀ k, (v.cur i).addrs k = 0) (p : Pos) : v.own i p = 0 := by
  cases p with
  | slot k => exact haddrs k
  | entry j => rw [own_entry, own_slot, if_pos (haddrs _)]

/-! ### Allocation -/

theorem alloc_cur (v : View) (b i : Nat) : (v.alloc sb b).cur i = v.cur i := rfl

variable {b : Nat}

theorem Own.ne_of_free (h : Own sb v) (hb : v.bit b = false) (i : Nat) (p : Pos) (hp : v.own i p ≠ 0) :
    (v.own i p).toNat ≠ b := by
  intro heq
  have := (h.range i p hp).2.2
  rw [heq, hb] at this
  cases this

theorem Own.alloc_own (h : Own sb v) (hb : v.bit b = false) (i : Nat) (p : Pos) :
    (v.alloc sb b).own i p = v.own i p := by
  refine own_congr (congrArg Dinode.addrs (alloc_cur v b i)) (fun hind => ?_) p
  exact Function.update_of_ne (h.ne_of_free hb i .indirect hind) _ _

theorem Own.alloc (h : Own sb v) (hb : v.bit b = false) : Own sb (v.alloc sb b) where
  metadata b' hb' := by
    have := h.metadata b' hb'
    simp only [View.alloc, Function.update_apply]
    split <;> simp [this]
  handle := h.handle
  range i p hp := by
    rw [h.alloc_own hb] at hp ⊢
    obtain ⟨hlo, hhi, hbit⟩ := h.range i p hp
    refine ⟨hlo, hhi, ?_⟩
    simp only [View.alloc, Function.update_apply, hbit]
    split <;> rfl
  unique i p j q hp heq := by
    rw [h.alloc_own hb, h.alloc_own hb] at *
    exact h.unique i p j q hp heq

/-- Blocks may be given up, but not by giving up the mark of a block that is still owned. -/
theorem Own.of_sub (h : Own sb v) (hown : ∀ i p, v'.own i p ≠ 0 → v'.own i p = v.own i p)
    (hmeta : ∀ b < dataStart sb, v'.bit b = true)
    (hbit : ∀ i p, v'.own i p ≠ 0 → v'.bit (v'.own i p).toNat = true)
    (hcache : ∀ i e, v'.icache i = some e → i < sb.ninodes) : Own sb v' where
  metadata := hmeta
  handle := hcache
  range i p hp := by
    have heq := hown i p hp
    obtain ⟨hlo, hhi, -⟩ := h.range i p (heq ▸ hp)
    exact ⟨heq ▸ hlo, heq ▸ hhi, hbit i p hp⟩
  unique i p j q hp heq := by
    have hq : v'.own j q ≠ 0 := heq ▸ hp
    rw [hown i p hp, hown j q hq] at heq
    exact h.unique i p j q (hown i p hp ▸ hp) heq

theorem Own.of_same (h : Own sb v) (hown : ∀ i p, v'.own i p = v.own i p) (hbit : v'.bit = v.bit)
    (hcache : ∀ i e, v'.icache i = some e → i < sb.ninodes) : Own sb v' := by
  refine h.of_sub (fun i p _ => hown i p) (fun b hb => ?_) (fun i p hp => ?_) hcache
  · rw [hbit]
    exact h.metadata b hb
  · rw [hown] at hp ⊢
    rw [hbit]
    exact (h.range i p hp).2.2

theorem Own.of_cur (h : Own sb v) (hcur : ∀ i, (v'.cur i).addrs = (v.cur i).addrs) (hdata : v'.data = v.data) (hbit : v'.bit = v.bit)
    (hcache : ∀ i e, v'.icache i = some e → i < sb.ninodes) : Own sb v' :=
  h.of_same (fun i p => own_of_cur (hcur i) hdata p) hbit hcache

theorem Own.setInode (h : Own sb v) (hip : ip < sb.ninodes)
    (hcur : (if e.valid then e.din else v.dinode ip) = v.cur ip) : Own sb (v.setInode ip e) := by
  refine h.of_cur (fun i => congrArg Dinode.addrs (cur_setInode hcur i)) rfl rfl fun i e' hi => ?_
  by_cases hne : i = ip
  · exact hne ▸ hip
  · exact h.handle i e' (setInode_other v hne e ▸ hi)

theorem Own.of_gain (h : Own sb v) (ip : Nat) (q : Pos) (a : UInt32)
    (hown : ∀ i p, v'.own i p = if i = ip ∧ p = q then a else v.own i p)
    (hfresh : ∀ i p, v.own i p ≠ 0 → v.own i p ≠ a) (hstart : dataStart sb ≤ a.toNat) (hlt : a.toNat < sb.size)
    (hmark : v.bit a.toNat = true) (hbit : v'.bit = v.bit)
    (hcache : ∀ i e, v'.icache i = some e → i < sb.ninodes) : Own sb v' where
  metadata b hb := by
    rw [hbit]
    exact h.metadata b hb
  handle := hcache
  range i p hp := by
    rw [hown] at hp ⊢
    rw [hbit]
    by_cases hpos : i = ip ∧ p = q
    · rw [if_pos hpos]
      exact ⟨hstart, hlt, hmark⟩
    · rw [if_neg hpos] at hp ⊢
      exact h.range i p hp
  unique i p j r hp heq := by
    rw [hown] at hp
    rw [hown, hown j r] at heq
    have := hfresh i p
    have := hfresh j r
    have := h.unique i p j r
    grind

end Xv6.Fs
