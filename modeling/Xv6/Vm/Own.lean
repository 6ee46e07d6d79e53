import Xv6.Lib.Resources
import Xv6.Vm.Code

/-!
# Who owns a page

The pages that a page directory keeps alive are the page it lies in, its page tables, and the pages mapped
below `KERNBASE`. With the free list and the pages held otherwise, as kernel stacks, as pipes or in the
variables of a running function, they form a multiset, and that no page has two owners is that the multiset
has no duplicates. The kernel's own mappings of all memory own nothing.
-/

namespace Xv6.Vm

open Lib Syscall

/-! ### Entries -/

def Present (e : Word) : Prop := e &&& pteP ≠ 0

instance : DecidablePred Present := fun _ => inferInstanceAs (Decidable (_ ≠ _))

theorem present_or (x : Word) : Present (x ||| pteP) := by
  intro h
  have hbit := congrArg (BitVec.getLsbD · 0) h
  simp [pteP] at hbit

theorem not_present_zero : ¬Present 0 := by decide

theorem pteAddr_or {q : Nat} {perm : Word} (hq : q < 2 ^ 20) (hperm : perm.toNat < pgsize) :
    pteAddr (v2p q ||| perm ||| pteP) = q := by
  have hshift : ∀ n : Nat, n / pgsize = n >>> 12 := fun n => (Nat.shiftRight_eq_div_pow n 12).symm
  have hlt : pgsize * q < 2 ^ 32 := by unfold pgsize; omega
  rw [pteAddr, BitVec.toNat_or, BitVec.toNat_or, v2p, BitVec.toNat_ofNat, Nat.mod_eq_of_lt hlt, hshift,
    Nat.shiftRight_or_distrib, Nat.shiftRight_or_distrib, ← hshift, ← hshift, Nat.div_eq_of_lt hperm]
  simp [pteP]

theorem tableEntry {q : Nat} (hq : q < 2 ^ 20) :
    Present (v2p q ||| pteP ||| pteW ||| pteU) ∧ pteAddr (v2p q ||| pteP ||| pteW ||| pteU) = q := by
  have hcomm : v2p q ||| pteP ||| pteW ||| pteU = v2p q ||| (pteW ||| pteU) ||| pteP := by
    rw [BitVec.or_assoc, BitVec.or_assoc, BitVec.or_comm pteP, ← BitVec.or_assoc]
  rw [hcomm]
  exact ⟨present_or _, pteAddr_or hq (by decide)⟩

theorem Layout.Ram.lt {L : Layout} {q : Nat} (h : L.Ram q) : q < 2 ^ 20 := by
  have := h.2
  unfold phystop pgsize at this
  omega

theorem Layout.Ram.pos {L : Layout} {q : Nat} (h : L.Ram q) : 0 < q := by
  have hfin := h.1
  have hdata := L.data_gt
  have hle := L.fin_gt
  unfold kernlink at hdata
  unfold extmem at hdata
  unfold pgsize at hfin
  omega

namespace Memory

variable (s : Memory)

@[simp] theorem entry_setPage_of_ne {q q' : Nat} (h : q' ≠ q) (b : Page) (i : Fin 1024) :
    (s.setPage q b).entry q' i = s.entry q' i := by
  rw [entry, entry, setPage]
  simp only [Function.update_of_ne h]

@[simp] theorem entry_setEntry_same (q : Nat) (i : Fin 1024) (e : Word) : (s.setEntry q i e).entry q i = e := by
  have hi := i.isLt
  rw [entry, setEntry, setPage]
  simp only [Function.update_self]
  rw [Bytes.getLE_putLE_same (by unfold pgsize; omega), show (256 ^ 4 : Nat) = 2 ^ 32 from rfl,
    Nat.mod_eq_of_lt e.isLt, BitVec.ofNat_toNat, BitVec.setWidth_eq]

theorem entry_setEntry_ne {q : Nat} {i i' : Fin 1024} (h : i' ≠ i) (e : Word) :
    (s.setEntry q i e).entry q i' = s.entry q i' := by
  have hi := i.isLt
  have hi' := i'.isLt
  have hne : (i' : Nat) ≠ i := fun heq => h (Fin.ext heq)
  rw [entry, entry, setEntry, setPage]
  simp only [Function.update_self]
  rw [Bytes.getLE_putLE_disjoint (by unfold pgsize; omega) (by omega)]

theorem entry_setEntry_of_ne {q q' : Nat} (h : q' ≠ q) (i i' : Fin 1024) (e : Word) :
    (s.setEntry q i e).entry q' i' = s.entry q' i' := entry_setPage_of_ne s h _ _

theorem entry_setPage_zero (q : Nat) (i : Fin 1024) : (s.setPage q Bytes.zero).entry q i = 0 := by
  rw [entry, setPage]
  simp

/-! ### The pages of a directory -/

def entryPages (e : Word) : Multiset Nat := if Present e then {pteAddr e} else 0

/-- The pages that the entries in page `q` point to: the page tables of a directory, the pages that a page
table maps. -/
def pointedBy (q : Nat) : Multiset Nat := total fun i => entryPages (s.entry q i)

/-- The pages mapped through entry `i` of a directory, if its addresses are below `KERNBASE`. -/
def slotPages (d : Nat) (i : Fin 1024) : Multiset Nat :=
  if i.val < 512 ∧ Present (s.entry d i) then s.pointedBy (pteAddr (s.entry d i)) else 0

def userPages (d : Nat) : Multiset Nat := total (s.slotPages d)

def dirPages (d : Nat) : Multiset Nat := {d} + s.pointedBy d + s.userPages d

/-- All pages that have an owner, given the directories and the pages held otherwise. -/
def owned (dirs held : Multiset Nat) : Multiset Nat := s.free + (dirs.map s.dirPages).sum + held

variable {s} {s' : Memory} {d t q : Nat} {i j : Fin 1024}

theorem entryPages_present {e : Word} (h : Present e) : entryPages e = {pteAddr e} := if_pos h

theorem entryPages_absent {e : Word} (h : ¬Present e) : entryPages e = 0 := if_neg h

theorem mem_pointedBy (h : Present (s.entry q i)) : pteAddr (s.entry q i) ∈ s.pointedBy q := by
  refine mem_total.mpr ⟨i, ?_⟩
  rw [entryPages_present h]
  exact Multiset.mem_singleton_self _

theorem mem_userPages (hi : i.val < 512) (h : Present (s.entry d i)) (hq : q ∈ s.pointedBy (pteAddr (s.entry d i))) :
    q ∈ s.userPages d := by
  refine mem_total.mpr ⟨i, ?_⟩
  rwa [slotPages, if_pos ⟨hi, h⟩]

/-! ### What a store changes -/

theorem pointedBy_congr (h : ∀ i, s'.entry q i = s.entry q i) : s'.pointedBy q = s.pointedBy q :=
  total_congr fun i => by rw [h i]

/-- Nothing changes for a directory if nothing changes in it and in its tables. -/
theorem dirPages_congr (hd : ∀ i, s'.entry d i = s.entry d i)
    (ht : ∀ t ∈ s.pointedBy d, ∀ j, s'.entry t j = s.entry t j) : s'.dirPages d = s.dirPages d := by
  have hslot : ∀ i, s'.slotPages d i = s.slotPages d i := by
    intro i
    rw [slotPages, slotPages, hd i]
    by_cases h : i.val < 512 ∧ Present (s.entry d i)
    · rw [if_pos h, if_pos h, pointedBy_congr (ht _ (mem_pointedBy h.2))]
    · rw [if_neg h, if_neg h]
  rw [dirPages, dirPages, pointedBy_congr hd, userPages, userPages, total_congr hslot]

theorem pointedBy_setEntry (e : Word) :
    (s.setEntry q j e).pointedBy q + entryPages (s.entry q j) = s.pointedBy q + entryPages e := by
  have hchange := total_change (f := fun i => entryPages (s.entry q i))
    (g := fun i => entryPages ((s.setEntry q j e).entry q i)) j fun k hk => by rw [entry_setEntry_ne s hk]
  rwa [entry_setEntry_same] at hchange

theorem pointedBy_addTable {e : Word} (habsent : ¬Present (s.entry d i)) (he : Present e) (haddr : pteAddr e = t) :
    (s.setEntry d i e).pointedBy d = s.pointedBy d + {t} := by
  have hchange := pointedBy_setEntry (s := s) (q := d) (j := i) e
  rwa [entryPages_absent habsent, entryPages_present he, add_zero, haddr] at hchange

section Tables

variable (hnodup : ({d} + s.pointedBy d).Nodup)

include hnodup

theorem table_ne_dir (ht : t ∈ s.pointedBy d) : t ≠ d := by
  rintro rfl
  exact Multiset.disjoint_left.mp (Multiset.nodup_add.mp hnodup).2.2 (Multiset.mem_singleton_self t) ht

theorem table_injective {k : Fin 1024} (hk : Present (s.entry d k)) (hi : Present (s.entry d i))
    (heq : pteAddr (s.entry d k) = pteAddr (s.entry d i)) : k = i := by
  refine eq_of_mem_total (Multiset.nodup_add.mp hnodup).2.1 (a := pteAddr (s.entry d i)) ?_ ?_
  · rw [entryPages_present hk, heq]
    exact Multiset.mem_singleton_self _
  · rw [entryPages_present hi]
    exact Multiset.mem_singleton_self _

end Tables

section Directory

variable (hnodup : (s.dirPages d).Nodup)

include hnodup

theorem ne_of_mem_pointedBy (ht : t ∈ s.pointedBy d) : t ≠ d := table_ne_dir (Multiset.nodup_add.mp hnodup).1 ht

theorem pteAddr_injective {k : Fin 1024} (hk : Present (s.entry d k)) (hi : Present (s.entry d i))
    (heq : pteAddr (s.entry d k) = pteAddr (s.entry d i)) : k = i :=
  table_injective (Multiset.nodup_add.mp hnodup).1 hk hi heq

theorem not_mem_of_mem_userPages (hq : q ∈ s.userPages d) : q ≠ d ∧ q ∉ s.pointedBy d := by
  rw [dirPages] at hnodup
  have hdisj := (Multiset.nodup_add.mp hnodup).2.2
  constructor
  · rintro rfl
    exact Multiset.disjoint_left.mp hdisj (Multiset.mem_add.mpr (.inl (Multiset.mem_singleton_self q))) hq
  · intro hmem
    exact Multiset.disjoint_left.mp hdisj (Multiset.mem_add.mpr (.inr hmem)) hq

theorem dirPages_addTable (hne : t ≠ d) (hzero : ∀ j, s.entry t j = 0) (habsent : ¬Present (s.entry d i)) {e : Word}
    (he : Present e) (haddr : pteAddr e = t) : (s.setEntry d i e).dirPages d = s.dirPages d + {t} := by
  have hempty : (s.setEntry d i e).pointedBy t = 0 := by
    rw [pointedBy, ← total_zero (ι := Fin 1024)]
    refine total_congr fun j => ?_
    rw [entry_setEntry_of_ne s hne, hzero j]
    exact entryPages_absent not_present_zero
  have hslot : ∀ k, (s.setEntry d i e).slotPages d k = s.slotPages d k := by
    intro k
    rw [slotPages, slotPages]
    by_cases hk : k = i
    · subst hk
      rw [entry_setEntry_same, haddr, hempty, ite_self, if_neg fun h => habsent h.2]
    · rw [entry_setEntry_ne s hk]
      by_cases h : k.val < 512 ∧ Present (s.entry d k)
      · rw [if_pos h, if_pos h]
        exact pointedBy_congr fun j => entry_setEntry_of_ne s (ne_of_mem_pointedBy hnodup (mem_pointedBy h.2)) _ _ _
      · rw [if_neg h, if_neg h]
  rw [dirPages, dirPages, pointedBy_addTable habsent he haddr, userPages, userPages, total_congr hslot]
  abel

theorem dirPages_setPte (hi : Present (s.entry d i)) (e : Word) :
    (s.setEntry (pteAddr (s.entry d i)) j e).dirPages d +
        (if i.val < 512 then entryPages (s.entry (pteAddr (s.entry d i)) j) else 0) =
      s.dirPages d + (if i.val < 512 then entryPages e else 0) := by
  have hd : ∀ k, (s.setEntry (pteAddr (s.entry d i)) j e).entry d k = s.entry d k := fun k =>
    entry_setEntry_of_ne s (ne_of_mem_pointedBy hnodup (mem_pointedBy hi)).symm _ _ _
  have hother : ∀ k, k ≠ i →
      (s.setEntry (pteAddr (s.entry d i)) j e).slotPages d k = s.slotPages d k := by
    intro k hk
    rw [slotPages, slotPages, hd k]
    by_cases h : k.val < 512 ∧ Present (s.entry d k)
    · rw [if_pos h, if_pos h]
      exact pointedBy_congr fun j' =>
        entry_setEntry_of_ne s (fun heq => hk (pteAddr_injective hnodup h.2 hi heq)) _ _ _
    · rw [if_neg h, if_neg h]
  have huser := total_change (f := s.slotPages d) (g := (s.setEntry (pteAddr (s.entry d i)) j e).slotPages d) i hother
  have hslot : (s.setEntry (pteAddr (s.entry d i)) j e).slotPages d i +
      (if i.val < 512 then entryPages (s.entry (pteAddr (s.entry d i)) j) else 0) =
        s.slotPages d i + (if i.val < 512 then entryPages e else 0) := by
    rw [slotPages, slotPages, hd i]
    by_cases hlow : i.val < 512
    · simp only [hlow, hi, and_self, if_true]
      exact pointedBy_setEntry e
    · simp only [hlow, false_and, if_false]
  rw [dirPages, dirPages, pointedBy_congr hd, userPages, userPages]
  -- what the slot held before is added to both sides, to use the two changes
  refine add_right_cancel (b := s.slotPages d i) ?_
  rw [add_right_comm, add_assoc _ _ (s.slotPages d i), huser, ← add_assoc, add_assoc, hslot]
  abel

end Directory

end Memory

end Xv6.Vm
