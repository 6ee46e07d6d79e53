import Xv6.Vm.Isolated

/-!
# Addresses and ranges

How `vm.c` rounds addresses, finds entries and splits a range into pages, and the ranges of the kernel, which do not
wrap around.
-/

namespace Xv6.Vm

open Syscall

variable {L : Layout} {va sz size a pa perm : Word}

theorem and_add_and_not {w : Nat} (a m : BitVec w) : (a &&& m) + (a &&& ~~~m) = a := by
  have hzero : (a &&& m) &&& (a &&& ~~~m) = 0#w := by
    ext i hi
    cases hm : m[i] <;> simp [hm]
  rw [BitVec.add_eq_or_of_and_eq_zero _ _ hzero]
  ext i hi
  cases hm : m[i] <;> simp [hm]

theorem toNat_pgrounddown (a : Word) : (pgrounddown a).toNat = a.toNat / pgsize * pgsize := by
  have hlow : (a &&& 4095).toNat = a.toNat % pgsize := by
    rw [BitVec.toNat_and]
    exact Nat.and_two_pow_sub_one_eq_mod a.toNat 12
  have hsum := congrArg BitVec.toNat (and_add_and_not a 4095)
  have hle : (pgrounddown a).toNat ≤ a.toNat := by
    rw [pgrounddown, BitVec.toNat_and]
    exact Nat.and_le_left
  have hlt := a.isLt
  rw [BitVec.toNat_add, hlow, ← pgrounddown] at hsum
  unfold pgsize at *
  omega

theorem pgroundup_eq (a : Word) : pgroundup a = pgrounddown (a + 4095) := rfl

theorem aligned_pgroundup (a : Word) : (pgroundup a).toNat % pgsize = 0 := by
  rw [pgroundup_eq, toNat_pgrounddown]
  exact Nat.mul_mod_left _ _

theorem toNat_pgroundup (hsz : sz.toNat ≤ kernbase) :
    (pgroundup sz).toNat = (sz.toNat + 4095) / pgsize * pgsize := by
  have hsum : (sz + 4095).toNat = sz.toNat + 4095 := by
    unfold kernbase at hsz
    rw [BitVec.toNat_add]
    exact Nat.mod_eq_of_lt (by change sz.toNat + 4095 < 2 ^ 32; omega)
  rw [pgroundup_eq, toNat_pgrounddown, hsum]

theorem pgroundup_le (hsz : sz.toNat ≤ kernbase) : (pgroundup sz).toNat ≤ kernbase := by
  rw [toNat_pgroundup hsz]
  unfold kernbase pgsize at *
  omega

theorem aligned_next (ha : a.toNat % pgsize = 0) : (a + 4096).toNat % pgsize = 0 := by
  rw [BitVec.toNat_add]
  unfold pgsize at *
  change (a.toNat + 4096) % 2 ^ 32 % 4096 = 0
  omega

theorem pgrounddown_of_aligned (ha : a.toNat % pgsize = 0) : pgrounddown a = a := by
  apply BitVec.eq_of_toNat_eq
  rw [toNat_pgrounddown]
  exact Nat.div_mul_cancel (Nat.dvd_of_mod_eq_zero ha)

/-- The last page and the number of rounds of `mappages` for a range that does not wrap around. -/
theorem mappages_eq (d : Nat) (pa perm : Word) (hsize : 0 < size.toNat) (hwrap : va.toNat + size.toNat ≤ 2 ^ 32) :
    (pgrounddown (va + size - 1)).toNat =
        (pgrounddown va).toNat + pgsize * ((va.toNat % pgsize + size.toNat - 1) / pgsize) ∧
      mappages d va size pa perm = mapLoop d perm ((va.toNat % pgsize + size.toNat - 1) / pgsize + 1) (pgrounddown va)
        (pgrounddown (va + size - 1)) pa := by
  have hlast : (pgrounddown (va + size - 1)).toNat =
      (pgrounddown va).toNat + pgsize * ((va.toNat % pgsize + size.toNat - 1) / pgsize) := by
    rw [toNat_pgrounddown, toNat_pgrounddown, show (va + size - 1).toNat = va.toNat + size.toNat - 1 by bv_omega]
    unfold pgsize
    omega
  have hdiff : (pgrounddown (va + size - 1) - pgrounddown va).toNat =
      pgsize * ((va.toNat % pgsize + size.toNat - 1) / pgsize) := by
    rw [BitVec.toNat_sub_of_le (BitVec.le_def.mpr (by omega)), hlast]
    omega
  refine ⟨hlast, ?_⟩
  simp only [mappages, hdiff]
  rw [Nat.mul_div_cancel_left _ (by decide)]

theorem mappages_one (hva : va.toNat % pgsize = 0) (d : Nat) (pa perm : Word) :
    mappages d va 4096 pa perm = mapLoop d perm 1 va va pa := by
  have hlt := va.isLt
  have hsize : (4096 : Word).toNat = 4096 := rfl
  obtain ⟨hlast, heq⟩ := mappages_eq d pa perm (show 0 < (4096 : Word).toNat by decide)
    (show va.toNat + (4096 : Word).toNat ≤ 2 ^ 32 by rw [hsize]; unfold pgsize at hva; omega)
  rw [hva, hsize, pgrounddown_of_aligned hva] at hlast heq
  rw [heq, BitVec.eq_of_toNat_eq hlast]
  rfl

theorem pdx_lt : (pdx va).val < 512 ↔ va.toNat < kernbase := by
  unfold pdx kernbase
  change va.toNat / 2 ^ 22 < 512 ↔ _
  omega

/-! ### Entries -/

theorem and_pteU_of_aligned (hpa : pa.toNat % pgsize = 0) : pa &&& pteU = 0 := by
  obtain ⟨m, hm⟩ := Nat.dvd_of_mod_eq_zero hpa
  apply BitVec.eq_of_toNat_eq
  rw [BitVec.toNat_and, hm, show pteU.toNat = 2 ^ 2 from rfl, show pgsize = 2 ^ 12 from rfl, Nat.and_two_pow,
    Nat.testBit_two_pow_mul]
  rfl

theorem present_clear (e : Word) : Present (e &&& ~~~pteU) ↔ Present e := by
  have hbit : e &&& ~~~pteU &&& pteP = e &&& pteP := by
    rw [BitVec.and_assoc]
    rfl
  rw [Present, Present, hbit]

theorem pteAddr_clear (e : Word) : pteAddr (e &&& ~~~pteU) = pteAddr e := by
  have hlt : e.toNat / pgsize < 2 ^ 20 := by
    have := e.isLt
    unfold pgsize
    omega
  have hshift : ∀ n : Nat, n / pgsize = n >>> 12 := fun n => (Nat.shiftRight_eq_div_pow n 12).symm
  rw [pteAddr, pteAddr, BitVec.toNat_and, hshift, Nat.shiftRight_and_distrib, ← hshift,
    show (~~~pteU).toNat >>> 12 = 2 ^ 20 - 1 from rfl, Nat.and_two_pow_sub_one_eq_mod, Nat.mod_eq_of_lt hlt]

/-! ### The ranges of the kernel -/

/-- Does the range lie from `KERNBASE` on, with no permission for the user? -/
structure KernelRange (virt size pa perm : Word) : Prop where
  high : kernbase ≤ virt.toNat
  aligned : virt.toNat % pgsize = 0
  pos : 0 < size.toNat
  top : virt.toNat + size.toNat ≤ 2 ^ 32
  pa : pa.toNat % pgsize = 0
  perm : perm &&& pteU = 0

theorem kernelRange_ofNat {virt start stop : Nat} (hhigh : kernbase ≤ virt) (hvirt : virt % pgsize = 0)
    (hlt : start < stop) (hstop : stop - start < 2 ^ 32) (htop : virt + (stop - start) ≤ 2 ^ 32)
    (hstart : start % pgsize = 0) (hle : start < 2 ^ 32) (hperm : perm &&& pteU = 0) :
    KernelRange (BitVec.ofNat 32 virt) (BitVec.ofNat 32 stop - BitVec.ofNat 32 start) (BitVec.ofNat 32 start) perm := by
  have hv : (BitVec.ofNat 32 virt).toNat = virt := by
    rw [BitVec.toNat_ofNat]
    exact Nat.mod_eq_of_lt (by omega)
  have hs : (BitVec.ofNat 32 start).toNat = start := by
    rw [BitVec.toNat_ofNat]
    exact Nat.mod_eq_of_lt hle
  have hsize : (BitVec.ofNat 32 stop - BitVec.ofNat 32 start).toNat = stop - start := by
    rw [BitVec.toNat_sub, hs, BitVec.toNat_ofNat]
    omega
  constructor
  · rwa [hv]
  · rwa [hv]
  · rw [hsize]
    omega
  · rwa [hv, hsize]
  · rwa [hs]
  · exact hperm

theorem kmap_ranges : ∀ k ∈ kmap L, KernelRange k.1 (k.2.2.1 - k.2.1) k.2.1 k.2.2.2 := by
  have hdata := L.data_gt
  have haligned := L.data_aligned
  have hfin := L.fin_gt
  have htop := L.fin_le
  simp only [kernlink, kernbase, extmem, phystop, pgsize] at hdata haligned htop
  simp only [kmap, List.forall_mem_cons, List.not_mem_nil, false_imp_iff, implies_true, and_true]
  refine ⟨?_, ?_, ?_, ?_⟩
  · exact kernelRange_ofNat (by decide) (by decide) (by decide) (by decide) (by decide) (by decide) (by decide) (by decide)
  · refine kernelRange_ofNat (by decide) (by decide) ?_ ?_ ?_ (by decide) (by decide) (by decide)
    all_goals
      simp only [kernlink, kernbase, extmem]
      omega
  · refine kernelRange_ofNat ?_ ?_ ?_ ?_ ?_ ?_ ?_ (by decide)
    all_goals
      simp only [kernbase, phystop, pgsize]
      omega
  · -- the last range ends where addresses wrap around
    rw [show (0 : Word) = BitVec.ofNat 32 (2 ^ 32) from rfl]
    exact kernelRange_ofNat (by decide) (by decide) (by decide) (by decide) (by decide) (by decide) (by decide) (by decide)

end Xv6.Vm
