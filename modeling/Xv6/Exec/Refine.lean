import Xv6.Exec.Code
import Xv6.Exec.Return
import Xv6.Vm.Region

/-!
# The stack of `exec` on page tables

The user part of an address space, as a `Space`, read off its page directory. A copy to a user address of a
directory is a copy on that view, because no two user pages share a frame. So `exec` on page tables leaves the
space and the stack pointer that `buildStack` gives for the image it has loaded.
-/

namespace Xv6.Exec

open Lib Syscall Vm Memory

variable {L : Layout} {s : Memory} {dirs held : Multiset Nat} {d q : Nat}

/-- The frame of page `k` of an address space, if the user may access it. -/
def frame (s : Memory) (d k : Nat) : Option Nat :=
  if h : k < 2 ^ 20 then
    let pde := s.entry d ⟨k / 1024, by omega⟩
    let pte := s.entry (pteAddr pde) ⟨k % 1024, by omega⟩
    if Present pde ∧ Present pte ∧ pte &&& pteU ≠ 0 then some (pteAddr pte) else none
  else none

def view (s : Memory) (d : Nat) : Space where
  user k := (frame s d k).isSome
  byte va :=
    match frame s d (va.toNat / pgsize) with
    | some q => (s.page q).get (va.toNat % pgsize)
    | none => 0

/-! ### Frames -/

theorem frame_eq_some {k : Nat} : frame s d k = some q ↔ ∃ i j : Fin 1024, k = 1024 * i + j ∧ Present (s.entry d i) ∧
    Present (s.entry (pteAddr (s.entry d i)) j) ∧ s.entry (pteAddr (s.entry d i)) j &&& pteU ≠ 0 ∧
      pteAddr (s.entry (pteAddr (s.entry d i)) j) = q := by
  constructor
  · intro h
    unfold frame at h
    split at h
    · rename_i hk
      simp only at h
      split at h
      · rename_i hpte
        exact ⟨⟨k / 1024, by omega⟩, ⟨k % 1024, by omega⟩, (Nat.div_add_mod k 1024).symm, hpte.1, hpte.2.1, hpte.2.2,
          Option.some.inj h⟩
      · cases h
    · cases h
  · rintro ⟨i, j, rfl, hpde, hpte, huser, rfl⟩
    have hi : (⟨(1024 * i.val + j.val) / 1024, by omega⟩ : Fin 1024) = i := Fin.ext (by simp only; omega)
    have hj : (⟨(1024 * i.val + j.val) % 1024, by omega⟩ : Fin 1024) = j := Fin.ext (by simp only; omega)
    unfold frame
    rw [dif_pos (by omega)]
    simp only [hi, hj]
    rw [if_pos ⟨hpde, hpte, huser⟩]

theorem page_eq (va : Word) : va.toNat / pgsize = 1024 * (pdx va).val + (ptx va).val := by
  unfold pdx ptx pgsize
  simp only
  omega

theorem index_eq {va : Word} {i j : Fin 1024} (h : va.toNat / pgsize = 1024 * i + j) : pdx va = i ∧ ptx va = j := by
  rw [page_eq] at h
  exact ⟨Fin.ext (by omega), Fin.ext (by omega)⟩

section Isolated

variable (h : Isolated L s dirs held) (hd : d ∈ dirs)

include h hd

/-- The directory entry of a user page is below `KERNBASE`, and its frame is a user page of the directory. -/
theorem mem_slotPages_of_frame {i j : Fin 1024} (hpde : Present (s.entry d i))
    (hpte : Present (s.entry (pteAddr (s.entry d i)) j)) (huser : s.entry (pteAddr (s.entry d i)) j &&& pteU ≠ 0) :
    i.val < 512 ∧ pteAddr (s.entry (pteAddr (s.entry d i)) j) ∈ s.slotPages d i := by
  have hlow : i.val < 512 := by
    by_contra hhigh
    exact huser ((h.tidy d hd).kernel i j (not_lt.mp hhigh) hpde hpte)
  refine ⟨hlow, ?_⟩
  rw [slotPages, if_pos ⟨hlow, hpde⟩]
  exact mem_pointedBy hpte

theorem mem_userPages_of_frame {k : Nat} (hk : frame s d k = some q) : q ∈ s.userPages d ∧ k < kernbase / pgsize := by
  obtain ⟨i, j, rfl, hpde, hpte, huser, rfl⟩ := frame_eq_some.mp hk
  obtain ⟨hlow, hmem⟩ := mem_slotPages_of_frame h hd hpde hpte huser
  refine ⟨mem_total.mpr ⟨i, hmem⟩, ?_⟩
  rw [show kernbase / pgsize = 524288 from rfl]
  omega

theorem frame_injective {k k' : Nat} (hk : frame s d k = some q) (hk' : frame s d k' = some q) : k = k' := by
  obtain ⟨i, j, rfl, hpde, hpte, huser, rfl⟩ := frame_eq_some.mp hk
  obtain ⟨i', j', rfl, hpde', hpte', huser', heq⟩ := frame_eq_some.mp hk'
  have hlow := (mem_slotPages_of_frame h hd hpde hpte huser).1
  have hlow' := (mem_slotPages_of_frame h hd hpde' hpte' huser').1
  obtain ⟨rest, rfl⟩ := Multiset.exists_cons_of_mem hd
  obtain ⟨rfl, rfl⟩ := space_injective h.nodup_dirPages (if_pos ⟨hpde, hpte⟩) (if_pos ⟨hpde', hpte'⟩) hlow hlow' heq.symm
  rfl

theorem frame_setPage (hq : q ∈ s.userPages d) (b : Page) (k : Nat) : frame (s.setPage q b) d k = frame s d k := by
  obtain ⟨hne, htables⟩ := h.not_table_of_user hd hq d hd
  have hdir : ∀ i, (s.setPage q b).entry d i = s.entry d i := fun i => entry_setPage_of_ne s hne.symm b i
  have htable : ∀ i j, Present (s.entry d i) →
      (s.setPage q b).entry (pteAddr (s.entry d i)) j = s.entry (pteAddr (s.entry d i)) j := by
    intro i j hpde
    refine entry_setPage_of_ne s (fun heq => htables ?_) b j
    rw [← heq]
    exact mem_pointedBy hpde
  ext q'
  rw [frame_eq_some, frame_eq_some]
  refine exists_congr fun i => exists_congr fun j => and_congr_right fun _ => ?_
  rw [hdir]
  refine and_congr_right fun hpde => ?_
  rw [htable i j hpde]

theorem view_write {va : Word} {buf : List UInt8} {m : Nat} (hq : frame s d (va.toNat / pgsize) = some q)
    (hpage : va.toNat % pgsize + m ≤ pgsize) (hm : m ≤ buf.length) :
    view (s.setPage q ((s.page q).copyIn (va.toNat % pgsize) m fun k => buf.getD k 0)) d =
      { view s d with byte := store (view s d).byte va (buf.take m) } := by
  have huser := (mem_userPages_of_frame h hd hq).1
  have hframe := frame_setPage h hd huser ((s.page q).copyIn (va.toNat % pgsize) m fun k => buf.getD k 0)
  have hva := va.isLt
  have hlen : (buf.take m).length = m := by
    rw [List.length_take]
    omega
  rw [view, view]
  congr 1
  · funext k
    rw [hframe]
  · funext x
    simp only [hframe]
    have hx := x.isLt
    by_cases hin : va.toNat ≤ x.toNat ∧ x.toNat < va.toNat + m
    · -- an address of the range is in the same page
      have hsame : x.toNat / pgsize = va.toNat / pgsize := by
        unfold pgsize at *
        omega
      have hoff : (x - va).toNat = x.toNat - va.toNat := BitVec.toNat_sub_of_le (BitVec.le_def.mpr hin.1)
      rw [store_of_lt (by rw [hoff, hlen]; omega), hsame, hq]
      simp only [Memory.setPage, Function.update_self]
      rw [Bytes.get_copyIn (Nat.mod_lt _ (by decide)), if_pos (by unfold pgsize at *; omega), hoff,
        List.getD_eq_getElem?_getD, List.getD_eq_getElem?_getD, List.getElem?_take_of_lt (by omega)]
      congr 2
      unfold pgsize at *
      omega
    · have hout : (buf.take m).length ≤ (x - va).toNat := by
        rw [hlen, BitVec.toNat_sub]
        unfold pgsize at hpage
        omega
      rw [store_of_le hout]
      cases hx : frame s d (x.toNat / pgsize) with
      | none => rfl
      | some q' =>
        simp only [Memory.setPage]
        by_cases hqq : q' = q
        · subst hqq
          have hsame := frame_injective h hd hx hq
          rw [Function.update_self, Bytes.get_copyIn (Nat.mod_lt _ (by decide)), if_neg]
          unfold pgsize at *
          omega
        · rw [Function.update_of_ne hqq]

end Isolated

/-! ### Copies -/

def Missing (s : Memory) (d k : Nat) : Prop := ∃ i : Fin 1024, i.val = k / 1024 ∧ ¬Present (s.entry d i)

theorem Missing.frame {k : Nat} (h : Missing s d k) : frame s d k = none := by
  obtain ⟨i, hi, habsent⟩ := h
  refine Option.eq_none_iff_forall_ne_some.mpr fun q hq => ?_
  obtain ⟨i', j', rfl, hp, -⟩ := frame_eq_some.mp hq
  obtain rfl : i = i' := Fin.ext (by omega)
  exact habsent hp

theorem missing_iff (va : Word) : Missing s d (va.toNat / pgsize) ↔ ¬Present (s.entry d (pdx va)) := by
  have hindex : (pdx va).val = va.toNat / pgsize / 1024 := by
    rw [page_eq]
    omega
  constructor
  · rintro ⟨i, hi, habsent⟩
    obtain rfl : i = pdx va := Fin.ext (by rw [hi, hindex])
    exact habsent
  · exact fun habsent => ⟨pdx va, hindex, habsent⟩

theorem wp_uva2ka {Q : Option Nat → Memory → Prop} {E : Panic → Prop} {uva : Word}
    (hmissing : Missing s d (uva.toNat / pgsize) → E .nullPointer)
    (hnone : ¬Missing s d (uva.toNat / pgsize) → frame s d (uva.toNat / pgsize) = none → Q none s)
    (hsome : ∀ q, frame s d (uva.toNat / pgsize) = some q → Q (some q) s) : wp (uva2ka d uva) Q E s := by
  unfold uva2ka
  rw [wp_bind, wp_walkpgdir]
  split
  · rename_i hpde
    have hm : ¬Missing s d (uva.toNat / pgsize) := fun hm => (missing_iff uva).mp hm hpde
    have hframe : ∀ {q}, frame s d (uva.toNat / pgsize) = some q → Present (s.entry (pteAddr (s.entry d (pdx uva))) (ptx uva)) ∧
        s.entry (pteAddr (s.entry d (pdx uva))) (ptx uva) &&& pteU ≠ 0 := by
      intro q hq
      obtain ⟨i, j, hpage, -, hpte, huser, -⟩ := frame_eq_some.mp hq
      obtain ⟨rfl, rfl⟩ := index_eq hpage
      exact ⟨hpte, huser⟩
    simp only [wp_bind, wp_get, wp_ite, wp_pure]
    split
    · rename_i hpte
      exact hnone hm (Option.eq_none_iff_forall_ne_some.mpr fun q hq => (hframe hq).1 hpte)
    · rename_i hpte
      split
      · rename_i huser
        exact hnone hm (Option.eq_none_iff_forall_ne_some.mpr fun q hq => (hframe hq).2 huser)
      · rename_i huser
        exact hsome _ (frame_eq_some.mpr ⟨_, _, page_eq uva, hpde, hpte, huser, rfl⟩)
  · rename_i habsent
    exact hmissing ((missing_iff uva).mpr habsent)

/-- The loop stores into user pages, so the tables stay as they are, and a copy that succeeds is one on the view. -/
theorem wp_copyoutLoop_view {Q : Bool → Memory → Prop} {E : Panic → Prop} {w : Scope} {n : Nat} {va : Word} {buf : List UInt8}
    (h : Region L w s dirs held) (hd : d ∈ dirs) (hnull : E .nullPointer)
    (hfail : ∀ s', Region L w s' dirs held → Vm.Kept s s' d → Q false s')
    (hdone : ∀ s', Region L w s' dirs held → Vm.Kept s s' d → copyoutLoop n (view s d) va buf = some (view s' d) → Q true s') :
    wp (Vm.copyoutLoop d n va buf) Q E s := by
  induction n generalizing s va buf with
  | zero => exact hdone s h (.refl s d) rfl
  | succ n ih =>
    unfold Vm.copyoutLoop
    rw [wp_ite]
    split
    · rename_i hpos
      rw [wp_bind]
      refine wp_uva2ka (fun _ => hnull) (fun _ _ => hfail s h (.refl s d)) fun q hq => ?_
      have hmod : va.toNat % pgsize < pgsize := Nat.mod_lt _ (by decide)
      rw [page_pgrounddown] at hq
      simp only [wp_bind, wp_modify, toNat_sub_pgrounddown]
      have hwrite := view_write h.isolated hd hq (m := min (pgsize - va.toNat % pgsize) buf.length) (by omega) (min_le_right _ _)
      have hmem := (mem_userPages_of_frame h.isolated hd hq).1
      generalize (s.page q).copyIn (va.toNat % pgsize) (min (pgsize - va.toNat % pgsize) buf.length)
        (fun k => buf.getD k 0) = b at hwrite ⊢
      have hkept : Vm.Kept s (s.setPage q b) d := Isolated.kept_store (h.isolated.not_table_of_user hd hmem)
        (fun q' hq' i => entry_setPage_of_ne s hq' b i) d hd
      refine ih (h.write hd hmem b) (fun s' hs' hk => hfail s' hs' (hkept.trans hk)) fun s' hs' hk hloop =>
        hdone s' hs' (hkept.trans hk) ?_
      rw [copyoutLoop, if_pos hpos]
      have huser : (view s d).user (va.toNat / pgsize) = true := by
        rw [view]
        simp only [hq, Option.isSome_some]
      simp only [page_pgrounddown, huser, if_true, toNat_sub_pgrounddown]
      rwa [← hwrite]
    · rename_i hnil
      refine hdone s h (.refl s d) ?_
      rw [copyoutLoop, if_neg hnil]

end Xv6.Exec
