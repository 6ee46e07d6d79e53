import Xv6.Exec.Start
import Xv6.Vm.Copy

/-!
# The functions of `vm.c` keep address spaces isolated

One rule for each function that the rest of the kernel calls, in the form in which its callers use it: what a caller
must show holds for every result the function can have. A run that panics shows nothing.
-/

namespace Xv6.Vm

open Lib Syscall Memory

variable {L : Layout} {s : Memory} {dirs held : Multiset Nat} {d q : Nat} {oldsz newsz sz : Word}

abbrev Ends {α : Type} (f : VmM α) (Q : α → Memory → Prop) (s : Memory) : Prop := wp f Q (fun _ => True) s

variable {Q : PUnit → Memory → Prop}

theorem ends_kalloc {Q : Option Nat → Memory → Prop} (h : Isolated L s dirs held)
    (hnone : ∀ s', Isolated L s' dirs held → Q none s')
    (hsome : ∀ q s', Isolated L s' dirs (q ::ₘ held) → Q (some q) s') : Ends kalloc Q s :=
  wp_kalloc h.region (fun s' hs' _ _ _ => hnone s' hs'.isolated) fun q s' hs' _ _ => hsome q s' hs'.isolated

theorem ends_kfree (h : Isolated L s dirs (q ::ₘ held))
    (hQ : ∀ s', Isolated L s' dirs held → Q ⟨⟩ s') : Ends (kfree L q) Q s :=
  wp_kfree h.region fun s' hs' _ _ => hQ s' hs'.isolated

theorem ends_setupkvm {Q : Option Nat → Memory → Prop} (h : Isolated L s dirs held)
    (hnone : ∀ s', Isolated L s' dirs held → Q none s')
    (hsome : ∀ d s', Isolated L s' (d ::ₘ dirs) held → Q (some d) s') : Ends (setupkvm L) Q s := by
  rw [Ends, setupkvm_eq, wp_map]
  refine wp_setupkvmTraced h.region (fun s' hs' _ => hnone s' hs'.isolated) (fun s' d hs' _ => ?_)
    fun d s' hs' _ _ => hsome d s' hs'.isolated
  exact hnone s' (hs'.isolated.drop (le_trans (Multiset.le_add_left _ _) (Multiset.le_cons_self _ _)))

theorem ends_deallocuvm {Q : Word → Memory → Prop} (h : Isolated L s dirs held) (hd : d ∈ dirs)
    (hold : oldsz.toNat ≤ kernbase) (hQ : ∀ r s', r.toNat ≤ oldsz.toNat → Isolated L s' dirs held → Q r s') :
    Ends (deallocuvm L d oldsz newsz) Q s := by
  by_cases hlt : newsz < oldsz
  · refine wp_mono (wp_deallocuvm h.region hd hold hlt) (fun r s' hr => ?_) fun _ h => h
    obtain ⟨rfl, hs', -⟩ := hr
    exact hQ r s' (BitVec.lt_def.mp hlt).le hs'.isolated
  · unfold deallocuvm
    rw [Ends, if_pos (BitVec.not_lt.mp hlt)]
    exact hQ _ s le_rfl h

theorem ends_freevm (h : Isolated L s (d ::ₘ dirs) held)
    (hQ : ∀ s', Isolated L s' dirs held → Q ⟨⟩ s') : Ends (freevm L (some d)) Q s :=
  wp_freevm h.region fun s' hs' => hQ s' hs'.isolated

/-- A size that is returned is below `KERNBASE` if the old one was, and only asking for such a one succeeds. -/
theorem ends_allocuvm {Q : Word → Memory → Prop} (h : Isolated L s dirs held) (hd : d ∈ dirs)
    (hold : oldsz.toNat ≤ kernbase)
    (hQ : ∀ r s', r.toNat ≤ kernbase → (r ≠ 0 → newsz.toNat < kernbase ∧ (oldsz.toNat ≤ newsz.toNat → r = newsz)) →
      Isolated L s' dirs held → Q r s') : Ends (allocuvm L d oldsz newsz) Q s := by
  by_cases hnew : newsz.toNat < kernbase
  · by_cases hle : oldsz ≤ newsz
    · refine wp_mono (wp_allocuvm h.region hd hle hnew fun _ _ _ _ => trivial) (fun r s' hr => ?_) fun _ h => h
      obtain ⟨holes, out, s₁, lost, hdone⟩ := hr
      have hs' : Isolated L s' dirs held := hdone.region.isolated.drop (Multiset.le_add_left _ _)
      have hends := hdone.ends
      cases hends with
      | done => exact hQ _ s' hnew.le (fun _ => ⟨hnew, fun _ => rfl⟩) hs'
      | undone => exact hQ _ s' (Nat.zero_le _) (fun hne => absurd rfl hne) hs'
    · unfold allocuvm
      rw [Ends, if_neg (not_le.mpr hnew), if_pos (BitVec.not_le.mp hle)]
      exact hQ _ s hold (fun _ => ⟨hnew, fun hle' => absurd (BitVec.le_def.mpr hle') hle⟩) h
  · unfold allocuvm
    rw [Ends, if_pos (not_lt.mp hnew)]
    exact hQ _ s (Nat.zero_le _) (fun hne => absurd rfl hne) h

theorem ends_copyuvm {Q : Option Nat → Memory → Prop} {pgdir : Nat} (h : Isolated L s dirs held)
    (hpgdir : pgdir ∈ dirs) (hsz : sz.toNat ≤ kernbase) (hnone : ∀ s', Isolated L s' dirs held → Q none s')
    (hsome : ∀ d s', Isolated L s' (d ::ₘ dirs) held → Q (some d) s') : Ends (copyuvm L pgdir sz) Q s := by
  obtain ⟨rest, rfl⟩ := Multiset.exists_cons_of_mem hpgdir
  -- the child is made of free pages, and all that is in use is outside of its region
  have hchild : Region L (s.scope 0 0) s 0 0 := (h.mono (Multiset.zero_le _) (Multiset.zero_le _)).region
  have hall : Isolated L s (0 + (pgdir ::ₘ rest)) (0 + held) := by rwa [zero_add, zero_add]
  rw [Ends, copyuvm_eq, wp_map]
  refine wp_copyuvmTraced h.aside hchild (fun hbig => absurd hbig (not_lt.mpr hsz)) (fun _ _ _ _ => ⟨trivial, trivial⟩)
    (fun s' hs' => hnone s' ?_) (fun s' lost hs' _ => hnone s' ?_) fun d s' hs' _ => hsome d s' ?_
  · have hframe := (hs'.frame hall).1
    rwa [zero_add, zero_add] at hframe
  · have hframe := (hs'.frame hall).1
    rw [zero_add] at hframe
    exact hframe.drop (Multiset.le_add_left _ _)
  · have hframe := (hs'.frame hall).1
    rwa [Multiset.cons_add, zero_add, zero_add] at hframe

/-! ### Contents -/

theorem ends_inituvm {init : List UInt8} (h : Isolated L s dirs held) (hd : d ∈ dirs)
    (hQ : ∀ s', Isolated L s' dirs held → Q ⟨⟩ s') : Ends (inituvm d init) Q s := by
  unfold inituvm
  rw [Ends, wp_ite]
  split
  · trivial
  · rw [wp_bind]
    refine ends_kalloc h (fun _ _ => trivial) fun q s' hs' => ?_
    have hq := Multiset.mem_cons_self q held
    have hlt : q < 2 ^ 20 := (hs'.ram q (mem_owned_of_held hq)).lt
    simp only [setPage, wp_bind, wp_modify]
    by_cases hnone : (s'.setPage q Bytes.zero).space d (pdx 0) (ptx 0) = none
    · refine wp_mapUser (hs'.fill hq _).region hd rfl (by decide) (by decide) hnone (fun s'' hs'' hmap => hQ _ ?_)
        fun s'' hs'' _ _ _ _ => hQ _ ((hs''.isolated.fill hq _).drop (Multiset.le_cons_self _ _))
      have huser := mem_userPages_of_space ((congrFun (congrFun hmap.space _) _).trans (if_pos ⟨rfl, rfl⟩)) (by decide)
      rw [pteAddr_or hlt (by decide)] at huser
      exact hs''.isolated.write hd huser _
    · exact wp_mapTaken rfl hnone trivial

theorem ends_loadLoop {Q : Bool → Memory → Prop} {n : Nat} {addr i offset : Word} {readi : Readi}
    (h : Isolated L s dirs held) (hd : d ∈ dirs) (hlow : addr.toNat + sz.toNat ≤ kernbase)
    (hQ : ∀ r s', Isolated L s' dirs held → Q r s') : Ends (loadLoop d addr readi offset sz n i) Q s := by
  induction n generalizing s i with
  | zero => exact hQ _ s h
  | succ n ih =>
    unfold loadLoop
    rw [Ends, wp_ite]
    split
    · rename_i hlt
      have hva : (addr + i).toNat < kernbase := by
        have hi := BitVec.lt_def.mp hlt
        rw [BitVec.toNat_add]
        exact lt_of_le_of_lt (Nat.mod_le _ _) (by omega)
      rw [wp_bind, wp_walkpgdir]
      split
      · rename_i hp
        simp only [wp_bind, wp_get]
        generalize (if sz - i < 4096 then sz - i else 4096) = m
        cases readi (offset + i) m with
        | none => exact hQ _ s h
        | some bs =>
          simp only [wp_bind, wp_modify, wp_ite, wp_pure]
          have hwrite := fun b => (h.region.writeEntry hd hva hp b).1.isolated
          split
          · exact hQ _ _ (hwrite _)
          · exact ih (hwrite _)
      · trivial
    · exact hQ _ s h

theorem ends_loaduvm {Q : Bool → Memory → Prop} {addr offset : Word} {readi : Readi} (h : Isolated L s dirs held)
    (hd : d ∈ dirs) (hlow : addr.toNat + sz.toNat ≤ kernbase) (hQ : ∀ r s', Isolated L s' dirs held → Q r s') :
    Ends (loaduvm d addr readi offset sz) Q s := by
  unfold loaduvm
  rw [Ends, wp_ite]
  split
  · trivial
  · exact ends_loadLoop h hd hlow hQ

theorem ends_clearpteu {uva : Word} (h : Isolated L s dirs held) (hd : d ∈ dirs)
    (hQ : ∀ s', Isolated L s' dirs held → Q ⟨⟩ s') : Ends (clearpteu d uva) Q s :=
  Exec.wp_clearpteu h.region hd (fun _ => trivial) fun s' hs' _ _ => hQ s' hs'.isolated

theorem ends_copyoutLoop {Q : Bool → Memory → Prop} {n : Nat} {va : Word} {buf : List UInt8} (h : Isolated L s dirs held)
    (hd : d ∈ dirs) (hQ : ∀ r s', Isolated L s' dirs held → Q r s') : Ends (copyoutLoop d n va buf) Q s :=
  Exec.wp_copyoutLoop_view h.region hd trivial (fun s' hs' _ => hQ _ s' hs'.isolated) fun s' hs' _ _ => hQ _ s' hs'.isolated

end Xv6.Vm
