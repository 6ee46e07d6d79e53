import Xv6.Vm.Region

/-!
# Unmapping a range of pages

`deallocuvm` goes from page to page and, where the directory has no table, on by as many pages as a table has
entries. If it was not at the first page of that table, the first pages of the next one are skipped. `Reached`
says which pages are looked at, and the loop unmaps exactly those.
-/

namespace Xv6.Vm

open Lib Syscall Memory

variable {L : Layout} {s s' s₁ : Memory} {w : Scope} {dirs held : Multiset Nat} {d : Nat} {i j : Fin 1024}
  {E : Panic → Prop} {a oldsz newsz : Word} {gone gone' : Fin 1024 → Fin 1024 → Prop}

/-! ### Pages that are gone -/

/-- The pages in `gone` are no longer mapped and went to `kfree` once each; the others are as they were. -/
structure Unmaps (s s' : Memory) (d : Nat) (gone : Fin 1024 → Fin 1024 → Prop) : Prop where
  absent : ∀ i j, gone i j → s'.space d i j = none
  kept : ∀ i j, ¬gone i j → s'.space d i j = s.space d i j
  tables : ∀ k, s'.entry d k = s.entry d k
  freed : ∃ l, s'.free = l ++ s.free ∧ l.Nodup ∧
    ∀ q, q ∈ l ↔ ∃ i j m, gone i j ∧ s.space d i j = some m ∧ pteAddr m.1 = q

namespace Unmaps

theorem nothing (h : ∀ i j, ¬gone i j) : Unmaps s s d gone := by
  refine ⟨fun i j hg => absurd hg (h i j), fun _ _ _ => rfl, fun _ => rfl, [], rfl, List.nodup_nil, fun q => ?_⟩
  simp [h]

theorem congr (h : Unmaps s s' d gone) (hiff : ∀ i j, s.space d i j ≠ none → (gone i j ↔ gone' i j)) :
    Unmaps s s' d gone' := by
  have hkept : ∀ i j, s.space d i j = none → s'.space d i j = none := by
    intro i j hnone
    by_cases hg : gone i j
    · exact h.absent i j hg
    · rw [h.kept i j hg, hnone]
  refine ⟨fun i j hg => ?_, fun i j hg => ?_, h.tables, ?_⟩
  · by_cases hnone : s.space d i j = none
    · exact hkept i j hnone
    · exact h.absent i j ((hiff i j hnone).mpr hg)
  · by_cases hnone : s.space d i j = none
    · rw [hkept i j hnone, hnone]
    · exact h.kept i j fun hold => hg ((hiff i j hnone).mp hold)
  · obtain ⟨l, hfree, hnodup, hmem⟩ := h.freed
    refine ⟨l, hfree, hnodup, fun q => ?_⟩
    rw [hmem]
    refine exists_congr fun i => exists_congr fun j => exists_congr fun m => and_congr_left fun hm => ?_
    exact hiff i j (by rw [hm.1]; simp)

theorem cons {m : Mapping} (hnodup : (s.dirPages d).Nodup) (hm : s.space d i j = some m) (hi : i.val < 512)
    (hlow : ∀ k l, gone k l → k.val < 512) (hspace : s₁.space d = put (s.space d) i j none)
    (htables : ∀ k, s₁.entry d k = s.entry d k) (hfree : s₁.free = pteAddr m.1 :: s.free) (h : Unmaps s₁ s' d gone) :
    Unmaps s s' d fun k l => (k = i ∧ l = j) ∨ gone k l := by
  obtain ⟨l, hl, hlnodup, hmem⟩ := h.freed
  have hsome : ∀ {k l x}, s₁.space d k l = some x ↔ ¬(k = i ∧ l = j) ∧ s.space d k l = some x := by
    intro k l x
    rw [hspace, put]
    by_cases hkl : k = i ∧ l = j <;> simp [hkl]
  refine ⟨fun k l hg => ?_, fun k l hg => ?_, fun k => (h.tables k).trans (htables k), l ++ [pteAddr m.1], ?_, ?_, ?_⟩
  · by_cases hkl : gone k l
    · exact h.absent k l hkl
    · rw [h.kept k l hkl, hspace, put, if_pos (hg.resolve_right hkl)]
  · rw [h.kept k l fun hkl => hg (.inr hkl), hspace, put_of_ne fun hkl => hg (.inl hkl)]
  · rw [hl, hfree, List.append_assoc, List.singleton_append]
  · -- a page freed later is mapped elsewhere, so it is another one
    refine List.nodup_append.mpr ⟨hlnodup, List.nodup_singleton _, fun q hq q' hq' heq => ?_⟩
    obtain ⟨k, n, x, hg, hx, haddr⟩ := (hmem q).mp hq
    obtain ⟨hne, hx'⟩ := hsome.mp hx
    rw [List.mem_singleton] at hq'
    exact hne (space_injective hnodup hx' hm (hlow k n hg) hi (haddr.trans (heq.trans hq')))
  · intro q
    rw [List.mem_append, List.mem_singleton, hmem]
    constructor
    · rintro (⟨k, n, x, hg, hx, haddr⟩ | rfl)
      · exact ⟨k, n, x, .inr hg, (hsome.mp hx).2, haddr⟩
      · exact ⟨i, j, m, .inl ⟨rfl, rfl⟩, hm, rfl⟩
    · rintro ⟨k, n, x, hg, hx, haddr⟩
      by_cases hkl : k = i ∧ n = j
      · obtain ⟨rfl, rfl⟩ := hkl
        right
        rw [← haddr, Option.some.inj (hx.symm.trans hm)]
      · exact .inl ⟨k, n, x, hg.resolve_left hkl, hsome.mpr ⟨hkl, hx⟩, haddr⟩

end Unmaps

/-! ### The pages that the loop looks at -/

/-- Does the loop from `a` come to a page, given that its table exists? -/
def Reached (s : Memory) (d : Nat) (a oldsz : Word) (i j : Fin 1024) : Prop :=
  a.toNat ≤ pageAddr i j ∧ pageAddr i j < oldsz.toNat ∧
    ((ptx a).val ≤ j.val ∨ ∃ k, (pdx a).val ≤ k.val ∧ k.val < i.val ∧ Present (s.entry d k))

theorem Reached.low (h : Reached s d a oldsz i j) (hold : oldsz.toNat ≤ kernbase) : i.val < 512 :=
  low_iff.mpr (lt_of_lt_of_le h.2.1 hold)

theorem pdx_val (a : Word) : (pdx a).val = a.toNat / 4194304 := rfl

theorem ptx_val (a : Word) : (ptx a).val = a.toNat / 4096 % 1024 := rfl

theorem toNat_add_of_low (hold : oldsz.toNat ≤ kernbase) (hlt : a.toNat < oldsz.toNat) (n : Nat) (hn : n ≤ 4194304) :
    (a + BitVec.ofNat 32 n).toNat = a.toNat + n := by
  unfold kernbase at hold
  rw [BitVec.toNat_add, BitVec.toNat_ofNat, Nat.mod_eq_of_lt (show n < 2 ^ 32 by omega)]
  exact Nat.mod_eq_of_lt (by omega)

/-- From the start of a table, or from a table that exists, nothing is skipped. -/
theorem reached_of_start (hstart : (ptx a).val = 0 ∨ Present (s.entry d (pdx a))) (hfrom : a.toNat ≤ pageAddr i j)
    (hto : pageAddr i j < oldsz.toNat) : Reached s d a oldsz i j := by
  refine ⟨hfrom, hto, ?_⟩
  rcases hstart with hzero | hp
  · exact .inl (by omega)
  · by_cases hi : (pdx a).val < i.val
    · exact .inr ⟨pdx a, le_rfl, hi, hp⟩
    · left
      rw [pdx_val] at hi
      rw [ptx_val]
      unfold pageAddr pgsize at hfrom
      omega

/-- Where there is a table, the loop looks at the page and goes on at the next one. -/
theorem reached_next (hold : oldsz.toNat ≤ kernbase) (ha : a.toNat % pgsize = 0) (hlt : a.toNat < oldsz.toNat)
    (hp : Present (s.entry d (pdx a))) :
    (i = pdx a ∧ j = ptx a) ∨ Reached s d (a + 4096) oldsz i j ↔ Reached s d a oldsz i j := by
  have hnext : (a + 4096).toNat = a.toNat + 4096 := toNat_add_of_low hold hlt 4096 (by omega)
  unfold pgsize at ha
  constructor
  · rintro (⟨rfl, rfl⟩ | ⟨hfrom, hto, -⟩)
    · refine ⟨?_, ?_, .inl le_rfl⟩ <;> rw [pageAddr_index ha]
      exact hlt
    · rw [hnext] at hfrom
      exact reached_of_start (.inr hp) (by omega) hto
  · rintro ⟨hfrom, hto, -⟩
    by_cases heq : pageAddr i j = a.toNat
    · exact .inl (index_pageAddr heq)
    right
    have hle : a.toNat + 4096 ≤ pageAddr i j := by
      unfold pageAddr pgsize at *
      omega
    refine ⟨by rwa [hnext], hto, ?_⟩
    by_cases hsame : (pdx (a + 4096)).val = (pdx a).val ∧ (pdx a).val < i.val
    · exact .inr ⟨pdx a, by rw [hsame.1], hsame.2, hp⟩
    · left
      rw [pdx_val, pdx_val, hnext] at hsame
      rw [ptx_val, hnext]
      unfold pageAddr pgsize at hle
      omega

theorem reached_skip (hold : oldsz.toNat ≤ kernbase) (ha : a.toNat % pgsize = 0) (hlt : a.toNat < oldsz.toNat)
    (habsent : ¬Present (s.entry d (pdx a))) (hi : Present (s.entry d i)) :
    Reached s d (a + 4194304) oldsz i j ↔ Reached s d a oldsz i j := by
  have hnext : (a + 4194304).toNat = a.toNat + 4194304 := toNat_add_of_low hold hlt 4194304 le_rfl
  have hne : i.val ≠ (pdx a).val := by
    intro heq
    rw [Fin.ext heq] at hi
    exact habsent hi
  unfold pgsize at ha
  rw [pdx_val] at hne
  have hptx : (ptx (a + 4194304)).val = (ptx a).val := by
    rw [ptx_val, ptx_val, hnext]
    omega
  constructor
  · rintro ⟨hfrom, hto, hway⟩
    rw [hnext] at hfrom
    rw [hptx] at hway
    refine ⟨by omega, hto, hway.imp id ?_⟩
    rintro ⟨k, hk, hki, hkp⟩
    refine ⟨k, ?_, hki, hkp⟩
    rw [pdx_val] at hk ⊢
    omega
  · rintro ⟨hfrom, hto, hway⟩
    rcases hway with hj | ⟨k, hk, hki, hkp⟩
    · refine ⟨?_, hto, .inl (by rwa [hptx])⟩
      rw [hnext]
      rw [ptx_val] at hj
      unfold pageAddr pgsize at *
      omega
    · -- a table in between is after the missing one
      have hka : k.val ≠ (pdx a).val := by
        intro heq
        rw [Fin.ext heq] at hkp
        exact habsent hkp
      rw [pdx_val] at hk hka
      refine ⟨?_, hto, .inr ⟨k, ?_, hki, hkp⟩⟩
      · rw [hnext]
        unfold pageAddr pgsize
        omega
      · rw [pdx_val, hnext]
        omega

/-! ### The loop -/

theorem setEntry_setPage {t q : Nat} (hne : t ≠ q) (b : Page) (l : List Nat) (j : Fin 1024) (e : Word) :
    Memory.setEntry { s.setPage q b with free := l } t j e = { (s.setEntry t j e).setPage q b with free := l } := by
  have hpage : (s.setPage q b).page t = s.page t := Function.update_of_ne hne _ _
  simp only [Memory.setEntry, Memory.setPage] at hpage ⊢
  rw [hpage, Function.update_comm hne.symm]

theorem wp_unmap {Q : PUnit → Memory → Prop} {m : Mapping} (h : Region L w s dirs held) (hd : d ∈ dirs)
    (hi : i.val < 512) (hm : s.space d i j = some m)
    (hQ : ∀ s', Region L w s' dirs held → s'.space d = put (s.space d) i j none →
      (∀ k, s'.entry d k = s.entry d k) → s'.free = pteAddr m.1 :: s.free → Q ⟨⟩ s') :
    wp (do kfree L (pteAddr m.1); setEntry (pteAddr (s.entry d i)) j 0) Q E s := by
  obtain ⟨hp, he, heq, -⟩ := space_eq_some hm
  have huser := mem_userPages_of_space hm hi
  have htable := mem_pointedBy hp
  have hne : pteAddr (s.entry d i) ≠ pteAddr m.1 := by
    intro hsame
    rw [← hsame] at huser
    exact (not_mem_of_mem_userPages (h.nodup hd) huser).2 htable
  have hunmap : Region L w (s.setEntry (pteAddr (s.entry d i)) j 0) dirs (pteAddr m.1 ::ₘ held) := by
    refine h.setPte hd hp ?_ ⟨fun hhigh => absurd hi (by omega), fun _ _ => rfl⟩
    rw [if_pos hi, if_pos hi, heq, entryPages_present he, entryPages_absent not_present_zero, zero_add,
      Multiset.singleton_add]
  have hspace : (s.setEntry (pteAddr (s.entry d i)) j 0).space d = put (s.space d) i j none := by
    rw [space_setPte (h.nodup hd) hp, if_neg not_present_zero]
    intro _ hzero
    have hram := h.isolated.ram _ (Isolated.mem_owned_of_mem_dirPages hd (mem_dirPages_of_pointedBy htable))
    rw [← hzero] at hram
    exact absurd hram.pos (by decide)
  have hnot := hunmap.not_mem_dirPages hd (.inr (Multiset.mem_cons_self (pteAddr m.1) held))
  unfold kfree setEntry
  rw [if_pos (hunmap.ram (Multiset.mem_cons_self _ _)), wp_bind, wp_modify, wp_modify, setEntry_setPage hne]
  refine hQ _ (hunmap.free junk) ?_ (fun k => ?_) rfl
  · rw [← hspace]
    refine space_frame fun q hq => setPage_page_ne ?_ junk
    rintro rfl
    exact hnot hq
  · have hdir : d ≠ pteAddr m.1 := (not_mem_of_mem_userPages (h.nodup hd) huser).1.symm
    rw [← entry_setEntry_of_ne s (ne_of_mem_pointedBy (h.nodup hd) htable).symm j k 0]
    exact entry_setPage_of_ne _ hdir junk k

theorem unmaps_past (h : oldsz.toNat ≤ a.toNat) : Unmaps s s d (Reached s d a oldsz) :=
  .nothing fun _ _ hr => absurd (lt_of_le_of_lt hr.1 hr.2.1) (not_lt.mpr h)

theorem wp_deallocLoop {n : Nat} (h : Region L w s dirs held) (hd : d ∈ dirs) (hold : oldsz.toNat ≤ kernbase)
    (ha : a.toNat % pgsize = 0) (hfuel : oldsz.toNat ≤ a.toNat + pgsize * n) :
    wp (deallocLoop L d oldsz n a)
      (fun _ s' => Region L w s' dirs held ∧ Unmaps s s' d (Reached s d a oldsz)) E s := by
  induction n generalizing s a with
  | zero => exact ⟨h, unmaps_past (by simpa using hfuel)⟩
  | succ n ih =>
    unfold deallocLoop
    rw [wp_ite]
    by_cases hlt : a < oldsz
    swap
    · rw [if_neg hlt]
      exact ⟨h, unmaps_past (BitVec.le_def.mp (BitVec.not_lt.mp hlt))⟩
    rw [if_pos hlt, wp_bind, wp_walkpgdir]
    have hlt' := BitVec.lt_def.mp hlt
    have hlow : (pdx a).val < 512 := pdx_lt.mpr (lt_of_lt_of_le hlt' hold)
    have hnext : (a + 4096).toNat = a.toNat + 4096 := toNat_add_of_low hold hlt' 4096 (by omega)
    have hskip : (a + 4194304).toNat = a.toNat + 4194304 := toNat_add_of_low hold hlt' 4194304 le_rfl
    -- the rest of the loop, from the next page on
    have hrest : ∀ s₁, Region L w s₁ dirs held → wp (deallocLoop L d oldsz n (a + 4096))
        (fun _ s' => Region L w s' dirs held ∧ Unmaps s₁ s' d (Reached s₁ d (a + 4096) oldsz)) E s₁ := fun s₁ hs₁ =>
      ih hs₁ (aligned_next ha) (by rw [hnext]; unfold pgsize at *; omega)
    by_cases hp : Present (s.entry d (pdx a))
    · rw [if_pos hp]
      simp only [wp_bind, wp_get, wp_ite]
      split
      · rename_i hpte
        have hm := space_present hp hpte
        have hram := h.isolated.ram _ (Isolated.mem_owned_of_mem_dirPages hd
          (mem_dirPages_of_userPages (mem_userPages_of_space hm hlow)))
        rw [if_neg hram.pos.ne']
        have hunmap := wp_unmap (E := E) (Q := fun _ s₁ => wp (deallocLoop L d oldsz n (a + 4096))
            (fun _ s' => Region L w s' dirs held ∧ Unmaps s s' d (Reached s d a oldsz)) E s₁) h hd hlow hm
          fun s₁ hs₁ hspace htables hfree => wp_mono (hrest s₁ hs₁) (fun _ s' hs' => ⟨hs'.1, ?_⟩) fun _ he => he
        · rw [wp_bind] at hunmap
          exact hunmap
        · refine (hs'.2.cons (h.nodup hd) hm hlow (fun k l hr => hr.low hold) hspace htables hfree).congr
            fun k l _ => ?_
          rw [← reached_next hold ha hlt' hp]
          simp only [Reached, htables]
      · rename_i hpte
        refine wp_mono (hrest s h) (fun _ s' hs' => ⟨hs'.1, hs'.2.congr fun k l hkl => ?_⟩) fun _ he => he
        rw [← reached_next hold ha hlt' hp, or_iff_right]
        rintro ⟨rfl, rfl⟩
        exact hkl ((space_eq_none hp).mpr hpte)
    · rw [if_neg hp, show a + 1023 * 4096 + 4096 = a + 4194304 by bv_omega]
      refine wp_mono (ih h ?_ ?_) (fun _ s' hs' => ⟨hs'.1, hs'.2.congr fun k l hkl => ?_⟩) fun _ he => he
      · rw [hskip]
        unfold pgsize at *
        omega
      · rw [hskip]
        unfold pgsize at *
        omega
      · refine reached_skip hold ha hlt' hp ?_
        by_contra hk
        exact hkl (space_absent hk)

theorem wp_deallocuvm (h : Region L w s dirs held) (hd : d ∈ dirs) (hold : oldsz.toNat ≤ kernbase)
    (hlt : newsz < oldsz) :
    wp (deallocuvm L d oldsz newsz) (fun r s' => r = newsz ∧ Region L w s' dirs held ∧
      Unmaps s s' d (Reached s d (pgroundup newsz) oldsz)) E s := by
  unfold deallocuvm
  rw [if_neg (BitVec.not_le.mpr hlt), wp_bind]
  refine wp_mono (wp_deallocLoop h hd hold (aligned_pgroundup newsz) ?_) (fun _ s' hs' => ⟨rfl, hs'⟩) fun _ he => he
  unfold pgsize
  omega

/-! ### What is unmapped -/

/-- The pages from `PGROUNDUP(newsz)` up to `oldsz`. -/
def InRange (newsz oldsz : Word) (i j : Fin 1024) : Prop :=
  (pgroundup newsz).toNat ≤ pageAddr i j ∧ pageAddr i j < oldsz.toNat

theorem Isolated.alone {rest : Multiset Nat} (h : Isolated L s (d ::ₘ rest) held) : Isolated L s {d} 0 :=
  h.mono (Multiset.singleton_le.mpr (Multiset.mem_cons_self d rest)) (Multiset.zero_le held)

/-- The whole range is unmapped if and only if no page of it is skipped: before a page, the range has a page at
the same place of a table or one whose table exists. -/
theorem deallocuvm_unmaps_iff {rest : Multiset Nat} (h : Isolated L s (d ::ₘ rest) held) (hlt : newsz < oldsz)
    (hold : oldsz.toNat ≤ kernbase) :
    (∃ s', deallocuvm L d oldsz newsz s = .ok (newsz, s') ∧ Unmaps s s' d (InRange newsz oldsz) ∧
        ∀ d' ∈ rest, s'.space d' = s.space d') ↔
      ∀ i j, InRange newsz oldsz i j → s.space d i j ≠ none → (ptx (pgroundup newsz)).val ≤ j.val ∨
        ∃ k, (pdx (pgroundup newsz)).val ≤ k.val ∧ k.val < i.val ∧ Present (s.entry d k) := by
  obtain ⟨r, s', hrun, rfl, hregion, hunmaps⟩ :=
    exists_ok (wp_deallocuvm (E := fun _ => False) h.alone.region (Multiset.mem_singleton_self d) hold hlt) fun _ => id
  constructor
  · rintro ⟨s₁, hrun₁, hunmaps₁, -⟩ i j hrange hmapped
    obtain ⟨-, rfl⟩ := Prod.mk.inj (Except.ok.inj (hrun.symm.trans hrun₁))
    by_contra hnot
    refine hmapped ?_
    rw [← hunmaps.kept i j fun hr => hnot hr.2.2, hunmaps₁.absent i j hrange]
  · intro hreached
    refine ⟨s', hrun, hunmaps.congr fun i j hmapped => ?_, ?_⟩
    · exact ⟨fun hr => ⟨hr.1, hr.2.1⟩, fun hr => ⟨hr.1, hr.2, hreached i j hr hmapped⟩⟩
    · rw [← Multiset.singleton_add, ← zero_add held] at h
      exact (hregion.frame h).2.1

/-! ### A small memory -/

/-- A kernel with eight pages of code and of data each. -/
def smallLayout : Layout where
  data := kernlink + 0x8000
  fin := kernlink + 0x10000
  data_gt := by decide
  data_aligned := by decide
  fin_gt := by decide
  fin_le := by decide

section Small

variable (luck : Nat → Bool) {free : List Nat}

def blank (free : List Nat) (luck : Nat → Bool) : Memory := ⟨fun _ => Bytes.zero, free, luck⟩

theorem isolated_blank (hnodup : free.Nodup) (hram : ∀ q ∈ free, L.Ram q) : Isolated L (blank free luck) 0 0 := by
  have howned : (blank free luck).owned 0 0 = free := by
    rw [Memory.owned, Multiset.map_zero, Multiset.sum_zero, add_zero, add_zero]
    rfl
  refine ⟨?_, ?_, by simp⟩
  · rwa [howned]
  · rwa [howned]

def emptyDir (free : List Nat) (luck : Nat → Bool) : Memory := (blank free luck).setPage 1000 Bytes.zero

theorem isolated_emptyDir (hnodup : (1000 :: free).Nodup) (hram : ∀ q ∈ 1000 :: free, smallLayout.Ram q) :
    Isolated smallLayout (emptyDir free luck) {1000} 0 :=
  ((isolated_blank luck hnodup hram).alloc rfl luck).newDir

/-- The directory with a table in page 1001, still empty. -/
def oneTable (i : Fin 1024) (free : List Nat) (luck : Nat → Bool) : Memory :=
  ((emptyDir free luck).setPage 1001 Bytes.zero).setEntry 1000 i (v2p 1001 ||| pteP ||| pteW ||| pteU)

/-- The directory with a table in page 1001 that maps page 1002 at one place. -/
def onePage (i j : Fin 1024) (free : List Nat) (luck : Nat → Bool) : Memory :=
  (oneTable i free luck).setEntry 1001 j (v2p 1002 ||| (pteW ||| pteU) ||| pteP)

theorem entry_onePage_dir {k : Fin 1024} : (onePage i j free luck).entry 1000 k = (oneTable i free luck).entry 1000 k :=
  entry_setEntry_of_ne _ (by decide) _ _ _

theorem entry_oneTable : (oneTable i free luck).entry 1000 i = v2p 1001 ||| pteP ||| pteW ||| pteU := entry_setEntry_same ..

theorem isolated_onePage (hi : i.val < 512) (hnodup : (1000 :: 1001 :: 1002 :: free).Nodup)
    (hram : ∀ q ∈ 1000 :: 1001 :: 1002 :: free, smallLayout.Ram q) :
    Isolated smallLayout (onePage i j free luck) {1000} 0 := by
  have hmem : 1000 ∈ ({1000} : Multiset Nat) := Multiset.mem_singleton_self _
  have hdir : Isolated smallLayout (emptyDir (1002 :: free) luck) {1000} {1001} :=
    (isolated_emptyDir luck hnodup hram).alloc rfl luck
  have htable : Isolated smallLayout (oneTable i (1002 :: free) luck) {1000} 0 :=
    hdir.addTable hmem (Isolated.not_present_newDir i) (by decide) (by decide)
  have hheld : Isolated smallLayout (oneTable i free luck) {1000} {1002} := htable.alloc rfl luck
  have haddr : pteAddr ((oneTable i free luck).entry 1000 i) = 1001 := by
    rw [entry_oneTable]
    decide
  have hfit : Fit i (v2p 1002 ||| (pteW ||| pteU) ||| pteP) :=
    ⟨fun hhigh => absurd hi (by omega), fun _ hnot => absurd (present_or _) hnot⟩
  have hpage : Isolated smallLayout ((oneTable i free luck).setEntry (pteAddr ((oneTable i free luck).entry 1000 i)) j
      (v2p 1002 ||| (pteW ||| pteU) ||| pteP)) {1000} 0 :=
    hheld.setPte hmem (by rw [entry_oneTable]; decide) ?_ hfit
  · rwa [haddr] at hpage
  · rw [if_pos hi, entryPages_present (present_or _), pteAddr_or (by omega) (by decide), add_zero]
    exact Multiset.le_add_left _ _

theorem space_onePage_self : (onePage i j free luck).space 1000 i j ≠ none := by
  rw [Ne, space_eq_none (by rw [entry_onePage_dir, entry_oneTable]; decide), entry_onePage_dir, entry_oneTable, not_not,
    show pteAddr (v2p 1001 ||| pteP ||| pteW ||| pteU) = 1001 by decide, onePage, entry_setEntry_same]
  decide

theorem space_onePage_ne {k l : Fin 1024} (h : ¬(k = i ∧ l = j)) : (onePage i j free luck).space 1000 k l = none := by
  by_cases hk : k = i
  · subst hk
    rw [space_eq_none (by rw [entry_onePage_dir, entry_oneTable]; decide), entry_onePage_dir, entry_oneTable,
      show pteAddr (v2p 1001 ||| pteP ||| pteW ||| pteU) = 1001 by decide, onePage,
      entry_setEntry_ne _ fun hl => h ⟨rfl, hl⟩, oneTable, entry_setEntry_of_ne _ (by decide), entry_setPage_zero]
    exact not_present_zero
  · refine space_absent ?_
    rw [entry_onePage_dir, oneTable, entry_setEntry_ne _ hk, entry_setPage_of_ne _ (by decide), emptyDir]
    exact Isolated.not_present_newDir k

/-- The pages up to the size of the process are mapped, and no others of the user part. -/
structure FullyMapped (s : Memory) (d : Nat) (sz : Word) : Prop where
  mapped : ∀ i j, pageAddr i j < sz.toNat → s.space d i j ≠ none
  none : ∀ i j, (pgroundup sz).toNat ≤ pageAddr i j → pageAddr i j < kernbase → s.space d i j = none

theorem fullyMapped_onePage : FullyMapped (onePage 0 0 free luck) 1000 4096 := by
  constructor
  · intro i j hlt
    change pageAddr i j < 4096 at hlt
    have hzero : pageAddr i j = (0 : Word).toNat := by
      change pageAddr i j = 0
      unfold pageAddr pgsize at *
      omega
    obtain ⟨rfl, rfl⟩ := index_pageAddr hzero
    exact space_onePage_self _
  · intro i j hfrom _
    refine space_onePage_ne _ ?_
    rintro ⟨rfl, rfl⟩
    exact absurd hfrom (by decide)

theorem exists_run {α β : Type} {f : VmM α} {a : α} {b : β} {g : Memory → β}
    (h : (f s).toOption.map (fun p => (p.1, g p.2)) = some (a, b)) : ∃ s', f s = .ok (a, s') ∧ g s' = b := by
  obtain ⟨p, hp, hab⟩ := Option.map_eq_some_iff.mp h
  cases hf : f s with
  | error e =>
    rw [hf] at hp
    cases hp
  | ok p' =>
    rw [hf] at hp
    obtain rfl := Option.some.inj hp
    obtain ⟨rfl, rfl⟩ := Prod.mk.inj hab
    exact ⟨p'.2, rfl, rfl⟩

def panicOf {α : Type} : Except Panic α → Option Panic
  | .error e => some e
  | .ok _ => none

theorem error_of_panicOf {α : Type} {f : Except Panic α} {e : Panic} (h : panicOf f = some e) : f = .error e := by
  cases f with
  | error e' => rw [Option.some.inj h]
  | ok a => cases h

end Small

/-- From 4 KB up to 4 MB + 4 KB there is one page, in the second table. The first table is missing, and with it the
page is skipped. -/
theorem deallocuvm_skips_page : Isolated smallLayout (onePage 1 0 [] fun _ => false) {1000} 0 ∧
    (4096 : Word) < 0x401000 ∧ (0x401000 : Word).toNat ≤ kernbase ∧ InRange 4096 0x401000 1 0 ∧
    ∃ s', deallocuvm smallLayout 1000 0x401000 4096 (onePage 1 0 [] fun _ => false) = .ok (4096, s') ∧
      (s'.space 1000 1 0).isSome = true := by
  refine ⟨isolated_onePage _ (by decide) (by decide) (by decide), by decide, by decide, ⟨by decide, by decide⟩, ?_⟩
  exact exists_run (g := fun s' => (s'.space 1000 1 0).isSome) (by decide +kernel)

/-- Up to the same address from 0 on, the page is found. -/
theorem deallocuvm_unmaps_iff_onePage :
    (∃ s', deallocuvm smallLayout 1000 0x401000 0 (onePage 1 0 [] fun _ => false) = .ok (0, s') ∧
        Unmaps (onePage 1 0 [] fun _ => false) s' 1000 (InRange 0 0x401000) ∧
          ∀ d' ∈ (0 : Multiset Nat), s'.space d' = (onePage 1 0 [] fun _ => false).space d') ∧
      ((onePage 1 0 [] fun _ => false).space 1000 1 0).isSome = true := by
  have hisolated : Isolated smallLayout (onePage 1 0 [] fun _ => false) {1000} 0 :=
    isolated_onePage (fun _ => false) (by decide) (by decide) (by decide)
  have hlt : (0 : Word) < 0x401000 := by decide
  refine ⟨(deallocuvm_unmaps_iff hisolated hlt (by decide)).mpr
    fun i j _ _ => .inl (Nat.zero_le _), by decide +kernel⟩

end Xv6.Vm
