import Xv6.Vm.Kernel

/-!
# Copying and freeing an address space

`freevm` gives back every page of a directory: it starts at address 0, so nothing is skipped. `copyuvm` builds
the child's address space out of free pages alone, and reads the parent's.
-/

namespace Xv6.Vm

open Lib Syscall Memory

variable {L : Layout} {s s' s₀ : Memory} {w : Scope} {dirs held : Multiset Nat} {d pgdir : Nat} {i j : Fin 1024}
  {E : Panic → Prop} {a sz : Word}

/-! ### Freeing -/

def tablesFrom (s : Memory) (d i : Nat) : Multiset Nat :=
  total fun k : Fin 1024 => if i ≤ k.val then entryPages (s.entry d k) else 0

theorem tablesFrom_zero : tablesFrom s d 0 = s.pointedBy d :=
  total_congr fun k => if_pos (Nat.zero_le k.val)

theorem tablesFrom_succ (i : Fin 1024) :
    tablesFrom s d i.val = entryPages (s.entry d i) + tablesFrom s d (i.val + 1) := by
  have hchange := total_change (f := fun k : Fin 1024 => if i.val + 1 ≤ k.val then entryPages (s.entry d k) else 0)
    (g := fun k : Fin 1024 => if i.val ≤ k.val then entryPages (s.entry d k) else 0) i fun k hk => ?_
  · rw [if_neg (by omega), if_pos le_rfl, add_zero] at hchange
    rw [tablesFrom, tablesFrom, hchange, add_comm]
  · have hne : k.val ≠ i.val := fun heq => hk (Fin.ext heq)
    by_cases hle : i.val ≤ k.val
    · rw [if_pos hle, if_pos (by omega)]
    · rw [if_neg hle, if_neg (by omega)]

theorem tablesFrom_last : tablesFrom s d 1024 = 0 :=
  (total_congr fun k => if_neg (not_le.mpr k.isLt)).trans total_zero

theorem wp_freeTables {Q : PUnit → Memory → Prop} (h : Region L w s dirs (d ::ₘ (s.pointedBy d + held)))
    (hQ : ∀ s', Region L w s' dirs (d ::ₘ held) → Q ⟨⟩ s') : wp (freeTables L d) Q E s := by
  refine wp_mono (wp_forTo (I := fun i s => Region L w s dirs (d ::ₘ (tablesFrom s d i + held))) ?_ ?_)
    (fun _ s' hs' => hQ s' ?_) fun _ h => h
  · rwa [tablesFrom_zero]
  · intro i s' hi hs'
    rw [dif_pos hi]
    simp only [wp_bind, wp_get, wp_ite, wp_pure]
    rw [show i = (⟨i, hi⟩ : Fin 1024).val from rfl, tablesFrom_succ ⟨i, hi⟩] at hs'
    split
    · rename_i hp
      rw [entryPages_present hp, add_assoc, Multiset.singleton_add, Multiset.cons_swap] at hs'
      have hne : d ≠ pteAddr (s'.entry d ⟨i, hi⟩) := by
        intro heq
        have hnodup : (pteAddr (s'.entry d ⟨i, hi⟩) ::ₘ d ::ₘ (tablesFrom s' d (i + 1) + held)).Nodup :=
          Multiset.nodup_of_le (Multiset.le_add_left _ _) hs'.isolated.nodup
        exact (Multiset.nodup_cons.mp hnodup).1 (heq ▸ Multiset.mem_cons_self _ _)
      refine wp_kfree hs' fun s'' hs'' hpage _ => ?_
      have hsame : tablesFrom s'' d (i + 1) = tablesFrom s' d (i + 1) := by
        refine total_congr fun k => ?_
        rw [entry, entry, hpage d hne]
      rwa [hsame]
    · rename_i hp
      rwa [entryPages_absent hp, zero_add] at hs'
  · rwa [tablesFrom_last, zero_add] at hs'

theorem wp_freevm {Q : PUnit → Memory → Prop} (h : Region L w s (d ::ₘ dirs) held)
    (hQ : ∀ s', Region L w s' dirs held → Q ⟨⟩ s') : wp (freevm L (some d)) Q E s := by
  unfold freevm
  rw [wp_bind]
  have htop : (BitVec.ofNat 32 kernbase).toNat ≤ kernbase := by decide
  refine wp_mono (wp_deallocuvm h (Multiset.mem_cons_self d dirs) htop (by decide))
    (fun _ s' hs' => ?_) fun _ he => he
  obtain ⟨-, hregion, hunmaps⟩ := hs'
  have hempty : s'.userPages d = 0 := userPages_eq_zero fun i j hi => by
    refine hunmaps.absent i j (reached_of_start (.inl (by decide)) (Nat.zero_le _) ?_)
    exact low_iff.mp hi
  rw [wp_bind]
  refine wp_freeTables (hregion.dissolve hempty) fun s'' hs'' => ?_
  exact wp_kfree hs'' fun s₃ hs₃ _ _ => hQ s₃ hs₃

/-! ### Copying -/

/-- The loop of `copyuvm`, with whether it has lost a page. -/
def copyLoopTraced (pgdir d : Nat) (sz : Word) : Nat → Word → VmM (Bool × Bool)
  | 0, _ => return (true, false)
  | n + 1, i => do
    if i < sz then
      match ← walkpgdir pgdir i false with
      | none => throw .copyuvmMissing
      | some (t, j) =>
        let pte := (← get).entry t j
        if pte &&& pteP = 0 then throw .copyuvmAbsent
        else
          match ← kalloc with
          | none => return (false, false)
          | some mem =>
            modify fun s => s.setPage mem (s.page (pteAddr pte))
            if ← mappages d i 4096 (v2p mem) (pteFlags pte) then copyLoopTraced pgdir d sz n (i + 4096)
            else return (false, true)
    else return (true, false)

theorem copyLoop_eq (n : Nat) (i : Word) : copyLoop pgdir d sz n i = Prod.fst <$> copyLoopTraced pgdir d sz n i := by
  induction n generalizing i with
  | zero => rfl
  | succ n ih =>
    unfold copyLoop copyLoopTraced
    by_cases hlt : i < sz
    · rw [if_pos hlt, if_pos hlt, map_bind]
      congr 1
      funext r
      cases r with
      | none => rfl
      | some tj =>
        simp only [map_bind]
        congr 1
        funext m
        by_cases hpte : m.entry tj.1 tj.2 &&& pteP = 0
        · simp only [if_pos hpte]
          rfl
        · simp only [if_neg hpte, map_bind]
          congr 1
          funext r
          cases r with
          | none => rfl
          | some mem =>
            simp only [map_bind]
            congr 1
            funext _
            congr 1
            funext mapped
            cases mapped with
            | false => rfl
            | true => exact ih (i + 4096)
    · rw [if_neg hlt, if_neg hlt]
      rfl

/-- The same flags and the same bytes, in another frame. -/
def CopyOf (p m : Option Mapping) : Prop := ∃ e e' b, p = some (e, b) ∧ m = some (e', b) ∧ pteFlags e' = pteFlags e

theorem present_bit {e : Word} (he : Present e) : e.getLsbD 0 = true := by
  by_contra hbit
  refine he (BitVec.eq_of_getLsbD_eq fun k hk => ?_)
  cases k with
  | zero =>
    rw [BitVec.getLsbD_and, Bool.eq_false_iff.mpr hbit, Bool.false_and]
    rfl
  | succ k => simp [pteP]

theorem pteFlags_or {q : Nat} {e : Word} (he : Present e) : pteFlags (v2p q ||| pteFlags e ||| pteP) = pteFlags e := by
  have hframe : v2p q &&& 0xFFF = 0 := by
    apply BitVec.eq_of_toNat_eq
    rw [BitVec.toNat_and, v2p, BitVec.toNat_ofNat]
    change (pgsize * q % 2 ^ 32) &&& (2 ^ 12 - 1) = 0
    rw [Nat.and_two_pow_sub_one_eq_mod]
    unfold pgsize
    omega
  have hbit := present_bit he
  unfold pteFlags
  rw [BitVec.and_or_distrib_right, BitVec.and_or_distrib_right, hframe, BitVec.and_assoc, BitVec.and_self, show (0 : Word) = 0#32 from rfl, BitVec.zero_or]
  refine BitVec.eq_of_getLsbD_eq fun k hk => ?_
  cases k with
  | zero =>
    rw [BitVec.getLsbD_or, BitVec.getLsbD_and, hbit]
    rfl
  | succ k => simp [pteP]

section Copy

/-- The parent's pages lie outside of the region in which the child is built. -/
def Aside (L : Layout) (s₀ : Memory) (pgdir : Nat) (w : Scope) : Prop :=
  ∀ q ∈ s₀.dirPages pgdir, L.Ram q ∧ q ∉ w.all ∧ w.page q = s₀.page q

/-- The pages from `a` up to `sz` have been copied. -/
structure CopiesFrom (s₀ : Memory) (pgdir : Nat) (s s' : Memory) (d : Nat) (a sz : Word) : Prop where
  copied : ∀ i j, a.toNat ≤ pageAddr i j → pageAddr i j < sz.toNat → CopyOf (s₀.space pgdir i j) (s'.space d i j)
  kept : ∀ i j, pageAddr i j < a.toNat ∨ sz.toNat ≤ pageAddr i j → s'.space d i j = s.space d i j

theorem CopiesFrom.past (hle : sz.toNat ≤ a.toNat) : CopiesFrom s₀ pgdir s s d a sz :=
  ⟨fun _ _ hfrom hto => absurd (lt_of_le_of_lt hfrom hto) (not_lt.mpr hle), fun _ _ _ => rfl⟩

def NoneFrom (s : Memory) (d : Nat) (sz : Word) : Prop :=
  ∀ i j, sz.toNat ≤ pageAddr i j → pageAddr i j < kernbase → s.space d i j = none

variable (hpar : Aside L s₀ pgdir w)

include hpar

theorem Region.parent (h : Region L w s dirs held) : ∀ q ∈ s₀.dirPages pgdir, s.page q = s₀.page q := fun q hq =>
  (h.outside q (hpar q hq).1 (hpar q hq).2.1).trans (hpar q hq).2.2

theorem wp_copyLoopTraced {Q : Bool × Bool → Memory → Prop} {n : Nat} (h : Region L w s (d ::ₘ dirs) held)
    (hE : kernbase < sz.toNat → E .remap)
    (hmapped : ∀ i j, pageAddr i j < sz.toNat → s₀.space pgdir i j = none → E .copyuvmMissing ∧ E .copyuvmAbsent)
    (ha : a.toNat % pgsize = 0)
    (hlow : a.toNat ≤ kernbase) (hfuel : sz.toNat ≤ a.toNat + pgsize * n)
    (hnone : NoneFrom s d a) (hkernel : s.space d 512 0 ≠ none)
    (hdone : ∀ s', Region L w s' (d ::ₘ dirs) held → sz.toNat ≤ kernbase → CopiesFrom s₀ pgdir s s' d a sz →
      Q (true, false) s')
    (hfail : ∀ s', Region L w s' (d ::ₘ dirs) held → NoneFrom s' d sz → w.unlucky ∨ s'.free = [] → Q (false, false) s')
    (hlost : ∀ s' q, Region L w s' (d ::ₘ dirs) (q ::ₘ held) → NoneFrom s' d sz → w.unlucky ∨ s'.free = [] →
      Q (false, true) s') : wp (copyLoopTraced pgdir d sz n a) Q E s := by
  induction n generalizing s a with
  | zero =>
    have hle : sz.toNat ≤ a.toNat := by simpa using hfuel
    exact hdone s h (hle.trans hlow) (.past hle)
  | succ n ih =>
    have hd : d ∈ d ::ₘ dirs := Multiset.mem_cons_self d dirs
    have hindex := pageAddr_index ha
    unfold copyLoopTraced
    rw [wp_ite]
    by_cases hlt : a < sz
    swap
    · rw [if_neg hlt]
      have hle := BitVec.le_def.mp (BitVec.not_lt.mp hlt)
      exact hdone s h (hle.trans hlow) (.past hle)
    have hlt' := BitVec.lt_def.mp hlt
    have hspace : s.space pgdir = s₀.space pgdir := space_frame (h.parent hpar)
    have habsent : s.space pgdir (pdx a) (ptx a) = none → E .copyuvmMissing ∧ E .copyuvmAbsent := by
      rw [hspace]
      exact hmapped _ _ (by rwa [hindex])
    rw [if_pos hlt, wp_bind, wp_walkpgdir]
    by_cases hp : Present (s.entry pgdir (pdx a))
    swap
    · rw [if_neg hp]
      exact (habsent (space_absent hp)).1
    rw [if_pos hp]
    simp only [wp_bind, wp_get, wp_ite]
    by_cases he : Present (s.entry (pteAddr (s.entry pgdir (pdx a))) (ptx a))
    swap
    · rw [if_pos (not_not.mp he)]
      exact (habsent ((space_eq_none hp).mpr he)).2
    obtain ⟨m, hm⟩ : ∃ m, s₀.space pgdir (pdx a) (ptx a) = some m := ⟨_, hspace ▸ space_present hp he⟩
    obtain ⟨-, -, hentry, -⟩ := space_eq_some (hspace ▸ hm)
    rw [hentry] at he ⊢
    rw [if_neg (show ¬m.1 &&& pteP = 0 from he)]
    have hbelow : ∀ s', s'.space d = s.space d → NoneFrom s' d sz := by
      intro s' hsame i j hfrom hto
      rw [hsame, hnone i j (by omega) hto]
    refine wp_kalloc h (fun s' hs' hpage _ => hfail s' hs' (hbelow s' (space_frame fun q _ => congrFun hpage q)))
      fun mem s₁ hs₁ hpage hfree => ?_
    have hheld : mem ∈ mem ::ₘ held := Multiset.mem_cons_self mem held
    have hfill := hs₁.fill hheld (s₁.page (pteAddr m.1))
    have hchild : (s₁.setPage mem (s₁.page (pteAddr m.1))).space d = s.space d := by
      refine space_frame fun q hq => ?_
      rw [setPage_page_ne, hpage]
      rintro rfl
      refine h.not_mem_dirPages hd (.inl ?_) hq
      rw [hfree]
      exact List.mem_cons_self ..
    simp only [wp_bind, wp_modify]
    rcases lt_or_eq_of_le hlow with huser | htop
    · have hlowpage : (pdx a).val < 512 := pdx_lt.mpr huser
      have hnext : (a + 4096).toNat = a.toNat + 4096 := by
        unfold kernbase at huser
        rw [BitVec.toNat_add]
        exact Nat.mod_eq_of_lt (by change a.toNat + 4096 < 2 ^ 32; omega)
      have hcontent : (s₁.setPage mem (s₁.page (pteAddr m.1))).page mem = s₁.page (pteAddr m.1) := Function.update_self _ _ _
      have hbytes : m.2 = some (s₁.page (pteAddr m.1)) := by
        obtain ⟨-, -, -, hm2⟩ := space_eq_some hm
        rw [hm2, content, if_pos hlowpage, (hs₁.parent hpar) _ (mem_dirPages_of_userPages (mem_userPages_of_space hm hlowpage))]
      refine wp_mapUser hfill hd ha huser ?_ (by rw [hchild]; exact hnone _ _ hindex.ge (by rwa [hindex]))
        (fun s₂ hs₂ hmap => ?_) fun s₂ hs₂ _ hpage₂ _ => hlost s₂ mem hs₂ (hbelow s₂ ?_)
      · rw [pteFlags, BitVec.toNat_and]
        exact lt_of_le_of_lt Nat.and_le_right (by decide)
      swap
      · rw [← hchild]
        exact space_frame fun q _ => congrFun hpage₂ q
      have hspace₂ : ∀ i j, ¬(i = pdx a ∧ j = ptx a) → s₂.space d i j = s.space d i j := by
        intro i j hne
        rw [hmap.space, put_of_ne hne, hchild]
      have hdone₂ : ∀ s', Region L w s' (d ::ₘ dirs) held → sz.toNat ≤ kernbase →
          CopiesFrom s₀ pgdir s₂ s' d (a + 4096) sz → Q (true, false) s' := by
        intro s' hs' hsz hcopies
        refine hdone s' hs' hsz ⟨fun i j hfrom hto => ?_, fun i j hrange => ?_⟩
        · by_cases heq : pageAddr i j = a.toNat
          · obtain ⟨rfl, rfl⟩ := index_pageAddr heq
            refine ⟨m.1, v2p mem ||| pteFlags m.1 ||| pteP, m.2, hm, ?_, pteFlags_or he⟩
            rw [hcopies.kept _ _ (.inl (by omega)), hmap.space, put_self, hcontent, hbytes]
          · refine hcopies.copied i j ?_ hto
            rw [hnext]
            unfold pageAddr pgsize at *
            omega
        · rw [hcopies.kept i j (hrange.imp (fun hlt => by omega) id), hspace₂ i j]
          rintro ⟨rfl, rfl⟩
          omega
      refine ih hs₂ (aligned_next ha) ?_ ?_ (fun i j hfrom hto => ?_) ?_ hdone₂
      · rw [hnext]
        unfold kernbase pgsize at *
        omega
      · rw [hnext]
        unfold pgsize at *
        omega
      · rw [hnext] at hfrom
        rw [hspace₂ i j, hnone i j (by omega) hto]
        rintro ⟨rfl, rfl⟩
        omega
      · rw [hspace₂]
        · exact hkernel
        · rintro ⟨h512, -⟩
          rw [← h512] at hlowpage
          exact absurd hlowpage (by decide)
    · -- the page at `KERNBASE` is the kernel's
      obtain rfl : a = BitVec.ofNat 32 kernbase := BitVec.eq_of_toNat_eq htop
      exact wp_mapTaken ha (by rw [hchild]; exact hkernel) (hE hlt')

end Copy

/-! ### `copyuvm` -/

def copyuvmTraced (L : Layout) (pgdir : Nat) (sz : Word) : VmM (Option Nat × Bool) := do
  match ← setupkvmTraced L with
  | (none, lost) => return (none, lost)
  | (some d, _) =>
    match ← copyLoopTraced pgdir d sz (sz.toNat / pgsize + 1) 0 with
    | (true, _) => return (some d, false)
    | (false, lost) =>
      freevm L (some d)
      return (none, lost)

theorem copyuvm_eq (L : Layout) (pgdir : Nat) (sz : Word) : copyuvm L pgdir sz = Prod.fst <$> copyuvmTraced L pgdir sz := by
  unfold copyuvm copyuvmTraced
  rw [setupkvm_eq, bind_map_left, map_bind]
  congr 1
  funext r
  obtain ⟨r, lost⟩ := r
  cases r with
  | none => rfl
  | some d =>
    simp only [copyLoop_eq, bind_map_left, map_bind]
    congr 1
    funext r
    obtain ⟨done, lost⟩ := r
    cases done with
    | true => rfl
    | false =>
      simp only [Bool.false_eq_true, if_false, map_bind]
      rfl

theorem kernelSpace_low (hi : i.val < 512) : kernelSpace (kmap L) i j = none := by
  rw [kernelSpace, List.findSome?_eq_none_iff]
  intro k hk
  have hhigh := (kmap_ranges k hk).high
  have hlow := low_iff (j := j).mp hi
  exact kernelPage_eq_none fun hin => by omega

theorem kernelSpace_first : kernelSpace (kmap L) 512 0 ≠ none := by
  rw [kernelSpace, kmap, List.findSome?_cons, kernelPage, if_pos ⟨by decide, by decide⟩]
  simp

structure Copied (L : Layout) (s₀ : Memory) (pgdir : Nat) (s' : Memory) (d : Nat) (sz : Word) : Prop where
  size : sz.toNat ≤ kernbase
  copied : ∀ i j, pageAddr i j < sz.toNat → CopyOf (s₀.space pgdir i j) (s'.space d i j)
  rest : ∀ i j, sz.toNat ≤ pageAddr i j → s'.space d i j = kernelSpace (kmap L) i j

theorem wp_copyuvmTraced {Q : Option Nat × Bool → Memory → Prop} (hpar : Aside L s₀ pgdir w) (h : Region L w s dirs held)
    (hE : kernbase < sz.toNat → E .remap)
    (hmapped : ∀ i j, pageAddr i j < sz.toNat → s₀.space pgdir i j = none → E .copyuvmMissing ∧ E .copyuvmAbsent)
    (hnone : ∀ s', Region L w s' dirs held → Q (none, false) s')
    (hlost : ∀ s' lost, Region L w s' dirs (lost + held) → lost ≠ 0 → Q (none, true) s')
    (hsome : ∀ d s', Region L w s' (d ::ₘ dirs) held → Copied L s₀ pgdir s' d sz → Q (some d, false) s') :
    wp (copyuvmTraced L pgdir sz) Q E s := by
  unfold copyuvmTraced
  rw [wp_bind]
  refine wp_setupkvmTraced h (fun s' hs' _ => hnone s' hs') (fun s' d hs' _ => ?_) fun d s₁ hs₁ hspace _ => ?_
  · rw [← Multiset.cons_add] at hs'
    exact hlost s' _ hs' Multiset.cons_ne_zero
  rw [wp_bind]
  refine wp_copyLoopTraced hpar hs₁ hE hmapped rfl (Nat.zero_le _) ?_ (fun i j _ hto => ?_) ?_ (fun s₂ hs₂ hsz hcopies => ?_)
    (fun s₂ hs₂ _ _ => ?_) fun s₂ q hs₂ _ _ => ?_
  · change sz.toNat ≤ 0 + pgsize * (sz.toNat / pgsize + 1)
    unfold pgsize
    omega
  · rw [hspace, kernelSpace_low (low_iff.mpr hto)]
  · rw [hspace]
    exact kernelSpace_first
  · refine hsome d s₂ hs₂ ⟨hsz, fun i j hto => hcopies.copied i j (Nat.zero_le _) hto, fun i j hfrom => ?_⟩
    rw [hcopies.kept i j (.inr hfrom), hspace]
  · rw [wp_bind]
    exact wp_freevm hs₂ fun s₃ hs₃ => hnone s₃ hs₃
  · rw [wp_bind]
    refine wp_freevm hs₂ fun s₃ hs₃ => hlost s₃ {q} ?_ (Multiset.singleton_ne_zero q)
    rwa [Multiset.singleton_add]

/-! ### An exact private copy -/

/-- The pages of the directories and those held otherwise. -/
def Memory.inUse (s : Memory) (dirs held : Multiset Nat) : Multiset Nat := (dirs.map s.dirPages).sum + held

structure PrivateCopy (L : Layout) (s s' : Memory) (pgdir d : Nat) (sz : Word) (used : Multiset Nat) : Prop where
  copied : ∀ i j, pageAddr i j < (pgroundup sz).toNat → CopyOf (s.space pgdir i j) (s'.space d i j)
  distinct : ∀ i j i' j' m m', i.val < 512 → i'.val < 512 → s'.space d i j = some m → s'.space d i' j' = some m' →
    pteAddr m.1 = pteAddr m'.1 → i = i' ∧ j = j'
  fresh : ∀ i j m, i.val < 512 → s'.space d i j = some m → pteAddr m.1 ∉ used
  beyond : ∀ i j, (pgroundup sz).toNat ≤ pageAddr i j → pageAddr i j < kernbase → s'.space d i j = none
  /-- The kernel part is that of every directory that `setupkvm` makes. -/
  kernel : ∀ (t t' : Memory) (k : Nat), Isolated L t 0 0 → setupkvm L t = .ok (some k, t') →
    ∀ i j, kernbase ≤ pageAddr i j → s'.space d i j = t'.space k i j
  parent : s'.space pgdir = s.space pgdir ∧ ∀ q ∈ used, s'.page q = s.page q

theorem setupkvm_space {k : Nat} (h : Isolated L s dirs held) (hrun : setupkvm L s = .ok (some k, s')) :
    s'.space k = kernelSpace (kmap L) := by
  have hwp : wp (setupkvm L) (fun r s' => ∀ k, r = some k → s'.space k = kernelSpace (kmap L)) (fun _ => True) s := by
    rw [setupkvm_eq, wp_map]
    refine wp_setupkvmTraced h.region (fun _ _ _ k hk => by cases hk) (fun _ _ _ _ k hk => by cases hk)
      fun d s₁ _ hspace _ k hk => ?_
    obtain rfl := Option.some.inj hk
    exact hspace
  exact wp_ok hwp hrun k rfl

theorem owned_free_only : s.owned 0 0 = s.free := by
  rw [Memory.owned, Multiset.map_zero, Multiset.sum_zero, add_zero, add_zero]

theorem Isolated.free_not_used (h : Isolated L s dirs held) {q : Nat} (hq : q ∈ s.inUse dirs held) : q ∉ s.owned 0 0 := by
  rw [owned_free_only]
  have hnodup := h.nodup
  rw [Memory.owned, add_assoc] at hnodup
  exact Multiset.disjoint_right.mp (Multiset.nodup_add.mp hnodup).2.2 hq

theorem mem_owned_of_inUse {q : Nat} (hq : q ∈ s.inUse dirs held) : q ∈ s.owned dirs held := by
  rw [Memory.owned, add_assoc]
  exact Multiset.mem_add.mpr (.inr hq)

theorem mem_inUse_of_dirPages {q : Nat} (hd : d ∈ dirs) (hq : q ∈ s.dirPages d) : q ∈ s.inUse dirs held := by
  obtain ⟨rest, rfl⟩ := Multiset.exists_cons_of_mem hd
  simp [Memory.inUse, hq]

section Child

variable {rest : Multiset Nat} (h : Isolated L s (pgdir ::ₘ rest) held)

include h

theorem Isolated.child : Region L (s.scope 0 0) s 0 0 := (h.mono (Multiset.zero_le _) (Multiset.zero_le _)).region

theorem Isolated.aside : Aside L s pgdir (s.scope 0 0) := by
  intro q hq
  have hused : q ∈ s.inUse (pgdir ::ₘ rest) held := mem_inUse_of_dirPages (Multiset.mem_cons_self _ _) hq
  exact ⟨h.ram q (mem_owned_of_inUse hused), h.free_not_used hused, rfl⟩

theorem Copied.privateCopy (hregion : Region L (s.scope 0 0) s' {d} 0) (hcopy : Copied L s pgdir s' d sz) :
    PrivateCopy L s s' pgdir d sz (s.inUse (pgdir ::ₘ rest) held) := by
  have hd : d ∈ ({d} : Multiset Nat) := Multiset.mem_singleton_self d
  have hup := toNat_pgroundup hcopy.size
  have hused : ∀ q ∈ s.inUse (pgdir ::ₘ rest) held, s'.page q = s.page q := fun q hq =>
    hregion.outside q (h.ram q (mem_owned_of_inUse hq)) (h.free_not_used hq)
  refine ⟨fun i j hlt => hcopy.copied i j ?_, fun i j i' j' m m' hi hi' hm hm' heq => ?_, fun i j m hi hm => ?_,
    fun i j hfrom hto => ?_, fun t t' k ht hrun i j hhigh => ?_, space_frame fun q hq => ?_, hused⟩
  · rw [hup] at hlt
    unfold pageAddr pgsize at *
    omega
  · exact space_injective (hregion.nodup hd) hm hm' hi hi' heq
  · intro hin
    have hmem := mem_dirPages_of_userPages (mem_userPages_of_space hm hi)
    have howned : pteAddr m.1 ∈ s'.owned {d} 0 := Isolated.mem_owned_of_mem_dirPages hd hmem
    rw [hregion.owned] at howned
    exact h.free_not_used hin howned
  · rw [hcopy.rest i j, kernelSpace_low (low_iff.mpr hto)]
    rw [hup] at hfrom
    unfold pgsize at hfrom
    omega
  · rw [hcopy.rest i j (hcopy.size.trans hhigh), setupkvm_space ht hrun]
  · exact hused q (mem_inUse_of_dirPages (Multiset.mem_cons_self _ _) hq)

end Child

/-- A directory that `copyuvm` returns is an exact private copy; it returns one only if all pages below `sz` are
there. -/
theorem copyuvm_copies {rest : Multiset Nat} (h : Isolated L s (pgdir ::ₘ rest) held)
    (hrun : copyuvm L pgdir sz s = .ok (some d, s')) :
    PrivateCopy L s s' pgdir d sz (s.inUse (pgdir ::ₘ rest) held) := by
  have hwp : wp (copyuvm L pgdir sz) (fun r s' => ∀ d, r = some d →
      PrivateCopy L s s' pgdir d sz (s.inUse (pgdir ::ₘ rest) held)) (fun _ => True) s := by
    rw [copyuvm_eq, wp_map]
    refine wp_copyuvmTraced h.aside h.child (fun _ => trivial) (fun _ _ _ _ => ⟨trivial, trivial⟩) (fun _ _ k hk => by cases hk)
      (fun _ _ _ _ k hk => by cases hk) fun d s' hs' hcopy k hk => ?_
    obtain rfl := Option.some.inj hk
    exact hcopy.privateCopy h hs'
  exact wp_ok hwp hrun d rfl

/-! ### There are enough pages -/

theorem card_entryPages (e : Word) : (entryPages e).card = if Present e then 1 else 0 := by
  rw [entryPages]
  split <;> simp

theorem card_pointedBy_le (q : Nat) : (s.pointedBy q).card ≤ 1024 := by
  rw [pointedBy, card_total]
  calc ∑ i, (entryPages (s.entry q i)).card ≤ ∑ _i : Fin 1024, 1 := by
        refine Finset.sum_le_sum fun i _ => ?_
        rw [card_entryPages]
        split <;> omega
    _ = 1024 := by simp

theorem card_digits_le (b n : Nat) :
    (Finset.univ.filter fun p : Fin b × Fin b => b * p.1.val + p.2.val < n).card ≤ n := by
  conv_rhs => rw [← Finset.card_range n]
  refine Finset.card_le_card_of_injOn (fun p => b * p.1.val + p.2.val) (fun p hp => ?_) fun p _ p' _ heq => ?_
  · exact Finset.mem_coe.mpr (Finset.mem_range.mpr (Finset.mem_filter.mp hp).2)
  · have hfirst : p.1.val = p'.1.val := by
      have hdiv := congrArg (· / b) heq
      simp only [Nat.mul_add_div (Nat.zero_lt_of_lt p.2.isLt), Nat.div_eq_of_lt p.2.isLt, Nat.div_eq_of_lt p'.2.isLt] at hdiv
      omega
    simp only [hfirst] at heq
    exact Prod.ext (Fin.ext hfirst) (Fin.ext (by omega))

theorem card_userPages_le {n : Nat} (h : ∀ i j, i.val < 512 → s.space d i j ≠ none → 1024 * i.val + j.val < n) :
    (s.userPages d).card ≤ n := by
  have hslot : ∀ i, (s.slotPages d i).card ≤ ∑ j : Fin 1024, if 1024 * i.val + j.val < n then 1 else 0 := by
    intro i
    rw [slotPages]
    split
    · rename_i hi
      rw [pointedBy, card_total]
      refine Finset.sum_le_sum fun j _ => ?_
      rw [card_entryPages]
      split
      · rename_i hp
        rw [if_pos (h i j hi.1 (by rw [space_present hi.2 hp]; simp))]
      · exact Nat.zero_le _
    · exact Nat.zero_le _
  rw [userPages, card_total]
  calc ∑ i, (s.slotPages d i).card ≤ ∑ i : Fin 1024, ∑ j : Fin 1024, if 1024 * i.val + j.val < n then 1 else 0 :=
        Finset.sum_le_sum fun i _ => hslot i
    _ = (Finset.univ.filter fun p : Fin 1024 × Fin 1024 => 1024 * p.1.val + p.2.val < n).card := by
        rw [← Finset.univ_product_univ, Finset.card_filter, Finset.sum_product]
    _ ≤ n := card_digits_le 1024 n

/-- If `kalloc` fails only when there is no page left, then all pages have been taken. -/
theorem Region.exhausted {lost : Multiset Nat} (h : Region L (s.scope 0 0) s' dirs lost) (hluck : ∀ n, s.luck n = false)
    (hwhy : (s.scope 0 0).unlucky ∨ s'.free = []) : ((dirs.map s'.dirPages).sum + lost).card = s.free.length := by
  have hempty : s'.free = [] := by
    refine hwhy.resolve_left fun hunlucky => ?_
    obtain ⟨n, hn⟩ := hunlucky
    rw [hluck n] at hn
    cases hn
  have howned : s'.owned dirs lost = s.free := h.owned.trans owned_free_only
  rw [← Multiset.coe_card, ← howned, Memory.owned, hempty, Multiset.coe_nil, zero_add]

/-- A directory for the kernel alone takes no more pages than it has entries, and one for itself. -/
theorem card_kernelDir {d : Nat} (hspace : s.space d = kernelSpace (kmap L)) : (s.dirPages d).card ≤ 1025 := by
  have huser : (s.userPages d).card ≤ 0 := card_userPages_le fun i j hi hne => by
    rw [hspace, kernelSpace_low hi] at hne
    exact absurd rfl hne
  have htables := card_pointedBy_le (s := s) d
  rw [dirPages, Multiset.card_add, Multiset.card_add, Multiset.card_singleton]
  omega

/-- With enough free pages, and if `kalloc` gives them, there is a new directory. -/
theorem wp_setupkvm_lucky {Q : Option Nat × Bool → Memory → Prop} {E : Panic → Prop} (h : Isolated L s dirs held)
    (hluck : ∀ n, s.luck n = false) (hroom : 1025 < s.free.length)
    (hsome : ∀ d s', Region L (s.scope 0 0) s' {d} 0 → s'.space d = kernelSpace (kmap L) →
      (∀ i : Fin 1024, i.val < 512 → ¬Present (s'.entry d i)) → s.free.length ≤ s'.free.length + 1025 → Q (some d, false) s') :
    wp (setupkvmTraced L) Q E s := by
  have hregion : Region L (s.scope 0 0) s 0 0 := (h.mono (Multiset.zero_le _) (Multiset.zero_le _)).region
  refine wp_setupkvmTraced hregion (fun s' hs' hwhy => ?_) (fun s' d hs' hwhy => ?_) fun d s' hs' hspace hlow =>
    hsome d s' hs' hspace hlow ?_
  · have hpages := hs'.exhausted hluck hwhy
    rw [Multiset.map_zero, Multiset.sum_zero, add_zero, Multiset.card_zero] at hpages
    omega
  · have hpages := hs'.exhausted hluck hwhy
    have hcard := card_pointedBy_le (s := s') d
    rw [Multiset.map_zero, Multiset.sum_zero, zero_add, add_zero, Multiset.card_cons] at hpages
    omega
  · have hcard := card_kernelDir hspace
    have howned := congrArg Multiset.card (hs'.owned.trans owned_free_only)
    rw [Memory.owned, Multiset.map_cons, Multiset.map_zero, Multiset.sum_cons, Multiset.sum_zero, add_zero, add_zero,
      Multiset.card_add, Multiset.coe_card, Multiset.coe_card] at howned
    omega

theorem copyuvm_returns {rest : Multiset Nat} (h : Isolated L s (pgdir ::ₘ rest) held)
    (hmapped : ∀ i j, pageAddr i j < sz.toNat → s.space pgdir i j ≠ none) (hsz : sz.toNat ≤ kernbase)
    (hluck : ∀ n, s.luck n = false) (hroom : 1026 + (sz.toNat + 4095) / pgsize < s.free.length) :
    ∃ d s', copyuvm L pgdir sz s = .ok (some d, s') := by
  unfold pgsize at hroom
  have hwp : wp (copyuvm L pgdir sz) (fun r _ => r ≠ none) (fun _ => False) s := by
    rw [copyuvm_eq, wp_map]
    unfold copyuvmTraced
    rw [wp_bind]
    refine wp_setupkvm_lucky h hluck (by omega) fun d s₁ hs₁ hspace _ _ => ?_
    have hcount : ∀ s₂ lost, Region L (s.scope 0 0) s₂ {d} lost → NoneFrom s₂ d sz →
        (s.scope 0 0).unlucky ∨ s₂.free = [] → 1 < lost.card := by
      intro s₂ lost hs₂ hfrom hwhy
      have hpages := hs₂.exhausted hluck hwhy
      have hcard := card_pointedBy_le (s := s₂) d
      rw [Multiset.map_singleton, Multiset.sum_singleton, dirPages, Multiset.card_add, Multiset.card_add, Multiset.card_add,
        Multiset.card_singleton] at hpages
      have huser : (s₂.userPages d).card ≤ (sz.toNat + 4095) / 4096 := by
        refine card_userPages_le fun i j hi hmapped => ?_
        have hlow := low_iff (j := j).mp hi
        have hlt : pageAddr i j < sz.toNat := by
          by_contra hge
          exact hmapped (hfrom i j (not_lt.mp hge) hlow)
        unfold pageAddr pgsize at *
        omega
      omega
    rw [wp_bind]
    refine wp_copyLoopTraced h.aside hs₁ (fun hbig => absurd hsz (not_le.mpr hbig))
      (fun i j hlt hnone => absurd hnone (hmapped i j hlt)) rfl (Nat.zero_le _) ?_
      (fun i j _ hto => ?_) ?_ (fun s₂ _ _ _ => ?_) (fun s₂ hs₂ hfrom hwhy => ?_) fun s₂ q hs₂ hfrom hwhy => ?_
    · change sz.toNat ≤ 0 + pgsize * (sz.toNat / pgsize + 1)
      unfold pgsize
      omega
    · rw [hspace, kernelSpace_low (low_iff.mpr hto)]
    · rw [hspace]
      exact kernelSpace_first
    · exact Option.some_ne_none d
    · exact absurd (hcount s₂ 0 hs₂ hfrom hwhy) (by simp)
    · exact absurd (hcount s₂ _ hs₂ hfrom hwhy) (by simp)
  obtain ⟨r, s', hrun, hne⟩ := exists_ok hwp fun _ => id
  obtain ⟨d, rfl⟩ := Option.ne_none_iff_exists'.mp hne
  exact ⟨d, s', hrun⟩

def manyPages : List Nat := List.range' 1003 1100

theorem isolated_manyPages : Isolated smallLayout (onePage 0 0 manyPages fun _ => false) {1000} 0 := by
  have hfree : ∀ q ∈ manyPages, 1003 ≤ q ∧ q < 2103 := by
    intro q hq
    have hmem := List.mem_range'_1.mp hq
    omega
  have hnotin : ∀ q, q < 1003 → q ∉ manyPages := fun q hq hmem => absurd (hfree q hmem).1 (not_le.mpr hq)
  have hnodup : manyPages.Nodup := List.nodup_range'
  refine isolated_onePage _ (by decide) ?_ fun q hq => ?_
  · simp only [List.nodup_cons, List.mem_cons, not_or]
    exact ⟨⟨by decide, by decide, hnotin _ (by decide)⟩, ⟨by decide, hnotin _ (by decide)⟩, hnotin _ (by decide), hnodup⟩
  · have hbounds : 1000 ≤ q ∧ q < 2103 := by
      simp only [List.mem_cons] at hq
      rcases hq with hq | hq | hq | hmem
      · omega
      · omega
      · omega
      · have := hfree q hmem
        omega
    constructor
    · change kernbase + extmem + 0x10000 ≤ kernbase + pgsize * q
      unfold extmem pgsize
      omega
    · unfold phystop pgsize
      omega

/-- A process of one page forks. -/
theorem copyuvm_copies_onePage : ∃ d s',
    copyuvm smallLayout 1000 4096 (onePage 0 0 manyPages fun _ => false) = .ok (some d, s') ∧
      PrivateCopy smallLayout (onePage 0 0 manyPages fun _ => false) s' 1000 d 4096
        ((onePage 0 0 manyPages fun _ => false).inUse {1000} 0) := by
  have hfull : FullyMapped (onePage 0 0 manyPages fun _ => false) 1000 4096 := fullyMapped_onePage _
  have hfree : (onePage 0 0 manyPages fun _ => false).free.length = 1100 := List.length_range'
  have hroom : 1026 + ((4096 : Word).toNat + 4095) / pgsize < (onePage 0 0 manyPages fun _ => false).free.length := by
    rw [hfree]
    decide
  obtain ⟨d, s', hrun⟩ := copyuvm_returns isolated_manyPages hfull.mapped (by decide) (fun _ => rfl) hroom
  exact ⟨d, s', hrun, copyuvm_copies isolated_manyPages hrun⟩

end Xv6.Vm
