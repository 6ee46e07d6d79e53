import Xv6.Vm.Kernel

/-!
# What `mappages` maps

The translations of a directory before and after a call, for any range of addresses up to the last page of
the address space. The pages that are new are the first ones of the range, all of them unless no page table
could be had, and the loop ends at the last page however many rounds it is given.
-/

namespace Xv6.Vm

open Lib Syscall Memory

variable {s s' : Memory} {d t : Nat} {i j : Fin 1024} {a va size last pa perm e : Word}

/-- The entry that translates page `j` below entry `i` of the directory in page `d`. -/
def Memory.translate (s : Memory) (d : Nat) (i j : Fin 1024) : Option Word :=
  if Present (s.entry d i) ∧ Present (s.entry (pteAddr (s.entry d i)) j) then some (s.entry (pteAddr (s.entry d i)) j)
  else none

theorem translate_congr (hdir : s'.entry d i = s.entry d i) (hpte : Present (s.entry d i) →
    s'.entry (pteAddr (s.entry d i)) j = s.entry (pteAddr (s.entry d i)) j) : s'.translate d i j = s.translate d i j := by
  rw [Memory.translate, Memory.translate, hdir]
  by_cases hi : Present (s.entry d i)
  · rw [hpte hi]
  · rw [if_neg fun hp => hi hp.1, if_neg fun hp => hi hp.1]

/-- The directory in page `d`, its page tables and the free pages are different pages. -/
structure Tables (s : Memory) (d : Nat) : Prop where
  nodup : ({d} + s.pointedBy d + s.free).Nodup
  low : ∀ q ∈ s.free, q < 2 ^ 20

/-- The directories of the system are of this kind. -/
theorem Isolated.tables {L : Layout} {dirs held : Multiset Nat} (h : Isolated L s dirs held) (hd : d ∈ dirs) :
    Tables s d := by
  obtain ⟨rest, rfl⟩ := Multiset.exists_cons_of_mem hd
  refine ⟨Multiset.nodup_of_le ?_ h.nodup, fun q hq => (h.ram q (mem_owned_of_free hq)).lt⟩
  refine Multiset.le_iff_exists_add.mpr ⟨s.userPages d + (rest.map s.dirPages).sum + held, ?_⟩
  rw [owned_cons, owned, dirPages]
  abel

namespace Tables

theorem congr (h : Tables s d) (hentry : ∀ i, s'.entry d i = s.entry d i) (hfree : s'.free = s.free) : Tables s' d := by
  obtain ⟨hnodup, hlow⟩ := h
  constructor
  · rwa [pointedBy_congr hentry, hfree]
  · rwa [hfree]

theorem ne_dir (h : Tables s d) (hi : Present (s.entry d i)) : pteAddr (s.entry d i) ≠ d :=
  table_ne_dir (Multiset.nodup_add.mp h.nodup).1 (mem_pointedBy hi)

theorem fresh (h : Tables s d) (ht : t ∈ s.free) : t ≠ d ∧ ∀ i, Present (s.entry d i) → pteAddr (s.entry d i) ≠ t := by
  have hdisj := Multiset.disjoint_right.mp (Multiset.nodup_add.mp h.nodup).2.2 ht
  rw [Multiset.mem_add, not_or, Multiset.mem_singleton] at hdisj
  refine ⟨hdisj.1, fun i hi => ?_⟩
  rintro rfl
  exact hdisj.2 (mem_pointedBy hi)

theorem entry_setPte (h : Tables s d) (hi : Present (s.entry d i)) (k : Fin 1024) :
    (s.setEntry (pteAddr (s.entry d i)) j e).entry d k = s.entry d k :=
  entry_setEntry_of_ne s (h.ne_dir hi).symm _ _ _

theorem translate_setPte (h : Tables s d) (hi : Present (s.entry d i)) (he : Present e) (k l : Fin 1024) :
    (s.setEntry (pteAddr (s.entry d i)) j e).translate d k l = if k = i ∧ l = j then some e else s.translate d k l := by
  by_cases hkl : k = i ∧ l = j
  · obtain ⟨rfl, rfl⟩ := hkl
    rw [if_pos ⟨rfl, rfl⟩, Memory.translate, h.entry_setPte hi, entry_setEntry_same, if_pos ⟨hi, he⟩]
  rw [if_neg hkl]
  refine translate_congr (h.entry_setPte hi k) fun hk => ?_
  by_cases hki : k = i
  · subst hki
    exact entry_setEntry_ne s (fun hlj => hkl ⟨rfl, hlj⟩) e
  · exact entry_setEntry_of_ne s (fun heq => hki (table_injective (Multiset.nodup_add.mp h.nodup).1 hk hi heq)) _ _ _

end Tables

/-- A call of `kalloc` on the way from `s` to `s'` has failed. -/
def Starved (s s' : Memory) : Prop := s'.free = [] ∨ ∃ n, s.luck n = true

/-! ### `walkpgdir` -/

/-- On the way to an entry no translation changes. -/
structure Walked (s s' : Memory) (d : Nat) : Prop where
  tables : Tables s' d
  translate : ∀ i j, s'.translate d i j = s.translate d i j
  luck : ∀ n, s'.luck n = true → ∃ m, s.luck m = true

theorem walkpgdir_walked (h : Tables s d) (va : Word) : ∃ r s', walkpgdir d va true s = .ok (r, s') ∧ Walked s s' d ∧
    (r = none ∧ Starved s s' ∨ Present (s'.entry d (pdx va)) ∧ r = some (pteAddr (s'.entry d (pdx va)), ptx va)) := by
  refine exists_ok (E := fun _ => False) ?_ fun _ => id
  have hluck : ∀ n, s.luck (n + 1) = true → ∃ m, s.luck m = true := fun n hn => ⟨n + 1, hn⟩
  unfold walkpgdir
  rw [wp_bind, wp_get, wp_ite]
  split
  · rename_i hp
    exact ⟨⟨h, fun _ _ => rfl, fun n hn => ⟨n, hn⟩⟩, .inr ⟨hp, rfl⟩⟩
  rename_i hp
  rw [if_neg (by decide), wp_bind]
  by_cases hrefused : s.luck 0 = true ∨ s.free = []
  · rw [wp_of_ok (kalloc_refused hrefused)]
    exact ⟨⟨h.congr (fun _ => rfl) rfl, fun _ _ => rfl, hluck⟩, .inl ⟨rfl, hrefused.symm.imp id fun h0 => ⟨0, h0⟩⟩⟩
  obtain ⟨hlucky, hsome⟩ := not_or.mp hrefused
  obtain ⟨t, rest, hfree⟩ := List.exists_cons_of_ne_nil hsome
  obtain ⟨hne, hapart⟩ := h.fresh (t := t) (by simp [hfree])
  obtain ⟨hpresent, haddr⟩ := tableEntry (h.low t (by simp [hfree]))
  rw [wp_of_ok (kalloc_eq (by simpa using hlucky) hfree)]
  simp only [setPage, setEntry, wp_bind, wp_modify, wp_pure]
  generalize hs' : Memory.setEntry _ d (pdx va) _ = s'
  have hhere : s'.entry d (pdx va) = v2p t ||| pteP ||| pteW ||| pteU := hs' ▸ entry_setEntry_same _ _ _ _
  have hother : ∀ k, k ≠ pdx va → s'.entry d k = s.entry d k := by
    intro k hk
    rw [← hs', entry_setEntry_ne _ hk, entry_setPage_of_ne _ hne.symm]
    rfl
  refine ⟨⟨⟨?_, fun q hq => h.low q ?_⟩, fun k l => ?_, hs' ▸ hluck⟩, .inr ⟨hhere ▸ hpresent, ?_⟩⟩
  · have hnodup := h.nodup
    rw [hfree, ← Multiset.cons_coe, ← Multiset.singleton_add, ← add_assoc,
      add_assoc {d} (s.pointedBy d)] at hnodup
    rw [← hs', pointedBy_addTable _ hpresent haddr, pointedBy_congr (s := s)]
    · exact hnodup
    · exact fun i => entry_setPage_of_ne _ hne.symm _ _
    · rwa [entry_setPage_of_ne _ hne.symm]
  · rw [← hs'] at hq
    rw [hfree]
    exact List.mem_cons_of_mem t hq
  · by_cases hk : k = pdx va
    · have hempty : ¬Present (s'.entry t l) := by
        rw [← hs', entry_setEntry_of_ne _ hne, entry_setPage_zero]
        exact not_present_zero
      rw [hk, Memory.translate, hhere, haddr, if_neg fun hboth => hempty hboth.2, Memory.translate, if_neg fun hboth => hp hboth.1]
    · refine translate_congr (hother k hk) fun hold => ?_
      rw [← hs', entry_setEntry_of_ne _ (h.ne_dir hold), entry_setPage_of_ne _ (hapart k hold)]
      rfl
  · rw [hhere, haddr]

/-! ### The loop -/

/-- The pages from address `a` up to `b` are mapped in order to the pages from `pa` on, and nothing else has changed. -/
def Installed (s s' : Memory) (d a b : Nat) (pa perm : Word) : Prop :=
  ∀ i j, s'.translate d i j = if a ≤ pageAddr i j ∧ pageAddr i j < b then
    some ((pa + BitVec.ofNat 32 (pageAddr i j - a)) ||| perm ||| pteP) else s.translate d i j

theorem Installed.none {a b : Nat} (hle : b ≤ a) (h : ∀ i j, s'.translate d i j = s.translate d i j) :
    Installed s s' d a b pa perm := by
  intro i j
  rw [h i j, if_neg (by omega)]

theorem Installed.cons {s₁ : Memory} {b : Nat} (ha : a.toNat % pgsize = 0) (hb : a.toNat < b)
    (hfirst : ∀ i j, s₁.translate d i j =
      if i = pdx a ∧ j = ptx a then some (pa ||| perm ||| pteP) else s.translate d i j)
    (h : Installed s₁ s' d (a.toNat + pgsize) b (pa + 4096) perm) : Installed s s' d a.toNat b pa perm :=
  range_cons (· ||| perm ||| pteP) (· < b) ha hb hfirst h

/-- One round: there is no table for page `a`, or it is mapped and the loop goes on behind it. -/
theorem mapLoop_round (last pa perm : Word) (h : Tables s d) (hnone : s.translate d (pdx a) (ptx a) = none) :
    ∃ s', (∀ n, s'.luck n = true → ∃ m, s.luck m = true) ∧
      ((∀ n, mapLoop d perm (n + 1) a last pa s = .ok (false, s')) ∧ Starved s s' ∧
          (∀ i j, s'.translate d i j = s.translate d i j) ∨
        (∀ n, mapLoop d perm (n + 1) a last pa s =
          (if a = last then pure true else mapLoop d perm n (a + 4096) last (pa + 4096)) s') ∧ Tables s' d ∧
          ∀ i j, s'.translate d i j = if i = pdx a ∧ j = ptx a then some (pa ||| perm ||| pteP) else s.translate d i j) := by
  obtain ⟨r, s₁, hwalk, hwalked, ⟨rfl, hstarved⟩ | ⟨hp, rfl⟩⟩ := walkpgdir_walked h a
  · exact ⟨s₁, hwalked.luck, .inl ⟨fun n => bind_of_ok hwalk, hstarved, hwalked.translate⟩⟩
  have htables := hwalked.tables
  refine ⟨s₁.setEntry (pteAddr (s₁.entry d (pdx a))) (ptx a) (pa ||| perm ||| pteP), hwalked.luck,
    .inr ⟨fun n => ?_, htables.congr (htables.entry_setPte hp) rfl, fun i j => ?_⟩⟩
  · have habsent : ¬(s₁.entry (pteAddr (s₁.entry d (pdx a))) (ptx a) &&& pteP ≠ 0) := by
      intro hpte
      have hsame := hwalked.translate (pdx a) (ptx a)
      rw [hnone, Memory.translate, if_pos ⟨hp, hpte⟩] at hsame
      cases hsame
    refine (bind_of_ok hwalk).trans ?_
    change (if _ &&& pteP ≠ 0 then _ else _ : VmM Bool) s₁ = _
    rw [if_neg habsent]
    rfl
  · rw [htables.translate_setPte hp (present_or _), hwalked.translate]

theorem mapLoop_installed {m : Nat} (pa perm : Word) (h : Tables s d) (ha : a.toNat % pgsize = 0)
    (hlast : last.toNat = a.toNat + pgsize * m)
    (hnone : ∀ i j, a.toNat ≤ pageAddr i j → pageAddr i j ≤ last.toNat → s.translate d i j = none) :
    ∃ r s', (∀ n, mapLoop d perm (m + 1 + n) a last pa s = .ok (r, s')) ∧
      (if r then Installed s s' d a.toNat (last.toNat + pgsize) pa perm
        else Starved s s' ∧ ∃ b, a.toNat ≤ b ∧ b ≤ last.toNat ∧ Installed s s' d a.toNat b pa perm) := by
  induction m using Nat.strong_induction_on generalizing s a pa with
  | _ m ih =>
    have hindex := pageAddr_index ha
    obtain ⟨s₁, hluck, ⟨hrun, hstarved, hsame⟩ | ⟨hrun, htables, hfirst⟩⟩ :=
      mapLoop_round last pa perm h (hnone _ _ hindex.ge (by omega))
    · exact ⟨false, s₁, fun n => by rw [Nat.add_right_comm, hrun], hstarved, a.toNat, le_rfl, by omega, .none le_rfl hsame⟩
    cases m with
    | zero =>
      refine ⟨true, s₁, fun n => ?_, .cons ha (by unfold pgsize; omega) hfirst (.none (by omega) fun _ _ => rfl)⟩
      rw [Nat.add_right_comm, hrun, if_pos (BitVec.eq_of_toNat_eq (by omega))]
      rfl
    | succ m =>
      have hlt := last.isLt
      have hnext : (a + 4096).toNat = a.toNat + pgsize := by
        rw [BitVec.toNat_add]
        exact Nat.mod_eq_of_lt (by change a.toNat + 4096 < 2 ^ 32; unfold pgsize at hlast; omega)
      have hne : a ≠ last := by
        rintro rfl
        unfold pgsize at hlast
        omega
      obtain ⟨r, s', hend, hcases⟩ := ih m (Nat.lt_succ_self m) (pa + 4096) htables (aligned_next ha)
        (by rw [hnext, hlast]; unfold pgsize; omega) fun i j hfrom hto => by
          unfold pgsize at hnext
          rw [hfirst i j, if_neg (by rintro ⟨rfl, rfl⟩; omega), hnone i j (by omega) hto]
      rw [hnext] at hcases
      refine ⟨r, s', fun n => by rw [Nat.add_right_comm, hrun, if_neg hne, hend n], ?_⟩
      cases r with
      | true => exact .cons ha (by unfold pgsize; omega) hfirst hcases
      | false =>
        obtain ⟨hstarved, b, hfrom, hto, hinstalled⟩ := hcases
        exact ⟨hstarved.imp id fun ⟨n, hn⟩ => hluck n hn, b, by omega, hto,
          .cons ha (by unfold pgsize at hfrom; omega) hfirst hinstalled⟩

/-- All pages that meet the range are installed, or those below some address if there was no page for a table; the
entry of a page is the address of its frame with the permissions. The loop takes no more rounds if it may. -/
def Maps (s s' : Memory) (d : Nat) (va size pa perm : Word) (r : Bool) : Prop :=
  (∀ n, mapLoop d perm ((va.toNat % pgsize + size.toNat - 1) / pgsize + 1 + n) (pgrounddown va)
    (pgrounddown (va + size - 1)) pa s = .ok (r, s')) ∧
  if r then Installed s s' d (pgrounddown va).toNat (va.toNat + size.toNat) pa perm
  else Starved s s' ∧ ∃ b ≤ (pgrounddown (va + size - 1)).toNat, Installed s s' d (pgrounddown va).toNat b pa perm

theorem mappages_installs (h : Tables s d) (hsize : 0 < size.toNat) (hwrap : va.toNat + size.toNat ≤ 2 ^ 32)
    (hnone : ∀ i j, va.toNat < pageAddr i j + pgsize → pageAddr i j < va.toNat + size.toNat → s.translate d i j = none) :
    ∃ r s', mappages d va size pa perm s = .ok (r, s') ∧ Maps s s' d va size pa perm r := by
  obtain ⟨hlast, hcall⟩ := mappages_eq d pa perm hsize hwrap
  have hend : (va + size - 1).toNat = va.toNat + size.toNat - 1 := by bv_omega
  have ha : (pgrounddown va).toNat % pgsize = 0 := by
    rw [toNat_pgrounddown]
    exact Nat.mul_mod_left _ _
  obtain ⟨r, s', hrun, hcases⟩ := mapLoop_installed pa perm h ha hlast fun i j hfrom hto => hnone i j
    (by rw [toNat_pgrounddown] at hfrom; unfold pgsize at *; omega)
    (by rw [toNat_pgrounddown, hend] at hto; unfold pgsize at *; omega)
  refine ⟨r, s', (congrFun hcall s).trans (hrun 0), hrun, ?_⟩
  cases r with
  | true =>
    -- The page behind the last one is the first that begins behind the range.
    intro i j
    have hiff : pageAddr i j < (pgrounddown (va + size - 1)).toNat + pgsize ↔ pageAddr i j < va.toNat + size.toNat := by
      rw [toNat_pgrounddown, hend]
      unfold pageAddr pgsize
      omega
    exact (hcases i j).trans (if_congr (and_congr_right' hiff) rfl rfl)
  | false =>
    obtain ⟨hstarved, b, -, hb, hinstalled⟩ := hcases
    exact ⟨hstarved, b, hb, hinstalled⟩

/-- The last page of the address space. -/
theorem mappages_installs_top : ∃ r s', mappages 1000 0xFFFFF000 1 0x5000 pteW (emptyDir [1001] fun _ => false) = .ok (r, s') ∧
    Maps (emptyDir [1001] fun _ => false) s' 1000 0xFFFFF000 1 0x5000 pteW r :=
  mappages_installs ((isolated_emptyDir _ (by decide) (by decide)).tables (Multiset.mem_singleton_self _)) (by decide)
    (by decide) fun i _ _ _ => if_neg fun hp => Isolated.not_present_newDir i hp.1

end Xv6.Vm
