import Xv6.Vm.Alloc

/-!
# The kernel part of an address space

What `setupkvm` maps, read off `kmap`. The ranges do not overlap, so no page is mapped twice and the function
does not panic; it fails only for want of a page, and then it loses the directory and the tables it has made.
-/

namespace Xv6.Vm

open Lib Syscall Memory

variable {L : Layout} {s s' : Memory} {w : Scope} {dirs held : Multiset Nat} {d : Nat} {i j : Fin 1024}
  {E : Panic → Prop} {a last pa perm : Word}

abbrev Krange := Word × Word × Word × Word

def kernelPage (k : Krange) (i j : Fin 1024) : Option Mapping :=
  if k.1.toNat ≤ pageAddr i j ∧ pageAddr i j < k.1.toNat + (k.2.2.1 - k.2.1).toNat then
    some ((k.2.1 + BitVec.ofNat 32 (pageAddr i j - k.1.toNat)) ||| k.2.2.2 ||| pteP, none)
  else none

def kernelSpace (ks : List Krange) (i j : Fin 1024) : Option Mapping := ks.findSome? fun k => kernelPage k i j

/-! ### One range -/

/-- The pages from `a` to `last` are mapped in order. -/
def MapsRange (s s' : Memory) (d : Nat) (a last pa perm : Word) : Prop :=
  ∀ i j, s'.space d i j = if a.toNat ≤ pageAddr i j ∧ pageAddr i j ≤ last.toNat then
    some ((pa + BitVec.ofNat 32 (pageAddr i j - a.toNat)) ||| perm ||| pteP, none) else s.space d i j

def SameUser (s s' : Memory) (d : Nat) : Prop := ∀ i j, i.val < 512 → s'.space d i j = s.space d i j

theorem MapsRange.cons {s₁ : Memory} (ha : a.toNat % pgsize = 0) (hle : a.toNat ≤ last.toNat)
    (hfirst : s₁.space d = put (s.space d) (pdx a) (ptx a) (some (pa ||| perm ||| pteP, none)))
    (h : ∀ i j, s'.space d i j = if a.toNat + pgsize ≤ pageAddr i j ∧ pageAddr i j ≤ last.toNat then
      some ((pa + 4096 + BitVec.ofNat 32 (pageAddr i j - (a.toNat + pgsize))) ||| perm ||| pteP, none)
      else s₁.space d i j) : MapsRange s s' d a last pa perm :=
  range_cons (fun x => (x ||| perm ||| pteP, none)) (· ≤ last.toNat) ha hle (fun i j => congrFun (congrFun hfirst i) j) h

theorem MapsRange.sameUser (h : MapsRange s s' d a last pa perm) (ha : kernbase ≤ a.toNat) : SameUser s s' d := by
  intro i j hi
  have hlow := low_iff (j := j).mp hi
  rw [h i j, if_neg]
  omega

/-- The entries of the directory for the user part are as they were. -/
def SameTables (s s' : Memory) (d : Nat) : Prop := ∀ i : Fin 1024, i.val < 512 → s'.entry d i = s.entry d i

theorem wp_mapRound {Q : Bool → Memory → Prop} {n : Nat} (h : Region L w s dirs held) (hd : d ∈ dirs)
    (hhigh : kernbase ≤ a.toNat) (hpa : pa.toNat % pgsize = 0) (hperm : perm &&& pteU = 0)
    (hnone : s.space d (pdx a) (ptx a) = none)
    (htrue : ∀ s', Region L w s' dirs held →
      s'.space d = put (s.space d) (pdx a) (ptx a) (some (pa ||| perm ||| pteP, none)) → SameTables s s' d →
        wp (if a = last then pure true else mapLoop d perm n (a + 4096) last (pa + 4096)) Q E s')
    (hfalse : ∀ s', Region L w s' dirs held → s'.space d = s.space d → w.unlucky ∨ s'.free = [] → Q false s') :
    wp (mapLoop d perm (n + 1) a last pa) Q E s := by
  have hindex : 512 ≤ (pdx a).val := not_lt.mp fun hlt => absurd (pdx_lt.mp hlt) (not_lt.mpr hhigh)
  unfold mapLoop
  rw [wp_bind]
  refine wp_walkpgdir_alloc h hd (fun s' hs' _ hpage _ => hfalse s' hs' (space_frame fun q _ => congrFun hpage q))
    fun s' hs' hopen => ?_
  have habsent : ¬Present (s'.entry (pteAddr (s'.entry d (pdx a))) (ptx a)) := by
    rw [← space_eq_none hopen.here, hopen.space]
    exact hnone
  have hpresent : Present (pa ||| perm ||| pteP) := present_or _
  simp only [wp_bind, wp_get, wp_ite, setEntry, wp_modify, wp_throw]
  split
  · rename_i hp
    exact absurd hp habsent
  · rw [← wp_ite]
    refine htrue _ (hs'.setPte hd hopen.here ?_ ⟨fun _ _ => ?_, fun hlow => absurd hlow (by omega)⟩) ?_ fun k hk => ?_
    · rw [if_neg (by omega), if_neg (by omega)]
    · rw [BitVec.and_or_distrib_right, BitVec.and_or_distrib_right, and_pteU_of_aligned hpa, hperm]
      rfl
    · rw [space_setPte (hs'.nodup hd) hopen.here fun hlow => absurd hlow (by omega), if_pos hpresent, hopen.space, content,
        if_neg (by omega)]
    · rw [entry_setEntry_of_ne s' (ne_of_mem_pointedBy (hs'.nodup hd) (mem_pointedBy hopen.here)).symm]
      refine hopen.other k ?_
      rintro rfl
      omega

theorem wp_mapLoop {Q : Bool → Memory → Prop} {n : Nat} (h : Region L w s dirs held) (hd : d ∈ dirs)
    (ha : a.toNat % pgsize = 0) (hhigh : kernbase ≤ a.toNat) (hlast : last.toNat = a.toNat + pgsize * n)
    (hpa : pa.toNat % pgsize = 0) (hperm : perm &&& pteU = 0)
    (hnone : ∀ i j, a.toNat ≤ pageAddr i j → pageAddr i j ≤ last.toNat → s.space d i j = none)
    (htrue : ∀ s', Region L w s' dirs held → MapsRange s s' d a last pa perm → SameTables s s' d → Q true s')
    (hfalse : ∀ s', Region L w s' dirs held → SameUser s s' d → w.unlucky ∨ s'.free = [] → Q false s') :
    wp (mapLoop d perm (n + 1) a last pa) Q E s := by
  induction n generalizing s a pa with
  | zero =>
    have hindex := pageAddr_index ha
    refine wp_mapRound h hd hhigh hpa hperm (hnone _ _ hindex.ge (by omega)) (fun s' hs' hspace htables => ?_)
      fun s' hs' hspace => hfalse s' hs' fun i j _ => by rw [hspace]
    rw [if_pos (BitVec.eq_of_toNat_eq (by omega))]
    refine htrue s' hs' (.cons ha (by omega) hspace fun i j => ?_) htables
    rw [if_neg (by unfold pgsize; omega)]
  | succ n ih =>
    have hindex := pageAddr_index ha
    have hlt := last.isLt
    have hnext : (a + 4096).toNat = a.toNat + pgsize := by
      rw [BitVec.toNat_add]
      exact Nat.mod_eq_of_lt (by change a.toNat + 4096 < 2 ^ 32; unfold pgsize at hlast; omega)
    refine wp_mapRound h hd hhigh hpa hperm (hnone _ _ hindex.ge (by omega)) (fun s₁ hs₁ hspace htables₁ => ?_)
      fun s' hs' hspace => hfalse s' hs' fun i j _ => by rw [hspace]
    have hne : a ≠ last := by
      rintro rfl
      unfold pgsize at hlast
      omega
    have hother : ∀ i j, a.toNat + 4096 ≤ pageAddr i j ∨ pageAddr i j < a.toNat → s₁.space d i j = s.space d i j := by
      intro i j hpage
      rw [hspace, put_of_ne]
      rintro ⟨rfl, rfl⟩
      omega
    rw [if_neg hne]
    refine ih hs₁ (aligned_next ha) (by omega) ?_ (aligned_next hpa) (fun i j hfrom hto => ?_) (fun s' hs' hmaps htables => ?_)
      fun s' hs' huser => hfalse s' hs' fun i j hi => ?_
    · rw [hnext, hlast]
      unfold pgsize
      omega
    · rw [hnext] at hfrom
      rw [hother i j (.inl hfrom), hnone i j (by omega) hto]
    · refine htrue s' hs' (.cons ha (by omega) hspace fun i j => ?_) fun k hk => (htables k hk).trans (htables₁ k hk)
      rw [hmaps i j, hnext]
    · have hlow := low_iff (j := j).mp hi
      rw [huser i j hi, hother i j (.inr (by omega))]

/-! ### All ranges -/

def Apart (k k' : Krange) : Prop := k.1.toNat + (k.2.2.1 - k.2.1).toNat ≤ k'.1.toNat

theorem kernelPage_eq_none {k : Krange} (h : ¬(k.1.toNat ≤ pageAddr i j ∧ pageAddr i j < k.1.toNat + (k.2.2.1 - k.2.1).toNat)) :
    kernelPage k i j = none := if_neg h

theorem kernelPage_apart {k k' : Krange} (h : Apart k k') (hk : kernelPage k i j ≠ none) : kernelPage k' i j = none := by
  refine kernelPage_eq_none fun hk' => hk (kernelPage_eq_none fun hin => ?_)
  unfold Apart at h
  omega

theorem wp_mapKernel {Q : Bool → Memory → Prop} {ks : List Krange}
    (hks : ∀ k ∈ ks, KernelRange k.1 (k.2.2.1 - k.2.1) k.2.1 k.2.2.2) (hapart : ks.Pairwise Apart)
    (h : Region L w s dirs held) (hd : d ∈ dirs) (hnone : ∀ k ∈ ks, ∀ i j, kernelPage k i j ≠ none → s.space d i j = none)
    (htrue : ∀ s', Region L w s' dirs held →
      (∀ i j, s'.space d i j = (kernelSpace ks i j).or (s.space d i j)) → SameTables s s' d → Q true s')
    (hfalse : ∀ s', Region L w s' dirs held → SameUser s s' d → w.unlucky ∨ s'.free = [] → Q false s') : wp (mapKernel d ks) Q E s := by
  induction ks generalizing s with
  | nil => exact htrue s h (fun i j => rfl) fun _ _ => rfl
  | cons k ks ih =>
    obtain ⟨hfirst, hrest⟩ := List.pairwise_cons.mp hapart
    have hk := hks k (List.mem_cons_self ..)
    have hpos := hk.pos
    have haligned := hk.aligned
    obtain ⟨hlast, hmap⟩ := mappages_eq d k.2.1 k.2.2.2 hpos hk.top
    rw [haligned, Nat.zero_add, pgrounddown_of_aligned haligned] at hlast hmap
    generalize pgrounddown (k.1 + (k.2.2.1 - k.2.1) - 1) = last at hlast hmap
    have hin : ∀ i j, (k.1.toNat ≤ pageAddr i j ∧ pageAddr i j ≤ last.toNat) ↔
        (k.1.toNat ≤ pageAddr i j ∧ pageAddr i j < k.1.toNat + (k.2.2.1 - k.2.1).toNat) := by
      intro i j
      rw [hlast]
      unfold pageAddr pgsize at *
      omega
    unfold mapKernel
    rw [wp_bind, hmap]
    refine wp_mapLoop h hd haligned hk.high hlast hk.pa hk.perm (fun i j hfrom hto => ?_)
      (fun s₁ hs₁ hmaps htables₁ => ?_) hfalse
    · refine hnone k (List.mem_cons_self ..) i j ?_
      rw [kernelPage, if_pos ((hin i j).mp ⟨hfrom, hto⟩)]
      simp
    have hspace : ∀ i j, s₁.space d i j = (kernelPage k i j).or (s.space d i j) := by
      intro i j
      rw [hmaps i j, kernelPage]
      by_cases hrange : k.1.toNat ≤ pageAddr i j ∧ pageAddr i j ≤ last.toNat
      · rw [if_pos hrange, if_pos ((hin i j).mp hrange)]
        rfl
      · rw [if_neg hrange, if_neg fun hr => hrange ((hin i j).mpr hr)]
        rfl
    have hsame := hmaps.sameUser hk.high
    refine ih (fun k' hk' => hks k' (List.mem_cons_of_mem _ hk')) hrest hs₁ (fun k' hk' i j hne => ?_)
      (fun s' hs' hall htables => ?_) fun s' hs' huser => hfalse s' hs' fun i j hi => (huser i j hi).trans (hsame i j hi)
    · have hclear : kernelPage k i j = none := by
        by_contra hpage
        exact hne (kernelPage_apart (hfirst k' hk') hpage)
      rw [hspace, hclear, hnone k' (List.mem_cons_of_mem _ hk') i j hne]
      rfl
    · refine htrue s' hs' (fun i j => ?_) fun k hk => (htables k hk).trans (htables₁ k hk)
      rw [hall i j, hspace, kernelSpace, kernelSpace, List.findSome?_cons]
      cases hpage : kernelPage k i j with
      | none => rfl
      | some m =>
        have hlater : ks.findSome? (fun k' => kernelPage k' i j) = none := by
          rw [List.findSome?_eq_none_iff]
          exact fun k' hk' => kernelPage_apart (hfirst k' hk') (by rw [hpage]; simp)
        rw [hlater]
        rfl

/-! ### `setupkvm` -/

theorem kmap_apart : (kmap L).Pairwise Apart := by
  have hdata := L.data_gt
  have hfin := L.fin_gt
  have htop := L.fin_le
  have hsize : ∀ {start stop : Nat}, start < 2 ^ 32 → stop < 2 ^ 32 → start ≤ stop →
      (BitVec.ofNat 32 stop - BitVec.ofNat 32 start).toNat = stop - start := by
    intro start stop hstart hstop hle
    rw [BitVec.toNat_sub, BitVec.toNat_ofNat, BitVec.toNat_ofNat, Nat.mod_eq_of_lt hstart, Nat.mod_eq_of_lt hstop]
    omega
  have hof : ∀ {n : Nat}, n < 2 ^ 32 → (BitVec.ofNat 32 n).toNat = n := fun hn => by
    rw [BitVec.toNat_ofNat, Nat.mod_eq_of_lt hn]
  simp only [kernlink, kernbase, extmem, phystop] at hdata htop
  simp only [kmap, List.pairwise_cons, List.forall_mem_cons, List.not_mem_nil, false_imp_iff, implies_true, and_true,
    List.Pairwise.nil, Apart, kernlink, kernbase, extmem, phystop, devspace]
  rw [show (0 : Word) = BitVec.ofNat 32 0 from rfl]
  refine ⟨⟨?_, ?_, ?_⟩, ⟨?_, ?_⟩, ?_⟩
  all_goals rw [hsize (by omega) (by omega) (by omega), hof (by omega), hof (by omega)]
  all_goals omega

def setupkvmTraced (L : Layout) : VmM (Option Nat × Bool) := do
  match ← kalloc with
  | none => return (none, false)
  | some pgdir =>
    setPage pgdir Bytes.zero
    if kernbase + phystop > devspace then throw .physTop
    else if ← mapKernel pgdir (kmap L) then return (some pgdir, false) else return (none, true)

theorem setupkvm_eq (L : Layout) : setupkvm L = Prod.fst <$> setupkvmTraced L := by
  unfold setupkvm setupkvmTraced
  rw [map_bind]
  congr 1
  funext r
  cases r with
  | none => rfl
  | some pgdir =>
    have hfits : ¬kernbase + phystop > devspace := by decide
    simp only [if_neg hfits, map_bind]
    congr 1
    funext _
    congr 1
    funext done
    cases done <;> rfl

theorem userPages_eq_zero (h : ∀ i j, i.val < 512 → s.space d i j = none) : s.userPages d = 0 := by
  rw [Multiset.eq_zero_iff_forall_notMem]
  intro q hq
  obtain ⟨i, hi⟩ := mem_total.mp hq
  rw [slotPages] at hi
  split at hi
  · rename_i hp
    obtain ⟨j, hj⟩ := mem_total.mp hi
    rw [(space_eq_none hp.2).mp (h i j hp.1) |> entryPages_absent] at hj
    simp at hj
  · simp at hi

theorem wp_setupkvmTraced {Q : Option Nat × Bool → Memory → Prop} (h : Region L w s dirs held)
    (hnone : ∀ s', Region L w s' dirs held → w.unlucky ∨ s'.free = [] → Q (none, false) s')
    (hlost : ∀ s' d, Region L w s' dirs (d ::ₘ (s'.pointedBy d + held)) → w.unlucky ∨ s'.free = [] → Q (none, true) s')
    (hsome : ∀ d s', Region L w s' (d ::ₘ dirs) held → s'.space d = kernelSpace (kmap L) →
      (∀ i : Fin 1024, i.val < 512 → ¬Present (s'.entry d i)) → Q (some d, false) s') :
    wp (setupkvmTraced L) Q E s := by
  unfold setupkvmTraced
  rw [wp_bind]
  refine wp_kalloc h (fun s' hs' _ _ => hnone s' hs') fun d s₁ hs₁ _ _ => ?_
  have hempty : ∀ i j, (s₁.setPage d Bytes.zero).space d i j = none := fun i j =>
    space_absent (Isolated.not_present_newDir i)
  have hd : d ∈ d ::ₘ dirs := Multiset.mem_cons_self d dirs
  simp only [setPage, wp_bind, wp_modify, wp_ite]
  rw [if_neg (by decide)]
  refine wp_mapKernel kmap_ranges kmap_apart hs₁.newDir hd (fun _ _ i j _ => hempty i j)
    (fun s' hs' hspace htables => ?_) fun s' hs' huser hwhy => ?_
  · refine hsome d s' hs' ?_ fun i hi => by rw [htables i hi]; exact Isolated.not_present_newDir i
    funext i j
    rw [hspace, hempty, Option.or_none]
  · exact hlost s' d (hs'.dissolve (userPages_eq_zero fun i j hi => by rw [huser i j hi, hempty])) hwhy

/-! ### Single calls of the allocator -/

section Kalloc

variable {s : Memory}

theorem kalloc_eq {q : Nat} {rest : List Nat} (hluck : s.luck 0 = false) (hfree : s.free = q :: rest) :
    kalloc s = .ok (some q, { s with luck := fun n => s.luck (n + 1), free := rest }) := by
  have hrun : wp kalloc (fun r s' => r = some q ∧ s' = { s with luck := fun n => s.luck (n + 1), free := rest })
      (fun _ => False) s := by
    unfold kalloc
    simp only [wp_bind, wp_get, hluck, hfree]
    exact ⟨rfl, rfl⟩
  obtain ⟨r, s', heq, rfl, rfl⟩ := exists_ok hrun fun _ => id
  exact heq

theorem kalloc_refused (h : s.luck 0 = true ∨ s.free = []) : kalloc s = .ok (none, { s with luck := fun n => s.luck (n + 1) }) := by
  have hrun : wp kalloc (fun r s' => r = none ∧ s' = { s with luck := fun n => s.luck (n + 1) }) (fun _ => False) s := by
    unfold kalloc
    simp only [wp_bind, wp_get]
    cases hluck : s.luck 0 with
    | true => exact ⟨rfl, rfl⟩
    | false =>
      rw [h.resolve_left (by rw [hluck]; decide)]
      exact ⟨rfl, rfl⟩
  obtain ⟨r, s', heq, rfl, rfl⟩ := exists_ok hrun fun _ => id
  exact heq

end Kalloc

end Xv6.Vm
