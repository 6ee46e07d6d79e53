import Xv6.Vm.Space

/-!
# The pages a function may touch

The functions of `vm.c` work on the free list, on some page directories and on pages in their variables. Taken
together these are a region of memory. Pages move inside the region, none is lost and none comes from
elsewhere, and nothing outside of it is written. Each rule says so for one function, together with what it does
to the address space; where the source loses a page, the page stays among those held.
-/

namespace Xv6.Vm

open Lib Syscall Memory

variable {L : Layout} {s s' : Memory} {w : Scope} {dirs dirs' held held' : Multiset Nat} {d q t : Nat}
  {i j : Fin 1024} {E : Panic → Prop}

/-- What is fixed while functions work on a region: its pages, the contents of all others, and whether `kalloc` may
fail while there are free pages. -/
structure Scope where
  all : Multiset Nat
  page : Nat → Page
  unlucky : Prop

structure Region (L : Layout) (w : Scope) (s : Memory) (dirs held : Multiset Nat) : Prop where
  isolated : Isolated L s dirs held
  owned : s.owned dirs held = w.all
  outside : ∀ q, L.Ram q → q ∉ w.all → s.page q = w.page q
  luck : ∀ n, s.luck n = true → w.unlucky

def Memory.scope (s : Memory) (dirs held : Multiset Nat) : Scope := ⟨s.owned dirs held, s.page, ∃ n, s.luck n = true⟩

theorem Isolated.region (h : Isolated L s dirs held) : Region L (s.scope dirs held) s dirs held :=
  ⟨h, rfl, fun _ _ _ => rfl, fun n hn => ⟨n, hn⟩⟩

theorem mem_owned_of_held (hq : q ∈ held) : q ∈ s.owned dirs held := Multiset.mem_add.mpr (.inr hq)

theorem mem_owned_of_free (hq : q ∈ s.free) : q ∈ s.owned dirs held :=
  Multiset.mem_add.mpr (.inl (Multiset.mem_add.mpr (.inl hq)))

namespace Region

section Rules

variable (h : Region L w s dirs held)

include h

theorem nodup (hd : d ∈ dirs) : (s.dirPages d).Nodup := by
  obtain ⟨rest, rfl⟩ := Multiset.exists_cons_of_mem hd
  exact h.isolated.nodup_dirPages

/-- The region's pages are rearranged, and only pages of the region are written. -/
theorem rearrange (hisolated : Isolated L s' dirs' held') (howned : s'.owned dirs' held' = s.owned dirs held)
    (hpage : ∀ q, q ∉ s.owned dirs held → s'.page q = s.page q) (hluck : ∀ n, s'.luck n = true → w.unlucky) :
    Region L w s' dirs' held' := by
  refine ⟨hisolated, howned.trans h.owned, fun q hram hq => ?_, hluck⟩
  rw [hpage q (by rwa [h.owned]), h.outside q hram hq]

theorem next : Region L w { s with luck := fun n => s.luck (n + 1) } dirs held :=
  h.rearrange (h.isolated.of_le le_rfl fun d hd => (h.isolated.tidy d hd).congr (fun _ => rfl) fun _ _ _ => rfl) rfl
    (fun _ _ => rfl) fun n hn => h.luck (n + 1) hn

theorem fill (hq : q ∈ held) (b : Page) : Region L w (s.setPage q b) dirs held := by
  refine h.rearrange (h.isolated.fill hq b) (h.isolated.owned_fill hq b) (fun q' hq' => setPage_page_ne ?_ b) h.luck
  rintro rfl
  exact hq' (mem_owned_of_held hq)

theorem alloc {rest : List Nat} (hfree : s.free = q :: rest) :
    Region L w { s with luck := fun n => s.luck (n + 1), free := rest } dirs (q ::ₘ held) :=
  h.rearrange (h.isolated.alloc hfree _) (Isolated.owned_alloc hfree _) (fun _ _ => rfl) fun n hn => h.luck (n + 1) hn

theorem setPte {e : Word} (hd : d ∈ dirs) (hi : Present (s.entry d i))
    (heq : (if i.val < 512 then entryPages e else 0) + held' =
      (if i.val < 512 then entryPages (s.entry (pteAddr (s.entry d i)) j) else 0) + held)
    (hfit : Fit i e) : Region L w (s.setEntry (pteAddr (s.entry d i)) j e) dirs held' := by
  refine h.rearrange (h.isolated.setPte hd hi heq.le hfit) ?_ (fun q hq => setEntry_page_ne ?_ e) h.luck
  · have howned := h.isolated.owned_setPte hd hi j e held'
    rw [heq] at howned
    exact add_right_cancel howned
  · rintro rfl
    exact hq (Isolated.mem_owned_of_mem_dirPages hd (mem_dirPages_of_pointedBy (mem_pointedBy hi)))

theorem write (hd : d ∈ dirs) (hq : q ∈ s.userPages d) (b : Page) : Region L w (s.setPage q b) dirs held := by
  refine h.rearrange (h.isolated.write hd hq b) ?_ (fun q' hq' => setPage_page_ne ?_ b) h.luck
  · rw [owned_kept (Isolated.kept_store (h.isolated.not_table_of_user hd hq) fun q' hq' i =>
      entry_setPage_of_ne s hq' b i), owned_eq]
    rfl
  · rintro rfl
    exact hq' (Isolated.mem_owned_of_mem_dirPages hd (mem_dirPages_of_userPages hq))

/-- A page of the free list or one that is held is not among those of a directory. -/
theorem not_mem_dirPages (hd : d ∈ dirs) (hq : q ∈ s.free ∨ q ∈ held) : q ∉ s.dirPages d := by
  obtain ⟨rest, rfl⟩ := Multiset.exists_cons_of_mem hd
  have hle : s.dirPages d + (s.free + held) ≤ s.owned (d ::ₘ rest) held := by
    rw [owned_cons, owned_eq]
    exact add_le_add_right (Multiset.le_add_right _ _) _
  refine Multiset.disjoint_right.mp (Multiset.nodup_add.mp (Multiset.nodup_of_le hle h.isolated.nodup)).2.2 ?_
  exact Multiset.mem_add.mpr (hq.imp (fun hfree => hfree) id)

theorem ram (hq : q ∈ held) : L.Ram q := h.isolated.ram q (mem_owned_of_held hq)

/-- A store into memory that nobody owns, such as the first page, which an absent entry points to. -/
theorem stray (hq : ¬L.Ram q) (b : Page) : Region L w (s.setPage q b) dirs held := by
  have hpage : ∀ q', L.Ram q' → (s.setPage q b).page q' = s.page q' := by
    intro q' hram
    refine setPage_page_ne ?_ b
    rintro rfl
    exact hq hram
  have hdir : ∀ d ∈ dirs, ∀ q' ∈ s.dirPages d, (s.setPage q b).page q' = s.page q' := fun d hd q' hq' =>
    hpage q' (h.isolated.ram q' (Isolated.mem_owned_of_mem_dirPages hd hq'))
  have howned : (s.setPage q b).owned dirs held = s.owned dirs held := by
    rw [Memory.owned, Memory.owned, Multiset.map_congr rfl fun d hd => dirPages_frame (hdir d hd)]
    rfl
  exact ⟨h.isolated.of_le howned.le fun d hd => tidy_frame (hdir d hd) (h.isolated.tidy d hd), howned.trans h.owned,
    fun q' hram hq' => (hpage q' hram).trans (h.outside q' hram hq'), h.luck⟩

/-- A store into the page of an entry below `KERNBASE`, which is the first page of memory if the entry is absent. -/
theorem writeEntry {va : Word} (hd : d ∈ dirs) (hlow : va.toNat < kernbase) (hp : Present (s.entry d (pdx va))) (b : Page) :
    Region L w (s.setPage (pteAddr (s.entry (pteAddr (s.entry d (pdx va))) (ptx va))) b) dirs held ∧
      Kept s (s.setPage (pteAddr (s.entry (pteAddr (s.entry d (pdx va))) (ptx va))) b) d := by
  have hlow' := pdx_lt.mpr hlow
  by_cases hpte : Present (s.entry (pteAddr (s.entry d (pdx va))) (ptx va))
  · have huser := mem_userPages hlow' hp (mem_pointedBy hpte)
    exact ⟨h.write hd huser b, Isolated.kept_store (h.isolated.not_table_of_user hd huser)
      (fun q' hq' i => entry_setPage_of_ne s hq' b i) d hd⟩
  · have hzero : pteAddr (0 : Word) = 0 := rfl
    have hram : ¬L.Ram 0 := by
      rintro ⟨hfin, -⟩
      have hdata := L.data_gt
      have hgt := L.fin_gt
      unfold kernlink extmem at hdata
      omega
    rw [(h.isolated.tidy d hd).absent _ _ hlow' hp hpte, hzero]
    refine ⟨h.stray hram b, .of_store (fun hmem => hram ?_) fun q' hq' i => entry_setPage_of_ne s hq' b i⟩
    exact h.isolated.ram 0 (Isolated.mem_owned_of_mem_dirPages hd hmem)

end Rules

theorem free (h : Region L w s dirs (q ::ₘ held)) (b : Page) :
    Region L w { s.setPage q b with free := q :: s.free } dirs held := by
  refine h.rearrange (h.isolated.free b) (h.isolated.owned_free b) (fun q' hq' => ?_) h.luck
  refine setPage_page_ne ?_ b
  rintro rfl
  exact hq' (mem_owned_of_held (Multiset.mem_cons_self _ _))

theorem newDir (h : Region L w s dirs (d ::ₘ held)) : Region L w (s.setPage d Bytes.zero) (d ::ₘ dirs) held := by
  refine h.rearrange h.isolated.newDir h.isolated.owned_newDir (fun q' hq' => setPage_page_ne ?_ _) h.luck
  rintro rfl
  exact hq' (mem_owned_of_held (Multiset.mem_cons_self _ _))

theorem dissolve (h : Region L w s (d ::ₘ dirs) held) (hempty : s.userPages d = 0) :
    Region L w s dirs (d ::ₘ (s.pointedBy d + held)) := by
  refine h.rearrange h.isolated.dissolve ?_ (fun _ _ => rfl) h.luck
  rw [← Isolated.owned_dissolve, hempty, add_zero]

theorem addTable {e : Word} (h : Region L w s dirs (t ::ₘ held)) (hd : d ∈ dirs) (habsent : ¬Present (s.entry d i))
    (he : Present e) (haddr : pteAddr e = t) : Region L w ((s.setPage t Bytes.zero).setEntry d i e) dirs held := by
  refine h.rearrange (h.isolated.addTable hd habsent he haddr) (h.isolated.owned_addTable hd habsent he haddr)
    (fun q hq => ?_) h.luck
  rw [setEntry_page_ne, setPage_page_ne]
  · rintro rfl
    exact hq (mem_owned_of_held (Multiset.mem_cons_self _ _))
  · rintro rfl
    exact hq (Isolated.mem_owned_of_mem_dirPages hd mem_dirPages_self)

theorem owned_split (x y x' y' : Multiset Nat) :
    s.owned (x + x') (y + y') = s.owned x y + ((x'.map s.dirPages).sum + y') := by
  rw [Memory.owned, Memory.owned, Multiset.map_add, Multiset.sum_add]
  abel

section Frame

variable {rest others : Multiset Nat} (h : Region L (s.scope dirs held) s' dirs' held')
  (hs : Isolated L s (dirs + rest) (held + others))

include h hs

theorem untouched : ∀ d ∈ rest, ∀ q ∈ s.dirPages d, s'.page q = s.page q := by
  intro d hd q hq
  have hdisj : Disjoint (s.owned dirs held) ((rest.map s.dirPages).sum + others) := by
    have hnodup := hs.nodup
    rw [owned_split] at hnodup
    exact (Multiset.nodup_add.mp hnodup).2.2
  refine h.outside q (hs.ram q (Isolated.mem_owned_of_mem_dirPages (Multiset.mem_add.mpr (.inr hd)) hq)) fun hmem =>
    Multiset.disjoint_left.mp hdisj hmem (Multiset.mem_add.mpr (.inl ?_))
  obtain ⟨rest', rfl⟩ := Multiset.exists_cons_of_mem hd
  rw [Multiset.map_cons, Multiset.sum_cons]
  exact Multiset.mem_add.mpr (.inl hq)

/-- What the region of one part of memory has become, among the other parts. -/
theorem frame : Isolated L s' (dirs' + rest) (held' + others) ∧ (∀ d ∈ rest, s'.space d = s.space d) ∧
    s'.owned (dirs' + rest) (held' + others) = s.owned (dirs + rest) (held + others) := by
  have hpage := h.untouched hs
  have hrest : rest.map s'.dirPages = rest.map s.dirPages :=
    Multiset.map_congr rfl fun d hd => dirPages_frame (hpage d hd)
  have howned : s'.owned (dirs' + rest) (held' + others) = s.owned (dirs + rest) (held + others) := by
    rw [owned_split, owned_split, h.owned, hrest]
    rfl
  refine ⟨hs.of_le howned.le fun d hd => ?_, fun d hd => space_frame (hpage d hd), howned⟩
  rcases Multiset.mem_add.mp hd with hnew | hold
  · exact h.isolated.tidy d hnew
  · exact tidy_frame (hpage d hold) (hs.tidy d (Multiset.mem_add.mpr (.inr hold)))

end Frame

end Region

/-! ### The allocator -/

theorem wp_kalloc {Q : Option Nat → Memory → Prop} (h : Region L w s dirs held)
    (hnone : ∀ s', Region L w s' dirs held → s'.page = s.page → s'.free = s.free → w.unlucky ∨ s'.free = [] → Q none s')
    (hsome : ∀ q s', Region L w s' dirs (q ::ₘ held) → s'.page = s.page → s.free = q :: s'.free → Q (some q) s') :
    wp kalloc Q E s := by
  have hfail : w.unlucky ∨ s.free = [] → Q none { s with luck := fun n => s.luck (n + 1) } := hnone _ h.next rfl rfl
  unfold kalloc
  simp only [wp_bind, wp_get]
  cases hluck : s.luck 0 with
  | true => exact hfail (.inl (h.luck 0 hluck))
  | false =>
    cases hfree : s.free with
    | nil =>
      rw [hfree] at hfail
      exact hfail (.inr rfl)
    | cons q rest => exact hsome q _ (h.alloc hfree) rfl hfree

theorem wp_kfree {Q : PUnit → Memory → Prop} (h : Region L w s dirs (q ::ₘ held))
    (hQ : ∀ s', Region L w s' dirs held → (∀ q', q' ≠ q → s'.page q' = s.page q') → s'.free = q :: s.free → Q ⟨⟩ s') :
    wp (kfree L q) Q E s := by
  unfold kfree
  rw [if_pos (h.ram (Multiset.mem_cons_self q held)), wp_modify]
  exact hQ _ (h.free junk) (fun q' hq' => setPage_page_ne hq' junk) rfl

/-! ### Page tables -/

theorem wp_walkpgdir {Q : Option (Nat × Fin 1024) → Memory → Prop} (va : Word) :
    wp (walkpgdir d va false) Q E s ↔
      if Present (s.entry d (pdx va)) then Q (some (pteAddr (s.entry d (pdx va)), ptx va)) s else Q none s := by
  unfold walkpgdir
  simp only [wp_bind, wp_get, wp_ite, wp_pure, if_true]
  rfl

/-- A table for entry `i` of a directory has been made, if there was none. -/
structure Opened (s s' : Memory) (d : Nat) (i : Fin 1024) : Prop where
  space : s'.space d = s.space d
  here : Present (s'.entry d i)
  other : ∀ k, k ≠ i → s'.entry d k = s.entry d k
  page : ∀ q, q ≠ d → q ∉ s.free → s'.page q = s.page q
  free : ∃ l, s.free = l ++ s'.free

theorem Opened.refl (h : Present (s.entry d i)) : Opened s s d i := ⟨rfl, h, fun _ _ => rfl, fun _ _ _ => rfl, [], rfl⟩

theorem wp_walkpgdir_alloc {Q : Option (Nat × Fin 1024) → Memory → Prop} {va : Word} (h : Region L w s dirs held)
    (hd : d ∈ dirs)
    (hnone : ∀ s', Region L w s' dirs held → ¬Present (s.entry d (pdx va)) → s'.page = s.page → s'.free = s.free →
      w.unlucky ∨ s'.free = [] → Q none s')
    (hsome : ∀ s', Region L w s' dirs held → Opened s s' d (pdx va) →
      Q (some (pteAddr (s'.entry d (pdx va)), ptx va)) s') : wp (walkpgdir d va true) Q E s := by
  unfold walkpgdir
  simp only [wp_bind, wp_get, wp_ite, wp_pure]
  split
  · rename_i hp
    exact hsome s h (.refl hp)
  · rename_i habsent
    refine wp_kalloc h (fun s' hs' hpage hfree hwhy => hnone s' hs' habsent hpage hfree hwhy) fun t s' hs' hpage hfree => ?_
    have ht := tableEntry (hs'.ram (Multiset.mem_cons_self t held)).lt
    have hentry : ∀ k l, s'.entry k l = s.entry k l := fun k l => entry_of_page (congrFun hpage k) l
    have habsent' : ¬Present (s'.entry d (pdx va)) := by rwa [hentry]
    have hadd := hs'.addTable (i := pdx va) hd habsent' ht.1 ht.2
    have hne : t ≠ d := (hs'.isolated.not_table_of_held (Multiset.mem_cons_self t held) d hd).1
    have hspace : ((s'.setPage t Bytes.zero).setEntry d (pdx va) (v2p t ||| pteP ||| pteW ||| pteU)).space d =
        s.space d := by
      have hfill := hs'.fill (Multiset.mem_cons_self t held) Bytes.zero
      rw [space_addTable (hfill.nodup hd) hne (fun j => entry_setPage_zero s' t j)
        (by rwa [entry_setPage_of_ne s' hne.symm]) ht.2]
      refine space_frame fun q hq => ?_
      rw [setPage_page_ne, hpage]
      rintro rfl
      have hfree' : q ∈ s.free := by rw [hfree]; exact List.mem_cons_self ..
      exact h.not_mem_dirPages hd (.inl hfree') hq
    have hopened : Opened s ((s'.setPage t Bytes.zero).setEntry d (pdx va) (v2p t ||| pteP ||| pteW ||| pteU)) d
        (pdx va) := by
      refine ⟨hspace, ?_, fun k hk => ?_, fun q hq hnot => ?_, [t], hfree⟩
      · rw [entry_setEntry_same]
        exact ht.1
      · rw [entry_setEntry_ne _ hk, entry_setPage_of_ne s' hne.symm, hentry]
      · rw [setEntry_page_ne hq, setPage_page_ne, hpage]
        rintro rfl
        exact hnot (hfree ▸ List.mem_cons_self ..)
    have hresult := hsome _ hadd hopened
    rw [entry_setEntry_same, ht.2] at hresult
    exact hresult

end Xv6.Vm
