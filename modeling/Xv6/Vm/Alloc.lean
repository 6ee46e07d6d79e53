import Xv6.Vm.Dealloc

/-!
# Growing an address space

`allocuvm` takes a page and maps it, round after round. It does not look at what `mappages` returns, so where a
page table could not be had it goes on with a hole, and the page it has taken is lost. When there is no page
left it unmaps what it has mapped. `allocPages` is the loop with a record of this: the holes, and whether it
has run out of pages.
-/

namespace Xv6.Vm

open Lib Syscall Memory

variable {L : Layout} {s s' : Memory} {w : Scope} {dirs held : Multiset Nat} {d q : Nat} {i j : Fin 1024}
  {E : Panic → Prop} {a oldsz newsz : Word}

/-! ### Mapping one page -/

structure Mapped (s s' : Memory) (d : Nat) (i j : Fin 1024) (m : Mapping) : Prop where
  space : s'.space d = put (s.space d) i j (some m)
  here : Present (s'.entry d i)
  other : ∀ k, k ≠ i → s'.entry d k = s.entry d k
  free : ∃ l, s.free = l ++ s'.free

theorem Mapped.present {m : Mapping} (h : Mapped s s' d i j m) {k : Fin 1024} (hk : Present (s.entry d k)) :
    Present (s'.entry d k) := by
  by_cases heq : k = i
  · rw [heq]
    exact h.here
  · rwa [h.other k heq]

/-- Mapping a page that is not mapped yet; without a table for it the page is still held. -/
theorem wp_mapUser {Q : Bool → Memory → Prop} {va perm : Word} (h : Region L w s dirs (q ::ₘ held)) (hd : d ∈ dirs)
    (hva : va.toNat % pgsize = 0) (hlow : va.toNat < kernbase) (hperm : perm.toNat < pgsize)
    (hnone : s.space d (pdx va) (ptx va) = none)
    (htrue : ∀ s', Region L w s' dirs held →
      Mapped s s' d (pdx va) (ptx va) (v2p q ||| perm ||| pteP, some (s.page q)) → Q true s')
    (hfalse : ∀ s', Region L w s' dirs (q ::ₘ held) → ¬Present (s.entry d (pdx va)) → s'.page = s.page →
      s'.free = s.free → w.unlucky ∨ s'.free = [] → Q false s') :
    wp (mappages d va 4096 (v2p q) perm) Q E s := by
  have hheld : q ∈ q ::ₘ held := Multiset.mem_cons_self q held
  have hq : q < 2 ^ 20 := (h.ram hheld).lt
  rw [mappages_one hva]
  unfold mapLoop
  rw [wp_bind]
  refine wp_walkpgdir_alloc h hd hfalse fun s' hs' hopen => ?_
  simp only [wp_bind, wp_get, wp_ite, setEntry, wp_modify, if_true, wp_pure, wp_throw]
  have habsent : ¬Present (s'.entry (pteAddr (s'.entry d (pdx va))) (ptx va)) := by
    rw [← space_eq_none hopen.here, hopen.space]
    exact hnone
  have hpresent : Present (v2p q ||| perm ||| pteP) := present_or _
  have hlow' : (pdx va).val < 512 := pdx_lt.mpr hlow
  have htable := mem_pointedBy hopen.here
  have hnot : q ∉ s'.dirPages d := hs'.not_mem_dirPages hd (.inr hheld)
  have hne : q ≠ pteAddr (s'.entry d (pdx va)) := by
    rintro rfl
    exact hnot (mem_dirPages_of_pointedBy htable)
  split
  · rename_i hp
    exact absurd hp habsent
  · refine htrue _ (hs'.setPte hd hopen.here ?_ ⟨fun hhigh => ?_, fun _ hnot => absurd hpresent hnot⟩) ⟨?_, ?_, ?_, ?_⟩
    · rw [if_pos hlow', if_pos hlow', entryPages_present hpresent, pteAddr_or hq hperm, entryPages_absent habsent,
        zero_add, Multiset.singleton_add]
    · exact absurd hlow' (by omega)
    · rw [space_setPte (hs'.nodup hd) hopen.here fun _ => by rwa [pteAddr_or hq hperm], if_pos hpresent, hopen.space,
        content, if_pos hlow', pteAddr_or hq hperm, hopen.page q]
      · rintro rfl
        exact hnot mem_dirPages_self
      · intro hfree
        have hle : (s.free : Multiset Nat) + (q ::ₘ held) ≤ s.owned dirs (q ::ₘ held) := by
          rw [owned_eq]
          exact Multiset.le_add_right _ _
        exact Multiset.disjoint_left.mp (Multiset.nodup_add.mp (Multiset.nodup_of_le hle h.isolated.nodup)).2.2 hfree hheld
    · rw [entry_setEntry_of_ne s' (ne_of_mem_pointedBy (hs'.nodup hd) htable).symm]
      exact hopen.here
    · intro k hk
      rw [entry_setEntry_of_ne s' (ne_of_mem_pointedBy (hs'.nodup hd) htable).symm]
      exact hopen.other k hk
    · exact hopen.free

/-! ### The loop -/

/-- The loop of `allocuvm` up to its end or to the first page that it cannot have: the pages it could not map, and
whether there was none left. -/
def allocPages (pgdir : Nat) (newsz : Word) : Nat → Word → VmM (List Word × Bool)
  | 0, _ => return ([], false)
  | n + 1, a => do
    if a < newsz then
      match ← kalloc with
      | none => return ([], true)
      | some mem =>
        setPage mem Bytes.zero
        let mapped ← mappages pgdir a 4096 (v2p mem) (pteW ||| pteU)
        let (holes, out) ← allocPages pgdir newsz n (a + 4096)
        return (if mapped then holes else a :: holes, out)
    else return ([], false)

theorem allocLoop_eq (L : Layout) (d : Nat) (oldsz newsz : Word) (n : Nat) (a : Word) :
    allocLoop L d oldsz newsz n a = (do
      let r ← allocPages d newsz n a
      if r.2 then
        let _ ← deallocuvm L d newsz oldsz
        return 0
      else return newsz) := by
  induction n generalizing a with
  | zero => rfl
  | succ n ih =>
    unfold allocLoop allocPages
    by_cases hlt : a < newsz
    · rw [if_pos hlt, if_pos hlt, bind_assoc]
      congr 1
      funext r
      cases r with
      | none => rfl
      | some mem =>
        simp only [bind_assoc, pure_bind]
        congr 1
        funext _
        congr 1
        funext mapped
        exact ih (a + 4096)
    · rw [if_neg hlt, if_neg hlt]
      rfl

theorem userEntry (q : Nat) : (v2p q ||| (pteW ||| pteU) ||| pteP) &&& pteU ≠ 0 ∧
    (v2p q ||| (pteW ||| pteU) ||| pteP) &&& pteW ≠ 0 := by
  constructor
  · intro h
    have hbit := congrArg (BitVec.getLsbD · 2) h
    simp [pteU] at hbit
  · intro h
    have hbit := congrArg (BitVec.getLsbD · 1) h
    simp [pteW] at hbit

/-- What a process sees in a page that it has just been given. -/
def Fresh (s : Memory) (d : Nat) (i j : Fin 1024) : Prop :=
  ∃ e, s.space d i j = some (e, some Bytes.zero) ∧ e &&& pteU ≠ 0 ∧ e &&& pteW ≠ 0

def Clear (s : Memory) (d : Nat) (a newsz : Word) : Prop :=
  ∀ i j, a.toNat ≤ pageAddr i j → pageAddr i j < newsz.toNat → s.space d i j = none

structure Allocated (s s' : Memory) (d : Nat) (a newsz : Word) (holes : List Word) (out : Bool) : Prop where
  fresh : out = false → ∀ i j, a.toNat ≤ pageAddr i j → pageAddr i j < newsz.toNat →
    (∀ w ∈ holes, w.toNat ≠ pageAddr i j) → Fresh s' d i j
  hole : ∀ w ∈ holes, a.toNat ≤ w.toNat ∧ w.toNat < newsz.toNat ∧ w.toNat % pgsize = 0 ∧ s'.space d (pdx w) (ptx w) = none
  kept : ∀ i j, pageAddr i j < a.toNat ∨ newsz.toNat ≤ pageAddr i j → s'.space d i j = s.space d i j
  /-- Without holes, the first page that is mapped makes its table. -/
  table : holes = [] → ∀ i j, a.toNat ≤ pageAddr i j → pageAddr i j < newsz.toNat → s'.space d i j ≠ none →
    Present (s'.entry d (pdx a))
  present : ∀ k, Present (s.entry d k) → Present (s'.entry d k)
  out : out = true → a < newsz

theorem Allocated.stop (hnone : ∀ i j, a.toNat ≤ pageAddr i j → pageAddr i j < newsz.toNat → s'.space d i j = none)
    (hspace : s'.space d = s.space d) (hpresent : ∀ k, Present (s.entry d k) → Present (s'.entry d k)) {out : Bool}
    (hout : if out then a < newsz else newsz.toNat ≤ a.toNat) : Allocated s s' d a newsz [] out where
  fresh hf i j hfrom hto _ := by
    rw [hf] at hout
    exact absurd (lt_of_le_of_lt hfrom hto) (not_lt.mpr hout)
  hole w hw := by cases hw
  kept i j _ := by rw [hspace]
  table _ i j hfrom hto hne := absurd (hnone i j hfrom hto) hne
  present := hpresent
  out ho := by rwa [ho] at hout

section Round

variable (hnew : newsz.toNat < kernbase) (ha : a.toNat % pgsize = 0) (hlt : a < newsz) {s₁ : Memory} {holes : List Word}
  {out : Bool} (h : Allocated s₁ s' d (a + 4096) newsz holes out)

include hnew ha hlt h

theorem Allocated.map {e : Word} (hm : Mapped s s₁ d (pdx a) (ptx a) (e, some Bytes.zero)) (hu : e &&& pteU ≠ 0)
    (hw : e &&& pteW ≠ 0) : Allocated s s' d a newsz holes out := by
  have hnext : (a + 4096).toNat = a.toNat + 4096 := toNat_add_of_low hnew.le (BitVec.lt_def.mp hlt) 4096 (by omega)
  have hpage : ∀ i j, a.toNat ≤ pageAddr i j → pageAddr i j ≠ a.toNat → (a + 4096).toNat ≤ pageAddr i j := by
    intro i j hle hne
    rw [hnext]
    unfold pageAddr pgsize at *
    omega
  refine ⟨fun hout i j hfrom hto hholes => ?_, fun w hw => ?_, fun i j hrange => ?_, fun _ _ _ _ _ _ => ?_, fun k hk => ?_,
    fun _ => hlt⟩
  · by_cases heq : pageAddr i j = a.toNat
    · obtain ⟨rfl, rfl⟩ := index_pageAddr heq
      refine ⟨e, ?_, hu, hw⟩
      rw [h.kept _ _ (.inl (by omega)), hm.space, put_self]
    · exact h.fresh hout i j (hpage i j hfrom heq) hto hholes
  · obtain ⟨hfrom, hrest⟩ := h.hole w hw
    exact ⟨by omega, hrest⟩
  · have hne : ¬(i = pdx a ∧ j = ptx a) := by
      rintro ⟨rfl, rfl⟩
      rw [pageAddr_index ha] at hrange
      have := BitVec.lt_def.mp hlt
      omega
    rw [h.kept i j (hrange.imp (fun hlow => by omega) id), hm.space, put_of_ne hne]
  · exact h.present _ hm.here
  · exact h.present k (hm.present hk)

theorem Allocated.miss (hspace : s₁.space d = s.space d) (hnone : s.space d (pdx a) (ptx a) = none)
    (hpresent : ∀ k, Present (s.entry d k) → Present (s₁.entry d k)) : Allocated s s' d a newsz (a :: holes) out := by
  have hnext : (a + 4096).toNat = a.toNat + 4096 := toNat_add_of_low hnew.le (BitVec.lt_def.mp hlt) 4096 (by omega)
  refine ⟨fun hout i j hfrom hto hholes => ?_, fun w hw => ?_, fun i j hrange => ?_,
    fun hnil => absurd hnil (List.cons_ne_nil _ _), fun k hk => ?_, fun _ => hlt⟩
  · have hne := hholes a (List.mem_cons_self ..)
    refine h.fresh hout i j ?_ hto fun w hw => hholes w (List.mem_cons_of_mem _ hw)
    rw [hnext]
    unfold pageAddr pgsize at *
    omega
  · rcases List.mem_cons.mp hw with rfl | hmem
    · refine ⟨le_rfl, BitVec.lt_def.mp hlt, ha, ?_⟩
      rw [h.kept _ _ (.inl (by rw [pageAddr_index ha]; omega)), hspace, hnone]
    · obtain ⟨hfrom, hrest⟩ := h.hole w hmem
      exact ⟨by omega, hrest⟩
  · rw [h.kept i j (hrange.imp (fun hlow => by omega) id), hspace]
  · exact h.present k (hpresent k hk)

end Round

/-- What the loop leaves: for each hole a page is lost, and all pages it has taken were free. -/
structure AllocPost (L : Layout) (w : Scope) (s : Memory) (dirs held : Multiset Nat) (d : Nat)
    (a newsz : Word) (r : List Word × Bool) (s' : Memory) (lost : Multiset Nat) : Prop where
  card : lost.card = r.1.length
  taken : ∀ q ∈ lost, q ∈ s.free
  region : Region L w s' dirs (lost + held)
  allocated : Clear s d a newsz → Allocated s s' d a newsz r.1 r.2
  free : ∀ q ∈ s'.free, q ∈ s.free
  out : r.2 = true → a < newsz ∧ (w.unlucky ∨ s'.free = [])

theorem allocPost_past (h : Region L w s dirs held) (hle : newsz.toNat ≤ a.toNat) :
    AllocPost L w s dirs held d a newsz ([], false) s 0 := by
  refine ⟨rfl, by simp, by rwa [zero_add], fun _ => .stop (fun i j hfrom hto => ?_) rfl (fun _ => id) hle, fun _ => id,
    fun hout => absurd hout Bool.false_ne_true⟩
  exact absurd (lt_of_le_of_lt hfrom hto) (not_lt.mpr hle)

theorem wp_mapTaken {Q : Bool → Memory → Prop} {va pa perm : Word} (hva : va.toNat % pgsize = 0)
    (htaken : s.space d (pdx va) (ptx va) ≠ none) (hE : E .remap) : wp (mappages d va 4096 pa perm) Q E s := by
  obtain ⟨m, hm⟩ := Option.ne_none_iff_exists'.mp htaken
  obtain ⟨hp, he, heq, -⟩ := space_eq_some hm
  rw [mappages_one hva]
  unfold mapLoop walkpgdir
  simp only [wp_bind, wp_get, wp_ite, wp_pure, wp_throw]
  rwa [if_pos (show s.entry d (pdx va) &&& pteP ≠ 0 from hp), heq, if_pos (show m.1 &&& pteP ≠ 0 from he)]

theorem wp_allocPages {n : Nat} (h : Region L w s dirs held) (hd : d ∈ dirs) (hnew : newsz.toNat < kernbase)
    (ha : a.toNat % pgsize = 0) (hfuel : newsz.toNat ≤ a.toNat + pgsize * n)
    (hremap : ∀ i j, a.toNat ≤ pageAddr i j → pageAddr i j < newsz.toNat → s.space d i j ≠ none → E .remap) :
    wp (allocPages d newsz n a) (fun r s' => ∃ lost, AllocPost L w s dirs held d a newsz r s' lost) E s := by
  induction n generalizing s a held with
  | zero => exact ⟨0, allocPost_past h (by simpa using hfuel)⟩
  | succ n ih =>
    unfold allocPages
    rw [wp_ite]
    by_cases hlt : a < newsz
    swap
    · rw [if_neg hlt]
      exact ⟨0, allocPost_past h (BitVec.le_def.mp (BitVec.not_lt.mp hlt))⟩
    have hlt' := BitVec.lt_def.mp hlt
    have hnext : (a + 4096).toNat = a.toNat + 4096 := toNat_add_of_low hnew.le hlt' 4096 (by omega)
    have hindex := pageAddr_index ha
    have hlater : ∀ {i j}, (a + 4096).toNat ≤ pageAddr i j → ¬(i = pdx a ∧ j = ptx a) := by
      rintro i j hfrom ⟨rfl, rfl⟩
      omega
    -- the rest of the loop, in a state with the same pages from the next one on
    have hrest : ∀ {held s₁}, Region L w s₁ dirs held →
        (∀ i j, ¬(i = pdx a ∧ j = ptx a) → s₁.space d i j = s.space d i j) →
        (Clear s d a newsz → Clear s₁ d (a + 4096) newsz) ∧ wp (allocPages d newsz n (a + 4096))
          (fun r s' => ∃ lost, AllocPost L w s₁ dirs held d (a + 4096) newsz r s' lost) E s₁ := by
      intro held s₁ hs₁ hsame
      refine ⟨fun hclear i j hfrom hto => ?_, ih hs₁ (aligned_next ha) ?_ fun i j hfrom hto => ?_⟩
      · rw [hsame i j (hlater hfrom), hclear i j (by omega) hto]
      · rw [hnext]
        unfold pgsize at *
        omega
      · rw [hsame i j (hlater hfrom)]
        exact hremap i j (by omega) hto
    rw [if_pos hlt, wp_bind]
    refine wp_kalloc h (fun s' hs' hpage hfree hwhy => ?_) fun q s' hs' hpage hfree => ?_
    · have hspace : s'.space d = s.space d := space_frame fun q _ => congrFun hpage q
      refine ⟨0, rfl, by simp, by rwa [zero_add], fun hclear => .stop (fun i j hfrom hto => ?_) hspace (fun k hk => ?_) hlt,
        fun q hq => ?_, fun _ => ⟨hlt, hwhy⟩⟩
      · rw [hspace, hclear i j hfrom hto]
      · rwa [entry_of_page (congrFun hpage d)]
      · rwa [hfree] at hq
    have hheld : q ∈ q ::ₘ held := Multiset.mem_cons_self q held
    have hq : q ∈ s.free := by
      rw [hfree]
      exact List.mem_cons_self ..
    have hfill := hs'.fill hheld Bytes.zero
    have hdir : ∀ q' ∈ s.dirPages d, (s'.setPage q Bytes.zero).page q' = s.page q' := by
      intro q' hq'
      rw [setPage_page_ne, hpage]
      rintro rfl
      exact h.not_mem_dirPages hd (.inl hq) hq'
    have hspace : (s'.setPage q Bytes.zero).space d = s.space d := space_frame hdir
    have hentry : ∀ k, (s'.setPage q Bytes.zero).entry d k = s.entry d k := fun k =>
      entry_of_page (hdir d mem_dirPages_self) k
    have hzero : (s'.setPage q Bytes.zero).page q = Bytes.zero := Function.update_self _ _ _
    simp only [setPage, wp_bind, wp_modify]
    by_cases habsent : s.space d (pdx a) (ptx a) = none
    swap
    · exact wp_mapTaken ha (by rwa [hspace]) (hremap _ _ hindex.ge (by rwa [hindex]) habsent)
    refine wp_mapUser hfill hd ha (lt_trans hlt' hnew) (by decide) (by rw [hspace, habsent]) (fun s₁ hs₁ hm => ?_)
      fun s₁ hs₁ _ hpage₁ hfree₁ _ => ?_
    · -- the page is mapped
      rw [hzero] at hm
      have hm' : Mapped s s₁ d (pdx a) (ptx a) (v2p q ||| (pteW ||| pteU) ||| pteP, some Bytes.zero) := by
        obtain ⟨l, hl⟩ := hm.free
        exact ⟨by rw [hm.space, hspace], hm.here, fun k hk => by rw [hm.other k hk, hentry], q :: l, by
          rw [hfree, List.cons_append, ← hl]; rfl⟩
      obtain ⟨hclear, hwp⟩ := hrest hs₁ fun i j hne => by rw [hm'.space, put_of_ne hne]
      refine wp_mono hwp (fun r s₂ hs₂ => ?_) fun _ he => he
      obtain ⟨lost, hs₂⟩ := hs₂
      have hsuffix : ∀ q' ∈ s₁.free, q' ∈ s.free := by
        obtain ⟨l, hl⟩ := hm'.free
        intro q' hq'
        rw [hl]
        exact List.mem_append_right l hq'
      obtain ⟨huser, hwrite⟩ := userEntry q
      exact ⟨lost, hs₂.card, fun q' hq' => hsuffix q' (hs₂.taken q' hq'), hs₂.region,
        fun hc => (hs₂.allocated (hclear hc)).map hnew ha hlt hm' huser hwrite, fun q' hq' => hsuffix q' (hs₂.free q' hq'),
        fun hout => ⟨hlt, (hs₂.out hout).2⟩⟩
    · -- there was no page for its table
      have hsuffix : ∀ q' ∈ s₁.free, q' ∈ s.free := by
        intro q' hq'
        rw [hfree]
        rw [hfree₁] at hq'
        exact List.mem_cons_of_mem _ hq'
      have hspace₁ : s₁.space d = s.space d := by
        rw [← hspace]
        exact space_frame fun q' _ => congrFun hpage₁ q'
      obtain ⟨hclear, hwp⟩ := hrest hs₁ fun i j _ => by rw [hspace₁]
      refine wp_mono hwp (fun r s₂ hs₂ => ?_) fun _ he => he
      obtain ⟨lost, hs₂⟩ := hs₂
      refine ⟨q ::ₘ lost, ?_, fun q' hq' => ?_, ?_, fun hc => (hs₂.allocated (hclear hc)).miss hnew ha hlt hspace₁ habsent
        fun k hk => ?_, fun q' hq' => hsuffix q' (hs₂.free q' hq'), fun hout => ⟨hlt, (hs₂.out hout).2⟩⟩
      · rw [Multiset.card_cons, hs₂.card]
        rfl
      · rcases Multiset.mem_cons.mp hq' with rfl | hmem
        · exact hq
        · exact hsuffix q' (hs₂.taken q' hmem)
      · rw [Multiset.cons_add, ← Multiset.add_cons]
        exact hs₂.region
      · rw [entry_of_page (congrFun hpage₁ d), hentry]
        exact hk

/-! ### `allocuvm` -/

abbrev allocRun (d : Nat) (oldsz newsz : Word) : VmM (List Word × Bool) :=
  allocPages d newsz (newsz.toNat / pgsize + 1) (pgroundup oldsz)

/-- The end of `allocuvm` after its loop: without a page left, what has been mapped is unmapped. -/
inductive AllocEnd (L : Layout) (w : Scope) (s₁ : Memory) (dirs held : Multiset Nat) (d : Nat)
    (oldsz newsz : Word) : Bool → Word → Memory → Prop where
  | done : AllocEnd L w s₁ dirs held d oldsz newsz false newsz s₁
  | undone {s' : Memory} (hregion : Region L w s' dirs held)
      (hunmaps : Unmaps s₁ s' d (Reached s₁ d (pgroundup oldsz) newsz)) :
      AllocEnd L w s₁ dirs held d oldsz newsz true 0 s'

theorem le_pgroundup {sz : Word} (hsz : sz.toNat ≤ kernbase) : sz.toNat ≤ (pgroundup sz).toNat := by
  rw [toNat_pgroundup hsz]
  unfold pgsize
  omega

/-- What `allocuvm` leaves: the loop has run, and its work is undone if there was no page left. -/
structure AllocDone (L : Layout) (w : Scope) (s : Memory) (dirs held : Multiset Nat) (d : Nat) (oldsz newsz : Word)
    (holes : List Word) (out : Bool) (s₁ : Memory) (r : Word) (s' : Memory) (lost : Multiset Nat) : Prop where
  run : allocRun d oldsz newsz s = .ok ((holes, out), s₁)
  loop : AllocPost L w s dirs held d (pgroundup oldsz) newsz (holes, out) s₁ lost
  ends : AllocEnd L w s₁ dirs (lost + held) d oldsz newsz out r s'

theorem AllocDone.region {holes : List Word} {out : Bool} {s₁ : Memory} {r : Word} {lost : Multiset Nat}
    (h : AllocDone L w s dirs held d oldsz newsz holes out s₁ r s' lost) : Region L w s' dirs (lost + held) := by
  have hends := h.ends
  cases hends with
  | done => exact h.loop.region
  | undone hregion _ => exact hregion

def allocuvmTraced (L : Layout) (d : Nat) (oldsz newsz : Word) : VmM (Word × Bool) := do
  if newsz.toNat ≥ kernbase then return (0, false)
  else if newsz < oldsz then return (oldsz, false)
  else
    let r ← allocRun d oldsz newsz
    if r.2 then
      let _ ← deallocuvm L d newsz oldsz
      return (0, !r.1.isEmpty)
    else return (newsz, !r.1.isEmpty)

theorem allocuvm_eq (L : Layout) (d : Nat) (oldsz newsz : Word) :
    allocuvm L d oldsz newsz = Prod.fst <$> allocuvmTraced L d oldsz newsz := by
  unfold allocuvm allocuvmTraced
  by_cases hbig : newsz.toNat ≥ kernbase
  · rw [if_pos hbig, if_pos hbig]
    rfl
  by_cases hless : newsz < oldsz
  · rw [if_neg hbig, if_neg hbig, if_pos hless, if_pos hless]
    rfl
  rw [if_neg hbig, if_neg hbig, if_neg hless, if_neg hless, allocLoop_eq, map_bind]
  congr 1
  funext r
  cases r.2 with
  | false => rfl
  | true =>
    simp only [if_true, map_bind]
    rfl

theorem wp_allocuvmTraced (h : Region L w s dirs held) (hd : d ∈ dirs) (hle : oldsz ≤ newsz) (hnew : newsz.toNat < kernbase)
    (hremap : ∀ i j, InRange oldsz newsz i j → s.space d i j ≠ none → E .remap) :
    wp (allocuvmTraced L d oldsz newsz) (fun r s' => ∃ holes out s₁ lost, r.2 = !holes.isEmpty ∧
      AllocDone L w s dirs held d oldsz newsz holes out s₁ r.1 s' lost) E s := by
  have hle' := BitVec.le_def.mp hle
  unfold allocuvmTraced
  rw [if_neg (not_le.mpr hnew), if_neg (BitVec.not_lt.mpr hle), wp_bind]
  refine wp_mono (wp_run (wp_allocPages h hd hnew (aligned_pgroundup oldsz) ?_ fun i j hfrom hto => hremap i j ⟨hfrom, hto⟩))
    (fun r s₁ hr => ?_) fun _ he => he
  · unfold pgsize
    omega
  · obtain ⟨holes, out⟩ := r
    obtain ⟨hrun, lost, hpost⟩ := hr
    cases out with
    | false => exact ⟨holes, false, s₁, lost, rfl, hrun, hpost, .done⟩
    | true =>
      have hlt : oldsz < newsz := by
        have hpast := BitVec.lt_def.mp (hpost.out rfl).1
        have hup : oldsz.toNat ≤ (pgroundup oldsz).toNat := le_pgroundup (by omega)
        exact BitVec.lt_def.mpr (by omega)
      simp only [if_true, wp_bind]
      refine wp_mono (wp_deallocuvm hpost.region hd hnew.le hlt) (fun r s' hs' => ?_) fun _ he => he
      exact ⟨holes, true, s₁, lost, rfl, hrun, hpost, .undone hs'.2.1 hs'.2.2⟩

theorem wp_allocuvm (h : Region L w s dirs held) (hd : d ∈ dirs) (hle : oldsz ≤ newsz) (hnew : newsz.toNat < kernbase)
    (hremap : ∀ i j, InRange oldsz newsz i j → s.space d i j ≠ none → E .remap) :
    wp (allocuvm L d oldsz newsz) (fun r s' => ∃ holes out s₁ lost,
      AllocDone L w s dirs held d oldsz newsz holes out s₁ r s' lost) E s := by
  rw [allocuvm_eq, wp_map]
  refine wp_mono (wp_allocuvmTraced h hd hle hnew hremap) (fun r s' hr => ?_) fun _ he => he
  obtain ⟨holes, out, s₁, lost, -, hdone⟩ := hr
  exact ⟨holes, out, s₁, lost, hdone⟩

section Undo

variable {s₁ : Memory} {holes : List Word} {out : Bool}
  (hnone : ∀ i j, InRange oldsz newsz i j → s.space d i j = none)
  (halloc : Allocated s s₁ d (pgroundup oldsz) newsz holes out)

include halloc

theorem Allocated.outside (hrange : ¬InRange oldsz newsz i j) : s₁.space d i j = s.space d i j := by
  refine halloc.kept i j ?_
  by_contra hnot
  exact hrange ⟨by omega, by omega⟩

include hnone

/-- The undoing gives back the address space from before exactly when it finds all pages. -/
theorem undone_iff (hunmaps : Unmaps s₁ s' d (Reached s₁ d (pgroundup oldsz) newsz)) : s'.space d = s.space d ↔
    ∀ i j, InRange oldsz newsz i j → s₁.space d i j ≠ none → Reached s₁ d (pgroundup oldsz) newsz i j := by
  constructor
  · intro hsame i j hrange hmapped
    by_contra hnot
    refine hmapped ?_
    rw [← hunmaps.kept i j hnot, hsame, hnone i j hrange]
  · intro hall
    funext i j
    by_cases hr : Reached s₁ d (pgroundup oldsz) newsz i j
    · rw [hunmaps.absent i j hr, hnone i j ⟨hr.1, hr.2.1⟩]
    · rw [hunmaps.kept i j hr]
      by_cases hrange : InRange oldsz newsz i j
      · rw [hnone i j hrange]
        by_contra hmapped
        exact hr (hall i j hrange hmapped)
      · exact halloc.outside hrange

end Undo

end Xv6.Vm
