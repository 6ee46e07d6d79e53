import Xv6.Vm.Alloc

/-!
# When growing is all or nothing

Whether `allocuvm` leaves a hole is settled before the call: by the calls of `kalloc` that fail, the number of free pages and
the page tables that there are. A round needs a page, and another one where there is no table. `Supply.plan` counts
this off, without memory, and the loop follows it.
-/

namespace Xv6.Vm

open Lib Syscall Memory

variable {L : Layout} {s s' : Memory} {w : Scope} {dirs held : Multiset Nat} {d q : Nat} {i j : Fin 1024}
  {E : Panic → Prop} {a oldsz newsz : Word}

/-! ### Counting pages -/

@[ext]
structure Supply where
  /-- Does the `n`th of the coming calls of `kalloc` fail? -/
  luck : Nat → Bool
  free : Nat
  table : Fin 1024 → Bool

def Memory.supply (s : Memory) (d : Nat) : Supply := ⟨s.luck, s.free.length, fun k => decide (Present (s.entry d k))⟩

namespace Supply

/-- Is there a page, and what is left? -/
def kalloc (u : Supply) : Bool × Supply :=
  let u' := { u with luck := fun n => u.luck (n + 1) }
  if u.luck 0 = false ∧ 0 < u.free then (true, { u' with free := u.free - 1 }) else (false, u')

/-- Is there a table for the page at `va`, be it a new one? -/
def walk (u : Supply) (va : Word) : Bool × Supply :=
  if u.table (pdx va) then (true, u)
  else
    let (taken, u) := u.kalloc
    (taken, if taken then { u with table := Function.update u.table (pdx va) true } else u)

theorem table_kalloc (u : Supply) : u.kalloc.2.table = u.table := by
  unfold kalloc
  dsimp only
  split <;> rfl

end Supply

/-- The pages that get mapped and those that do not for want of a table, up to the first page that cannot be had. -/
structure Plan where
  mapped : List Word
  holes : List Word
  /-- Was there a page that could not be had? -/
  out : Bool
  table : Fin 1024 → Bool

def Supply.plan (newsz : Word) : Nat → Word → Supply → Plan
  | 0, _, u => ⟨[], [], false, u.table⟩
  | n + 1, a, u =>
    if a < newsz then
      match u.kalloc with
      | (false, u) => ⟨[], [], true, u.table⟩
      | (true, u) =>
        match u.walk a with
        | (true, u) =>
          let p := u.plan newsz n (a + 4096)
          { p with mapped := a :: p.mapped }
        | (false, u) =>
          let p := u.plan newsz n (a + 4096)
          { p with holes := a :: p.holes }
    else ⟨[], [], false, u.table⟩

/-- Every page gets mapped. Or one does not, but later on there is no page at all, and the undoing finds what has been mapped
by then: it goes on by 1024 pages where there is no table, so it misses a page that is further to the front in its table
than the first page is, if no table exists from the first page's up to that one. -/
def Plan.Closes (p : Plan) (first : Word) : Prop :=
  p.holes = [] ∨ p.out = true ∧ ∀ a ∈ p.mapped, ptx first ≤ ptx a ∨ ∃ k, pdx first ≤ k ∧ k < pdx a ∧ p.table k = true

instance (p : Plan) (first : Word) : Decidable (p.Closes first) := inferInstanceAs (Decidable (_ ∨ _))

/-! ### The calls follow the count -/

theorem wp_kalloc_supply (s : Memory) (d : Nat) :
    wp kalloc (fun r s' => (r.isSome, s'.supply d) = (s.supply d).kalloc) E s := by
  unfold kalloc Supply.kalloc Memory.supply
  simp only [wp_bind, wp_get]
  cases hluck : s.luck 0 with
  | true => rfl
  | false =>
    cases hfree : s.free with
    | nil => rfl
    | cons q rest => rfl

/-- Where there is no table, mapping a page takes one call of `kalloc`. -/
theorem wp_mappages_calls {pa perm va : Word} (hva : va.toNat % pgsize = 0) :
    wp (mappages d va 4096 pa perm) (fun b s' =>
      if Present (s.entry d (pdx va)) then b = true ∧ s'.luck = s.luck ∧ s'.free.length = s.free.length
      else b = (s.supply d).kalloc.1 ∧ s'.luck = (s.supply d).kalloc.2.luck ∧ s'.free.length = (s.supply d).kalloc.2.free)
      (fun _ => True) s := by
  rw [mappages_one hva]
  unfold mapLoop walkpgdir
  simp only [wp_bind, wp_get, wp_ite, wp_pure, setPage, setEntry, wp_modify, if_true]
  by_cases hp : Present (s.entry d (pdx va))
  · rw [if_pos (show s.entry d (pdx va) &&& pteP ≠ 0 from hp)]
    split
    · trivial
    · exact ⟨trivial, rfl, rfl⟩
  · rw [if_neg (show ¬s.entry d (pdx va) &&& pteP ≠ 0 from hp), if_neg (by decide)]
    refine wp_mono (wp_kalloc_supply s d) (fun r s₁ hr => ?_) fun _ he => he
    cases r with
    | none =>
      show ite _ _ _
      rw [if_neg hp, ← hr]
      exact ⟨rfl, rfl, rfl⟩
    | some pgtab =>
      simp only [wp_bind, wp_modify, wp_pure, wp_get, wp_ite]
      split
      · trivial
      · rw [← hr]
        exact ⟨rfl, rfl, rfl⟩

theorem wp_mapUser_supply {Q : Bool → Memory → Prop} {va perm : Word} (h : Region L w s dirs (q ::ₘ held)) (hd : d ∈ dirs)
    (hva : va.toNat % pgsize = 0) (hlow : va.toNat < kernbase) (hperm : perm.toNat < pgsize)
    (hnone : s.space d (pdx va) (ptx va) = none)
    (htrue : ∀ s', Region L w s' dirs held → Mapped s s' d (pdx va) (ptx va) (v2p q ||| perm ||| pteP, some (s.page q)) →
      (true, s'.supply d) = (s.supply d).walk va → Q true s')
    (hfalse : ∀ s', Region L w s' dirs (q ::ₘ held) → s'.page = s.page → (false, s'.supply d) = (s.supply d).walk va → Q false s') :
    wp (mappages d va 4096 (v2p q) perm) Q E s := by
  refine wp_mono (wp_and (wp_mapUser (E := E) (Q := fun b s' => b = true ∧ Region L w s' dirs held ∧
      Mapped s s' d (pdx va) (ptx va) (v2p q ||| perm ||| pteP, some (s.page q)) ∨
      b = false ∧ Region L w s' dirs (q ::ₘ held) ∧ ¬Present (s.entry d (pdx va)) ∧ s'.page = s.page) h hd hva hlow hperm hnone
      (fun s' hs' hm => .inl ⟨rfl, hs', hm⟩) fun s' hs' habsent hpage _ _ => .inr ⟨rfl, hs', habsent, hpage⟩)
    (wp_mappages_calls hva)) ?_ fun _ hE => hE.1
  rintro b s' ⟨⟨rfl, hs', hm⟩ | ⟨rfl, hs', habsent, hpage⟩, hcalls⟩
  · refine htrue s' hs' hm ?_
    unfold Supply.walk
    by_cases hp : Present (s.entry d (pdx va))
    · rw [if_pos hp] at hcalls
      rw [if_pos (show (s.supply d).table (pdx va) = true from decide_eq_true hp)]
      refine Prod.ext rfl (Supply.ext hcalls.2.1 hcalls.2.2 (funext fun k => ?_))
      by_cases hk : k = pdx va
      · subst hk
        exact (decide_eq_true hm.here).trans (decide_eq_true hp).symm
      · simp only [Memory.supply, hm.other k hk]
    · rw [if_neg hp] at hcalls
      rw [if_neg (by simpa [Memory.supply] using hp)]
      dsimp only
      rw [← hcalls.1]
      refine Prod.ext rfl (Supply.ext hcalls.2.1 hcalls.2.2 (funext fun k => ?_))
      rw [if_pos rfl, Supply.table_kalloc]
      dsimp only
      by_cases hk : k = pdx va
      · subst hk
        rw [Function.update_self]
        exact decide_eq_true hm.here
      · rw [Function.update_of_ne hk]
        simp only [Memory.supply, hm.other k hk]
  · refine hfalse s' hs' hpage ?_
    rw [if_neg habsent] at hcalls
    unfold Supply.walk
    rw [if_neg (by simpa [Memory.supply] using habsent)]
    dsimp only
    rw [← hcalls.1]
    refine Prod.ext rfl (Supply.ext hcalls.2.1 hcalls.2.2 (funext fun k => ?_))
    rw [if_neg (by decide), Supply.table_kalloc]
    simp only [Memory.supply, entry_of_page (congrFun hpage d)]

/-! ### The loop follows the plan -/

structure Follows (s s' : Memory) (d : Nat) (a newsz : Word) (p : Plan) (r : List Word × Bool) : Prop where
  result : r = (p.holes, p.out)
  table : ∀ k, p.table k = decide (Present (s'.entry d k))
  range : ∀ v ∈ p.mapped, a.toNat ≤ v.toNat ∧ v.toNat < newsz.toNat ∧ v.toNat % pgsize = 0
  mapped : ∀ i j, a.toNat ≤ pageAddr i j → pageAddr i j < newsz.toNat →
    (s'.space d i j ≠ none ↔ ∃ v ∈ p.mapped, v.toNat = pageAddr i j)
  kept : ∀ i j, pageAddr i j < a.toNat → s'.space d i j = s.space d i j

theorem Follows.stop (hclear : Clear s d a newsz) (hspace : s'.space d = s.space d) (out : Bool) :
    Follows s s' d a newsz ⟨[], [], out, (s'.supply d).table⟩ ([], out) where
  result := rfl
  table _ := rfl
  range := by simp
  mapped i j hfrom hto := by simp [hspace, hclear i j hfrom hto]
  kept i j _ := by rw [hspace]

section Round

variable (hnew : newsz.toNat < kernbase) (ha : a.toNat % pgsize = 0) (hlt : a < newsz) {s₁ : Memory} {p : Plan}
  {r : List Word × Bool} (h : Follows s₁ s' d (a + 4096) newsz p r)

include hnew ha hlt h

theorem Follows.map {m : Mapping} (hm : s₁.space d = put (s.space d) (pdx a) (ptx a) (some m)) :
    Follows s s' d a newsz { p with mapped := a :: p.mapped } r := by
  have hlt' := BitVec.lt_def.mp hlt
  have hnext : (a + 4096).toNat = a.toNat + 4096 := toNat_add_of_low hnew.le hlt' 4096 (by omega)
  refine ⟨h.result, h.table, fun v hv => ?_, fun i j hfrom hto => ?_, fun i j hlow => ?_⟩
  · rcases List.mem_cons.mp hv with rfl | hv
    · exact ⟨le_rfl, hlt', ha⟩
    · have hrange := h.range v hv
      exact ⟨by omega, hrange.2⟩
  · by_cases heq : pageAddr i j = a.toNat
    · have hmapped : s'.space d i j = some m := by
        obtain ⟨rfl, rfl⟩ := index_pageAddr heq
        rw [h.kept _ _ (by omega), hm, put_self]
      simp [hmapped, heq]
    · rw [h.mapped i j (by unfold pageAddr pgsize at *; omega) hto]
      simp [Ne.symm heq]
  · rw [h.kept i j (by omega), hm, put_of_ne]
    rintro ⟨rfl, rfl⟩
    rw [pageAddr_index ha] at hlow
    exact Nat.lt_irrefl _ hlow

theorem Follows.miss (hspace : s₁.space d = s.space d) (hnone : s.space d (pdx a) (ptx a) = none) :
    Follows s s' d a newsz { p with holes := a :: p.holes } (a :: r.1, r.2) := by
  have hlt' := BitVec.lt_def.mp hlt
  have hnext : (a + 4096).toNat = a.toNat + 4096 := toNat_add_of_low hnew.le hlt' 4096 (by omega)
  refine ⟨by rw [h.result], h.table, fun v hv => ?_, fun i j hfrom hto => ?_, fun i j hlow => ?_⟩
  · have hrange := h.range v hv
    exact ⟨by omega, hrange.2⟩
  · by_cases heq : pageAddr i j = a.toNat
    · have habsent : s'.space d i j = none := by
        obtain ⟨rfl, rfl⟩ := index_pageAddr heq
        rw [h.kept _ _ (by omega), hspace, hnone]
      refine iff_of_false (fun hne => hne habsent) ?_
      rintro ⟨v, hv, hpage⟩
      have hrange := h.range v hv
      omega
    · exact h.mapped i j (by unfold pageAddr pgsize at *; omega) hto
  · rw [h.kept i j (by omega), hspace]

end Round

theorem wp_allocPages_plan {n : Nat} (h : Region L w s dirs held) (hd : d ∈ dirs) (hnew : newsz.toNat < kernbase)
    (ha : a.toNat % pgsize = 0) (hclear : Clear s d a newsz) :
    wp (allocPages d newsz n a) (fun r s' => Follows s s' d a newsz ((s.supply d).plan newsz n a) r) E s := by
  induction n generalizing s a held with
  | zero => exact .stop hclear rfl false
  | succ n ih =>
    unfold allocPages Supply.plan
    rw [wp_ite]
    by_cases hlt : a < newsz
    swap
    · rw [if_neg hlt, if_neg hlt]
      exact .stop hclear rfl false
    have hlt' := BitVec.lt_def.mp hlt
    have hnext : (a + 4096).toNat = a.toNat + 4096 := toNat_add_of_low hnew.le hlt' 4096 (by omega)
    have hindex := pageAddr_index ha
    have habsent : s.space d (pdx a) (ptx a) = none := hclear _ _ hindex.ge (by rwa [hindex])
    rw [if_pos hlt, if_pos hlt, wp_bind]
    refine wp_mono (wp_and (wp_kalloc (E := E) (Q := fun r s' => r = none ∧ s'.page = s.page ∨
        ∃ q, r = some q ∧ Region L w s' dirs (q ::ₘ held) ∧ s'.page = s.page ∧ s.free = q :: s'.free) h
        (fun s' _ hpage _ _ => .inl ⟨rfl, hpage⟩) fun q s' hs' hpage hfree => .inr ⟨q, rfl, hs', hpage, hfree⟩)
      (wp_kalloc_supply (E := E) s d)) ?_ fun _ hE => hE.1
    rintro r s' ⟨⟨rfl, hpage⟩ | ⟨q, rfl, hs', hpage, hfree⟩, hsupply⟩
    · rw [← hsupply]
      exact .stop hclear (space_frame fun q _ => congrFun hpage q) true
    rw [← hsupply]
    have hheld : q ∈ q ::ₘ held := Multiset.mem_cons_self q held
    have hfill := hs'.fill hheld Bytes.zero
    have hdir : ∀ q' ∈ s.dirPages d, (s'.setPage q Bytes.zero).page q' = s.page q' := by
      intro q' hq'
      rw [setPage_page_ne, hpage]
      rintro rfl
      refine h.not_mem_dirPages hd (.inl ?_) hq'
      rw [hfree]
      exact List.mem_cons_self ..
    have hspace : (s'.setPage q Bytes.zero).space d = s.space d := space_frame hdir
    have hfilled : (s'.setPage q Bytes.zero).supply d = s'.supply d := by
      refine Supply.ext rfl rfl (funext fun k => ?_)
      simp only [Memory.supply, entry_of_page (hdir d mem_dirPages_self), entry_of_page (congrFun hpage d)]
    -- the rest of the loop, in a state with the same pages from the next one on
    have hrest : ∀ {held s₁}, Region L w s₁ dirs held → (∀ i j, ¬(i = pdx a ∧ j = ptx a) → s₁.space d i j = s.space d i j) →
        wp (allocPages d newsz n (a + 4096))
          (fun r s' => Follows s₁ s' d (a + 4096) newsz ((s₁.supply d).plan newsz n (a + 4096)) r) E s₁ := by
      intro held s₁ hs₁ hsame
      refine ih hs₁ (aligned_next ha) fun i j hfrom hto => ?_
      rw [hsame i j, hclear i j (by omega) hto]
      rintro ⟨rfl, rfl⟩
      omega
    simp only [setPage, wp_bind, wp_modify, Option.isSome_some]
    refine wp_mapUser_supply hfill hd ha (lt_trans hlt' hnew) (by decide) (by rw [hspace, habsent]) (fun s₁ hs₁ hm hwalk => ?_)
      fun s₁ hs₁ hpage₁ hwalk => ?_
    · have hspace₁ := hm.space
      rw [hspace] at hspace₁
      rw [hfilled] at hwalk
      rw [← hwalk]
      refine wp_mono (hrest hs₁ fun i j hne => by rw [hspace₁, put_of_ne hne]) (fun r s₂ hs₂ => ?_) fun _ he => he
      exact hs₂.map hnew ha hlt hspace₁
    · have hspace₁ : s₁.space d = s.space d := by
        rw [← hspace]
        exact space_frame fun q' _ => congrFun hpage₁ q'
      rw [hfilled] at hwalk
      rw [← hwalk]
      refine wp_mono (hrest hs₁ fun i j _ => by rw [hspace₁]) (fun r s₂ hs₂ => ?_) fun _ he => he
      exact hs₂.miss hnew ha hlt hspace₁ habsent

/-! ### `allocuvm` -/

/-- All pages of the range are mapped, each to a page of its own. -/
structure Grown (s s' : Memory) (d : Nat) (oldsz newsz : Word) : Prop where
  fresh : ∀ i j, InRange oldsz newsz i j → Fresh s' d i j
  distinct : ∀ i j i' j' m m', InRange oldsz newsz i j → i'.val < 512 → s'.space d i j = some m →
    s'.space d i' j' = some m' → pteAddr m.1 = pteAddr m'.1 → i = i' ∧ j = j'
  kept : ∀ i j, ¬InRange oldsz newsz i j → s'.space d i j = s.space d i j

def AllOrNothing (s s' : Memory) (d : Nat) (oldsz newsz r : Word) : Prop :=
  (r = newsz ∧ Grown s s' d oldsz newsz) ∨ (r = 0 ∧ s'.space d = s.space d)

/-- After the loop, the undoing finds all pages exactly when the plan says so. -/
theorem Follows.closes_iff {p : Plan} {holes : List Word} {out : Bool}
    (h : Follows s s' d (pgroundup oldsz) newsz p (holes, out)) :
    p.Closes (pgroundup oldsz) ↔ holes = [] ∨ out = true ∧ ∀ i j, InRange oldsz newsz i j → s'.space d i j ≠ none →
      Reached s' d (pgroundup oldsz) newsz i j := by
  obtain ⟨rfl, rfl⟩ := Prod.mk.inj h.result
  refine or_congr Iff.rfl (and_congr Iff.rfl ⟨fun hall i j hrange hne => ?_, fun hall v hv => ?_⟩)
  · obtain ⟨v, hv, hpage⟩ := (h.mapped i j hrange.1 hrange.2).mp hne
    obtain ⟨rfl, rfl⟩ := index_pageAddr hpage.symm
    refine ⟨hrange.1, hrange.2, (hall v hv).imp id ?_⟩
    rintro ⟨k, hfrom, hto, hk⟩
    exact ⟨k, hfrom, hto, of_decide_eq_true ((h.table k).symm.trans hk)⟩
  · obtain ⟨hfrom, hto, haligned⟩ := h.range v hv
    have hpage := pageAddr_index haligned
    have hrange : InRange oldsz newsz (pdx v) (ptx v) := ⟨by rwa [hpage], by rwa [hpage]⟩
    obtain ⟨-, -, hreached⟩ := hall _ _ hrange ((h.mapped _ _ hrange.1 hrange.2).mpr ⟨v, hv, hpage.symm⟩)
    refine hreached.imp id ?_
    rintro ⟨k, hk₁, hk₂, hk⟩
    exact ⟨k, hk₁, hk₂, (h.table k).trans (decide_eq_true hk)⟩

def Memory.allocPlan (s : Memory) (d : Nat) (oldsz newsz : Word) : Plan :=
  (s.supply d).plan newsz (newsz.toNat / pgsize + 1) (pgroundup oldsz)

/-- Growing is all or nothing exactly when, by the calls of `kalloc` that fail, the number of free pages and the tables
that there are, no hole stays behind. -/
theorem allocuvm_all_or_nothing_iff {rest : Multiset Nat} (h : Isolated L s (d ::ₘ rest) held)
    (hnone : ∀ i j, (pgroundup oldsz).toNat ≤ pageAddr i j → pageAddr i j < kernbase → s.space d i j = none)
    (hle : oldsz ≤ newsz) (hnew : newsz.toNat < kernbase) :
    (∃ r s', allocuvm L d oldsz newsz s = .ok (r, s') ∧ AllOrNothing s s' d oldsz newsz r ∧
        ∀ d' ∈ rest, s'.space d' = s.space d') ↔ (s.allocPlan d oldsz newsz).Closes (pgroundup oldsz) := by
  have hnone' : ∀ i j, InRange oldsz newsz i j → s.space d i j = none := fun i j hrange =>
    hnone i j hrange.1 (lt_trans hrange.2 hnew)
  obtain ⟨r, s', hrun, holes, out, s₁, lost, hdone⟩ :=
    exists_ok (wp_allocuvm (E := fun _ => False) h.alone.region (Multiset.mem_singleton_self d) hle hnew
      fun i j hrange hne => hne (hnone' i j hrange)) fun _ => id
  have hregion := hdone.loop.region
  have halloc := hdone.loop.allocated fun i j hfrom hto => hnone' i j ⟨hfrom, hto⟩
  have hend := hdone.ends
  have hothers : ∀ {s₂ : Memory}, Region L (s.scope {d} 0) s₂ {d} (lost + 0) → ∀ d' ∈ rest,
      s₂.space d' = s.space d' := by
    intro s₂ hs₂
    rw [← Multiset.singleton_add, ← zero_add held] at h
    exact (hs₂.frame h).2.1
  have hfollows : Follows s s₁ d (pgroundup oldsz) newsz (s.allocPlan d oldsz newsz) (holes, out) :=
    wp_ok (wp_allocPages_plan (E := fun _ => False) h.alone.region (Multiset.mem_singleton_self d) hnew (aligned_pgroundup oldsz)
      fun i j hfrom hto => hnone' i j ⟨hfrom, hto⟩) hdone.run
  rw [hfollows.closes_iff, exists_run_iff hrun]
  cases hend with
  | done =>
    constructor
    · rintro ⟨hall, -⟩
      left
      by_contra hne
      obtain ⟨w, hw⟩ := List.exists_mem_of_ne_nil holes hne
      obtain ⟨hfrom, hto, haligned, habsent⟩ := halloc.hole w hw
      rcases hall with ⟨-, hgrown⟩ | ⟨hzero, -⟩
      · obtain ⟨e, he, -⟩ := hgrown.fresh (pdx w) (ptx w) ⟨by rwa [pageAddr_index haligned], by rwa [pageAddr_index haligned]⟩
        rw [habsent] at he
        cases he
      · rw [hzero] at hto
        exact absurd hto (Nat.not_lt_zero _)
    · rintro (hnil | ⟨hfalse, -⟩)
      · obtain rfl : holes = [] := hnil
        refine ⟨.inl ⟨rfl, ⟨fun i j hrange => ?_, fun i j i' j' m m' hrange hi' hm hm' heq => ?_, fun i j hrange => ?_⟩⟩,
          hothers hregion⟩
        · exact halloc.fresh rfl i j hrange.1 hrange.2 fun w hw => by cases hw
        · have hi : i.val < 512 := low_iff.mpr (lt_trans hrange.2 hnew)
          exact space_injective (hregion.nodup (Multiset.mem_singleton_self d)) hm hm' hi hi' heq
        · exact halloc.outside hrange
      · cases hfalse
  | undone hregion' hunmaps =>
    have hiff := undone_iff hnone' halloc hunmaps
    have hpos : newsz ≠ 0 := by
      rintro rfl
      exact absurd (BitVec.lt_def.mp (halloc.out rfl)) (Nat.not_lt_zero _)
    constructor
    · rintro ⟨⟨hzero, -⟩ | ⟨-, hsame⟩, -⟩
      · exact absurd hzero.symm hpos
      · exact .inr ⟨rfl, hiff.mp hsame⟩
    · intro hcond
      refine ⟨.inr ⟨rfl, hiff.mpr ?_⟩, hothers hregion'⟩
      rcases hcond with hnil | ⟨-, hreached⟩
      · intro i j hrange hmapped
        exact reached_of_start (.inr (halloc.table hnil i j hrange.1 hrange.2 hmapped)) hrange.1 hrange.2
      · exact hreached

theorem space_emptyDir (free : List Nat) (luck : Nat → Bool) : (emptyDir free luck).space 1000 i j = none :=
  space_absent (Isolated.not_present_newDir i)

/-- The second call of `kalloc` fails, which is for a page table: the new size is returned, but the page is not
there. -/
theorem allocuvm_leaves_hole : Isolated smallLayout (emptyDir [1001, 1002] fun n => n == 1) {1000} 0 ∧
    (∀ i j, (emptyDir [1001, 1002] fun n => n == 1).space 1000 i j = none) ∧ InRange 0 4096 0 0 ∧
    ∃ s', allocuvm smallLayout 1000 0 4096 (emptyDir [1001, 1002] fun n => n == 1) = .ok (4096, s') ∧
      (s'.space 1000 0 0).isNone = true := by
  refine ⟨isolated_emptyDir _ (by decide) (by decide), fun i j => space_emptyDir _ _, ⟨by decide, by decide⟩, ?_⟩
  exact exists_run (g := fun s' => (s'.space 1000 0 0).isNone) (by decide +kernel)

/-- With two free pages there is room for a page and its table, and for nothing more. -/
theorem allocuvm_all_or_nothing_iff_emptyDir :
    (∃ r s', allocuvm smallLayout 1000 0 4096 (emptyDir [1001, 1002] fun _ => false) = .ok (r, s') ∧
      AllOrNothing (emptyDir [1001, 1002] fun _ => false) s' 1000 0 4096 r ∧
        ∀ d' ∈ (0 : Multiset Nat), s'.space d' = (emptyDir [1001, 1002] fun _ => false).space d') ∧
      ((emptyDir [1001, 1002] fun _ => false).allocPlan 1000 0 4096).Closes (pgroundup 0) := by
  have hisolated : Isolated smallLayout (emptyDir [1001, 1002] fun _ => false) {1000} 0 :=
    isolated_emptyDir (fun _ => false) (by decide) (by decide)
  have hplan : ((emptyDir [1001, 1002] fun _ => false).allocPlan 1000 0 4096).Closes (pgroundup 0) := by decide +kernel
  exact ⟨(allocuvm_all_or_nothing_iff hisolated (fun i j _ _ => space_emptyDir _ _) (by decide) (by decide)).mpr hplan, hplan⟩

end Xv6.Vm
