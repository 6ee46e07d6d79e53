import Xv6.Vm.Own

/-!
# Isolated address spaces

The invariant of physical memory, and one lemma for each way in which the code moves pages between owners:
from and to the free list, into a new page table, in and out of a mapping. A page that is dropped is lost
but does no harm, so all that a function must show is that no owner has appeared from nowhere.
-/

namespace Xv6.Vm

open Lib Syscall Memory

/-- The entries of a page directory: the mappings from `KERNBASE` on are not for the user, and those below
are cleared where they are not present. -/
structure Tidy (s : Memory) (d : Nat) : Prop where
  kernel : ∀ i j, 512 ≤ i.val → Present (s.entry d i) → Present (s.entry (pteAddr (s.entry d i)) j) →
    s.entry (pteAddr (s.entry d i)) j &&& pteU = 0
  absent : ∀ i j, i.val < 512 → Present (s.entry d i) → ¬Present (s.entry (pteAddr (s.entry d i)) j) →
    s.entry (pteAddr (s.entry d i)) j = 0

structure Isolated (L : Layout) (s : Memory) (dirs held : Multiset Nat) : Prop where
  nodup : (s.owned dirs held).Nodup
  ram : ∀ q ∈ s.owned dirs held, L.Ram q
  tidy : ∀ d ∈ dirs, Tidy s d

variable {L : Layout} {s s' : Memory} {dirs dirs' held held' : Multiset Nat} {d q : Nat} {i j : Fin 1024}

/-- What an entry for the pages from `KERNBASE` on, or below, must satisfy. -/
def Fit (i : Fin 1024) (e : Word) : Prop :=
  (512 ≤ i.val → Present e → e &&& pteU = 0) ∧ (i.val < 512 → ¬Present e → e = 0)

theorem Tidy.of_entries (h : Tidy s d) (hentry : ∀ i j, Present (s'.entry d i) →
    (Present (s.entry d i) ∧ s'.entry (pteAddr (s'.entry d i)) j = s.entry (pteAddr (s.entry d i)) j) ∨
      Fit i (s'.entry (pteAddr (s'.entry d i)) j)) : Tidy s' d := by
  constructor
  · intro i j hi hp hpte
    rcases hentry i j hp with ⟨hold, heq⟩ | hfit
    · rw [heq] at hpte ⊢
      exact h.kernel i j hi hold hpte
    · exact hfit.1 hi hpte
  · intro i j hi hp hpte
    rcases hentry i j hp with ⟨hold, heq⟩ | hfit
    · rw [heq] at hpte ⊢
      exact h.absent i j hi hold hpte
    · exact hfit.2 hi hpte

theorem Tidy.congr (h : Tidy s d) (hd : ∀ i, s'.entry d i = s.entry d i)
    (ht : ∀ t ∈ s.pointedBy d, ∀ j, s'.entry t j = s.entry t j) : Tidy s' d := by
  refine h.of_entries fun i j hp => .inl ?_
  rw [hd i] at hp ⊢
  exact ⟨hp, ht _ (mem_pointedBy hp) j⟩

def Kept (s s' : Memory) (d : Nat) : Prop :=
  (∀ i, s'.entry d i = s.entry d i) ∧ ∀ t ∈ s.pointedBy d, ∀ j, s'.entry t j = s.entry t j

theorem Kept.of_store (hq : q ∉ s.dirPages d) (hsame : ∀ q', q' ≠ q → ∀ i, s'.entry q' i = s.entry q' i) : Kept s s' d := by
  constructor
  · refine hsame d ?_
    rintro rfl
    exact hq (by simp [dirPages])
  · intro t ht
    refine hsame t ?_
    rintro rfl
    exact hq (by simp [dirPages, ht])

theorem Kept.tidy (h : Kept s s' d) (htidy : Tidy s d) : Tidy s' d := htidy.congr h.1 h.2

theorem map_dirPages_kept (h : ∀ d ∈ dirs, Kept s s' d) : dirs.map s'.dirPages = dirs.map s.dirPages :=
  Multiset.map_congr rfl fun d hd => dirPages_congr (h d hd).1 (h d hd).2

theorem owned_cons : s.owned (d ::ₘ dirs) held = s.dirPages d + s.owned dirs held := by
  rw [owned, owned, Multiset.map_cons, Multiset.sum_cons]
  abel

theorem owned_kept (h : ∀ d ∈ dirs, Kept s s' d) :
    s'.owned dirs held' = s'.free + held' + (dirs.map s.dirPages).sum := by
  rw [owned, map_dirPages_kept h]
  abel

theorem owned_eq : s.owned dirs held = s.free + held + (dirs.map s.dirPages).sum := by
  rw [owned]
  abel

namespace Isolated

theorem of_le (h : Isolated L s dirs held) (hle : s'.owned dirs' held' ≤ s.owned dirs held)
    (htidy : ∀ d ∈ dirs', Tidy s' d) : Isolated L s' dirs' held' where
  nodup := Multiset.nodup_of_le hle h.nodup
  ram q hq := h.ram q (Multiset.mem_of_le hle hq)
  tidy := htidy

theorem mono (h : Isolated L s dirs held) (hdirs : dirs' ≤ dirs) (hheld : held' ≤ held) : Isolated L s dirs' held' := by
  refine h.of_le ?_ fun d hd => h.tidy d (Multiset.mem_of_le hdirs hd)
  obtain ⟨rest, rfl⟩ := Multiset.le_iff_exists_add.mp hdirs
  rw [owned, owned, Multiset.map_add, Multiset.sum_add]
  gcongr
  exact Multiset.le_add_right _ _

theorem drop (h : Isolated L s dirs held) (hle : held' ≤ held) : Isolated L s dirs held' := h.mono le_rfl hle

theorem mem_owned_of_mem_dirPages (hd : d ∈ dirs) (hq : q ∈ s.dirPages d) : q ∈ s.owned dirs held := by
  obtain ⟨rest, rfl⟩ := Multiset.exists_cons_of_mem hd
  simp [owned, hq]

section Cons

variable (h : Isolated L s (d ::ₘ dirs) held)

include h

theorem nodup_dirPages : (s.dirPages d).Nodup := by
  have hle : s.dirPages d ≤ s.owned (d ::ₘ dirs) held := by
    rw [owned, Multiset.map_cons, Multiset.sum_cons]
    exact le_add_right (le_add_left (Multiset.le_add_right _ _))
  exact Multiset.nodup_of_le hle h.nodup

theorem disjoint_dirPages {d' : Nat} (hd' : d' ∈ dirs) : Disjoint (s.dirPages d) (s.dirPages d') := by
  obtain ⟨rest, rfl⟩ := Multiset.exists_cons_of_mem hd'
  have hle : s.dirPages d + s.dirPages d' ≤ s.owned (d ::ₘ d' ::ₘ rest) held := by
    rw [owned, Multiset.map_cons, Multiset.sum_cons, Multiset.map_cons, Multiset.sum_cons, ← add_assoc (s.dirPages d)]
    exact le_add_right (le_add_left (Multiset.le_add_right _ _))
  exact (Multiset.nodup_add.mp (Multiset.nodup_of_le hle h.nodup)).2.2

/-- A store into the directory or into one of its tables is none of the other directories' business. -/
theorem kept_others (hq : q ∈ s.dirPages d) (hsame : ∀ q', q' ≠ q → ∀ i, s'.entry q' i = s.entry q' i) :
    ∀ d' ∈ dirs, Kept s s' d' := fun _ hd' =>
  .of_store (Multiset.disjoint_left.mp (h.disjoint_dirPages hd') hq) hsame

theorem change (hq : q ∈ s.dirPages d) (hsame : ∀ q', q' ≠ q → ∀ i, s'.entry q' i = s.entry q' i)
    (hle : s'.owned (d ::ₘ dirs) held' ≤ s.owned (d ::ₘ dirs) held) (htidy : Tidy s' d) :
    Isolated L s' (d ::ₘ dirs) held' := by
  refine h.of_le hle fun d' hd' => ?_
  rcases Multiset.mem_cons.mp hd' with rfl | hmem
  · exact htidy
  · exact (h.kept_others hq hsame d' hmem).tidy (h.tidy d' hd')

end Cons

theorem kept_store (hq : ∀ d ∈ dirs, q ≠ d ∧ q ∉ s.pointedBy d) (hsame : ∀ q', q' ≠ q → ∀ i, s'.entry q' i = s.entry q' i) :
    ∀ d ∈ dirs, Kept s s' d := fun d hd =>
  ⟨hsame d (hq d hd).1.symm, fun t ht => hsame t fun heq => (hq d hd).2 (heq ▸ ht)⟩

theorem store (h : Isolated L s dirs held) (hq : ∀ d ∈ dirs, q ≠ d ∧ q ∉ s.pointedBy d)
    (hsame : ∀ q', q' ≠ q → ∀ i, s'.entry q' i = s.entry q' i)
    (hle : (s'.free : Multiset Nat) + held' ≤ s.free + held) : Isolated L s' dirs held' := by
  refine h.of_le ?_ fun d hd => (kept_store hq hsame d hd).tidy (h.tidy d hd)
  rw [owned_kept (kept_store hq hsame), owned_eq]
  gcongr

theorem not_table_of_held (h : Isolated L s dirs held) (hq : q ∈ held) : ∀ d ∈ dirs, q ≠ d ∧ q ∉ s.pointedBy d := by
  intro d hd
  have hnot : q ∉ s.dirPages d := by
    obtain ⟨rest, rfl⟩ := Multiset.exists_cons_of_mem hd
    have hle : s.dirPages d + held ≤ s.owned (d ::ₘ rest) held := by
      rw [owned, Multiset.map_cons, Multiset.sum_cons]
      gcongr
      exact le_add_left (Multiset.le_add_right _ _)
    exact Multiset.disjoint_right.mp (Multiset.nodup_add.mp (Multiset.nodup_of_le hle h.nodup)).2.2 hq
  constructor
  · rintro rfl
    exact hnot (by simp [dirPages])
  · intro hmem
    exact hnot (by simp [dirPages, hmem])

theorem fill (h : Isolated L s dirs held) (hq : q ∈ held) (b : Page) : Isolated L (s.setPage q b) dirs held :=
  h.store (h.not_table_of_held hq) (fun _ hq' i => entry_setPage_of_ne s hq' b i) le_rfl

theorem not_table_of_user (h : Isolated L s dirs held) (hd : d ∈ dirs) (hq : q ∈ s.userPages d) :
    ∀ d' ∈ dirs, q ≠ d' ∧ q ∉ s.pointedBy d' := by
  intro d' hd'
  by_cases heq : d' = d
  · obtain ⟨rest, rfl⟩ := Multiset.exists_cons_of_mem hd
    subst heq
    exact not_mem_of_mem_userPages h.nodup_dirPages hq
  · obtain ⟨rest, rfl⟩ := Multiset.exists_cons_of_mem hd
    have hmem : d' ∈ rest := (Multiset.mem_cons.mp hd').resolve_left heq
    have hnot : q ∉ s.dirPages d' :=
      Multiset.disjoint_left.mp (h.disjoint_dirPages hmem) (by simp [dirPages, hq])
    constructor
    · rintro rfl
      exact hnot (by simp [dirPages])
    · intro htable
      exact hnot (by simp [dirPages, htable])

theorem write (h : Isolated L s dirs held) (hd : d ∈ dirs) (hq : q ∈ s.userPages d) (b : Page) :
    Isolated L (s.setPage q b) dirs held :=
  h.store (h.not_table_of_user hd hq) (fun _ hq' i => entry_setPage_of_ne s hq' b i) le_rfl

/-! ### Pages change their owners -/

theorem owned_alloc {rest : List Nat} (hfree : s.free = q :: rest) (luck : Nat → Bool) :
    Memory.owned { s with luck := luck, free := rest } dirs (q ::ₘ held) = s.owned dirs held := by
  have hsum : (s.free : Multiset Nat) = {q} + ↑rest := by
    rw [hfree, ← Multiset.cons_coe, ← Multiset.singleton_add]
  have hdirs : dirs.map (Memory.dirPages { s with luck := luck, free := rest }) = dirs.map s.dirPages := rfl
  rw [owned, owned, hdirs, hsum, ← Multiset.singleton_add]
  abel

theorem alloc (h : Isolated L s dirs held) {rest : List Nat} (hfree : s.free = q :: rest) (luck : Nat → Bool) :
    Isolated L { s with luck := luck, free := rest } dirs (q ::ₘ held) :=
  h.of_le (le_of_eq (owned_alloc hfree luck)) fun d hd => (h.tidy d hd).congr (fun _ => rfl) fun _ _ _ => rfl

theorem owned_free (h : Isolated L s dirs (q ::ₘ held)) (b : Page) :
    Memory.owned { s.setPage q b with free := q :: s.free } dirs held = s.owned dirs (q ::ₘ held) := by
  have hkept : ∀ d ∈ dirs, Kept s { s.setPage q b with free := q :: s.free } d :=
    kept_store (h.not_table_of_held (Multiset.mem_cons_self q held)) fun q' hq' i => entry_setPage_of_ne s hq' b i
  rw [owned_kept hkept, owned_eq, ← Multiset.cons_coe, Multiset.cons_add q _ held, Multiset.add_cons]

theorem free (h : Isolated L s dirs (q ::ₘ held)) (b : Page) :
    Isolated L { s.setPage q b with free := q :: s.free } dirs held := by
  refine h.store (h.not_table_of_held (Multiset.mem_cons_self q held)) (fun q' hq' i => ?_) (le_of_eq ?_)
  · exact entry_setPage_of_ne s hq' b i
  · rw [← Multiset.cons_coe, Multiset.cons_add, Multiset.add_cons]

theorem owned_fill (h : Isolated L s dirs held) (hq : q ∈ held) (b : Page) :
    (s.setPage q b).owned dirs held = s.owned dirs held := by
  rw [owned_kept (kept_store (h.not_table_of_held hq) fun q' hq' i => entry_setPage_of_ne s hq' b i), owned_eq]
  rfl

theorem not_present_newDir (i : Fin 1024) : ¬Present ((s.setPage d Bytes.zero).entry d i) := by
  rw [entry_setPage_zero]
  exact not_present_zero

theorem owned_newDir (h : Isolated L s dirs (d ::ₘ held)) :
    (s.setPage d Bytes.zero).owned (d ::ₘ dirs) held = s.owned dirs (d ::ₘ held) := by
  have hpointed : (s.setPage d Bytes.zero).pointedBy d = 0 := by
    rw [pointedBy, ← total_zero (ι := Fin 1024)]
    exact total_congr fun i => entryPages_absent (not_present_newDir i)
  have huser : (s.setPage d Bytes.zero).userPages d = 0 := by
    rw [userPages, ← total_zero (ι := Fin 1024)]
    exact total_congr fun i => if_neg fun hi => not_present_newDir i hi.2
  rw [← h.owned_fill (Multiset.mem_cons_self d held) Bytes.zero, owned_cons, dirPages, hpointed, huser, owned, owned,
    ← Multiset.singleton_add]
  abel

theorem newDir (h : Isolated L s dirs (d ::ₘ held)) : Isolated L (s.setPage d Bytes.zero) (d ::ₘ dirs) held := by
  refine h.of_le (le_of_eq h.owned_newDir) fun d' hd' => ?_
  rcases Multiset.mem_cons.mp hd' with rfl | hmem
  · exact ⟨fun i _ _ hi => absurd hi (not_present_newDir i), fun i _ _ hi => absurd hi (not_present_newDir i)⟩
  · exact (h.fill (Multiset.mem_cons_self d held) _).tidy d' hmem

/-- A directory is given up; its page, its tables and the pages that it maps are still held. -/
theorem owned_dissolve : s.owned dirs (d ::ₘ (s.pointedBy d + held)) + s.userPages d = s.owned (d ::ₘ dirs) held := by
  rw [owned_cons, owned, owned, dirPages, ← Multiset.singleton_add]
  abel

theorem dissolve (h : Isolated L s (d ::ₘ dirs) held) : Isolated L s dirs (d ::ₘ (s.pointedBy d + held)) := by
  refine h.of_le ?_ fun d' hd' => h.tidy d' (Multiset.mem_cons_of_mem hd')
  rw [← owned_dissolve]
  exact Multiset.le_add_right _ _

theorem owned_addTable {t : Nat} {e : Word} (h : Isolated L s dirs (t ::ₘ held)) (hd : d ∈ dirs)
    (habsent : ¬Present (s.entry d i)) (he : Present e) (haddr : pteAddr e = t) :
    ((s.setPage t Bytes.zero).setEntry d i e).owned dirs held = s.owned dirs (t ::ₘ held) := by
  have hstore : Isolated L (s.setPage t Bytes.zero) dirs (t ::ₘ held) :=
    h.fill (Multiset.mem_cons_self t held) _
  have hne : t ≠ d := (h.not_table_of_held (Multiset.mem_cons_self t held) d hd).1
  rw [← h.owned_fill (Multiset.mem_cons_self t held) Bytes.zero]
  obtain ⟨rest, rfl⟩ := Multiset.exists_cons_of_mem hd
  have hkept : ∀ d' ∈ rest, Kept (s.setPage t Bytes.zero) ((s.setPage t Bytes.zero).setEntry d i e) d' :=
    hstore.kept_others (q := d) (by simp [dirPages]) fun q' hq' k => entry_setEntry_of_ne _ hq' _ _ _
  rw [owned_cons, owned_cons, owned_kept hkept, owned_eq, ← Multiset.singleton_add t held,
    dirPages_addTable hstore.nodup_dirPages hne (fun j => entry_setPage_zero s t j)
      (by rwa [entry_setPage_of_ne s hne.symm]) he haddr]
  change _ + (↑s.free + held + _) = _ + (↑s.free + ({t} + held) + _)
  abel

theorem addTable {t : Nat} {e : Word} (h : Isolated L s dirs (t ::ₘ held)) (hd : d ∈ dirs)
    (habsent : ¬Present (s.entry d i)) (he : Present e) (haddr : pteAddr e = t) :
    Isolated L ((s.setPage t Bytes.zero).setEntry d i e) dirs held := by
  have hstore : Isolated L (s.setPage t Bytes.zero) dirs (t ::ₘ held) :=
    h.fill (Multiset.mem_cons_self t held) _
  have hne : t ≠ d := (h.not_table_of_held (Multiset.mem_cons_self t held) d hd).1
  have howned := h.owned_addTable hd habsent he haddr
  rw [← h.owned_fill (Multiset.mem_cons_self t held) Bytes.zero] at howned
  obtain ⟨rest, rfl⟩ := Multiset.exists_cons_of_mem hd
  refine hstore.change (q := d) (by simp [dirPages]) (fun q' hq' k => entry_setEntry_of_ne _ hq' _ _ _)
    (le_of_eq howned) ?_
  -- the new table is empty, and the others are as before
  refine (hstore.tidy d (Multiset.mem_cons_self d rest)).of_entries fun k j hp => ?_
  by_cases hk : k = i
  · subst hk
    right
    rw [entry_setEntry_same, haddr, entry_setEntry_of_ne _ hne, entry_setPage_zero]
    exact ⟨fun _ hz => absurd hz not_present_zero, fun _ _ => rfl⟩
  · left
    rw [entry_setEntry_ne _ hk] at hp ⊢
    exact ⟨hp, entry_setEntry_of_ne _ (ne_of_mem_pointedBy hstore.nodup_dirPages (mem_pointedBy hp)) _ _ _⟩

/-- A store into a page table. Below `KERNBASE` the entry owns the page it points to. -/
theorem owned_setPte (h : Isolated L s dirs held) (hd : d ∈ dirs) (hi : Present (s.entry d i)) (j : Fin 1024) (e : Word)
    (held' : Multiset Nat) :
    (s.setEntry (pteAddr (s.entry d i)) j e).owned dirs held' +
        ((if i.val < 512 then entryPages (s.entry (pteAddr (s.entry d i)) j) else 0) + held) =
      s.owned dirs held + ((if i.val < 512 then entryPages e else 0) + held') := by
  obtain ⟨rest, rfl⟩ := Multiset.exists_cons_of_mem hd
  have hkept : ∀ d' ∈ rest, Kept s (s.setEntry (pteAddr (s.entry d i)) j e) d' :=
    h.kept_others (by simp [dirPages, mem_pointedBy hi]) fun q' hq' k => entry_setEntry_of_ne _ hq' _ _ _
  have hpages := dirPages_setPte (j := j) h.nodup_dirPages hi e
  rw [owned_cons, owned_cons, owned_kept hkept, owned_eq]
  change _ + (↑s.free + held' + _) + _ = _
  calc (s.setEntry (pteAddr (s.entry d i)) j e).dirPages d + (↑s.free + held' + (rest.map s.dirPages).sum) +
        ((if i.val < 512 then entryPages (s.entry (pteAddr (s.entry d i)) j) else 0) + held)
      = (s.setEntry (pteAddr (s.entry d i)) j e).dirPages d +
          (if i.val < 512 then entryPages (s.entry (pteAddr (s.entry d i)) j) else 0) +
            (↑s.free + held' + (rest.map s.dirPages).sum + held) := by abel
    _ = s.dirPages d + (↑s.free + held + (rest.map s.dirPages).sum) +
          ((if i.val < 512 then entryPages e else 0) + held') := by rw [hpages]; abel

theorem setPte {e : Word} (h : Isolated L s dirs held) (hd : d ∈ dirs) (hi : Present (s.entry d i))
    (hle : (if i.val < 512 then entryPages e else 0) + held' ≤
      (if i.val < 512 then entryPages (s.entry (pteAddr (s.entry d i)) j) else 0) + held)
    (hfit : Fit i e) :
    Isolated L (s.setEntry (pteAddr (s.entry d i)) j e) dirs held' := by
  have howned := h.owned_setPte hd hi j e held'
  have hsmaller : (s.setEntry (pteAddr (s.entry d i)) j e).owned dirs held' ≤ s.owned dirs held := by
    refine le_of_add_le_add_right (a := (if i.val < 512 then entryPages e else 0) + held') ?_
    rw [← howned]
    gcongr
  obtain ⟨rest, rfl⟩ := Multiset.exists_cons_of_mem hd
  have hnodup := h.nodup_dirPages
  have htable : pteAddr (s.entry d i) ∈ s.dirPages d := by simp [dirPages, mem_pointedBy hi]
  have hdir : ∀ k, (s.setEntry (pteAddr (s.entry d i)) j e).entry d k = s.entry d k := fun k =>
    entry_setEntry_of_ne s (ne_of_mem_pointedBy hnodup (mem_pointedBy hi)).symm _ _ _
  refine h.change htable (fun q' hq' k => entry_setEntry_of_ne _ hq' _ _ _) hsmaller ?_
  refine (h.tidy d (Multiset.mem_cons_self d rest)).of_entries fun k l hp => ?_
  rw [hdir k] at hp ⊢
  by_cases hk : k = i
  · subst hk
    by_cases hl : l = j
    · subst hl
      rw [entry_setEntry_same]
      exact .inr hfit
    · exact .inl ⟨hp, entry_setEntry_ne _ hl _⟩
  · exact .inl ⟨hp, entry_setEntry_of_ne _ (fun heq => hk (pteAddr_injective hnodup hp hi heq)) _ _ _⟩

end Isolated

end Xv6.Vm
