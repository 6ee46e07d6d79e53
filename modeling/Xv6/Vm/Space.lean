import Xv6.Vm.Addr

/-!
# What a page directory maps

An address space as its user and the kernel see it: which pages are present, with what entry, and what the
user pages contain. A page is known by its two indices. Here is what each store of `vm.c` does to it; the
stores that change nothing are those outside of the pages of the directory.
-/

namespace Xv6.Vm

open Lib Syscall Memory

/-! ### Addresses of pages -/

def pageAddr (i j : Fin 1024) : Nat := pgsize * (1024 * i + j)

theorem pageAddr_injective {i j i' j' : Fin 1024} (h : pageAddr i j = pageAddr i' j') : i = i' ∧ j = j' := by
  unfold pageAddr pgsize at h
  exact ⟨Fin.ext (by omega), Fin.ext (by omega)⟩

theorem pageAddr_index {a : Word} (ha : a.toNat % pgsize = 0) : pageAddr (pdx a) (ptx a) = a.toNat := by
  unfold pageAddr pdx ptx
  simp only
  unfold pgsize at *
  omega

theorem index_pageAddr {a : Word} {i j : Fin 1024} (h : pageAddr i j = a.toNat) : i = pdx a ∧ j = ptx a := by
  refine pageAddr_injective (h.trans (pageAddr_index ?_).symm)
  rw [← h, pageAddr, Nat.mul_mod_right]

theorem low_iff {i j : Fin 1024} : i.val < 512 ↔ pageAddr i j < kernbase := by
  unfold pageAddr pgsize kernbase
  omega

/-- A range of pages that are mapped in order consists of its first page and of the range behind it. -/
theorem range_cons {α : Type} {f f₁ f' : Fin 1024 → Fin 1024 → Option α} {a pa : Word} (g : Word → α) (P : Nat → Prop)
    [DecidablePred P]
    (ha : a.toNat % pgsize = 0) (hP : P a.toNat)
    (hfirst : ∀ i j, f₁ i j = if i = pdx a ∧ j = ptx a then some (g pa) else f i j)
    (h : ∀ i j, f' i j = if a.toNat + pgsize ≤ pageAddr i j ∧ P (pageAddr i j) then
      some (g (pa + 4096 + BitVec.ofNat 32 (pageAddr i j - (a.toNat + pgsize)))) else f₁ i j) (i j : Fin 1024) :
    f' i j = if a.toNat ≤ pageAddr i j ∧ P (pageAddr i j) then some (g (pa + BitVec.ofNat 32 (pageAddr i j - a.toNat)))
      else f i j := by
  have hindex := pageAddr_index ha
  rw [h i j, hfirst i j]
  by_cases heq : i = pdx a ∧ j = ptx a
  · obtain ⟨rfl, rfl⟩ := heq
    rw [if_neg (by unfold pgsize; omega), if_pos ⟨rfl, rfl⟩, hindex, if_pos ⟨le_rfl, hP⟩, Nat.sub_self, BitVec.add_zero]
  have hne : pageAddr i j ≠ a.toNat := fun hpage => heq (index_pageAddr hpage)
  have hiff : a.toNat + pgsize ≤ pageAddr i j ↔ a.toNat ≤ pageAddr i j := by
    unfold pageAddr pgsize at *
    omega
  rw [if_neg heq]
  by_cases hrange : a.toNat ≤ pageAddr i j ∧ P (pageAddr i j)
  · obtain ⟨c, hc⟩ := Nat.exists_eq_add_of_le (hiff.mpr hrange.1)
    rw [if_pos ⟨hiff.mpr hrange.1, hrange.2⟩, if_pos hrange, hc, Nat.add_sub_cancel_left, Nat.add_assoc,
      Nat.add_sub_cancel_left, BitVec.ofNat_add, ← BitVec.add_assoc]
    rfl
  · rw [if_neg fun hin => hrange ⟨hiff.mp hin.1, hin.2⟩, if_neg hrange]

/-! ### The view of an address space -/

/-- The entry of a page and, if it is below `KERNBASE`, what it contains. -/
abbrev Mapping := Word × Option Page

def Memory.content (s : Memory) (i : Fin 1024) (e : Word) : Option Page :=
  if i.val < 512 then some (s.page (pteAddr e)) else none

def Memory.space (s : Memory) (d : Nat) (i j : Fin 1024) : Option Mapping :=
  let e := s.entry (pteAddr (s.entry d i)) j
  if Present (s.entry d i) ∧ Present e then some (e, s.content i e) else none

def put (m : Fin 1024 → Fin 1024 → Option Mapping) (i j : Fin 1024) (v : Option Mapping) :
    Fin 1024 → Fin 1024 → Option Mapping :=
  fun k l => if k = i ∧ l = j then v else m k l

variable {s s' : Memory} {d q t : Nat} {i j : Fin 1024} {e : Word}

@[simp] theorem put_self {m : Fin 1024 → Fin 1024 → Option Mapping} {v : Option Mapping} : put m i j v i j = v :=
  if_pos ⟨rfl, rfl⟩

theorem put_of_ne {m : Fin 1024 → Fin 1024 → Option Mapping} {v : Option Mapping} {k l : Fin 1024}
    (h : ¬(k = i ∧ l = j)) : put m i j v k l = m k l := if_neg h

namespace Memory

theorem space_present (hd : Present (s.entry d i)) (he : Present (s.entry (pteAddr (s.entry d i)) j)) :
    s.space d i j = some (s.entry (pteAddr (s.entry d i)) j, s.content i (s.entry (pteAddr (s.entry d i)) j)) :=
  if_pos ⟨hd, he⟩

theorem space_absent (h : ¬Present (s.entry d i)) : s.space d i j = none := if_neg fun hp => h hp.1

theorem space_eq_none (hd : Present (s.entry d i)) :
    s.space d i j = none ↔ ¬Present (s.entry (pteAddr (s.entry d i)) j) := by
  rw [space]
  simp [hd]

theorem space_eq_some {m : Mapping} (h : s.space d i j = some m) :
    Present (s.entry d i) ∧ Present m.1 ∧ s.entry (pteAddr (s.entry d i)) j = m.1 ∧ m.2 = s.content i m.1 := by
  rw [space] at h
  split at h
  · rename_i hp
    obtain rfl := Option.some.inj h
    exact ⟨hp.1, hp.2, rfl, rfl⟩
  · cases h

theorem mem_userPages_of_space {m : Mapping} (h : s.space d i j = some m) (hi : i.val < 512) :
    pteAddr m.1 ∈ s.userPages d := by
  obtain ⟨hp, he, heq, -⟩ := space_eq_some h
  refine mem_userPages hi hp ?_
  rw [← heq] at he ⊢
  exact mem_pointedBy he

theorem mem_dirPages_of_userPages (h : q ∈ s.userPages d) : q ∈ s.dirPages d := by simp [dirPages, h]

theorem mem_dirPages_of_pointedBy (h : t ∈ s.pointedBy d) : t ∈ s.dirPages d := by simp [dirPages, h]

theorem mem_dirPages_self : d ∈ s.dirPages d := by simp [dirPages]

theorem entry_of_page (h : s'.page q = s.page q) (i : Fin 1024) : s'.entry q i = s.entry q i := by rw [entry, entry, h]

/-! ### Stores elsewhere -/

section Frame

variable (h : ∀ q ∈ s.dirPages d, s'.page q = s.page q)

include h

theorem dirPages_frame : s'.dirPages d = s.dirPages d :=
  dirPages_congr (fun i => entry_of_page (h d mem_dirPages_self) i)
    fun t ht j => entry_of_page (h t (mem_dirPages_of_pointedBy ht)) j

theorem space_frame : s'.space d = s.space d := by
  funext i j
  have hdir : s'.entry d i = s.entry d i := entry_of_page (h d mem_dirPages_self) i
  rw [space, space, hdir]
  by_cases hp : Present (s.entry d i)
  · rw [entry_of_page (h _ (mem_dirPages_of_pointedBy (mem_pointedBy hp))) j]
    by_cases he : Present (s.entry (pteAddr (s.entry d i)) j)
    · rw [if_pos ⟨hp, he⟩, if_pos ⟨hp, he⟩, content, content]
      by_cases hi : i.val < 512
      · rw [h _ (mem_dirPages_of_userPages (mem_userPages hi hp (mem_pointedBy he)))]
      · rw [if_neg hi, if_neg hi]
    · rw [if_neg fun h => he h.2, if_neg fun h => he h.2]
  · rw [if_neg fun h => hp h.1, if_neg fun h => hp h.1]

theorem tidy_frame (htidy : Tidy s d) : Tidy s' d :=
  htidy.congr (fun i => entry_of_page (h d mem_dirPages_self) i)
    fun t ht j => entry_of_page (h t (mem_dirPages_of_pointedBy ht)) j

end Frame

theorem setPage_page_ne {q' : Nat} (h : q' ≠ q) (b : Page) : (s.setPage q b).page q' = s.page q' :=
  Function.update_of_ne h _ _

theorem setEntry_page_ne {q' : Nat} (h : q' ≠ q) (e : Word) : (s.setEntry q j e).page q' = s.page q' :=
  setPage_page_ne h _

/-! ### Stores into the directory and its tables -/

section Directory

variable (hnodup : (s.dirPages d).Nodup)

include hnodup

theorem content_setEntry {i' : Fin 1024} (hq : q = d ∨ q ∈ s.pointedBy d)
    (he : i'.val < 512 → pteAddr e ∈ s.userPages d) (x : Word) : (s.setEntry q j x).content i' e = s.content i' e := by
  rw [content, content]
  by_cases hi : i'.val < 512
  · obtain ⟨hne, hnot⟩ := not_mem_of_mem_userPages hnodup (he hi)
    have hother : pteAddr e ≠ q := by
      rintro rfl
      exact hq.elim hne hnot
    rw [setEntry_page_ne hother]
  · rw [if_neg hi, if_neg hi]

theorem space_addTable (hne : t ≠ d) (hzero : ∀ j, s.entry t j = 0) (habsent : ¬Present (s.entry d i))
    (haddr : pteAddr e = t) : (s.setEntry d i e).space d = s.space d := by
  funext k l
  by_cases hk : k = i
  · subst hk
    rw [space_absent habsent, space, entry_setEntry_same, haddr, entry_setEntry_of_ne s hne, hzero l]
    exact if_neg fun h => not_present_zero h.2
  · rw [space, space, entry_setEntry_ne s hk]
    by_cases hp : Present (s.entry d k)
    · rw [entry_setEntry_of_ne s (ne_of_mem_pointedBy hnodup (mem_pointedBy hp))]
      by_cases he : Present (s.entry (pteAddr (s.entry d k)) l)
      · rw [if_pos ⟨hp, he⟩, if_pos ⟨hp, he⟩,
          content_setEntry hnodup (.inl rfl) fun hlow => mem_userPages hlow hp (mem_pointedBy he)]
      · rw [if_neg fun h => he h.2, if_neg fun h => he h.2]
    · rw [if_neg fun h => hp h.1, if_neg fun h => hp h.1]

/-- A store into the page table at entry `i` of the directory maps one page differently. -/
theorem space_setPte (hi : Present (s.entry d i)) (haddr : i.val < 512 → pteAddr e ≠ pteAddr (s.entry d i)) :
    (s.setEntry (pteAddr (s.entry d i)) j e).space d =
      put (s.space d) i j (if Present e then some (e, s.content i e) else none) := by
  have hdir : ∀ k, (s.setEntry (pteAddr (s.entry d i)) j e).entry d k = s.entry d k := fun k =>
    entry_setEntry_of_ne s (ne_of_mem_pointedBy hnodup (mem_pointedBy hi)).symm _ _ _
  have hother : ∀ k l, ¬(k = i ∧ l = j) → Present (s.entry d k) →
      (s.setEntry (pteAddr (s.entry d i)) j e).entry (pteAddr (s.entry d k)) l = s.entry (pteAddr (s.entry d k)) l := by
    intro k l hne hk
    by_cases hki : k = i
    · subst hki
      exact entry_setEntry_ne s (fun hl => hne ⟨rfl, hl⟩) e
    · exact entry_setEntry_of_ne s (fun heq => hki (pteAddr_injective hnodup hk hi heq)) _ _ _
  funext k l
  by_cases hkl : k = i ∧ l = j
  · obtain ⟨rfl, rfl⟩ := hkl
    rw [put_self, space, hdir, entry_setEntry_same]
    by_cases he : Present e
    · rw [if_pos ⟨hi, he⟩, if_pos he, content, content]
      by_cases hlow : k.val < 512
      · rw [setEntry_page_ne (haddr hlow)]
      · rw [if_neg hlow, if_neg hlow]
    · rw [if_neg fun h => he h.2, if_neg he]
  · rw [put_of_ne hkl, space, space, hdir]
    by_cases hk : Present (s.entry d k)
    · rw [hother k l hkl hk]
      by_cases he : Present (s.entry (pteAddr (s.entry d k)) l)
      · rw [if_pos ⟨hk, he⟩, if_pos ⟨hk, he⟩,
          content_setEntry hnodup (.inr (mem_pointedBy hi)) fun hlow => mem_userPages hlow hk (mem_pointedBy he)]
      · rw [if_neg fun h => he h.2, if_neg fun h => he h.2]
    · rw [if_neg fun h => hk h.1, if_neg fun h => hk h.1]

theorem space_injective {i' j' : Fin 1024} {m m' : Mapping} (h : s.space d i j = some m) (h' : s.space d i' j' = some m')
    (hi : i.val < 512) (hi' : i'.val < 512) (heq : pteAddr m.1 = pteAddr m'.1) : i = i' ∧ j = j' := by
  obtain ⟨hp, he, hm, -⟩ := space_eq_some h
  obtain ⟨hp', he', hm', -⟩ := space_eq_some h'
  rw [dirPages] at hnodup
  have huser := (Multiset.nodup_add.mp hnodup).2.1
  have hslot : ∀ {k l : Fin 1024}, k.val < 512 → Present (s.entry d k) →
      Present (s.entry (pteAddr (s.entry d k)) l) → pteAddr (s.entry (pteAddr (s.entry d k)) l) ∈ s.slotPages d k := by
    intro k l hk hpk hpl
    rw [slotPages, if_pos ⟨hk, hpk⟩]
    exact mem_pointedBy hpl
  rw [← hm] at he heq
  rw [← hm'] at he' heq
  obtain rfl : i = i' := eq_of_mem_total huser (hslot hi hp he) (heq ▸ hslot hi' hp' he')
  have htable : (s.pointedBy (pteAddr (s.entry d i))).Nodup := by
    have hle := le_total (s.slotPages d) i
    rw [slotPages, if_pos ⟨hi, hp⟩] at hle
    exact Multiset.nodup_of_le hle huser
  have hpage : ∀ {x : Word}, Present x → pteAddr x ∈ entryPages x := by
    intro x hx
    rw [entryPages_present hx]
    exact Multiset.mem_singleton_self _
  exact ⟨rfl, eq_of_mem_total htable (hpage he) (heq ▸ hpage he')⟩

end Directory

end Memory

/-! ### Directories that keep their entries -/

theorem Kept.refl (s : Memory) (d : Nat) : Kept s s d := ⟨fun _ => rfl, fun _ _ _ => rfl⟩

theorem Kept.table (h : Kept s s' d) (hi : Present (s.entry d i)) :
    s'.entry (pteAddr (s.entry d i)) j = s.entry (pteAddr (s.entry d i)) j := h.2 _ (mem_pointedBy hi) j

theorem Kept.trans {s'' : Memory} (h : Kept s s' d) (h' : Kept s' s'' d) : Kept s s'' d := by
  refine ⟨fun i => (h'.1 i).trans (h.1 i), fun t ht j => ?_⟩
  obtain ⟨i, hi⟩ := mem_total.mp ht
  have hp : Present (s.entry d i) := by
    by_contra habsent
    rw [entryPages_absent habsent] at hi
    cases hi
  rw [entryPages_present hp, Multiset.mem_singleton] at hi
  subst hi
  have hp' : Present (s'.entry d i) := by rwa [h.1]
  have htable := h'.table (j := j) hp'
  rw [h.1] at htable
  rw [htable, h.table hp]

end Xv6.Vm
