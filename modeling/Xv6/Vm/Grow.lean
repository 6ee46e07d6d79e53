import Xv6.Vm.Machine

/-!
# `growproc`

`allocuvm` and `deallocuvm` both return 0 for an error and the old size when there is nothing to do. A process
that shrinks to nothing gets an error after its pages are gone, and one that shrinks by more than it has is told
of success. In all other cases `growproc` does what it is asked to do, or nothing: what it undoes starts in a
table that exists or at the start of one, because all pages below are mapped.
-/

namespace Xv6.Vm

open Lib Syscall Memory

variable {L : Layout} {s s' : Memory} {held : Multiset Nat} {d : Nat} {sz n : Word}

/-- The new size is what was asked for, or nothing has changed. -/
def GrowsOrNot (s s' : Memory) (d : Nat) (sz n : Word) (r : Option Word) : Prop :=
  (∃ newsz, r = some newsz ∧ (newsz.toNat : Int) = sz.toNat + n.toInt ∧
    ((0 < newsz.toNat ∧ newsz.toNat < kernbase) ∨ n = 0)) ∨
  (r = none ∧ s'.space d = s.space d)

theorem pgroundup_lt (hsz : sz.toNat ≤ kernbase) : (pgroundup sz).toNat < sz.toNat + pgsize := by
  rw [toNat_pgroundup hsz]
  unfold pgsize
  omega

theorem FullyMapped.start (h : FullyMapped s d sz) (hsz : sz.toNat ≤ kernbase) :
    (ptx (pgroundup sz)).val = 0 ∨ Present (s.entry d (pdx (pgroundup sz))) := by
  by_cases hzero : (ptx (pgroundup sz)).val = 0
  · exact .inl hzero
  right
  have hlt := pgroundup_lt hsz
  have haddr := pageAddr_index (aligned_pgroundup sz)
  -- the page below is in the same table
  have hmapped := h.mapped (pdx (pgroundup sz)) ⟨(ptx (pgroundup sz)).val - 1, by omega⟩ (by
    simp only [pageAddr, pgsize] at *
    omega)
  by_contra habsent
  exact hmapped (space_absent habsent)

theorem toNat_add_toInt (hsz : sz.toNat < kernbase) (h : 0 ≤ (sz.toNat : Int) + n.toInt) :
    ((sz + n).toNat : Int) = sz.toNat + n.toInt := by
  have hint := BitVec.toInt_eq_toNat_cond n
  have hlt := n.isLt
  rw [BitVec.toNat_add]
  unfold kernbase at hsz
  split at hint <;> omega

theorem add_ne_zero (hsz : sz.toNat < kernbase) (h : 0 < (sz.toNat : Int) + n.toInt) : sz + n ≠ 0 := by
  intro hzero
  have hexact := toNat_add_toInt hsz h.le
  rw [hzero] at hexact
  change (0 : Int) = _ at hexact
  omega

section Cases

variable (h : Isolated L s {d} 0) (hfull : FullyMapped s d sz) (hsz : sz.toNat < kernbase)

include h hfull hsz

theorem growproc_grow (hn : 0 < n.toInt) : ∃ r s', growproc L d sz n s = .ok (r, s') ∧ GrowsOrNot s s' d sz n r := by
  have hexact := toNat_add_toInt hsz (n := n) (by omega)
  refine exists_ok (E := fun _ => False) ?_ fun _ => id
  unfold growproc
  rw [if_pos hn, wp_bind]
  by_cases hbig : (sz + n).toNat ≥ kernbase
  · unfold allocuvm
    rw [if_pos hbig]
    exact .inr ⟨rfl, rfl⟩
  · rw [not_le] at hbig
    have hnone : ∀ i j, InRange sz (sz + n) i j → s.space d i j = none := fun i j hrange =>
      hfull.none i j hrange.1 (lt_trans hrange.2 hbig)
    have hle : sz ≤ sz + n := BitVec.le_def.mpr (by omega)
    refine wp_mono (wp_allocuvm h.region (Multiset.mem_singleton_self d) hle hbig fun i j hrange hne =>
      hne (hnone i j hrange)) (fun r s' hr => ?_) fun _ he => he
    obtain ⟨holes, out, s₁, lost, hdone⟩ := hr
    have halloc := hdone.loop.allocated fun i j hfrom hto => hnone i j ⟨hfrom, hto⟩
    have hend := hdone.ends
    cases hend with
    | done =>
      rw [if_neg (add_ne_zero hsz (by omega))]
      exact .inl ⟨sz + n, rfl, hexact, .inl ⟨by omega, hbig⟩⟩
    | undone hregion hunmaps =>
      rw [if_pos rfl]
      refine .inr ⟨rfl, (undone_iff hnone halloc hunmaps).mpr fun i j hrange _ => ?_⟩
      exact reached_of_start ((hfull.start hsz.le).imp id (halloc.present _)) hrange.1 hrange.2

omit hfull in
theorem growproc_shrink (hn : n.toInt < 0) (hpos : 0 < (sz.toNat : Int) + n.toInt) :
    ∃ r s', growproc L d sz n s = .ok (r, s') ∧ GrowsOrNot s s' d sz n r := by
  have hexact := toNat_add_toInt hsz hpos.le
  refine exists_ok (E := fun _ => False) ?_ fun _ => id
  unfold growproc
  rw [if_neg (by omega), if_pos hn, wp_bind]
  have hless : sz + n < sz := BitVec.lt_def.mpr (by omega)
  refine wp_mono (wp_deallocuvm h.region (Multiset.mem_singleton_self d) hsz.le hless) (fun r s' hr => ?_) fun _ he => he
  obtain ⟨rfl, -, -⟩ := hr
  rw [if_neg (add_ne_zero hsz hpos)]
  exact .inl ⟨sz + n, rfl, hexact, .inl ⟨by omega, by omega⟩⟩

theorem growproc_empty (hne : sz ≠ 0) (hzero : (sz.toNat : Int) + n.toInt = 0) :
    ∃ s', growproc L d sz n s = .ok (none, s') ∧ s'.space d 0 0 = none ∧ s.space d 0 0 ≠ none := by
  have hpos : 0 < sz.toNat := Nat.pos_of_ne_zero fun h0 => hne (BitVec.eq_of_toNat_eq h0)
  have hexact := toNat_add_toInt hsz hzero.ge
  have hsum : sz + n = 0 := BitVec.eq_of_toNat_eq (by change _ = 0; omega)
  have hless : sz + n < sz := by
    rw [hsum]
    exact BitVec.lt_def.mpr hpos
  have hrun : ∃ r s', growproc L d sz n s = .ok (r, s') ∧ r = none ∧ s'.space d 0 0 = none := by
    refine exists_ok (E := fun _ => False) ?_ fun _ => id
    unfold growproc
    rw [if_neg (by omega), if_pos (by omega), wp_bind]
    refine wp_mono (wp_deallocuvm h.region (Multiset.mem_singleton_self d) hsz.le hless) (fun r s' hr => ?_) fun _ he => he
    obtain ⟨rfl, -, hunmaps⟩ := hr
    rw [if_pos hsum]
    refine ⟨rfl, hunmaps.absent 0 0 (reached_of_start ?_ ?_ hpos)⟩
    · rw [hsum]
      exact .inl rfl
    · rw [hsum]
      exact le_rfl
  obtain ⟨r, s', hrun, rfl, habsent⟩ := hrun
  exact ⟨s', hrun, habsent, hfull.mapped 0 0 hpos⟩

end Cases

theorem growproc_below (hsz : sz.toNat < kernbase) (hneg : (sz.toNat : Int) + n.toInt < 0) :
    growproc L d sz n s = .ok (if sz = 0 then none else some sz, s) := by
  have hint := BitVec.toInt_eq_toNat_cond n
  have hlt := n.isLt
  have hge : sz + n ≥ sz := by
    refine BitVec.le_def.mpr ?_
    rw [BitVec.toNat_add]
    unfold kernbase at hsz
    split at hint <;> omega
  unfold growproc deallocuvm
  rw [if_neg (by omega), if_pos (by omega), if_pos hge]
  rfl

/-- Every call does all or nothing if and only if the process has no memory or keeps some. -/
theorem growproc_all_or_nothing_iff {rest : Multiset Nat} (h : Isolated L s (d ::ₘ rest) held)
    (hfull : FullyMapped s d sz) (hsz : sz.toNat < kernbase) (n : Word) :
    (∃ r s', growproc L d sz n s = .ok (r, s') ∧ GrowsOrNot s s' d sz n r) ↔ sz = 0 ∨ 0 < (sz.toNat : Int) + n.toInt := by
  rcases lt_trichotomy n.toInt 0 with hneg | hzero | hpos
  · rcases lt_trichotomy ((sz.toNat : Int) + n.toInt) 0 with hbelow | hempty | hkeeps
    · rw [exists_run_iff (growproc_below hsz hbelow)]
      by_cases h0 : sz = 0
      · rw [if_pos h0]
        exact ⟨fun _ => .inl h0, fun _ => .inr ⟨rfl, rfl⟩⟩
      · rw [if_neg h0]
        constructor
        · rintro (⟨newsz, hsome, hexact, -⟩ | ⟨hnone, -⟩)
          · obtain rfl := Option.some.inj hsome
            omega
          · cases hnone
        · rintro (h0' | hpos)
          · exact absurd h0' h0
          · omega
    · have hne : sz ≠ 0 := by
        rintro rfl
        change (0 : Int) + n.toInt = 0 at hempty
        omega
      obtain ⟨s', hrun, habsent, hmapped⟩ := growproc_empty h.alone hfull hsz hne hempty
      rw [exists_run_iff hrun]
      constructor
      · rintro (⟨_, hsome, -⟩ | ⟨-, hsame⟩)
        · cases hsome
        · rw [hsame] at habsent
          exact absurd habsent hmapped
      · rintro (h0 | hpos)
        · exact absurd h0 hne
        · omega
    · exact ⟨fun _ => .inr hkeeps, fun _ => growproc_shrink h.alone hsz hneg hkeeps⟩
  · have hn : n = 0 := BitVec.eq_of_toInt_eq hzero
    have hrun : growproc L d sz n s = .ok (some sz, s) := by
      unfold growproc
      rw [if_neg (by omega), if_neg (by omega)]
      rfl
    rw [exists_run_iff hrun]
    constructor
    · intro _
      by_cases h0 : sz = 0
      · exact .inl h0
      · have hpos : 0 < sz.toNat := Nat.pos_of_ne_zero fun hz => h0 (BitVec.eq_of_toNat_eq hz)
        exact .inr (by omega)
    · exact fun _ => .inl ⟨sz, rfl, by omega, .inr hn⟩
  · exact ⟨fun _ => .inr (by omega), fun _ => growproc_grow h.alone hfull hsz hpos⟩

/-! ### A process of one page -/

/-- The process gives back its only page and is told that this has failed. -/
theorem growproc_loses_page : Isolated smallLayout (onePage 0 0 [1003] fun _ => false) {1000} 0 ∧
    FullyMapped (onePage 0 0 [1003] fun _ => false) 1000 4096 ∧ (-4096 : Word).toInt = -4096 ∧
    ∃ s', growproc smallLayout 1000 4096 (-4096) (onePage 0 0 [1003] fun _ => false) = .ok (none, s') ∧
      (s'.space 1000 0 0).isNone = true := by
  refine ⟨isolated_onePage _ (by decide) (by decide) (by decide), fullyMapped_onePage _, by decide, ?_⟩
  exact exists_run (g := fun s' => (s'.space 1000 0 0).isNone) (by decide +kernel)

/-- The process asks for another page. -/
theorem growproc_all_or_nothing_iff_onePage : ∃ r s',
    growproc smallLayout 1000 4096 4096 (onePage 0 0 [1003] fun _ => false) = .ok (r, s') ∧
      GrowsOrNot (onePage 0 0 [1003] fun _ => false) s' 1000 4096 4096 r := by
  have hisolated : Isolated smallLayout (onePage 0 0 [1003] fun _ => false) {1000} 0 :=
    isolated_onePage (fun _ => false) (by decide) (by decide) (by decide)
  exact (growproc_all_or_nothing_iff hisolated (fullyMapped_onePage _) (by decide) 4096).mpr (.inr (by decide))

end Xv6.Vm
