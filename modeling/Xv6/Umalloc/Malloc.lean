import Xv6.Umalloc.Free

/-!
# Allocating a block

`malloc` looks through the free list once, from `freep` on, and asks the kernel for memory when no block is large enough;
after that the list has one that is. It takes the whole of the block it finds, or the end of it.
-/

namespace Xv6.Umalloc

open Lib

variable {base start n nbytes : Nat} {s : Heap} {l : Layout}

def Got (base start : Nat) (l : Layout) (len nbytes : Nat) (s' : Heap) (p : Nat) : Prop :=
  ∃ l' x, Rep base start s' l' ∧ p = x.start + 8 ∧ x.len = len ∧ x.tag = some nbytes ∧ x ∈ l' ∧ x ∉ l ∧
    ∀ y, y.tag ≠ none → y ≠ x → (y ∈ l' ↔ y ∈ l)

namespace Rep

theorem nodup (h : Rep base start s l) : (base :: frees l).Nodup := (sorted h.tiles h.base_lt).imp Nat.ne_of_lt

/-- The block behind a node of the list, when it is large enough, is a free block. -/
theorem behind (h : Rep base start s l) {prevp : Nat} (hp : prevp ∈ base :: frees l) (hn : 0 < n)
    (hfit : n ≤ s.size (s.ptr prevp)) :
    ∃ l₁ x l₂, l = l₁ ++ x :: l₂ ∧ x.tag = none ∧ s.ptr prevp = x.start ∧ prevp = pred base l₁ := by
  obtain hbase | hmem := List.mem_cons.mp (h.circle.mem_next hp)
  · rw [hbase, h.base_size] at hfit
    omega
  · obtain ⟨x, hx, hnone, hstart⟩ := mem_frees.mp hmem
    obtain ⟨l₁, l₂, rfl⟩ := List.append_of_mem hx
    have hfrees : frees (l₁ ++ x :: l₂) = frees l₁ ++ x.start :: frees l₂ := by rw [frees_append, frees_cons_free hnone]
    have hcircle := h.circle
    have hnodup := h.nodup
    rw [hfrees] at hcircle hnodup hp
    exact ⟨l₁, x, l₂, rfl, hnone, hstart.symm, hcircle.pred hnodup hp hstart.symm⟩

section Carve

variable {l₁ l₂ : Layout} {x : Span (Option Nat)}

theorem carve_all (h : Rep base start s (l₁ ++ x :: l₂)) (hnone : x.tag = none) (hptr : s.ptr (pred base l₁) = x.start)
    (hexact : s.size x.start = n) (nbytes : Nat) :
    ∃ s' p, s.carve n (pred base l₁) = some (s', p) ∧ Got base start (l₁ ++ x :: l₂) (8 * n) nbytes s' p := by
  have hsize : 8 * s.size x.start = x.len := h.sizes x (by simp)
  have hleft := h.tiles.left
  have hright := h.tiles.right
  have hpos := h.tiles.pos
  have hstop := hright.le.trans_lt h.brk_lt
  unfold Span.stop at hstop
  have hpred : pred base l₁ < x.start := by
    obtain heq | hmem := List.mem_cons.mp (pred_mem base l₁)
    · have hle := hleft.le
      have hlt := h.base_lt
      omega
    · exact (frees_bounds hleft hmem).2
  have hgaps := List.isChain_append.mp h.gaps
  have hcarve : s.carve n (pred base l₁) =
      some ({ s.setPtr (pred base l₁) (s.ptr x.start) with freep := pred base l₁ }, x.start + 8) := by
    rw [Heap.carve]
    simp only [hptr]
    rw [if_pos hexact, add_eq (by omega)]
  have hcircle := h.circle
  rw [frees_append, frees_cons_free hnone, circle_append] at hcircle
  obtain ⟨hwalk₁, hwalk₂, -⟩ := hcircle
  obtain ⟨hnext, hwalk₂⟩ := walk_cons_concat.mp hwalk₂
  have hnew : frees (l₁ ++ { x with tag := some nbytes } :: l₂) = frees l₁ ++ frees l₂ := by
    rw [frees_append, frees_cons_live (by simp)]
  refine ⟨_, _, hcarve, l₁ ++ { x with tag := some nbytes } :: l₂, { x with tag := some nbytes }, ⟨?_, ?_, ?_, fun y hy => ?_, ?_, ?_, h.base_pos,
    h.base_lt, h.brk_lt, h.whole⟩, rfl, by show x.len = 8 * n; omega, rfl, by simp, fun hmem => ?_, fun y hy hne => ?_⟩
  · exact tiles_append.mpr ⟨x.start, hleft, rfl, hpos, hright⟩
  · rw [hnew]
    show Circle (s.setPtr (pred base l₁) (s.ptr x.start)).ptr base _
    rw [ptr_setPtr]
    refine circle_append.mpr ⟨hwalk₁.congr fun z hz => ?_, hwalk₂.congr fun z hz => ?_, ?_⟩
    · exact Function.update_of_ne (Nat.ne_of_lt (lt_pred hleft h.base_lt hz)) _ _
    · rw [List.dropLast_concat] at hz
      have hbounds := frees_bounds hright hz
      unfold Span.stop at hbounds
      exact Function.update_of_ne (by omega) _ _
    · exact (Function.update_self ..).trans hnext
  · refine List.isChain_append.mpr ⟨hgaps.1, List.isChain_cons.mpr ⟨fun y _ => .inl (by simp), hgaps.2.1.tail⟩, fun u _ y hy => .inr ?_⟩
    obtain rfl := Option.some.inj hy
    simp
  · show 8 * Heap.size (s.setPtr (pred base l₁) (s.ptr x.start)) y.start = y.len
    rw [size_setPtr]
    obtain hy | hy := List.mem_append.mp hy
    · exact h.sizes y (by simp [hy])
    · obtain rfl | hy := List.mem_cons.mp hy
      · exact hsize
      · exact h.sizes y (by simp [hy])
  · show Heap.size (s.setPtr (pred base l₁) (s.ptr x.start)) base = 0
    rw [size_setPtr]
    exact h.base_size
  · rw [hnew, ← List.cons_append]
    exact List.mem_append_left _ (pred_mem base l₁)
  · have heq := h.tiles.eq_of_start hmem (by simp : x ∈ l₁ ++ x :: l₂) rfl
    rw [← heq] at hnone
    cases hnone
  · have hyx : y ≠ x := by
      rintro rfl
      exact hy hnone
    simp [hne, hyx]

theorem carve_end (h : Rep base start s (l₁ ++ x :: l₂)) (hnone : x.tag = none) (hptr : s.ptr (pred base l₁) = x.start)
    (hn : 0 < n) (hlt : n < s.size x.start) (nbytes : Nat) :
    ∃ s' p, s.carve n (pred base l₁) = some (s', p) ∧ Got base start (l₁ ++ x :: l₂) (8 * n) nbytes s' p := by
  have hsize : 8 * s.size x.start = x.len := h.sizes x (by simp)
  have hleft := h.tiles.left
  have hright := h.tiles.right
  have hstop := hright.le.trans_lt h.brk_lt
  have hbase := hleft.le
  have hbase' := h.base_lt
  have hgaps := List.isChain_append.mp h.gaps
  let q := x.start + 8 * (s.size x.start - n)
  let s' := (s.setSize x.start (s.size x.start - n)).setSize q n
  have hq : x.start < q ∧ q + 8 * n = x.stop := by
    show x.start < x.start + 8 * (s.size x.start - n) ∧ x.start + 8 * (s.size x.start - n) + 8 * n = x.start + x.len
    omega
  have hcarve : s.carve n (pred base l₁) = some ({ s' with freep := pred base l₁ }, q + 8) := by
    have hmapped : ∀ i, i ∉ (s.setSize x.start (s.size x.start - n)).holes := by
      intro i hi
      have hholes : (s.setSize x.start (s.size x.start - n)).holes = [] := h.whole
      simp [hholes] at hi
    rw [Heap.carve]
    simp only [hptr]
    have hadd : add x.start (Heap.size (s.setSize x.start (s.size x.start - n)) x.start) = q := by
      rw [size_setSize, Function.update_self, add_eq (by omega)]
    rw [if_neg (by omega), hadd, if_neg (hmapped _), add_eq (by omega)]
  have hsizes : ∀ z, z ≠ x.start → z ≠ q → s'.size z = s.size z := by
    intro z hz hzq
    rw [size_setSize, size_setSize, Function.update_of_ne hzq, Function.update_of_ne hz]
  have hnew : frees (l₁ ++ { x with len := x.len - 8 * n } :: ⟨q, 8 * n, some nbytes⟩ :: l₂) = frees (l₁ ++ x :: l₂) := by
    rw [frees_append, frees_append, frees_cons_free hnone, frees_cons_free (by exact hnone), frees_cons_live (by simp)]
  refine ⟨_, _, hcarve, l₁ ++ { x with len := x.len - 8 * n } :: ⟨q, 8 * n, some nbytes⟩ :: l₂, ⟨q, 8 * n, some nbytes⟩, ⟨?_, ?_, ?_, fun y hy => ?_,
    ?_, ?_, h.base_pos, h.base_lt, h.brk_lt, h.whole⟩, rfl, rfl, rfl, by simp, fun hmem => ?_, fun y hy hne => ?_⟩
  · refine tiles_append.mpr ⟨x.start, hleft, rfl, by show 0 < x.len - 8 * n; omega, ?_, by show 0 < 8 * n; omega, ?_⟩
    · show x.start + 8 * (s.size x.start - n) = x.start + (x.len - 8 * n)
      omega
    · show Tiles (q + 8 * n) l₂ s.brk
      rw [hq.2]
      exact hright
  · rw [hnew]
    show Circle s'.ptr base _
    rw [ptr_setSize, ptr_setSize]
    exact h.circle
  · refine List.isChain_append.mpr ⟨hgaps.1, List.isChain_cons.mpr ⟨fun y hy => .inr ?_, List.isChain_cons.mpr ⟨fun y _ => .inl (by simp),
      hgaps.2.1.tail⟩⟩, fun u hu y hy => ?_⟩
    · obtain rfl := Option.some.inj hy
      simp
    · obtain rfl := Option.some.inj hy
      exact hgaps.2.2 u hu x rfl
  · show 8 * s'.size y.start = y.len
    obtain hy | hy := List.mem_append.mp hy
    · have hbounds := hleft.mem hy
      unfold Span.stop at hbounds
      rw [hsizes _ (by omega) (by omega)]
      exact h.sizes y (by simp [hy])
    · obtain rfl | hy := List.mem_cons.mp hy
      · show 8 * s'.size x.start = x.len - 8 * n
        rw [size_setSize, Function.update_of_ne (by omega), size_setSize, Function.update_self]
        omega
      · obtain rfl | hy := List.mem_cons.mp hy
        · show 8 * s'.size q = 8 * n
          rw [size_setSize, Function.update_self]
        · have hbounds := (hright.mem hy).1
          rw [hsizes _ (by omega) (by omega)]
          exact h.sizes y (by simp [hy])
  · exact (hsizes base (by omega) (by omega)).trans h.base_size
  · rw [hnew, frees_append, ← List.cons_append]
    exact List.mem_append_left _ (pred_mem base l₁)
  · have heq := h.tiles.eq_of_overlap hmem (by simp : x ∈ l₁ ++ x :: l₂) (i := q) ⟨le_rfl, by show q < q + 8 * n; omega⟩
      ⟨by omega, by omega⟩
    rw [← heq] at hnone
    cases hnone
  · have hyx : y ≠ x := by
      rintro rfl
      exact hy hnone
    have hyx' : y ≠ { x with len := x.len - 8 * n } := by
      rintro rfl
      exact hy hnone
    simp [hne, hyx, hyx']

end Carve

theorem carve (h : Rep base start s l) {prevp : Nat} (hp : prevp ∈ base :: frees l) (hn : 0 < n)
    (hfit : n ≤ s.size (s.ptr prevp)) (nbytes : Nat) :
    ∃ s' p, s.carve n prevp = some (s', p) ∧ Got base start l (8 * n) nbytes s' p := by
  obtain ⟨l₁, x, l₂, rfl, hnone, hptr, rfl⟩ := h.behind hp hn hfit
  rw [hptr] at hfit
  obtain hlt | hexact := Nat.lt_or_eq_of_le hfit
  · exact h.carve_end hnone hptr hn hlt nbytes
  · exact h.carve_all hnone hptr hexact.symm nbytes

/-! ### The loop -/

/-- The loop ends at a block that is large enough, or has seen that there is none. -/
theorem seek (h : Rep base start s l) (n : Nat) : ∃ prevp ∈ base :: frees l, Lib.seek s.ptr (s.ends n) rounds s.freep = some prevp ∧
    (n ≤ s.size (s.ptr prevp) ∨ ∀ x ∈ l, x.tag = none → x.len < 8 * n) := by
  obtain ⟨k, hk, hiter⟩ := h.circle.iterate (h.circle.mem_next h.freep) h.freep
  have hreturn : s.ptr (s.ptr^[k] s.freep) = s.freep :=
    (Function.iterate_succ_apply' s.ptr k s.freep).symm.trans ((Function.iterate_succ_apply s.ptr k s.freep).trans hiter)
  have hends : s.ends n (s.ptr^[k] s.freep) = true := by simp [Heap.ends, hreturn]
  have hfuel : k < rounds := by
    have hlength := frees_length h.tiles
    have hbrk := h.brk_lt
    rw [rounds]
    omega
  obtain ⟨j, -, hseek, hstop, hbefore⟩ := seek_of_iterate hends hfuel
  refine ⟨_, h.circle.mem_iterate h.freep j, hseek, ?_⟩
  by_cases hfit : n ≤ s.size (s.ptr (s.ptr^[j] s.freep))
  · exact .inl hfit
  · refine .inr fun x hx hnone => ?_
    have hback : s.ptr (s.ptr^[j] s.freep) = s.freep := by simpa [Heap.ends, hfit] using hstop
    have hmem : x.start ∈ base :: frees l := List.mem_cons_of_mem _ (mem_frees.mpr ⟨x, hx, hnone, rfl⟩)
    have hsmall : s.size x.start < n := by
      obtain ⟨i, hi, hx⟩ := h.circle.seen h.freep hback hmem
      cases i with
      | zero =>
        rw [← hx]
        show s.size s.freep < n
        rw [hback] at hfit
        omega
      | succ i =>
        have hpassed := hbefore i (by omega)
        rw [← hx, Function.iterate_succ_apply']
        simp [Heap.ends] at hpassed
        exact hpassed.1
    have hsize := h.sizes x hx
    omega

theorem freep_ne_zero (h : Rep base start s l) : s.freep ≠ 0 := by
  have hpos := h.base_pos
  have hlt := h.base_lt
  obtain heq | hmem := List.mem_cons.mp h.freep
  · omega
  · have hbounds := frees_bounds h.tiles hmem
    omega

theorem morecore (h : Rep base start s l) (hn : 0 < n) (hmax : n * 8 ≤ 2 ^ 31 - 1) {grant : Grant}
    (hgrant : grant = none ∨ grant = some []) : s.morecore n grant = some (s, 0) ∨ ∃ s' l', s.morecore n grant = some (s', s'.freep) ∧ Rep base start s' l' ∧ SameLive l l' ∧
      ∃ x ∈ l', x.tag = none ∧ 8 * n ≤ x.len := by
  obtain ⟨nu, hnu, hle, hnumax, hpos⟩ : ∃ nu, (if n < 4096 then 4096 else n) = nu ∧ n ≤ nu ∧ nu * 8 < 2 ^ 31 ∧ 0 < nu := by
    refine ⟨_, rfl, ?_, ?_, ?_⟩ <;> split <;> omega
  have hbytes : nu * 8 % 2 ^ 32 = nu * 8 := Nat.mod_eq_of_lt (by omega)
  rw [Heap.morecore]
  simp only [hnu, hbytes]
  by_cases hroom : grant = some [] ∧ s.brk + nu * 8 < 2 ^ 31
  · obtain ⟨rfl, hroom⟩ := hroom
    right
    have hbrk : s.brk + nu * 8 < 2 ^ 32 := by omega
    have hgrow : s.grow (nu * 8) [] = { s with brk := s.brk + nu * 8 } := by simp [Heap.grow, h.whole]
    have hsbrk : s.sbrk (nu * 8) (some []) = some ({ s with brk := s.brk + nu * 8 }, s.brk) := by
      rw [Heap.sbrk, if_neg (by omega), if_pos hnumax, if_pos hroom, hgrow]
    have hmapped : ¬(Heap.mapped { s with brk := s.brk + nu * 8 } ≤ s.brk ∨ s.brk / 4096 ∈ s.holes) := by
      rw [h.whole]
      unfold Heap.mapped
      simp only [List.not_mem_nil, or_false]
      omega
    let s₁ : Heap := Heap.setSize { s with brk := s.brk + nu * 8 } s.brk nu
    have hsize : s₁.size = Function.update s.size s.brk nu := size_setSize ..
    have hptr : s₁.ptr = s.ptr := ptr_setSize ..
    have hself : s₁.size s.brk = nu := by rw [hsize, Function.update_self]
    have hbase : base < s.brk := by
      have hlt := h.base_lt
      have hle := h.tiles.le
      omega
    have hhole : Hole base start s₁ l [] s.brk := by
      refine ⟨h.tiles, ?_, by omega, ?_, h.gaps, .nil, fun x hx => ?_, ?_, ?_, h.base_pos, h.base_lt, hbrk, h.whole⟩
      · show s.brk + 8 * s₁.size s.brk = s.brk + nu * 8
        omega
      · rw [hptr, frees_nil, List.append_nil]
        exact h.circle
      · rw [List.append_nil] at hx
        have hmem := h.tiles.mem hx
        unfold Span.stop at hmem
        rw [hsize, Function.update_of_ne (by omega)]
        exact h.sizes x hx
      · rw [hsize, Function.update_of_ne (by omega)]
        exact h.base_size
      · rw [frees_nil, List.append_nil]
        exact h.freep
    obtain ⟨s', l', hfree, hrep, hlive, x, hx, hnone, hlen⟩ := hhole.free
    refine ⟨s', l', ?_, hrep, by rwa [List.append_nil] at hlive, x, hx, hnone, by omega⟩
    have hadd : add s.brk 1 = s.brk + 8 := add_eq (by omega)
    rw [hsbrk, Option.bind_eq_bind, Option.bind_some]
    simp only
    rw [if_neg (by omega), if_neg hmapped, hadd]
    have hmap : (s₁.free (s.brk + 8)).map (fun t => (t, t.freep)) = some (s', s'.freep) := by
      rw [hfree]
      rfl
    exact hmap
  · left
    have hsbrk : s.sbrk (nu * 8) grant = some (s, 2 ^ 32 - 1) := by
      obtain rfl | rfl := hgrant
      · rw [Heap.sbrk, if_neg (by omega), if_pos hnumax]
      · rw [Heap.sbrk, if_neg (by omega), if_pos hnumax, if_neg fun hfits => hroom ⟨rfl, hfits⟩]
    rw [hsbrk]
    simp

theorem mallocLoop (h : Rep base start s l) (hn : 0 < n) (hmax : n * 8 ≤ 2 ^ 31 - 1) (nbytes : Nat) {grants : List Grant}
    (hwhole : Whole grants) : ∃ s' p, s.mallocLoop n grants = some (s', p) ∧
      (p = 0 ∧ (∃ l', Rep base start s' l' ∧ SameLive l l') ∨ Got base start l (8 * n) nbytes s' p) := by
  induction grants generalizing s l with
  | nil =>
    obtain ⟨prevp, hp, hseek, -⟩ := h.seek n
    by_cases hfit : n ≤ s.size (s.ptr prevp)
    · obtain ⟨s', p, hcarve, hgot⟩ := h.carve hp hn hfit nbytes
      refine ⟨s', p, ?_, .inr hgot⟩
      simp [Heap.mallocLoop, hseek, hfit, hcarve]
    · refine ⟨s, 0, ?_, .inl ⟨rfl, l, h, fun _ _ => Iff.rfl⟩⟩
      simp [Heap.mallocLoop, hseek, hfit]
  | cons grant grants ih =>
    obtain ⟨prevp, hp, hseek, -⟩ := h.seek n
    by_cases hfit : n ≤ s.size (s.ptr prevp)
    · obtain ⟨s', p, hcarve, hgot⟩ := h.carve hp hn hfit nbytes
      refine ⟨s', p, ?_, .inr hgot⟩
      simp [Heap.mallocLoop, hseek, hfit, hcarve]
    · obtain hmore | ⟨s₁, l₁, hmore, h₁, hlive, -⟩ := h.morecore hn hmax (hwhole grant List.mem_cons_self)
      · refine ⟨s, 0, ?_, .inl ⟨rfl, l, h, fun _ _ => Iff.rfl⟩⟩
        simp [Heap.mallocLoop, hseek, hfit, hmore]
      · obtain ⟨s', p, hloop, hres⟩ := ih h₁ fun g hg => hwhole g (List.mem_cons_of_mem _ hg)
        refine ⟨s', p, ?_, ?_⟩
        · simp [Heap.mallocLoop, hseek, hfit, hmore, h₁.freep_ne_zero, hloop]
        · obtain ⟨rfl, l', hrep, hlive'⟩ | ⟨l', x, hrep, hp, hlen, htag, hx, hnew, hold⟩ := hres
          · exact .inl ⟨rfl, l', hrep, fun y hy => (hlive' y hy).trans (hlive y hy)⟩
          · refine .inr ⟨l', x, hrep, hp, hlen, htag, hx, fun hmem => hnew ?_, fun y hy hne => (hold y hy hne).trans (hlive y hy)⟩
            exact (hlive x (by simp [htag])).mpr hmem

theorem mallocLoop_once (h : Rep base start s l) (hn : 0 < n) (hmax : n * 8 ≤ 2 ^ 31 - 1) {grant : Grant}
    (hgrant : grant = none ∨ grant = some []) (grants : List Grant) : s.mallocLoop n (grant :: grants) = s.mallocLoop n [grant] := by
  obtain ⟨prevp, -, hseek, -⟩ := h.seek n
  by_cases hfit : n ≤ s.size (s.ptr prevp)
  · simp [Heap.mallocLoop, hseek, hfit]
  · obtain hmore | ⟨s₁, l₁, hmore, h₁, -, x, hx, hnone, hlen⟩ := h.morecore hn hmax hgrant
    · simp [Heap.mallocLoop, hseek, hfit, hmore]
    · obtain ⟨prevp₁, -, hseek₁, hfit₁⟩ := h₁.seek n
      have hlarge : n ≤ s₁.size (s₁.ptr prevp₁) := by
        refine hfit₁.resolve_right fun hall => ?_
        have hlt := hall x hx hnone
        omega
      have hloop : ∀ gs, s₁.mallocLoop n gs = s₁.carve n prevp₁ := by
        intro gs
        cases gs <;> simp [Heap.mallocLoop, hseek₁, hlarge]
      simp [Heap.mallocLoop, hseek, hfit, hmore, h₁.freep_ne_zero, hloop, hseek₁, hlarge]

end Rep

end Xv6.Umalloc
