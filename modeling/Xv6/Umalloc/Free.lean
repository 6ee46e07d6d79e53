import Xv6.Umalloc.Layout

/-!
# Freeing a block

`free` puts a block between its neighbours back into the list, and joins it to those that are free.
-/

namespace Xv6.Umalloc

open Lib

variable {base start a n : Nat} {s s₁ : Heap} {l l₁ l₂ l₂' : Layout}

theorem add_eq {p n : Nat} (h : p + 8 * n < 2 ^ 32) : add p n = p + 8 * n := Nat.mod_eq_of_lt h

/-- The block at `a` has taken in what was free right behind it, and refers to the next free block. -/
structure Joined (base : Nat) (s : Heap) (l₂ : Layout) (a : Nat) (s₁ : Heap) (l₂' : Layout) (n : Nat) : Prop where
  size : s₁.size = Function.update s.size a n
  ptr : s₁.ptr = Function.update s.ptr a (succ base l₂')
  brk : s₁.brk = s.brk
  holes : s₁.holes = s.holes
  le : s.size a ≤ n
  tiles : Tiles (a + 8 * n) l₂' s.brk
  walk : Walk s.ptr (frees l₂' ++ [base])
  gaps : Gaps l₂'
  head : ∀ y ∈ l₂'.head?, y.tag ≠ none
  sub : ∀ x ∈ l₂', x ∈ l₂
  live : ∀ x, x.tag ≠ none → x ∈ l₂ → x ∈ l₂'

theorem Hole.joinNext (h : Hole base start s l₁ l₂ a) : ∃ n l₂', Joined base s l₂ a (s.joinNext a (pred base l₁)) l₂' n := by
  have hadd := add_eq h.stop_lt
  have hwalk := (circle_append.mp h.circle).2.1
  by_cases hfree : ∃ y l, l₂ = y :: l ∧ y.tag = none
  · obtain ⟨y, l, rfl, hy⟩ := hfree
    obtain ⟨hstart, hlen, hrest⟩ := h.right
    have hsize : 8 * s.size y.start = y.len := h.sizes y (by simp)
    have hsucc : s.ptr (pred base l₁) = y.start := by
      rw [h.ptr_pred, succ, frees_cons_free hy]
      rfl
    have hstop : y.stop = a + 8 * (s.size a + s.size y.start) := by
      unfold Span.stop
      omega
    have hfit : s.size a + s.size y.start < 2 ^ 32 := by
      have hle := hrest.le.trans_lt h.brk_lt
      omega
    rw [frees_cons_free hy, List.cons_append, walk_cons_concat] at hwalk
    obtain ⟨hnext, hwalk⟩ := hwalk
    have hgaps := List.isChain_cons.mp h.gaps_right
    have hjoin : s.joinNext a (pred base l₁) = (s.setSize a (s.size a + s.size y.start)).setPtr a (succ base l) := by
      rw [Heap.joinNext, if_pos (by rw [hadd, hsucc, hstart]), hsucc, Nat.mod_eq_of_lt hfit]
      simp only [ptr_setSize, hsucc, hnext, succ]
    rw [hjoin]
    refine ⟨s.size a + s.size y.start, l, ?_, ?_, rfl, rfl, by omega, hstop ▸ hrest, hwalk, hgaps.2, fun z hz => ?_,
      fun x hx => List.mem_cons_of_mem y hx, fun x hx hmem => ?_⟩
    · rw [size_setPtr, size_setSize]
    · rw [ptr_setPtr, ptr_setSize]
    · exact (hgaps.1 z hz).resolve_left fun hne => hne hy
    · obtain rfl | hmem := List.mem_cons.mp hmem
      · exact absurd hy hx
      · exact hmem
  · have hhead : ∀ y ∈ l₂.head?, y.tag ≠ none := by
      intro y hy hnone
      obtain ⟨l, rfl⟩ := List.head?_eq_some_iff.mp hy
      exact hfree ⟨y, l, rfl, hnone⟩
    -- The next free block is further away, or there is none.
    have hapart : a + 8 * s.size a ≠ s.ptr (pred base l₁) := by
      rw [h.ptr_pred]
      intro heq
      obtain hsucc | hsucc := List.mem_cons.mp (succ_mem base l₂)
      · have hbase := h.start_le
        omega
      · obtain ⟨x, hx, hnone, hstart⟩ := mem_frees.mp hsucc
        cases l₂ with
        | nil => cases hx
        | cons y l =>
          obtain ⟨hfirst, hlen, hrest⟩ := h.right
          obtain rfl | hx := List.mem_cons.mp hx
          · exact hhead x rfl hnone
          · have hbounds := (hrest.mem hx).1
            unfold Span.stop at hbounds
            omega
    have hjoin : s.joinNext a (pred base l₁) = s.setPtr a (succ base l₂) := by
      rw [Heap.joinNext, if_neg (by rwa [hadd]), h.ptr_pred]
    rw [hjoin]
    refine ⟨s.size a, l₂, ?_, ptr_setPtr .., rfl, rfl, le_rfl, h.right, hwalk, h.gaps_right, hhead, fun x hx => hx, fun x _ hx => hx⟩
    rw [size_setPtr, Function.update_eq_self]

/-! ### The block before -/

namespace Hole

/-- The list before the place keeps its pointers when only the last block's and those behind it change. -/
theorem walk_left (h : Hole base start s l₁ l₂ a) {ptr : Nat → Nat} (hptr : ∀ z < pred base l₁, ptr z = s.ptr z) :
    Walk ptr (base :: frees l₁) :=
  (circle_append.mp h.circle).1.congr fun z hz => hptr z (lt_pred h.left h.base_lt hz)

theorem pred_lt (h : Hole base start s l₁ l₂ a) : pred base l₁ < a := h.left_lt (pred_mem base l₁)

end Hole

/-- The list behind the place keeps its pointers when none behind it changes. -/
theorem Joined.walk_right (hj : Joined base s l₂ a s₁ l₂' n) (hn : 0 < n) {ptr : Nat → Nat} (hptr : ∀ z, a < z → ptr z = s.ptr z) :
    Walk ptr (frees l₂' ++ [base]) := by
  refine hj.walk.congr fun z hz => hptr z ?_
  rw [List.dropLast_concat] at hz
  have hbounds := frees_bounds hj.tiles hz
  omega

theorem Joined.size_of_ne (hj : Joined base s l₂ a s₁ l₂' n) {i : Nat} (hi : i ≠ a) : s₁.size i = s.size i := by
  rw [hj.size, Function.update_of_ne hi]

/-- A heap that is as before, but for the headers of the block, now joined to its neighbours, and of the free block before it. -/
theorem Hole.filled {s₂ : Heap} {y : Span (Option Nat)} (h : Hole base start s l₁ l₂ a) (hj : Joined base s l₂ a s₁ l₂' n)
    (hl : ∀ x ∈ l, x ∈ l₁) (htiles : Tiles start l y.start) (hgaps : Gaps l) (hlast : ∀ x ∈ l.getLast?, x.tag ≠ none)
    (hy : y.start ≤ a) (hstop : y.stop = a + 8 * n) (hsize : ∀ z, z ≠ y.start → z ≠ a → s₂.size z = s.size z)
    (hself : 8 * s₂.size y.start = y.len) (hbrk : s₂.brk = s.brk) (hholes : s₂.holes = s.holes)
    (hcircle : Circle s₂.ptr base (frees (l ++ y :: l₂')))
    (hfreep : s₂.freep ∈ base :: frees (l ++ y :: l₂')) : Rep base start s₂ (l ++ y :: l₂') := by
  have hpos := h.pos
  have hle := hj.le
  have hbase := h.base_lt
  have hstart := htiles.le
  unfold Span.stop at hstop
  refine ⟨tiles_append.mpr ⟨y.start, htiles, rfl, by omega, ?_⟩, hcircle, ?_, fun x hx => ?_, ?_, hfreep, h.base_pos, h.base_lt, ?_,
    hholes.trans h.whole⟩
  · rw [show y.stop = a + 8 * n from hstop, hbrk]
    exact hj.tiles
  · exact List.isChain_append.mpr ⟨hgaps, List.isChain_cons.mpr ⟨fun y hy => .inr (hj.head y hy), hj.gaps⟩, fun x hx _ _ => .inl (hlast x hx)⟩
  · obtain hx | hx := List.mem_append.mp hx
    · have hbounds := htiles.mem hx
      unfold Span.stop at hbounds
      rw [hsize _ (by omega) (by omega)]
      exact h.sizes x (List.mem_append_left _ (hl x hx))
    · obtain rfl | hx := List.mem_cons.mp hx
      · exact hself
      · have hbounds := (hj.tiles.mem hx).1
        rw [hsize _ (by omega) (by omega)]
        exact h.sizes x (List.mem_append_right _ (hj.sub x hx))
  · exact (hsize base (by omega) (by omega)).trans h.base_size
  · rw [hbrk]
    exact h.brk_lt

theorem Hole.joinPrev_free {w : Span (Option Nat)} (h : Hole base start s (l ++ [w]) l₂ a) (hw : w.tag = none)
    (hj : Joined base s l₂ a s₁ l₂' n) :
    Rep base start { s₁.joinPrev a (pred base (l ++ [w])) with freep := pred base (l ++ [w]) }
      (l ++ ⟨w.start, w.len + 8 * n, none⟩ :: l₂') := by
  have hfrees : frees (l ++ [w]) = frees l ++ [w.start] := by rw [frees_append, frees_cons_free hw]; rfl
  have hpred : pred base (l ++ [w]) = w.start := by rw [pred, hfrees, List.getLast?_concat]; rfl
  have hleft := h.left
  obtain ⟨c, htiles, hstart, hlen, hstop⟩ := tiles_append.mp hleft
  obtain rfl : w.start = c := hstart
  have hend : w.start + w.len = a := hstop
  have hsize : 8 * s.size w.start = w.len := h.sizes w (by simp)
  have hne : w.start ≠ a := by omega
  have hpos := h.pos
  have hle := hj.le
  have hbound := hj.tiles.le.trans_lt h.brk_lt
  have hsize₁ : s₁.size w.start = s.size w.start := hj.size_of_ne hne
  have hsizea : s₁.size a = n := by rw [hj.size, Function.update_self]
  have hptra : s₁.ptr a = succ base l₂' := by rw [hj.ptr, Function.update_self]
  have hjoin : s₁.joinPrev a w.start = (s₁.setSize w.start (s.size w.start + n)).setPtr w.start (succ base l₂') := by
    have hadd : add w.start (s₁.size w.start) = a := by
      rw [hsize₁, add_eq (by omega)]
      omega
    rw [Heap.joinPrev, if_pos hadd, hsize₁, hsizea, Nat.mod_eq_of_lt (by omega)]
    simp only [ptr_setSize, hptra]
  have hbase : base < w.start := by
    have hb := h.base_lt
    have hl := htiles.le
    omega
  rw [hpred, hjoin]
  have hptr : ∀ z, z ≠ w.start → z ≠ a → ((s₁.setSize w.start (s.size w.start + n)).setPtr w.start (succ base l₂')).ptr z = s.ptr z := by
    intro z hz hza
    rw [ptr_setPtr, ptr_setSize, Function.update_of_ne hz, hj.ptr, Function.update_of_ne hza]
  have hgaps := List.isChain_append.mp h.gaps_left
  have hnew : frees (l ++ ⟨w.start, w.len + 8 * n, none⟩ :: l₂') = frees (l ++ [w]) ++ frees l₂' := by
    rw [frees_append, frees_cons_free rfl, hfrees, List.append_assoc]
    rfl
  refine h.filled hj (fun x hx => List.mem_append_left _ hx) htiles hgaps.1 (fun x hx => ?_) (by show w.start ≤ a; omega) ?_
    (fun z hz hza => ?_) ?_ hj.brk hj.holes ?_ ?_
  · exact (hgaps.2.2 x hx w rfl).resolve_right fun hne => hne hw
  · show w.start + (w.len + 8 * n) = a + 8 * n
    omega
  · show Heap.size ((s₁.setSize w.start (s.size w.start + n)).setPtr w.start (succ base l₂')) z = s.size z
    rw [size_setPtr, size_setSize, Function.update_of_ne hz, hj.size_of_ne hza]
  · show 8 * Heap.size ((s₁.setSize w.start (s.size w.start + n)).setPtr w.start (succ base l₂')) w.start = w.len + 8 * n
    rw [size_setPtr, size_setSize, Function.update_self]
    omega
  · rw [hnew]
    refine circle_append.mpr ⟨h.walk_left fun z hz => hptr z ?_ ?_, hj.walk_right (by omega) fun z hz => hptr z ?_ ?_, ?_⟩
    · omega
    · omega
    · omega
    · omega
    · show Heap.ptr ((s₁.setSize w.start (s.size w.start + n)).setPtr w.start (succ base l₂')) (pred base (l ++ [w])) = succ base l₂'
      rw [hpred, ptr_setPtr, Function.update_self]
  · rw [hnew, hfrees]
    simp

theorem Hole.joinPrev_live (h : Hole base start s l₁ l₂ a) (hlast : ∀ w ∈ l₁.getLast?, w.tag ≠ none)
    (hj : Joined base s l₂ a s₁ l₂' n) :
    Rep base start { s₁.joinPrev a (pred base l₁) with freep := pred base l₁ } (l₁ ++ ⟨a, 8 * n, none⟩ :: l₂') := by
  have hpredlt := h.pred_lt
  have hpos := h.pos
  have hle := hj.le
  have hbase := h.start_le
  have hsize₁ : s₁.size (pred base l₁) = s.size (pred base l₁) := hj.size_of_ne (by omega)
  -- The last free block before ends further away, and so does `base`.
  have hapart : add (pred base l₁) (s₁.size (pred base l₁)) ≠ a := by
    have hstop := h.right.le.trans_lt h.brk_lt
    rw [hsize₁]
    obtain hpred | hpred := List.mem_cons.mp (pred_mem base l₁)
    · rw [hpred, h.base_size, add_eq (by omega)]
      omega
    · obtain ⟨x, hx, hnone, hstart⟩ := mem_frees.mp hpred
      have hsize := h.sizes x (List.mem_append_left _ hx)
      obtain ⟨m₁, m₂, rfl⟩ := List.append_of_mem hx
      cases m₂ using List.reverseRecOn with
      | nil => exact absurd hnone (hlast x (by simp))
      | append_singleton m₂ y =>
        have hrest := h.left.right
        obtain ⟨c, hm₂, hy, hlen, hend⟩ := tiles_append.mp hrest
        have hxy := hm₂.le
        have hya : y.start + y.len = a := hend
        unfold Span.stop at hxy
        rw [← hstart, add_eq (by omega)]
        omega
  have hjoin : s₁.joinPrev a (pred base l₁) = s₁.setPtr (pred base l₁) a := by rw [Heap.joinPrev, if_neg hapart]
  rw [hjoin]
  have hptr : ∀ z, z ≠ pred base l₁ → z ≠ a → (s₁.setPtr (pred base l₁) a).ptr z = s.ptr z := by
    intro z hz hza
    rw [ptr_setPtr, Function.update_of_ne hz, hj.ptr, Function.update_of_ne hza]
  have hnew : frees (l₁ ++ ⟨a, 8 * n, none⟩ :: l₂') = frees l₁ ++ a :: frees l₂' := by rw [frees_append, frees_cons_free rfl]
  refine h.filled hj (fun x hx => hx) h.left h.gaps_left hlast le_rfl rfl (fun z _ hza => ?_) ?_ hj.brk hj.holes ?_ ?_
  · show Heap.size (s₁.setPtr (pred base l₁) a) z = s.size z
    rw [size_setPtr, hj.size_of_ne hza]
  · show 8 * Heap.size (s₁.setPtr (pred base l₁) a) a = 8 * n
    rw [size_setPtr, hj.size, Function.update_self]
  · rw [hnew]
    refine circle_append.mpr ⟨h.walk_left fun z hz => hptr z ?_ ?_, walk_cons_concat.mpr ⟨?_, hj.walk_right (by omega) fun z hz =>
      hptr z ?_ ?_⟩, ?_⟩
    · omega
    · omega
    · show Heap.ptr (s₁.setPtr (pred base l₁) a) a = succ base l₂'
      rw [ptr_setPtr, Function.update_of_ne (by omega), hj.ptr, Function.update_self]
    · omega
    · omega
    · show Heap.ptr (s₁.setPtr (pred base l₁) a) (pred base l₁) = a
      rw [ptr_setPtr, Function.update_self]
  · rw [hnew, ← List.cons_append]
    exact List.mem_append_left _ (pred_mem base l₁)

def SameLive (l l' : Layout) : Prop := ∀ x, x.tag ≠ none → (x ∈ l' ↔ x ∈ l)

theorem Hole.link (h : Hole base start s l₁ l₂ a) :
    ∃ l', Rep base start (s.link a (pred base l₁)) l' ∧ SameLive (l₁ ++ l₂) l' ∧ ∃ x ∈ l', x.tag = none ∧ 8 * s.size a ≤ x.len := by
  obtain ⟨n, l₂', hj⟩ := h.joinNext
  have hright : ∀ x, x.tag ≠ none → (x ∈ l₂' ↔ x ∈ l₂) := fun x hx => ⟨hj.sub x, hj.live x hx⟩
  have hle := hj.le
  by_cases hlast : ∀ w ∈ l₁.getLast?, w.tag ≠ none
  · refine ⟨_, h.joinPrev_live hlast hj, fun x hx => ?_, _, List.mem_append_right _ List.mem_cons_self, rfl, ?_⟩
    · have hne : x ≠ ⟨a, 8 * n, none⟩ := by
        rintro rfl
        exact hx rfl
      simp [hright x hx, hne]
    · show 8 * s.size a ≤ 8 * n
      omega
  · push Not at hlast
    obtain ⟨w, hw, hnone⟩ := hlast
    obtain ⟨l, rfl⟩ := List.getLast?_eq_some_iff.mp hw
    refine ⟨_, h.joinPrev_free hnone hj, fun x hx => ?_, _, List.mem_append_right _ List.mem_cons_self, rfl, ?_⟩
    · have hne : x ≠ ⟨w.start, w.len + 8 * n, none⟩ := by
        rintro rfl
        exact hx rfl
      have hne' : x ≠ w := by
        rintro rfl
        exact hx hnone
      simp [hright x hx, hne, hne']
    · show 8 * s.size a ≤ w.len + 8 * n
      omega

theorem Hole.free (h : Hole base start s l₁ l₂ a) :
    ∃ s' l', s.free (a + 8) = some s' ∧ Rep base start s' l' ∧ SameLive (l₁ ++ l₂) l' ∧
      ∃ x ∈ l', x.tag = none ∧ 8 * s.size a ≤ x.len := by
  obtain ⟨l', hrep, hlive, hroom⟩ := h.link
  have hstop := h.stop_lt
  have hbp : (a + 8 + (2 ^ 32 - 8)) % 2 ^ 32 = a := by omega
  refine ⟨_, l', ?_, hrep, hlive, hroom⟩
  rw [Heap.free, hbp, h.seek]
  rfl

end Xv6.Umalloc
