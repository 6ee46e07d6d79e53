import Xv6.Lib.Tiling
import Xv6.Umalloc.Code

/-!
# The blocks of the heap

The memory from `sbrk` is tiled by blocks, free ones and ones that the program has, and no two free blocks are adjacent.
The free list goes from `base` through the free blocks in the order of their addresses. While `free` works, one block is
in neither kind.
-/

namespace Xv6.Umalloc

open Lib

/-- The blocks in order; a free one has no tag, and another one the number of bytes asked for. -/
abbrev Layout := List (Span (Option Nat))

def frees (l : Layout) : List Nat := (l.filter (·.tag.isNone)).map Span.start

def Gaps (l : Layout) : Prop := l.IsChain fun x y => x.tag ≠ none ∨ y.tag ≠ none

section Frees

variable {l l₁ l₂ : Layout} {x : Span (Option Nat)} {a b i : Nat}

@[simp] theorem frees_nil : frees [] = [] := rfl

@[simp] theorem frees_append : frees (l₁ ++ l₂) = frees l₁ ++ frees l₂ := by simp [frees]

theorem frees_cons_free (hx : x.tag = none) : frees (x :: l) = x.start :: frees l := by simp [frees, hx]

theorem frees_cons_live (hx : x.tag ≠ none) : frees (x :: l) = frees l := by
  obtain ⟨n, hn⟩ := Option.ne_none_iff_exists'.mp hx
  simp [frees, hn]

theorem mem_frees : i ∈ frees l ↔ ∃ x ∈ l, x.tag = none ∧ x.start = i := by simp [frees, and_assoc]

theorem frees_sorted (h : Tiles a l b) : (frees l).Pairwise (· < ·) :=
  List.pairwise_map.mpr (h.pairwise_start.filter _)

theorem frees_bounds (h : Tiles a l b) (hi : i ∈ frees l) : a ≤ i ∧ i < b := by
  obtain ⟨x, hx, -, rfl⟩ := mem_frees.mp hi
  have hmem := h.mem hx
  unfold Span.stop at hmem
  omega

theorem frees_length (h : Tiles a l b) : (frees l).length ≤ b - a := by
  have hlength : l.length ≤ b - a := by
    induction l generalizing a with
    | nil => exact Nat.zero_le _
    | cons x l ih =>
      obtain ⟨rfl, hpos, hrest⟩ := h
      have hle := hrest.le
      have hl := ih hrest
      simp only [Span.stop, List.length_cons] at *
      omega
  refine le_trans ?_ hlength
  rw [frees, List.length_map]
  exact List.length_filter_le ..

end Frees

/-! ### The memory -/

section Memory

variable (s : Heap) (p v : Nat)

@[simp] theorem ptr_setSize : (s.setSize p v).ptr = s.ptr := by
  funext q
  by_cases hq : q = p <;> simp [Heap.ptr, Heap.setSize, hq]

@[simp] theorem size_setSize : (s.setSize p v).size = Function.update s.size p v := by
  funext q
  by_cases hq : q = p <;> simp [Heap.size, Heap.setSize, hq]

@[simp] theorem ptr_setPtr : (s.setPtr p v).ptr = Function.update s.ptr p v := by
  funext q
  by_cases hq : q = p <;> simp [Heap.ptr, Heap.setPtr, hq]

@[simp] theorem size_setPtr : (s.setPtr p v).size = s.size := by
  funext q
  by_cases hq : q = p <;> simp [Heap.size, Heap.setPtr, hq]

end Memory

structure Rep (base start : Nat) (s : Heap) (l : Layout) : Prop where
  tiles : Tiles start l s.brk
  circle : Circle s.ptr base (frees l)
  gaps : Gaps l
  sizes : ∀ x ∈ l, 8 * s.size x.start = x.len
  base_size : s.size base = 0
  freep : s.freep ∈ base :: frees l
  base_pos : 0 < base
  base_lt : base + 8 ≤ start
  brk_lt : s.brk < 2 ^ 32
  whole : s.holes = []

/-- What it holds when the block at `a`, with a header, is between the blocks `l₁` and `l₂`. -/
structure Hole (base start : Nat) (s : Heap) (l₁ l₂ : Layout) (a : Nat) : Prop where
  left : Tiles start l₁ a
  right : Tiles (a + 8 * s.size a) l₂ s.brk
  pos : 0 < s.size a
  circle : Circle s.ptr base (frees l₁ ++ frees l₂)
  gaps_left : Gaps l₁
  gaps_right : Gaps l₂
  sizes : ∀ x ∈ l₁ ++ l₂, 8 * s.size x.start = x.len
  base_size : s.size base = 0
  freep : s.freep ∈ base :: (frees l₁ ++ frees l₂)
  base_pos : 0 < base
  base_lt : base + 8 ≤ start
  brk_lt : s.brk < 2 ^ 32
  whole : s.holes = []

def pred (base : Nat) (l : Layout) : Nat := (frees l).getLast?.getD base

/-- The first free block behind a place, or `base`. -/
def succ (base : Nat) (l : Layout) : Nat := (frees l).head?.getD base

section

variable {base start a : Nat} {s : Heap} {l l₁ l₂ : Layout}

theorem pred_mem (base : Nat) (l : Layout) : pred base l ∈ base :: frees l := by
  unfold pred
  cases hlast : (frees l).getLast? with
  | none => simp
  | some i => exact List.mem_cons_of_mem _ (List.mem_of_getLast? hlast)

theorem succ_mem (base : Nat) (l : Layout) : succ base l ∈ base :: frees l := by
  unfold succ
  cases hhead : (frees l).head? with
  | none => simp
  | some i => exact List.mem_cons_of_mem _ (List.mem_of_head? hhead)

theorem sorted (h : Tiles start l a) (hb : base + 8 ≤ start) : (base :: frees l).Pairwise (· < ·) := by
  refine List.pairwise_cons.mpr ⟨fun i hi => ?_, frees_sorted h⟩
  have hbounds := frees_bounds h hi
  omega

theorem lt_pred (h : Tiles start l a) (hb : base + 8 ≤ start) {z : Nat} (hz : z ∈ (base :: frees l).dropLast) : z < pred base l := by
  have hsorted := sorted h hb
  have hlast : (base :: frees l).getLast? = some (pred base l) := List.getLast?_cons
  obtain ⟨m, hm⟩ := List.getLast?_eq_some_iff.mp hlast
  rw [hm] at hsorted hz
  rw [List.dropLast_concat] at hz
  exact (List.pairwise_append.mp hsorted).2.2 z hz _ (List.mem_singleton_self _)

theorem Rep.hole {x : Span (Option Nat)} (h : Rep base start s (l₁ ++ x :: l₂)) (hx : x.tag ≠ none) :
    Hole base start s l₁ l₂ x.start := by
  have hsize : 8 * s.size x.start = x.len := h.sizes x (by simp)
  have hpos := h.tiles.pos
  have hfrees : frees (l₁ ++ x :: l₂) = frees l₁ ++ frees l₂ := by rw [frees_append, frees_cons_live hx]
  have hgaps := List.isChain_append.mp h.gaps
  refine ⟨h.tiles.left, ?_, by omega, hfrees ▸ h.circle, hgaps.1, hgaps.2.1.tail, fun y hy => h.sizes y ?_, h.base_size,
    hfrees ▸ h.freep, h.base_pos, h.base_lt, h.brk_lt, h.whole⟩
  · rw [hsize]
    exact h.tiles.right
  · obtain hy | hy := List.mem_append.mp hy
    · exact List.mem_append_left _ hy
    · exact List.mem_append_right _ (List.mem_cons_of_mem _ hy)

namespace Hole

theorem start_le (h : Hole base start s l₁ l₂ a) : base < a := by
  have hle := h.left.le
  have hlt := h.base_lt
  omega

theorem left_lt (h : Hole base start s l₁ l₂ a) {i : Nat} (hi : i ∈ base :: frees l₁) : i < a := by
  obtain rfl | hi := List.mem_cons.mp hi
  · exact h.start_le
  · exact (frees_bounds h.left hi).2

theorem lt_right (h : Hole base start s l₁ l₂ a) {i : Nat} (hi : i ∈ frees l₂) : a < i := by
  have hbounds := frees_bounds h.right hi
  have hpos := h.pos
  omega

theorem stop_lt (h : Hole base start s l₁ l₂ a) : a + 8 * s.size a < 2 ^ 32 := h.right.le.trans_lt h.brk_lt

theorem ptr_pred (h : Hole base start s l₁ l₂ a) : s.ptr (pred base l₁) = succ base l₂ := (circle_append.mp h.circle).2.2

/-- The pointers of the blocks before the place stay before it, but for the last one's. -/
theorem ptr_left (h : Hole base start s l₁ l₂ a) {z : Nat} (hz : z ∈ base :: frees l₁) (hne : z ≠ pred base l₁) :
    z < s.ptr z ∧ s.ptr z < a := by
  have hwalk := (circle_append.mp h.circle).1
  have hsorted := sorted h.left h.base_lt
  obtain ⟨m₁, m₂, hsplit⟩ := List.append_of_mem hz
  cases m₂ with
  | nil =>
    have hlast : (base :: frees l₁).getLast? = some z := by rw [hsplit, List.getLast?_concat]
    rw [List.getLast?_cons] at hlast
    exact absurd (Option.some.inj hlast).symm hne
  | cons y m₂ =>
    rw [Walk, hsplit] at hwalk
    rw [hsplit] at hsorted
    obtain ⟨-, hnext, -⟩ := List.isChain_append_cons_cons.mp hwalk
    have hzy := (List.pairwise_cons.mp (List.pairwise_append.mp hsorted).2.1).1 y (by simp)
    rw [hnext]
    exact ⟨hzy, h.left_lt (hsplit ▸ by simp)⟩

/-- The pointers of the blocks behind the place go up, but for the last one's. -/
theorem ptr_right (h : Hole base start s l₁ l₂ a) {z : Nat} (hz : z ∈ frees l₂) : z < s.ptr z ∨ s.ptr z = base := by
  have hwalk := (circle_append.mp h.circle).2.1
  have hsorted := frees_sorted h.right
  obtain ⟨m₁, m₂, hsplit⟩ := List.append_of_mem hz
  rw [Walk, hsplit, List.append_assoc, List.cons_append] at hwalk
  cases m₂ with
  | nil =>
    obtain ⟨-, hnext, -⟩ := List.isChain_append_cons_cons.mp hwalk
    exact .inr hnext
  | cons y m₂ =>
    rw [hsplit] at hsorted
    obtain ⟨-, hnext, -⟩ := List.isChain_append_cons_cons.mp hwalk
    have hzy := (List.pairwise_cons.mp (List.pairwise_append.mp hsorted).2.1).1 y (by simp)
    exact .inl (hnext ▸ hzy)

/-- The loop of `free` ends exactly at the last free block before the place. -/
theorem precedes_iff (h : Hole base start s l₁ l₂ a) {z : Nat} (hz : z ∈ base :: (frees l₁ ++ frees l₂)) :
    s.precedes a z = true ↔ z = pred base l₁ := by
  have hbase := h.start_le
  rw [Heap.precedes]
  simp only [Bool.or_eq_true, Bool.and_eq_true, decide_eq_true_eq]
  constructor
  · intro hstop
    by_contra hne
    rw [← List.cons_append] at hz
    obtain hz | hz := List.mem_append.mp hz
    · have hptr := h.ptr_left hz hne
      omega
    · have hlt := h.lt_right hz
      obtain hptr | hptr := h.ptr_right hz <;> omega
  · rintro rfl
    have hlt := h.left_lt (pred_mem base l₁)
    rw [h.ptr_pred]
    obtain hsucc | hsucc := List.mem_cons.mp (succ_mem base l₂)
    · have hle : base ≤ pred base l₁ := by
        obtain hpred | hpred := List.mem_cons.mp (pred_mem base l₁)
        · exact Nat.le_of_eq hpred.symm
        · have hbounds := frees_bounds h.left hpred
          have hstart := h.base_lt
          omega
      omega
    · have hright := h.lt_right hsucc
      omega

theorem seek (h : Hole base start s l₁ l₂ a) : Lib.seek s.ptr (s.precedes a) rounds s.freep = some (pred base l₁) := by
  have hpred : pred base l₁ ∈ base :: (frees l₁ ++ frees l₂) := by
    rw [← List.cons_append]
    exact List.mem_append_left _ (pred_mem base l₁)
  obtain ⟨k, hk, hiter⟩ := h.circle.iterate h.freep hpred
  have hlength : (frees l₁ ++ frees l₂).length ≤ s.brk := by
    have hl₁ := frees_length h.left
    have hl₂ := frees_length h.right
    have hle := h.right.le
    rw [List.length_append]
    omega
  have hbrk := h.brk_lt
  have hends : s.precedes a (s.ptr^[k] s.freep) = true := by
    rw [hiter]
    exact (h.precedes_iff hpred).mpr rfl
  have hfuel : k < rounds := by
    rw [rounds]
    omega
  obtain ⟨j, -, hseek, hstop, -⟩ := seek_of_iterate hends hfuel
  rw [hseek, (h.precedes_iff (h.circle.mem_iterate h.freep j)).mp hstop]

end Hole

end

end Xv6.Umalloc
