import Mathlib

/-!
# Spans laid end to end

A list of spans tiles an interval when each begins where the one before it ends. The spans of a tiling are disjoint, in
order, and cover the interval.
-/

namespace Lib

structure Span (τ : Type) where
  start : Nat
  len : Nat
  tag : τ

variable {τ : Type} {a b : Nat} {l l₁ l₂ : List (Span τ)} {x y : Span τ}

def Span.stop (x : Span τ) : Nat := x.start + x.len

def Tiles : Nat → List (Span τ) → Nat → Prop
  | a, [], b => a = b
  | a, x :: l, b => x.start = a ∧ 0 < x.len ∧ Tiles x.stop l b

theorem tiles_append : Tiles a (l₁ ++ l₂) b ↔ ∃ c, Tiles a l₁ c ∧ Tiles c l₂ b := by
  induction l₁ generalizing a with
  | nil => simp [Tiles]
  | cons x l₁ ih => simp [Tiles, ih, and_assoc]

namespace Tiles

theorem le (h : Tiles a l b) : a ≤ b := by
  induction l generalizing a with
  | nil => exact Nat.le_of_eq h
  | cons x l ih =>
    obtain ⟨rfl, -, hrest⟩ := h
    exact (Nat.le_add_right ..).trans (ih hrest)

theorem left (h : Tiles a (l₁ ++ x :: l₂) b) : Tiles a l₁ x.start := by
  obtain ⟨c, hl₁, rfl, -⟩ := tiles_append.mp h
  exact hl₁

theorem right (h : Tiles a (l₁ ++ x :: l₂) b) : Tiles x.stop l₂ b := by
  obtain ⟨c, -, -, -, hl₂⟩ := tiles_append.mp h
  exact hl₂

theorem pos (h : Tiles a (l₁ ++ x :: l₂) b) : 0 < x.len := by
  obtain ⟨c, -, -, hpos, -⟩ := tiles_append.mp h
  exact hpos

theorem mem (h : Tiles a l b) (hx : x ∈ l) : a ≤ x.start ∧ x.stop ≤ b ∧ 0 < x.len := by
  obtain ⟨l₁, l₂, rfl⟩ := List.append_of_mem hx
  exact ⟨h.left.le, h.right.le, h.pos⟩

theorem pairwise (h : Tiles a l b) : l.Pairwise fun x y => x.stop ≤ y.start := by
  induction l generalizing a with
  | nil => exact .nil
  | cons x l ih =>
    obtain ⟨-, -, hrest⟩ := h
    exact List.pairwise_cons.mpr ⟨fun y hy => (hrest.mem hy).1, ih hrest⟩

theorem pairwise_start (h : Tiles a l b) : l.Pairwise fun x y => x.start < y.start := by
  refine h.pairwise.imp_of_mem ?_
  intro x y hx _ hxy
  have hpos := (h.mem hx).2.2
  unfold Span.stop at hxy
  omega

theorem eq_of_overlap (h : Tiles a l b) (hx : x ∈ l) (hy : y ∈ l) {i : Nat} (hix : x.start ≤ i ∧ i < x.stop)
    (hiy : y.start ≤ i ∧ i < y.stop) : x = y := by
  obtain ⟨l₁, l₂, rfl⟩ := List.append_of_mem hx
  obtain hy | hy := List.mem_append.mp hy
  · have hbefore := (h.left.mem hy).2.1
    omega
  · obtain rfl | hy := List.mem_cons.mp hy
    · rfl
    · have hbehind := (h.right.mem hy).1
      omega

theorem eq_of_start (h : Tiles a l b) (hx : x ∈ l) (hy : y ∈ l) (hxy : x.start = y.start) : x = y := by
  have hx' := (h.mem hx).2.2
  have hy' := (h.mem hy).2.2
  refine h.eq_of_overlap hx hy (i := x.start) ?_ ?_ <;> unfold Span.stop <;> omega

theorem covers (h : Tiles a l b) (i : Nat) : (∃ x ∈ l, x.start ≤ i ∧ i < x.stop) ↔ a ≤ i ∧ i < b := by
  constructor
  · rintro ⟨x, hx, hi⟩
    have hmem := h.mem hx
    omega
  · intro hi
    induction l generalizing a with
    | nil =>
      obtain rfl : a = b := h
      omega
    | cons x l ih =>
      obtain ⟨rfl, hpos, hrest⟩ := h
      by_cases hin : i < x.stop
      · exact ⟨x, List.mem_cons_self, hi.1, hin⟩
      · obtain ⟨y, hy, hiy⟩ := ih hrest ⟨by omega, hi.2⟩
        exact ⟨y, List.mem_cons_of_mem x hy, hiy⟩

end Tiles

end Lib
