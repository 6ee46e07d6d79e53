import Mathlib

/-!
# Resources spread over a finite index

What the places of a finite index hold together, as a multiset, so that a resource held twice counts twice.
A store changes what one place holds, and `total_change` says what that does to the whole without taking
anything away, since multisets cannot be subtracted in general.
-/

namespace Lib

variable {ι α : Type} [Fintype ι]

def total (f : ι → Multiset α) : Multiset α := ∑ i, f i

variable {f g : ι → Multiset α}

theorem mem_total {a : α} : a ∈ total f ↔ ∃ i, a ∈ f i := by
  simp [total, Multiset.mem_sum]

theorem total_congr (h : ∀ i, f i = g i) : total f = total g := Finset.sum_congr rfl fun i _ => h i

@[simp] theorem total_zero : total (fun _ : ι => (0 : Multiset α)) = 0 := Finset.sum_const_zero

theorem count_total [DecidableEq α] (f : ι → Multiset α) (a : α) : (total f).count a = ∑ i, (f i).count a :=
  Multiset.count_sum' ..

theorem card_total (f : ι → Multiset α) : (total f).card = ∑ i, (f i).card := Multiset.card_sum ..

variable [DecidableEq ι]

theorem total_split (f : ι → Multiset α) (i : ι) : total f = f i + total (Function.update f i 0) := by
  rw [total, total, Finset.sum_update_of_mem (Finset.mem_univ i), zero_add, ← Finset.erase_eq,
    Finset.add_sum_erase _ _ (Finset.mem_univ i)]

theorem total_change (i : ι) (h : ∀ k, k ≠ i → g k = f k) : total g + f i = total f + g i := by
  have hrest : Function.update g i 0 = Function.update f i 0 := by
    funext k
    by_cases hk : k = i
    · subst hk
      simp
    · simp [hk, h k hk]
  rw [total_split f i, total_split g i, hrest]
  abel

theorem total_exchange (i : ι) {gain loss : Multiset α} (h : ∀ k, k ≠ i → g k = f k) (hi : g i + loss = f i + gain) :
    total g + loss = total f + gain := by
  have hchange := total_change i h
  refine add_right_cancel (b := f i) ?_
  calc total g + loss + f i = total g + f i + loss := by abel
    _ = total f + (g i + loss) := by rw [hchange, add_assoc]
    _ = total f + gain + f i := by rw [hi]; abel

theorem le_total (f : ι → Multiset α) (i : ι) : f i ≤ total f := by
  rw [total_split f i]
  exact Multiset.le_add_right _ _

/-- Two places that hold the same resource are one if no resource is held twice. -/
theorem eq_of_mem_total (hnodup : (total f).Nodup) {i k : ι} {a : α} (hi : a ∈ f i) (hk : a ∈ f k) : i = k := by
  by_contra hne
  rw [total_split f i] at hnodup
  refine Multiset.disjoint_left.mp (Multiset.nodup_add.mp hnodup).2.2 hi (mem_total.mpr ⟨k, ?_⟩)
  rwa [Function.update_of_ne (Ne.symm hne)]

theorem two_le_count_total [DecidableEq α] {i k : ι} {a : α} (hne : k ≠ i) (hi : a ∈ f i) (hk : a ∈ f k) :
    2 ≤ (total f).count a := by
  have hrest : a ∈ total (Function.update f i 0) := mem_total.mpr ⟨k, by rwa [Function.update_of_ne hne]⟩
  rw [total_split f i, Multiset.count_add]
  have hone := Multiset.one_le_count_iff_mem.mpr hi
  have hother := Multiset.one_le_count_iff_mem.mpr hrest
  omega

-- an index may be large, so sums over it are never unrolled
attribute [irreducible] total

end Lib
