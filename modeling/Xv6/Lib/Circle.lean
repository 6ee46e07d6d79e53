import Mathlib

/-!
# Circular lists

Each node refers to the next one. A circle goes from a fixed node through the others and back to it, and a loop that
follows the pointers from any of its nodes comes to every other one.
-/

namespace Lib

variable {α : Type} {next next' : α → α} {h a x y : α} {l l₁ l₂ : List α}

/-- Each node of the list refers to the one behind it. -/
def Walk (next : α → α) (l : List α) : Prop := l.IsChain fun x y => next x = y

theorem Walk.congr (hw : Walk next l) (hnext : ∀ x ∈ l.dropLast, next' x = next x) : Walk next' l := by
  induction l with
  | nil => exact .nil
  | cons a l ih =>
    cases l with
    | nil => exact .singleton a
    | cons b l =>
      obtain ⟨hab, hrest⟩ := List.isChain_cons_cons.mp hw
      refine List.isChain_cons_cons.mpr ⟨?_, ih hrest fun x hx => hnext x ?_⟩
      · rw [hnext a (by simp), hab]
      · rw [List.dropLast_cons_cons]
        exact List.mem_cons_of_mem a hx

theorem walk_cons_concat : Walk next (a :: (l ++ [h])) ↔ next a = l.head?.getD h ∧ Walk next (l ++ [h]) := by
  cases l with
  | nil => exact List.isChain_cons_cons
  | cons b l => exact List.isChain_cons_cons

/-- The pointers lead from `h` through the nodes of `l` back to `h`. -/
def Circle (next : α → α) (h : α) (l : List α) : Prop := Walk next (h :: l ++ [h])

theorem circle_append : Circle next h (l₁ ++ l₂) ↔
    Walk next (h :: l₁) ∧ Walk next (l₂ ++ [h]) ∧ next (l₁.getLast?.getD h) = l₂.head?.getD h := by
  have hlist : h :: (l₁ ++ l₂) ++ [h] = (h :: l₁) ++ (l₂ ++ [h]) := by simp
  have hlast : (h :: l₁).getLast? = some (l₁.getLast?.getD h) := List.getLast?_cons
  have hhead : (l₂ ++ [h]).head? = some (l₂.head?.getD h) := by cases l₂ <;> rfl
  rw [Circle, Walk, hlist, List.isChain_append, hlast, hhead]
  simp [Walk]

theorem Circle.mem_next (hc : Circle next h l) (hx : x ∈ h :: l) : next x ∈ h :: l := by
  obtain ⟨l₁, l₂, hl⟩ := List.append_of_mem hx
  have hchain : ((h :: l) ++ [h]).IsChain fun x y => next x = y := hc
  rw [hl, List.append_assoc, List.cons_append] at hchain
  cases l₂ with
  | nil =>
    obtain ⟨-, hnext, -⟩ := List.isChain_append_cons_cons.mp hchain
    exact hnext ▸ List.mem_cons_self
  | cons y l₂ =>
    obtain ⟨-, hnext, -⟩ := List.isChain_append_cons_cons.mp hchain
    rw [hnext, hl]
    simp

theorem Walk.iterate (hw : Walk next (a :: l)) (hy : y ∈ a :: l) : ∃ k, k ≤ l.length ∧ next^[k] a = y := by
  induction l generalizing a with
  | nil => exact ⟨0, le_rfl, (List.mem_singleton.mp hy).symm⟩
  | cons b l ih =>
    obtain ⟨hab, hrest⟩ := List.isChain_cons_cons.mp hw
    obtain rfl | hy := List.mem_cons.mp hy
    · exact ⟨0, Nat.zero_le _, rfl⟩
    · obtain ⟨k, hk, hiter⟩ := ih hrest hy
      refine ⟨k + 1, Nat.succ_le_succ hk, ?_⟩
      rw [Function.iterate_succ_apply, hab, hiter]

theorem Circle.iterate (hc : Circle next h l) (hx : x ∈ h :: l) (hy : y ∈ h :: l) : ∃ k, k ≤ 2 * l.length + 1 ∧ next^[k] x = y := by
  obtain ⟨l₁, l₂, hl⟩ := List.append_of_mem hx
  have hlength : l₁.length + l₂.length = l.length := by
    have hcount := congrArg List.length hl
    simp at hcount
    omega
  have hback : Walk next (x :: (l₂ ++ [h])) := by
    have hchain : ((h :: l) ++ [h]).IsChain fun x y => next x = y := hc
    rw [hl, List.append_assoc] at hchain
    exact hchain.right_of_append
  have hforth : Walk next (h :: l) := List.IsChain.left_of_append hc
  obtain ⟨i, hi, hhome⟩ := hback.iterate (y := h) (by simp)
  obtain ⟨j, hj, hthere⟩ := hforth.iterate hy
  refine ⟨j + i, ?_, ?_⟩
  · simp at hi
    omega
  · rw [Function.iterate_add_apply, hhome, hthere]

theorem Circle.pred (hc : Circle next h (l₁ ++ a :: l₂)) (hnodup : (h :: (l₁ ++ a :: l₂)).Nodup) (hx : x ∈ h :: (l₁ ++ a :: l₂))
    (hnext : next x = a) : x = l₁.getLast?.getD h := by
  obtain ⟨i, hi, rfl⟩ := List.getElem_of_mem hx
  have hbound : i + 1 < (h :: (l₁ ++ a :: l₂) ++ [h]).length := by
    rw [List.length_append, List.length_singleton]
    exact Nat.succ_lt_succ hi
  have hchain := List.isChain_iff_getElem.mp hc i hbound
  -- The successors are the nodes behind the first one, and the first one again.
  have hnodup' : ((l₁ ++ a :: l₂) ++ [h]).Nodup := (List.perm_append_singleton h _).nodup_iff.mpr hnodup
  have hi' : i < ((l₁ ++ a :: l₂) ++ [h]).length := Nat.lt_of_succ_lt_succ hbound
  have hsucc : ((l₁ ++ a :: l₂) ++ [h])[i] = a := by
    rw [List.getElem_append_left hi, hnext] at hchain
    exact hchain.symm
  have ha : l₁.length < ((l₁ ++ a :: l₂) ++ [h]).length := by simp
  have hplace : ((l₁ ++ a :: l₂) ++ [h])[l₁.length] = a := by simp
  obtain rfl := hnodup'.getElem_inj_iff.mp (hsucc.trans hplace.symm)
  cases l₁ using List.reverseRecOn with
  | nil => rfl
  | append_singleton l b ih => simp

/-- `for(p = x; !stop(p); p = next(p));` for at most `k` rounds. -/
def seek (next : α → α) (stop : α → Bool) : Nat → α → Option α
  | 0, _ => none
  | k + 1, p => if stop p then some p else seek next stop k (next p)

variable {stop : α → Bool}

theorem seek_of_iterate {k fuel : Nat} (hk : stop (next^[k] x) = true) (hfuel : k < fuel) :
    ∃ j, j ≤ k ∧ seek next stop fuel x = some (next^[j] x) ∧ stop (next^[j] x) = true ∧ ∀ i < j, stop (next^[i] x) = false := by
  induction fuel generalizing k x with
  | zero => exact absurd hfuel (Nat.not_lt_zero k)
  | succ fuel ih =>
    by_cases hstop : stop x = true
    · exact ⟨0, Nat.zero_le k, by rw [seek, if_pos hstop]; rfl, hstop, fun i hi => absurd hi (Nat.not_lt_zero i)⟩
    · cases k with
      | zero => exact absurd hk hstop
      | succ k =>
        rw [Function.iterate_succ_apply] at hk
        obtain ⟨j, hj, hseek, hend, hbefore⟩ := ih hk (Nat.lt_of_succ_lt_succ hfuel)
        refine ⟨j + 1, Nat.succ_le_succ hj, by rw [seek, if_neg hstop, hseek]; rfl, hend, fun i hi => ?_⟩
        cases i with
        | zero => simpa using hstop
        | succ i => exact hbefore i (Nat.lt_of_succ_lt_succ hi)

theorem Circle.mem_iterate (hc : Circle next h l) (hx : x ∈ h :: l) (k : Nat) : next^[k] x ∈ h :: l := by
  induction k generalizing x with
  | zero => exact hx
  | succ k ih => exact ih (hc.mem_next hx)

theorem Circle.seen (hc : Circle next h l) (hx : x ∈ h :: l) {j : Nat} (hj : next (next^[j] x) = x) (hy : y ∈ h :: l) :
    ∃ i, i ≤ j ∧ next^[i] x = y := by
  obtain ⟨k, -, rfl⟩ := hc.iterate hx hy
  have hperiod : Function.IsPeriodicPt next (j + 1) x := by
    rw [Function.IsPeriodicPt, Function.IsFixedPt, Function.iterate_succ_apply']
    exact hj
  exact ⟨k % (j + 1), Nat.le_of_lt_succ (Nat.mod_lt k (Nat.succ_pos j)), hperiod.iterate_mod_apply k⟩

end Lib
