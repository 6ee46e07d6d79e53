import Mathlib

/-!
# Linked lists in memory

The nodes of a list refer to their neighbours through two functions, `next` and `prev`. A ring goes from a fixed node
through the others and back to it; a list that ends in null pointers, with a header that holds its first and its last
node, is the ring through the null pointer. Taking a node out of a ring and putting one in at either end change three
pointers each, and the rest of the ring keeps its links.
-/

namespace Lib

variable {α : Type} {next prev next' prev' : α → α} {h a : α} {l l₁ l₂ : List α}

/-- Each node refers to the one after it, and that one back to it. -/
def Links (next prev : α → α) (l : List α) : Prop := l.IsChain fun a b => next a = b ∧ prev b = a

namespace Links

theorem congr (hl : Links next prev l) (hnext : ∀ x ∈ l.dropLast, next' x = next x) (hprev : ∀ y ∈ l.tail, prev' y = prev y) :
    Links next' prev' l := by
  induction l with
  | nil => exact .nil
  | cons a l ih =>
    cases l with
    | nil => exact .singleton a
    | cons b l =>
      obtain ⟨⟨hab, hba⟩, hrest⟩ := List.isChain_cons_cons.mp hl
      refine List.isChain_cons_cons.mpr ⟨⟨?_, ?_⟩, ih hrest (fun x hx => ?_) fun y hy => ?_⟩
      · rw [hnext a (by simp), hab]
      · rw [hprev b (by simp), hba]
      · exact hnext x (by rw [List.dropLast_cons_cons]; exact List.mem_cons_of_mem a hx)
      · exact hprev y (List.mem_cons_of_mem b hy)

theorem reverse (hl : Links next prev l) : Links prev next l.reverse := by
  rw [Links, List.isChain_reverse]
  exact List.IsChain.imp (fun _ _ hab => ⟨hab.2, hab.1⟩) hl

end Links

/-- The links lead from `h` through the nodes of `l` back to `h`. -/
structure LinkedRing (next prev : α → α) (h : α) (l : List α) : Prop where
  nodup : (h :: l).Nodup
  links : Links next prev (h :: l ++ [h])

namespace LinkedRing

theorem congr (hr : LinkedRing next prev h l) (hnext : ∀ x ∈ h :: l, next' x = next x) (hprev : ∀ x ∈ h :: l, prev' x = prev x) :
    LinkedRing next' prev' h l := by
  refine ⟨hr.nodup, hr.links.congr (fun x hx => hnext x ?_) fun y hy => hprev y ?_⟩
  · rwa [List.dropLast_concat] at hx
  · rw [List.cons_append, List.tail_cons, List.mem_append, List.mem_singleton] at hy
    exact List.mem_cons.mpr hy.symm

theorem reverse (hr : LinkedRing next prev h l) : LinkedRing prev next h l.reverse := by
  refine ⟨?_, ?_⟩
  · obtain ⟨hh, hl⟩ := List.nodup_cons.mp hr.nodup
    exact List.nodup_cons.mpr ⟨by simpa using hh, List.nodup_reverse.mpr hl⟩
  · simpa using hr.links.reverse

theorem next_head (hr : LinkedRing next prev h l) : next h = l.head?.getD h := by
  cases l with
  | nil => exact (List.isChain_cons_cons.mp hr.links).1.1
  | cons a l => exact (List.isChain_cons_cons.mp hr.links).1.1

theorem prev_head (hr : LinkedRing next prev h l) : prev h = l.getLast?.getD h := by
  rw [hr.reverse.next_head, List.head?_reverse]

theorem split (hr : LinkedRing next prev h (l₁ ++ a :: l₂)) : next a = l₂.head?.getD h ∧ prev a = l₁.getLast?.getD h := by
  have hforward : ∀ {next prev : α → α} {l₁ l₂ : List α}, LinkedRing next prev h (l₁ ++ a :: l₂) → next a = l₂.head?.getD h := by
    intro next prev l₁ l₂ hr
    have hlinks := hr.links
    rw [← List.cons_append, List.append_assoc] at hlinks
    cases l₂ with
    | nil => exact (List.isChain_append_cons_cons.mp hlinks).2.1.1
    | cons b l₂ => exact (List.isChain_append_cons_cons.mp hlinks).2.1.1
  refine ⟨hforward hr, ?_⟩
  have hback := hr.reverse
  rw [List.reverse_append, List.reverse_cons, List.append_assoc, List.singleton_append] at hback
  rw [hforward hback, List.head?_reverse]

variable [DecidableEq α]

theorem erase (hr : LinkedRing next prev h (l₁ ++ a :: l₂)) :
    LinkedRing (Function.update next (prev a) (next a)) (Function.update prev (next a) (prev a)) h (l₁ ++ l₂) := by
  have hnodup := hr.nodup
  -- the nodes before and after the one that goes
  obtain ⟨before, p, hbefore⟩ : ∃ before p, h :: l₁ = before ++ [p] := ⟨_, _, (List.dropLast_append_getLast (by simp)).symm⟩
  obtain ⟨q, after, hafter⟩ : ∃ q after, l₂ ++ [h] = q :: after := List.exists_cons_of_ne_nil (by simp)
  have hlinks : Links next prev (before ++ p :: a :: q :: after) := by
    have hlinks := hr.links
    rwa [← List.cons_append, hbefore, List.append_assoc, List.cons_append, hafter, List.append_assoc] at hlinks
  obtain ⟨hleft, ⟨-, hprev⟩, hright⟩ := List.isChain_append_cons_cons.mp hlinks
  obtain ⟨⟨hnext, -⟩, hright⟩ := List.isChain_cons_cons.mp hright
  have hone : (before ++ [p]).Nodup := by
    rw [← hbefore]
    exact hnodup.sublist (by simp)
  have htwo : (q :: after).Nodup := by
    rw [← hafter, List.nodup_append_comm]
    exact hnodup.sublist (by simp)
  have hp : p ∈ h :: l₁ := by simp [hbefore]
  have hq : q ∈ l₂ ++ [h] := by simp [hafter]
  refine ⟨hnodup.sublist (by simp), ?_⟩
  rw [hprev, hnext, ← List.cons_append, hbefore, List.append_assoc, hafter, List.append_assoc, List.singleton_append]
  refine List.isChain_append_cons_cons.mpr ⟨Links.congr hleft (fun x hx => ?_) fun y hy => ?_, by simp,
    Links.congr hright (fun x hx => ?_) fun y hy => ?_⟩
  · rw [List.dropLast_concat] at hx
    refine Function.update_of_ne ?_ _ _
    rintro rfl
    exact (List.nodup_append.mp hone).2.2 x hx x (by simp) rfl
  · rw [← hbefore, List.tail_cons] at hy
    refine Function.update_of_ne ?_ _ _
    rintro rfl
    simp only [List.nodup_cons, List.nodup_append, List.mem_append, List.mem_cons] at hnodup hq
    grind
  · rw [← hafter, List.dropLast_concat] at hx
    refine Function.update_of_ne ?_ _ _
    rintro rfl
    simp only [List.nodup_cons, List.nodup_append, List.mem_append, List.mem_cons] at hnodup hp
    grind
  · refine Function.update_of_ne ?_ _ _
    rintro rfl
    exact (List.nodup_cons.mp htwo).1 hy

theorem push (hr : LinkedRing next prev h l) (ha : a ∉ h :: l) :
    LinkedRing (Function.update (Function.update next a (next h)) h a) (Function.update (Function.update prev a h) (next h) a) h (a :: l) := by
  obtain ⟨hah, hal⟩ : a ≠ h ∧ a ∉ l := by simpa using ha
  obtain ⟨hh, hl⟩ := List.nodup_cons.mp hr.nodup
  obtain ⟨q, after, hafter⟩ : ∃ q after, l ++ [h] = q :: after := List.exists_cons_of_ne_nil (by simp)
  have hlinks : Links next prev (h :: q :: after) := by
    have hlinks := hr.links
    rwa [List.cons_append, hafter] at hlinks
  obtain ⟨⟨hnext, -⟩, hrest⟩ := List.isChain_cons_cons.mp hlinks
  have hnodup : (q :: after).Nodup := by
    rw [← hafter, List.nodup_append_comm]
    exact hr.nodup
  have hmem : ∀ x ∈ q :: after, x ≠ a := by
    rintro x hx rfl
    rw [← hafter, List.mem_append, List.mem_singleton] at hx
    exact hx.elim hal hah
  refine ⟨by simp [hah.symm, hh, hal, hl], ?_⟩
  rw [List.cons_append, List.cons_append, hafter, hnext]
  refine List.isChain_cons_cons.mpr ⟨⟨by simp, ?_⟩, List.isChain_cons_cons.mpr ⟨⟨?_, by simp⟩, Links.congr hrest (fun x hx => ?_) fun y hy => ?_⟩⟩
  · rw [Function.update_of_ne (hmem q (by simp)).symm, Function.update_self]
  · rw [Function.update_of_ne hah, Function.update_self]
  · have hxa := hmem x (List.mem_of_mem_dropLast hx)
    rw [← hafter, List.dropLast_concat] at hx
    rw [Function.update_of_ne (by rintro rfl; exact hh hx), Function.update_of_ne hxa]
  · rw [List.tail_cons] at hy
    rw [Function.update_of_ne (by rintro rfl; exact (List.nodup_cons.mp hnodup).1 hy), Function.update_of_ne (hmem y (by simp [hy]))]

theorem append (hr : LinkedRing next prev h l) (ha : a ∉ h :: l) :
    LinkedRing (Function.update (Function.update next a h) (prev h) a) (Function.update (Function.update prev a (prev h)) h a) h (l ++ [a]) := by
  have hpush := (hr.reverse.push (a := a) (by simpa using ha)).reverse
  rwa [List.reverse_cons, List.reverse_reverse] at hpush

/-- `for(a = start; a != h; a = next(a)) if(p(a)) return a;` for at most `k` rounds; `h` when the loop has ended. -/
def scan (next : α → α) (h : α) (p : α → Bool) : Nat → α → Option α
  | 0, _ => none
  | k + 1, a => if a = h then some h else if p a then some a else scan next h p k (next a)

theorem scan_rest (p : α → Bool) (hr : LinkedRing next prev h (l₁ ++ l₂)) {k : Nat} (hk : l₂.length < k) :
    scan next h p k (l₂.head?.getD h) = some ((l₂.find? p).getD h) := by
  induction l₂ generalizing l₁ k with
  | nil =>
    obtain ⟨k, rfl⟩ := Nat.exists_eq_succ_of_ne_zero (Nat.ne_of_gt hk)
    exact if_pos rfl
  | cons a l₂ ih =>
    obtain ⟨k, rfl⟩ := Nat.exists_eq_succ_of_ne_zero (Nat.ne_of_gt (Nat.zero_lt_of_lt hk))
    have ha : a ≠ h := by
      rintro rfl
      exact (List.nodup_cons.mp hr.nodup).1 (by simp)
    have hrest : LinkedRing next prev h ((l₁ ++ [a]) ++ l₂) := by simpa using hr
    show (if a = h then some h else if p a then some a else scan next h p k (next a)) = _
    rw [if_neg ha, List.find?_cons]
    cases hp : p a with
    | true => rfl
    | false =>
      rw [hr.split.1]
      exact ih hrest (by simpa using hk)

theorem scan_eq (p : α → Bool) (hr : LinkedRing next prev h l) {k : Nat} (hk : l.length < k) :
    scan next h p k (next h) = some ((l.find? p).getD h) := by
  have hall : LinkedRing next prev h ([] ++ l) := hr
  rw [hr.next_head]
  exact scan_rest p hall hk

end LinkedRing

end Lib
