import Mathlib

/-!
# Queues through one pointer

A queue is a pointer to its first node, and each node has a pointer to the one behind it. A place is where such a
pointer stands: the variable for the first node, or the field of a node.
-/

namespace Lib

variable {α : Type}

structure Queue (α : Type) where
  head : Option α
  next : α → Option α

namespace Queue

/-- The pointers lead through the nodes of the list and end in a null pointer. -/
def Chain (next : α → Option α) : Option α → List α → Prop
  | none, [] => True
  | some a, b :: l => a = b ∧ Chain next (next a) l
  | _, _ => False

def Holds (q : Queue α) (l : List α) : Prop := Chain q.next q.head l

variable {next next' : α → Option α} {h : Option α} {a b : α} {l : List α}

theorem Chain.cons (hl : Chain next (next a) l) : Chain next (some a) (a :: l) := ⟨rfl, hl⟩

theorem Chain.nil_inv (hc : Chain next h []) : h = none := by
  cases h with
  | none => rfl
  | some a => exact hc.elim

theorem Chain.cons_inv (hc : Chain next h (a :: l)) : h = some a ∧ Chain next (next a) l := by
  cases h with
  | none => exact hc.elim
  | some b =>
    obtain ⟨rfl, hl⟩ := hc
    exact ⟨rfl, hl⟩

theorem Chain.congr (hc : Chain next h l) (hnext : ∀ x ∈ l, next' x = next x) : Chain next' h l := by
  induction l generalizing h with
  | nil =>
    obtain rfl := hc.nil_inv
    trivial
  | cons a l ih =>
    obtain ⟨rfl, hl⟩ := hc.cons_inv
    refine .cons ?_
    rw [hnext a (by simp)]
    exact ih hl fun x hx => hnext x (by simp [hx])

theorem Holds.pop {q : Queue α} (h : q.Holds (a :: l)) : q.head = some a ∧ Holds { q with head := q.next a } l := Chain.cons_inv h

def load (q : Queue α) : Option α → Option α
  | none => q.head
  | some a => q.next a

/-- `for(pp = &head; *pp; pp = &(*pp)->next);` for at most `k` rounds; the place where the loop ends. -/
def last (q : Queue α) : Nat → Option α → Option (Option α)
  | 0, _ => none
  | k + 1, pp =>
    match q.load pp with
    | none => some pp
    | some a => last q k (some a)

theorem last_eq {q : Queue α} {pp : Option α} (hl : Chain q.next (q.load pp) l) {k : Nat} (hk : l.length < k) :
    q.last k pp = some (l.getLast?.or pp) := by
  induction l generalizing pp k with
  | nil =>
    obtain ⟨k, rfl⟩ := Nat.exists_eq_succ_of_ne_zero (Nat.ne_of_gt hk)
    rw [last, hl.nil_inv]
    rfl
  | cons a l ih =>
    obtain ⟨k, rfl⟩ := Nat.exists_eq_succ_of_ne_zero (Nat.ne_of_gt (Nat.zero_lt_of_lt hk))
    obtain ⟨hload, hrest⟩ := hl.cons_inv
    rw [last, hload]
    have hplace : Chain q.next (q.load (some a)) l := hrest
    show q.last k (some a) = _
    rw [ih hplace (by simpa using hk), List.getLast?_cons]
    cases l.getLast? <;> rfl

variable [DecidableEq α]

def store (q : Queue α) (v : Option α) : Option α → Queue α
  | none => { q with head := v }
  | some a => { q with next := Function.update q.next a v }

/-- The node goes behind the last one; the search takes at most `k` rounds. -/
def append (q : Queue α) (a : α) (k : Nat) : Option (Queue α) :=
  let q := q.store none (some a)
  (q.last k none).map (q.store (some a))

theorem Chain.concat (hc : Chain next h (l ++ [a])) (hb : b ∉ l ++ [a]) (hnodup : (l ++ [a]).Nodup) (hend : next b = none) :
    Chain (Function.update next a (some b)) h (l ++ [a] ++ [b]) := by
  induction l generalizing h with
  | nil =>
    obtain ⟨rfl, -⟩ := hc.cons_inv
    have hba : b ≠ a := by simpa using hb
    refine .cons ?_
    rw [Function.update_self]
    refine .cons ?_
    rw [Function.update_of_ne hba, hend]
    trivial
  | cons x l ih =>
    obtain ⟨rfl, hrest⟩ := hc.cons_inv
    have hxa : x ≠ a := by
      rintro rfl
      simp at hnodup
    refine .cons ?_
    rw [Function.update_of_ne hxa]
    exact ih hrest (fun hmem => hb (by simp_all)) (List.nodup_cons.mp hnodup).2

theorem Holds.append {q : Queue α} (h : q.Holds l) (hnodup : l.Nodup) (ha : a ∉ l) {k : Nat} (hk : l.length < k) :
    ∃ q', q.append a k = some q' ∧ q'.Holds (l ++ [a]) := by
  have hclear : Chain (Function.update q.next a none) q.head l := by
    refine Chain.congr h fun x hx => Function.update_of_ne ?_ _ _
    rintro rfl
    exact ha hx
  refine ⟨_, by rw [Queue.append, last_eq hclear hk]; rfl, ?_⟩
  obtain rfl | ⟨l, b, rfl⟩ := List.eq_nil_or_concat' l
  · refine .cons ?_
    show Chain _ (Function.update q.next a none a) []
    rw [Function.update_self]
    trivial
  · have hlast : (l ++ [b]).getLast?.or none = some b := by simp
    rw [hlast]
    exact hclear.concat ha hnodup (Function.update_self ..)

end Queue

end Lib
