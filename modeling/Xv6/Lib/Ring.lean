import Mathlib

/-!
# Rings with free-running counters

A buffer of `n` cells is used as a queue by two 32-bit counters that only grow and wrap around. The cell of a
counter is its value modulo `n`. When `n` divides `2 ^ 32` the cells follow each other also across the wrap.
-/

namespace Lib.Ring

variable {α : Type} {n : Nat} [NeZero n]

def slot (n : Nat) [NeZero n] (x : UInt32) : Fin n := Fin.ofNat n x.toNat

/-- The buffer between the two counters holds the elements of the list, oldest first. -/
structure Holds (buf : Fin n → α) (r w : UInt32) (l : List α) : Prop where
  count : w = r + UInt32.ofNat l.length
  le : l.length ≤ n
  get : ∀ k a, l[k]? = some a → buf (slot n (r + UInt32.ofNat k)) = a

theorem slot_add (hn : n ∣ 2 ^ 32) (r : UInt32) (k : Nat) :
    (slot n (r + UInt32.ofNat k)).val = (r.toNat + k) % n := by
  rw [slot, Fin.val_ofNat, UInt32.toNat_add, UInt32.toNat_ofNat', Nat.mod_mod_of_dvd _ hn, Nat.add_mod,
    Nat.mod_mod_of_dvd _ hn, ← Nat.add_mod]

theorem slot_ne (hn : n ∣ 2 ^ 32) (r : UInt32) {j k : Nat} (hjk : j < k) (hk : k < n) :
    slot n (r + UInt32.ofNat j) ≠ slot n (r + UInt32.ofNat k) := by
  intro h
  have hmod : r.toNat + j ≡ r.toNat + k [MOD n] := by
    have hval := congrArg Fin.val h
    rwa [slot_add hn, slot_add hn] at hval
  have hjk' := Nat.ModEq.add_left_cancel' r.toNat hmod
  rw [Nat.ModEq, Nat.mod_eq_of_lt (hjk.trans hk), Nat.mod_eq_of_lt hk] at hjk'
  omega

theorem add_ofNat_inj (r : UInt32) {j k : Nat} (hj : j < 2 ^ 32) (hk : k < 2 ^ 32)
    (h : r + UInt32.ofNat j = r + UInt32.ofNat k) : j = k := by
  have hjk := congrArg UInt32.toNat (add_left_cancel h)
  rwa [UInt32.toNat_ofNat', UInt32.toNat_ofNat', Nat.mod_eq_of_lt hj, Nat.mod_eq_of_lt hk] at hjk

section

variable {buf : Fin n → α} {r w : UInt32} {l : List α}

theorem Holds.nil (buf : Fin n → α) (r : UInt32) : Holds buf r r [] := ⟨by simp, by simp, by simp⟩

variable (hlt : n < 2 ^ 32)
include hlt

theorem Holds.empty_iff (h : Holds buf r w l) : r = w ↔ l = [] := by
  constructor
  · intro hrw
    have hlen := add_ofNat_inj r (j := 0) (k := l.length) (by norm_num) (h.le.trans_lt hlt) (by simpa [hrw] using h.count)
    exact List.eq_nil_of_length_eq_zero hlen.symm
  · rintro rfl
    simpa using h.count.symm

theorem Holds.full_iff (h : Holds buf r w l) : w = r + UInt32.ofNat n ↔ l.length = n := by
  constructor
  · intro hfull
    exact add_ofNat_inj r (h.le.trans_lt hlt) hlt (h.count.symm.trans hfull)
  · intro hlen
    rw [h.count, hlen]

theorem Holds.sub (h : Holds buf r w l) : (w - r).toNat = l.length := by
  rw [h.count, add_sub_cancel_left, UInt32.toNat_ofNat', Nat.mod_eq_of_lt (h.le.trans_lt hlt)]

omit hlt

theorem ofNat_succ (k : Nat) : UInt32.ofNat (k + 1) = UInt32.ofNat k + 1 := by
  rw [UInt32.ofNat_add]
  rfl

theorem Holds.push (hn : n ∣ 2 ^ 32) (h : Holds buf r w l) (hroom : l.length < n) (a : α) :
    Holds (Function.update buf (slot n w) a) r (w + 1) (l ++ [a]) where
  count := by
    rw [List.length_append, List.length_singleton, ofNat_succ, h.count, add_assoc]
  le := by
    rw [List.length_append, List.length_singleton]
    exact hroom
  get k b hk := by
    rw [h.count]
    rcases lt_trichotomy k l.length with hlt | heq | hgt
    · rw [List.getElem?_append_left hlt] at hk
      rw [Function.update_of_ne (slot_ne hn r hlt hroom)]
      exact h.get k b hk
    · subst heq
      rw [List.getElem?_concat_length] at hk
      rw [Function.update_self]
      exact Option.some.inj hk
    · have hnone : (l ++ [a])[k]? = none := List.getElem?_eq_none (by simp; omega)
      rw [hnone] at hk
      cases hk

theorem Holds.pop {a : α} (h : Holds buf r w (a :: l)) : buf (slot n r) = a ∧ Holds buf (r + 1) w l := by
  refine ⟨by simpa using h.get 0 a rfl, ?_, (Nat.le_succ _).trans h.le, fun k b hk => ?_⟩
  · rw [h.count, List.length_cons, ofNat_succ, add_assoc, add_comm 1]
  · have hnext := h.get (k + 1) b hk
    rwa [ofNat_succ, add_comm (UInt32.ofNat k), ← add_assoc] at hnext

theorem Holds.unpush {a : α} (h : Holds buf r w (l ++ [a])) : buf (slot n (w - 1)) = a ∧ Holds buf r (w - 1) l := by
  have hcount : w - 1 = r + UInt32.ofNat l.length := by
    rw [h.count, List.length_append, List.length_singleton, ofNat_succ, ← add_assoc, add_sub_cancel_right]
  refine ⟨?_, hcount, ?_, fun k b hk => ?_⟩
  · rw [hcount]
    exact h.get _ a List.getElem?_concat_length
  · have hle := h.le
    rw [List.length_append, List.length_singleton] at hle
    omega
  · refine h.get k b ?_
    rw [List.getElem?_append_left (List.getElem?_eq_some_iff.mp hk).1, hk]

theorem Holds.left {l' : List α} (h : Holds buf r w (l ++ l')) : Holds buf r (r + UInt32.ofNat l.length) l := by
  refine ⟨rfl, ?_, fun k b hk => h.get k b ?_⟩
  · have hle := h.le
    rw [List.length_append] at hle
    omega
  · rw [List.getElem?_append_left (List.getElem?_eq_some_iff.mp hk).1, hk]

end

end Lib.Ring
