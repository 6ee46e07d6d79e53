import Mathlib

/-!
# The two functions `memmove`

`memmove` of `string.c` copies backwards where the destination begins inside the source. That of `ulib.c` always copies
forwards: there it then reads what it has just written, and the bytes before the destination come again and again.
-/

namespace Xv6.Memmove

abbrev Memory := UInt32 → UInt8

/-- The loop `*d++ = *s++`. -/
def copyUp (mem : Memory) (d s : UInt32) : Nat → Memory
  | 0 => mem
  | n + 1 => copyUp (Function.update mem d (mem s)) (d + 1) (s + 1) n

/-- The loop `*--d = *--s`. -/
def copyDown (mem : Memory) (d s : UInt32) : Nat → Memory
  | 0 => mem
  | n + 1 => copyDown (Function.update mem (d - 1) (mem (s - 1))) (d - 1) (s - 1) n

def Kernel.memmove (mem : Memory) (dst src n : UInt32) : Memory :=
  if src < dst ∧ src + n > dst then copyDown mem (dst + n) (src + n) n.toNat else copyUp mem dst src n.toNat

def User.memmove (mem : Memory) (dst src : UInt32) (n : Int32) : Memory := copyUp mem dst src n.toInt.toNat

/-- The destination has what the source had before, and the rest of the memory is as it was. -/
structure Moved (mem mem' : Memory) (dst src : UInt32) (n : Nat) : Prop where
  copied : ∀ i < n, mem' (dst + .ofNat i) = mem (src + .ofNat i)
  kept : ∀ a, (∀ i < n, a ≠ dst + .ofNat i) → mem' a = mem a

variable {m : Memory} {d s p : UInt32} {i j k n : Nat}

theorem offset_inj (hi : i < 2 ^ 32) (hj : j < 2 ^ 32) : p + .ofNat i = p + .ofNat j ↔ i = j := by
  rw [UInt32.add_right_inj, ← UInt32.toNat_inj, UInt32.toNat_ofNat_of_lt' hi, UInt32.toNat_ofNat_of_lt' hj]

theorem offset_add (p : UInt32) (i j : Nat) : p + .ofNat i + .ofNat j = p + .ofNat (i + j) := by
  rw [UInt32.ofNat_add, UInt32.add_assoc]

theorem offset_succ (p : UInt32) (i : Nat) : p + 1 + .ofNat i = p + .ofNat (i + 1) := by
  rw [Nat.add_comm i 1]
  exact offset_add p 1 i

/-- An address that is not below another one is at an offset from it. -/
theorem exists_offset (h : s ≤ d) (hn : d.toNat + n ≤ 2 ^ 32) : d = s + .ofNat (d.toNat - s.toNat) ∧ d.toNat - s.toNat + n ≤ 2 ^ 32 := by
  have hle : s.toNat ≤ d.toNat := UInt32.le_iff_toNat_le.mp h
  have hlt := d.toNat_lt
  have hoffset : d.toNat - s.toNat < 2 ^ 32 := by omega
  refine ⟨?_, by omega⟩
  rw [← UInt32.toNat_inj, UInt32.toNat_add, UInt32.toNat_ofNat_of_lt' hoffset]
  omega

/-! ### Forwards -/

theorem copyUp_succ (m : Memory) (d s : UInt32) (n : Nat) :
    copyUp m d s (n + 1) = Function.update (copyUp m d s n) (d + .ofNat n) (copyUp m d s n (s + .ofNat n)) := by
  induction n generalizing m d s with
  | zero => simp [copyUp]
  | succ n ih =>
    rw [copyUp, ih, offset_succ, offset_succ]
    rfl

theorem copyUp_kept {a : UInt32} (ha : ∀ i < n, a ≠ d + .ofNat i) : copyUp m d s n a = m a := by
  induction n with
  | zero => rfl
  | succ n ih =>
    rw [copyUp_succ, Function.update_of_ne (ha n n.lt_succ_self)]
    exact ih fun i hi => ha i (Nat.lt_succ_of_lt hi)

/-- Towards lower addresses every byte is read before it is overwritten. -/
theorem moved_copyUp (hk : k + n ≤ 2 ^ 32) : Moved m (copyUp m d (d + .ofNat k) n) d (d + .ofNat k) n := by
  refine ⟨fun i hi => ?_, fun a => copyUp_kept⟩
  induction n with
  | zero => exact absurd hi i.not_lt_zero
  | succ n ih =>
    rw [copyUp_succ]
    obtain rfl | hlt := Nat.lt_succ_iff_lt_or_eq.mp hi |>.symm
    · rw [Function.update_self, copyUp_kept]
      intro j hj
      rw [offset_add, Ne, offset_inj (by omega) (by omega)]
      omega
    · rw [Function.update_of_ne, ih (by omega) hlt]
      rw [Ne, offset_inj (by omega) (by omega)]
      omega

/-- Towards higher addresses the first `k` bytes of the source are repeated. -/
theorem copyUp_repeats (hpos : 0 < k) (hk : k + n ≤ 2 ^ 32) (hi : i < n) :
    copyUp m (s + .ofNat k) s n (s + .ofNat k + .ofNat i) = m (s + .ofNat (i % k)) := by
  induction n generalizing i with
  | zero => exact absurd hi i.not_lt_zero
  | succ n ih =>
    rw [copyUp_succ]
    obtain rfl | hlt := Nat.lt_succ_iff_lt_or_eq.mp hi |>.symm
    · rw [Function.update_self]
      by_cases hread : i < k
      · rw [Nat.mod_eq_of_lt hread, copyUp_kept]
        intro j hj
        rw [offset_add, Ne, offset_inj (by omega) (by omega)]
        omega
      · have hback := ih (i := i - k) (by omega) (by omega)
        rw [offset_add, Nat.add_sub_cancel' (Nat.le_of_not_lt hread), ← Nat.mod_eq_sub_mod (Nat.le_of_not_lt hread)] at hback
        exact hback
    · rw [Function.update_of_ne, ih (by omega) hlt]
      rw [offset_add, offset_add, Ne, offset_inj (by omega) (by omega)]
      omega

/-! ### Backwards -/

theorem moved_copyDown (hpos : 0 < k) (hk : k + n ≤ 2 ^ 32) :
    Moved m (copyDown m (s + .ofNat k + .ofNat n) (s + .ofNat n) n) (s + .ofNat k) s n := by
  have hpred : ∀ (p : UInt32) (n : Nat), p + .ofNat (n + 1) - 1 = p + .ofNat n := by
    intro p n
    rw [UInt32.ofNat_add, ← UInt32.add_assoc]
    exact UInt32.add_sub_cancel _ _
  induction n generalizing m with
  | zero => exact ⟨fun i hi => absurd hi i.not_lt_zero, fun _ _ => rfl⟩
  | succ n ih =>
    rw [copyDown, hpred, hpred]
    obtain ⟨hcopied, hkept⟩ := ih (m := Function.update m (s + .ofNat k + .ofNat n) (m (s + .ofNat n))) (by omega)
    refine ⟨fun i hi => ?_, fun a ha => ?_⟩
    · obtain rfl | hlt := Nat.lt_succ_iff_lt_or_eq.mp hi |>.symm
      · rw [hkept, Function.update_self]
        intro j hj
        rw [Ne, offset_add, offset_add, offset_inj (by omega) (by omega)]
        omega
      · rw [hcopied i hlt, Function.update_of_ne]
        rw [Ne, offset_add, offset_inj (by omega) (by omega)]
        omega
    · rw [hkept a fun i hi => ha i (Nat.lt_succ_of_lt hi), Function.update_of_ne (ha n n.lt_succ_self)]

/-! ### The two functions -/

theorem kernel_memmove {dst src n : UInt32} (hdst : dst.toNat + n.toNat ≤ 2 ^ 32) (hsrc : src.toNat + n.toNat ≤ 2 ^ 32) :
    Moved m (Kernel.memmove m dst src n) dst src n.toNat := by
  by_cases hlt : src < dst
  · obtain ⟨heq, hk⟩ := exists_offset (UInt32.le_of_lt hlt) hdst
    have hpos : 0 < dst.toNat - src.toNat := Nat.sub_pos_of_lt (UInt32.lt_iff_toNat_lt.mp hlt)
    rw [Kernel.memmove]
    split
    · generalize dst.toNat - src.toNat = k at *
      subst heq
      have hdown := moved_copyDown (m := m) (s := src) hpos hk
      rwa [UInt32.ofNat_toNat] at hdown
    · rename_i hapart
      -- The source ends before the destination begins, and nothing is repeated.
      have hend : src.toNat + n.toNat ≤ dst.toNat := by
        have hfit : src.toNat + n.toNat < 2 ^ 32 := by have := UInt32.lt_iff_toNat_lt.mp hlt; omega
        by_contra hover
        refine hapart ⟨hlt, UInt32.lt_iff_toNat_lt.mpr ?_⟩
        rw [UInt32.toNat_add, Nat.mod_eq_of_lt hfit]
        omega
      refine ⟨fun i hi => ?_, fun a => copyUp_kept⟩
      have hrepeats := copyUp_repeats (m := m) (s := src) hpos hk hi
      rw [← heq, Nat.mod_eq_of_lt (by omega)] at hrepeats
      exact hrepeats
  · obtain ⟨heq, hk⟩ := exists_offset (UInt32.not_lt.mp hlt) hsrc
    rw [Kernel.memmove, if_neg fun hback => hlt hback.1]
    have hup := moved_copyUp (m := m) (d := dst) hk
    rwa [← heq] at hup

/-- The kernel's function is right. The user's is right iff the destination is not above the source, or what is moved
repeats the bytes between their beginnings. -/
theorem memmove_iff (mem : Memory) (dst src n : UInt32) (hdst : dst.toNat + n.toNat ≤ 2 ^ 32)
    (hsrc : src.toNat + n.toNat ≤ 2 ^ 32) :
    Moved mem (Kernel.memmove mem dst src n) dst src n.toNat ∧
      (n.toNat < 2 ^ 31 → (Moved mem (User.memmove mem dst src n.toInt32) dst src n.toNat ↔
        (src < dst → ∀ i < n.toNat, mem (src + .ofNat i) = mem (src + .ofNat (i % (dst.toNat - src.toNat)))))) := by
  refine ⟨kernel_memmove hdst hsrc, fun hint => ?_⟩
  have hlength : n.toInt32.toInt.toNat = n.toNat := by
    rw [Int32.toInt, UInt32.toBitVec_toInt32, BitVec.toInt_eq_toNat_of_lt (by simpa using (by omega : 2 * n.toNat < 2 ^ 32))]
    rfl
  rw [User.memmove, hlength]
  by_cases hlt : src < dst
  · obtain ⟨heq, hk⟩ := exists_offset (UInt32.le_of_lt hlt) hdst
    have hpos : 0 < dst.toNat - src.toNat := Nat.sub_pos_of_lt (UInt32.lt_iff_toNat_lt.mp hlt)
    have hrepeats := fun {i} => copyUp_repeats (m := mem) (s := src) (i := i) hpos hk
    rw [← heq] at hrepeats
    constructor
    · exact fun hmoved _ i hi => (hmoved.copied i hi).symm.trans (hrepeats hi)
    · exact fun hperiod => ⟨fun i hi => (hrepeats hi).trans (hperiod hlt i hi).symm, fun a => copyUp_kept⟩
  · obtain ⟨heq, hk⟩ := exists_offset (UInt32.not_lt.mp hlt) hsrc
    have hup := moved_copyUp (m := mem) (d := dst) hk
    rw [← heq] at hup
    exact iff_of_true hup fun habove => absurd habove hlt

theorem memmove_iff_equal_bytes : Moved (fun _ => 7) (Kernel.memmove (fun _ => 7) 1 0 2) 1 0 2 ∧
    Moved (fun _ => 7) (User.memmove (fun _ => 7) 1 0 2) 1 0 2 := by
  obtain ⟨hkernel, huser⟩ := memmove_iff (fun _ => 7) 1 0 2 (by decide) (by decide)
  exact ⟨hkernel, (huser (by decide)).mpr fun _ _ _ => rfl⟩

/-- The bytes 0 and 1 are moved up by one byte, and the second becomes 0. -/
theorem user_memmove_repeats : ¬Moved UInt32.toUInt8 (User.memmove UInt32.toUInt8 1 0 2) 1 0 2 := by
  intro hmoved
  have hbyte := hmoved.copied 1 (by decide)
  revert hbyte
  decide

end Xv6.Memmove
