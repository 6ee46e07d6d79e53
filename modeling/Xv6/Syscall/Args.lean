import Mathlib

/-!
# The arguments of system calls

The functions of `syscall.c` that fetch arguments from the caller's stack. Addresses and sizes are words of
the machine, so sums of them wrap around.
-/

namespace Xv6.Syscall

abbrev Word := BitVec 32

/-- The calling process: its size, its stack pointer, and its memory as the words at all addresses. -/
structure User where
  sz : Word
  esp : Word
  word : Word → Word

def fetchint (u : User) (addr : Word) : Option Word :=
  if addr ≥ u.sz ∨ addr + 4 > u.sz then none else some (u.word addr)

def argint (u : User) (n : Nat) : Option Word := fetchint u (u.esp + 4 + 4 * BitVec.ofNat 32 n)

def argptr (u : User) (n : Nat) (size : Word) : Option Word :=
  match argint u n with
  | none => none
  | some i => if i ≥ u.sz ∨ i + size > u.sz then none else some i

/-- A pointer that passes the check starts below `sz`, and its end does so up to wrapping around. -/
theorem argptr_eq_some {u : User} {n : Nat} {size ptr : Word} : argptr u n size = some ptr ↔
    argint u n = some ptr ∧ ptr.toNat < u.sz.toNat ∧ (ptr.toNat + size.toNat) % 2 ^ 32 ≤ u.sz.toNat := by
  unfold argptr
  cases hi : argint u n with
  | none => simp
  | some i =>
    have hwrap : i + size > u.sz ↔ ¬(i.toNat + size.toNat) % 2 ^ 32 ≤ u.sz.toNat := by
      rw [gt_iff_lt, BitVec.lt_def, BitVec.toNat_add, not_le]
    have hbelow : i ≥ u.sz ↔ ¬i.toNat < u.sz.toNat := by
      rw [ge_iff_le, BitVec.le_def, not_lt]
    simp only [hwrap, hbelow, Option.some.injEq]
    split
    · rename_i hfail
      constructor
      · intro h
        cases h
      · rintro ⟨rfl, hlt, hle⟩
        exact absurd hfail (by simp only [hlt, hle, not_true, or_self, not_false_iff])
    · rename_i hpass
      have hboth : i.toNat < u.sz.toNat ∧ (i.toNat + size.toNat) % 2 ^ 32 ≤ u.sz.toNat := by
        simpa only [not_or, not_not] using hpass
      constructor
      · intro h
        obtain rfl := Option.some.inj h
        exact ⟨rfl, hboth⟩
      · rintro ⟨rfl, -⟩
        rfl

/-! ### Ranges of bytes -/

/-- The addresses of `n` bytes from `a` on, wrapping around. -/
def bytesFrom (a : Word) (n : Nat) : List Word := (List.range n).map fun i => a + BitVec.ofNat 32 i

theorem toNat_offset (a : Word) (i : Nat) : (a + BitVec.ofNat 32 i).toNat = (a.toNat + i) % 2 ^ 32 := by
  rw [BitVec.toNat_add, BitVec.toNat_ofNat, Nat.add_mod_mod]

/-- Bytes that wrap around are not all below a bound, as the last address is not. -/
theorem bytesFrom_below {a sz : Word} {n : Nat} (hn : 0 < n) :
    (∀ b ∈ bytesFrom a n, b.toNat < sz.toNat) ↔ a.toNat + n ≤ sz.toNat := by
  have hsz := sz.isLt
  have ha := a.isLt
  have hall : (∀ b ∈ bytesFrom a n, b.toNat < sz.toNat) ↔ ∀ i < n, (a.toNat + i) % 2 ^ 32 < sz.toNat := by
    simp only [bytesFrom, List.mem_map, List.mem_range, forall_exists_index, and_imp]
    constructor
    · intro h i hi
      rw [← toNat_offset]
      exact h _ i hi rfl
    · rintro h b i hi rfl
      rw [toNat_offset]
      exact h i hi
  rw [hall]
  constructor
  · intro h
    by_cases hwrap : a.toNat + (n - 1) < 2 ^ 32
    · have hlast := h (n - 1) (by omega)
      rw [Nat.mod_eq_of_lt hwrap] at hlast
      omega
    · have hlast := h (2 ^ 32 - 1 - a.toNat) (by omega)
      rw [show a.toNat + (2 ^ 32 - 1 - a.toNat) = 2 ^ 32 - 1 by omega] at hlast
      omega
  · intro h i hi
    rw [Nat.mod_eq_of_lt (by omega)]
    omega

end Xv6.Syscall
