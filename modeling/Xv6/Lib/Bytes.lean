import Mathlib

/-!
# Fixed-size byte buffers

A buffer of `n` bytes, its little-endian fields, its single bits and its byte ranges. A structure laid
over a buffer is a set of fields at fixed offsets, so what a user of this module needs is: a field reads
back what was stored in it, and a store leaves every field that does not overlap it alone. Offsets are
natural numbers and reads past the end give zero; the round trips carry the bound.
-/

namespace Lib

abbrev Bytes (n : Nat) := Fin n → UInt8

namespace Bytes

variable {n : Nat}

def get (b : Bytes n) (i : Nat) : UInt8 := if h : i < n then b ⟨i, h⟩ else 0

def ofFn (f : Nat → UInt8) : Bytes n := fun i => f i.val

def zero : Bytes n := fun _ => 0

variable {i : Nat}

theorem get_ofFn {f : Nat → UInt8} (hi : i < n) : (ofFn f : Bytes n).get i = f i := by
  simp [get, ofFn, hi]

@[simp] theorem get_zero (i : Nat) : (zero : Bytes n).get i = 0 := by
  simp [get, zero]

/-! ### Little-endian fields -/

/-- The `w`-byte little-endian number at offset `o`. -/
def getLE (b : Bytes n) (o : Nat) : Nat → Nat
  | 0 => 0
  | w + 1 => (b.get o).toNat + 256 * getLE b (o + 1) w

def putLE (b : Bytes n) (o w v : Nat) : Bytes n :=
  ofFn fun i => if o ≤ i ∧ i < o + w then UInt8.ofNat (v / 256 ^ (i - o)) else b.get i

theorem getLE_lt (b : Bytes n) (o w : Nat) : b.getLE o w < 256 ^ w := by
  induction w generalizing o with
  | zero => simp [getLE]
  | succ w ih =>
    have hbyte : (b.get o).toNat < 256 := UInt8.toNat_lt _
    have hrest := ih (o + 1)
    simp only [getLE, pow_succ]
    omega

variable {b : Bytes n} {o w : Nat}

theorem getLE_congr {c : Bytes n} (h : ∀ i, o ≤ i → i < o + w → b.get i = c.get i) :
    b.getLE o w = c.getLE o w := by
  induction w generalizing o with
  | zero => rfl
  | succ w ih =>
    simp only [getLE]
    rw [h o (le_refl o) (by omega), ih fun i hlo hhi => h i (by omega) (by omega)]

variable {v : Nat}

theorem get_putLE (hi : i < n) :
    (b.putLE o w v).get i = if o ≤ i ∧ i < o + w then UInt8.ofNat (v / 256 ^ (i - o)) else b.get i := by
  rw [putLE, get_ofFn hi]

theorem getLE_putLE_same (hn : o + w ≤ n) :
    (b.putLE o w v).getLE o w = v % 256 ^ w := by
  induction w generalizing o v b with
  | zero => simp [getLE, Nat.mod_one]
  | succ w ih =>
    -- past its first byte the stored field is the field of `v / 256`
    have htail : (b.putLE o (w + 1) v).getLE (o + 1) w = (b.putLE (o + 1) w (v / 256)).getLE (o + 1) w := by
      apply getLE_congr
      intro i hlo hhi
      rw [get_putLE (by omega), get_putLE (by omega), if_pos ⟨by omega, by omega⟩, if_pos ⟨hlo, hhi⟩,
        Nat.div_div_eq_div_mul, ← pow_succ', show i - (o + 1) + 1 = i - o by omega]
    have hhead : ((b.putLE o (w + 1) v).get o).toNat = v % 256 := by
      rw [get_putLE (by omega), if_pos ⟨le_refl o, by omega⟩]
      simp
    rw [getLE, htail, ih (by omega), hhead, pow_succ', Nat.mod_mul]

theorem getLE_putLE_disjoint {o' w' : Nat} (hn : o' + w' ≤ n)
    (h : o' + w' ≤ o ∨ o + w ≤ o') : (b.putLE o w v).getLE o' w' = b.getLE o' w' := by
  apply getLE_congr
  intro i hlo hhi
  rw [get_putLE (by omega), if_neg (by omega)]

@[simp] theorem getLE_zero (o w : Nat) : (zero : Bytes n).getLE o w = 0 := by
  induction w generalizing o with
  | zero => rfl
  | succ w ih => simp [getLE, ih]

/-! ### Bits -/

/-- Bit `i` of the buffer, counted from the low bit of byte `0`. -/
def getBit (b : Bytes n) (i : Nat) : Bool := (b.get (i / 8)).toNat.testBit (i % 8)

/-- Replace bit `i`, by or-ing its mask in or and-ing its complement. -/
def setBit (b : Bytes n) (i : Nat) (v : Bool) : Bytes n :=
  ofFn fun j =>
    if j = i / 8 then
      if v then b.get j ||| UInt8.ofNat (1 <<< (i % 8)) else b.get j &&& ~~~ UInt8.ofNat (1 <<< (i % 8))
    else b.get j

private theorem mask_getLsbD {k : Nat} (hi : i < 8) (hk : k < 8) :
    (UInt8.ofNat (1 <<< i)).toBitVec.getLsbD k = decide (i = k) := by
  interval_cases i <;> interval_cases k <;> rfl

theorem getBit_eq_getLsbD (b : Bytes n) (i : Nat) : b.getBit i = (b.get (i / 8)).toBitVec.getLsbD (i % 8) := rfl

/-- A bit reads back what was stored in it and every other bit keeps its value. -/
theorem getBit_setBit {j : Nat} {v : Bool} (hi : i < 8 * n) :
    (b.setBit i v).getBit j = if j = i then v else b.getBit j := by
  by_cases hj : j < 8 * n
  · rw [getBit_eq_getLsbD, getBit_eq_getLsbD, setBit, get_ofFn (by omega)]
    have hmask := mask_getLsbD (i := i % 8) (k := j % 8) (by omega) (by omega)
    have hk : j % 8 < 8 := by omega
    by_cases hbyte : j / 8 = i / 8
    · rw [if_pos hbyte]
      have hsame : (j = i) ↔ (i % 8 = j % 8) := by omega
      cases v with
      | false =>
        simp only [Bool.false_eq_true, if_false, UInt8.toBitVec_and, UInt8.toBitVec_not, BitVec.getLsbD_and,
          BitVec.getLsbD_not, hmask, hsame, hk, decide_true, Bool.true_and]
        by_cases h : i % 8 = j % 8 <;> simp [h]
      | true =>
        simp only [if_true, UInt8.toBitVec_or, BitVec.getLsbD_or, hmask, hsame]
        by_cases h : i % 8 = j % 8 <;> simp [h]
    · rw [if_neg hbyte, if_neg (by omega)]
  · rw [if_neg (by omega)]
    simp [getBit, get, show ¬ j / 8 < n by omega]

/-! ### Byte ranges -/

/-- Overwrite the `m` bytes from offset `o` with `src 0, ..., src (m - 1)`. -/
def copyIn (b : Bytes n) (o m : Nat) (src : Nat → UInt8) : Bytes n :=
  ofFn fun i => if o ≤ i ∧ i < o + m then src (i - o) else b.get i

theorem get_copyIn {m : Nat} {src : Nat → UInt8} (hi : i < n) :
    (b.copyIn o m src).get i = if o ≤ i ∧ i < o + m then src (i - o) else b.get i := by
  rw [copyIn, get_ofFn hi]

def slice (b : Bytes n) (o m : Nat) : List UInt8 := (List.range m).map fun i => b.get (o + i)

end Bytes

end Lib
