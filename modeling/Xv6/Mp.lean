import Mathlib

/-!
# The configuration table of a multiprocessor

`mpinit` goes over the entries of the table and counts the processors. At an entry of a type that it does not know it
prints a message and stays where it is, and it does not compare the number of processors with the size of `cpus`. What
`mpsearch` does to find the table, and the ports written at the end, are left out.
-/

namespace Xv6.Mp

/-- The maximum number of CPUs. -/
abbrev ncpuMax : Nat := 8

/-- The variables that `mpinit` sets. -/
structure Globals where
  bcpu : Nat
  ismp : Bool
  ncpu : Nat
  ioapicid : UInt8
  lapic : Nat
  /-- The elements of `cpus` that have been written. -/
  wrote : List Nat

/-- Before `mpinit`. -/
def boot : Globals := ⟨0, false, 0, 0, 0, []⟩

/-- The memory from the table on. -/
abbrev Memory := Nat → UInt8

def sum (mem : Memory) (len : Nat) : Nat := ((List.range len).map fun i => (mem i).toNat).sum % 256

/-- The field `length` of `struct mpconf`. -/
def length (mem : Memory) : Nat := (mem 4).toNat + 256 * (mem 5).toNat

def lapicaddr (mem : Memory) : Nat :=
  (mem 36).toNat + 256 * (mem 37).toNat + 256 ^ 2 * (mem 38).toNat + 256 ^ 3 * (mem 39).toNat

/-- The tests of `mpconfig`: the signature `PCMP`, the version and the checksum. -/
def mpconfig (mem : Memory) : Bool :=
  ((List.range 4).map mem = [0x50, 0x43, 0x4D, 0x50]) && (mem 6 = 1 || mem 6 = 4) && sum mem (length mem) = 0

def mpproc (mem : Memory) (p : Nat) (g : Globals) : Globals :=
  { g with
    ismp := g.ismp && g.ncpu = (mem (p + 1)).toNat
    bcpu := if mem (p + 3) &&& 2 ≠ 0 then g.ncpu else g.bcpu
    wrote := g.wrote ++ [g.ncpu]
    ncpu := g.ncpu + 1 }

/-- The loop of `mpinit`, for at most so many rounds. -/
def mpLoop (mem : Memory) (e : Nat) : Nat → Nat → Globals → Option Globals
  | 0, _, _ => none
  | n + 1, p, g =>
    if p < e then
      match (mem p).toNat with
      | 0 => mpLoop mem e n (p + 20) (mpproc mem p g)
      | 2 => mpLoop mem e n (p + 8) { g with ioapicid := mem (p + 1) }
      | 1 | 3 | 4 => mpLoop mem e n (p + 8) g
      | _ => mpLoop mem e n p { g with ismp := false }
    else some g

/-- The size of `struct mpconf`. -/
def confSize : Nat := 44

def mpinit (mem : Memory) (rounds : Nat) : Option Globals :=
  if mpconfig mem then
    (mpLoop mem (length mem) rounds confSize { boot with ismp := true, lapic := lapicaddr mem }).map fun g =>
      if g.ismp then g else { g with ncpu := 1, lapic := 0, ioapicid := 0 }
  else some boot

/-! ### The entries of the table -/

def size? : Nat → Option Nat
  | 0 => some 20
  | 1 | 2 | 3 | 4 => some 8
  | _ => none

/-- The types of the entries from `p` on, up to the first one whose size is not known. -/
def entries (mem : Memory) (e : Nat) : Nat → Nat → List Nat
  | 0, _ => []
  | n + 1, p =>
    if p < e then
      (mem p).toNat :: match size? (mem p).toNat with
        | some k => entries mem e n (p + k)
        | none => []
    else []

def types (mem : Memory) : List Nat := entries mem (length mem) (length mem) confSize

/-- `mpinit` ends, writes inside of `cpus`, and leaves a number of processors that fits if there is one. -/
def Fine (mem : Memory) : Prop :=
  ∃ rounds g, mpinit mem rounds = some g ∧ (∀ i ∈ g.wrote, i < ncpuMax) ∧ (0 ∈ types mem → 1 ≤ g.ncpu ∧ g.ncpu ≤ ncpuMax)

theorem size?_ne_none (ty : Nat) : size? ty ≠ none ↔ ty ≤ 4 := by
  unfold size?
  split <;> simp
  grind

variable {mem : Memory} {e n p : Nat} {g g' : Globals}

/-- A round at an entry of known size goes on behind it, and counts it if it is a processor's. -/
theorem mpLoop_known {k : Nat} (g : Globals) (hp : p < e) (hk : size? (mem p).toNat = some k) :
    0 < k ∧ ∃ g₁, (∀ n, mpLoop mem e (n + 1) p g = mpLoop mem e n (p + k) g₁) ∧
      g₁.ncpu = g.ncpu + [(mem p).toNat].count 0 ∧ g₁.wrote = g.wrote ++ List.range' g.ncpu ([(mem p).toNat].count 0) := by
  simp only [mpLoop, if_pos hp]
  generalize (mem p).toNat = ty at hk
  unfold size? at hk
  split at hk <;> cases hk
  · exact ⟨by decide, mpproc mem p g, fun n => rfl, rfl, rfl⟩
  · exact ⟨by decide, g, fun n => rfl, rfl, (List.append_nil _).symm⟩
  · exact ⟨by decide, { g with ioapicid := mem (p + 1) }, fun n => rfl, rfl, (List.append_nil _).symm⟩
  · exact ⟨by decide, g, fun n => rfl, rfl, (List.append_nil _).symm⟩
  · exact ⟨by decide, g, fun n => rfl, rfl, (List.append_nil _).symm⟩

theorem mpLoop_unknown (hp : p < e) (hunknown : size? (mem p).toNat = none) :
    mpLoop mem e (n + 1) p g = mpLoop mem e n p { g with ismp := false } := by
  rw [mpLoop, if_pos hp]
  generalize (mem p).toNat = ty at hunknown
  unfold size? at hunknown
  split at hunknown <;> simp_all

/-- A loop that ends has met known types only, and has written one element of `cpus` for each processor. -/
theorem mpLoop_some {f : Nat} (h : mpLoop mem e n p g = some g') (hf : e ≤ p + f) :
    (∀ ty ∈ entries mem e f p, size? ty ≠ none) ∧ g'.ncpu = g.ncpu + (entries mem e f p).count 0 ∧
      g'.wrote = g.wrote ++ List.range' g.ncpu ((entries mem e f p).count 0) := by
  induction n generalizing f p g with
  | zero => cases h
  | succ n ih =>
    by_cases hp : p < e
    · obtain ⟨f, rfl⟩ : ∃ f', f = f' + 1 := Nat.exists_eq_add_of_lt (by omega : 0 < f) |>.imp fun _ hf' => by omega
      rw [entries, if_pos hp]
      cases hk : size? (mem p).toNat with
      | none =>
        -- The loop would have to end where it is.
        rw [mpLoop_unknown hp hk] at h
        have hnow := (ih h hf).1 (mem p).toNat (by rw [entries, if_pos hp]; exact List.mem_cons_self)
        exact absurd hk hnow
      | some k =>
        obtain ⟨hsize, g₁, hround, hncpu, hwrote⟩ := mpLoop_known g hp hk
        rw [hround] at h
        obtain ⟨hrest, hncpu', hwrote'⟩ := ih h (by omega : e ≤ p + k + f)
        have hcount : ((mem p).toNat :: entries mem e f (p + k)).count 0 = [(mem p).toNat].count 0 + (entries mem e f (p + k)).count 0 := by
          rw [← List.count_append, List.singleton_append]
        refine ⟨?_, by rw [hncpu', hncpu, hcount, Nat.add_assoc], ?_⟩
        · intro ty hty
          obtain rfl | hin := List.mem_cons.mp hty
          · simp [hk]
          · exact hrest ty hin
        · rw [hwrote', hwrote, hncpu, hcount, List.append_assoc, List.range'_append_1]
    · rw [mpLoop, if_neg hp] at h
      obtain rfl := Option.some.inj h
      have hnil : entries mem e f p = [] := by cases f <;> simp [entries, hp]
      simp [hnil]

theorem mpLoop_ends {f : Nat} (hf : e ≤ p + f) (hknown : ∀ ty ∈ entries mem e f p, size? ty ≠ none) :
    ∃ g', mpLoop mem e (f + 1) p g = some g' := by
  induction f generalizing p g with
  | zero => exact ⟨g, by rw [mpLoop, if_neg (by omega)]⟩
  | succ f ih =>
    by_cases hp : p < e
    · rw [entries, if_pos hp] at hknown
      cases hk : size? (mem p).toNat with
      | none => exact absurd hk (hknown _ List.mem_cons_self)
      | some k =>
        obtain ⟨hsize, g₁, hround, -⟩ := mpLoop_known g hp hk
        rw [hk] at hknown
        rw [hround]
        exact ih (by omega) fun ty hty => hknown ty (List.mem_cons_of_mem _ hty)
    · exact ⟨g, by rw [mpLoop, if_neg hp]⟩

theorem mpinit_iff (mem : Memory) (hconf : mpconfig mem = true) :
    Fine mem ↔ (∀ ty ∈ types mem, ty ≤ 4) ∧ (types mem).count 0 ≤ ncpuMax := by
  have hlength : length mem ≤ confSize + length mem := Nat.le_add_left ..
  simp only [Fine, mpinit, hconf, if_true, Option.map_eq_some_iff]
  constructor
  · rintro ⟨rounds, g, ⟨g₁, hloop, hg⟩, hwrote, -⟩
    obtain ⟨hknown, -, hwrote₁⟩ := mpLoop_some hloop hlength
    refine ⟨fun ty hty => (size?_ne_none ty).mp (hknown ty hty), ?_⟩
    have hsame : g.wrote = g₁.wrote := by
      rw [← hg]
      split <;> rfl
    by_contra hmany
    have hlast : ncpuMax ∈ g.wrote := by
      rw [hsame, hwrote₁]
      simpa [boot, types] using hmany
    exact absurd (hwrote _ hlast) (lt_irrefl _)
  · rintro ⟨hknown, hcount⟩
    have hknown' : ∀ ty ∈ entries mem (length mem) (length mem) confSize, size? ty ≠ none := fun ty hty =>
      (size?_ne_none ty).mpr (hknown ty hty)
    obtain ⟨g₁, hloop⟩ := mpLoop_ends (g := { boot with ismp := true, lapic := lapicaddr mem }) hlength hknown'
    obtain ⟨-, hncpu, hwrote⟩ := mpLoop_some hloop hlength
    refine ⟨_, _, ⟨g₁, hloop, rfl⟩, fun i hi => ?_, fun hproc => ?_⟩
    · have hin : i ∈ g₁.wrote := by
        split at hi <;> exact hi
      rw [hwrote] at hin
      have hlt : i < (types mem).count 0 := by simpa [boot, types] using hin
      exact hlt.trans_le hcount
    · split
      · have hpos := List.count_pos_iff.mpr hproc
        have heq : g₁.ncpu = (types mem).count 0 := by simpa [boot, types] using hncpu
        omega
      · exact ⟨le_rfl, Nat.le_add_left 1 7⟩

/-! ### Three tables -/

/-- A table of the given length, with the checksum and the type of the first entry; the other bytes are zero. -/
def table (len checksum ty : UInt8) (i : Nat) : UInt8 :=
  if i = 44 then ty else [0x50, 0x43, 0x4D, 0x50, len, 0, 4, checksum].getD i 0

theorem mpinit_iff_oneProcessor : mpconfig (table 64 140 0) = true ∧ Fine (table 64 140 0) :=
  ⟨by decide, (mpinit_iff (table 64 140 0) (by decide)).mpr (by decide)⟩

/-- The loop does not get past an entry of type 5, and nine processors do not fit into `cpus`. -/
theorem mpinit_stuck_or_outside : (mpconfig (table 45 154 5) = true ∧ ∀ rounds, mpinit (table 45 154 5) rounds = none) ∧
    mpconfig (table 224 236 0) = true ∧ (mpinit (table 224 236 0) 10).map Globals.wrote = some (List.range 9) := by
  refine ⟨⟨by decide, fun rounds => ?_⟩, by decide +kernel, by decide +kernel⟩
  cases hloop : mpinit (table 45 154 5) rounds with
  | none => rfl
  | some g =>
    rw [mpinit, if_pos (by decide)] at hloop
    obtain ⟨g₁, hloop, -⟩ := Option.map_eq_some_iff.mp hloop
    have hknown := (mpLoop_some (f := 45) hloop (by decide)).1 5 (by decide)
    exact absurd rfl hknown

end Xv6.Mp
