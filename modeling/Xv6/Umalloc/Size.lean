import Xv6.Umalloc.Run

/-!
# The size of what `malloc` returns

For the seven largest requests the number of units wraps around to one. From 2^28 units on the number of bytes is not
positive as an argument of `sbrk`, so that the process does not grow, or shrinks, and the new block would be outside of its
memory. When `allocuvm` leaves a page unmapped, the header of a new block can be in it. For every smaller request, of a
process whose memory is mapped, `malloc` returns null or a block as large as asked for.
-/

namespace Xv6.Umalloc

open Lib

variable {base start nbytes : Nat} {s : State}

/-- The bytes are in the memory of the process, and in none of the blocks that the program has. -/
structure Fits (live : Nat → Option Nat) (heap : Heap) (nbytes p : Nat) : Prop where
  size : nbytes + 8 ≤ 8 * heap.size (p - 8)
  inside : p + nbytes ≤ heap.brk
  mapped : ∀ i, p ≤ i → i < p + nbytes → i / 4096 ∉ heap.holes
  apart : ∀ q m, live q = some m → p + nbytes ≤ q ∨ q + m ≤ p

/-- The call returns, with null or with memory that fits. -/
def Sound (base : Nat) (s : State) (nbytes : Nat) (grants : List Grant) : Prop :=
  ∃ heap p, malloc base s.heap nbytes grants = some (heap, p) ∧ (p = 0 ∨ Fits s.live heap nbytes p)

theorem Inv.sound (h : Inv base start s) {grants : List Grant} (hlegal : s.Legal (.malloc nbytes grants)) :
    Sound base s nbytes grants := by
  obtain ⟨l, hrep, hl⟩ := h.init
  obtain ⟨hbytes, hmax, hwhole⟩ := hlegal
  obtain ⟨heap, p, hloop, hres⟩ := hrep.mallocLoop (Nat.succ_pos _) hmax nbytes hwhole
  refine ⟨heap, p, hloop, ?_⟩
  obtain ⟨rfl, -⟩ | ⟨l', x, hrep', rfl, hlen, htag, hx, hnew, hold⟩ := hres
  · exact .inl rfl
  · have hunits := nunits_le hbytes
    have hbounds := hrep'.tiles.mem hx
    unfold Span.stop at hbounds
    refine .inr ⟨?_, by omega, fun i _ _ => by simp [hrep'.whole], fun q m hq => ?_⟩
    · rw [Nat.add_sub_cancel, hrep'.sizes x hx, hlen]
      exact hunits
    · obtain ⟨y, hy, rfl, hytag⟩ := (hl.iff q m).mp hq
      have hroom := hl.room y hy m hytag
      have hne : y ≠ x := by
        rintro rfl
        exact hnew hy
      by_contra hover
      -- The later one of the two blocks begins inside the other.
      refine hne (hrep'.tiles.eq_of_overlap ((hold y (by simp [hytag]) hne).mpr hy) hx (i := max x.start y.start) ?_ ?_) <;>
        unfold Span.stop <;> omega

/-! ### Large requests of a program that has no memory yet -/

theorem morecore_unused (heap : Heap) {n : Nat} (hbrk : heap.brk = 12288) (hn : 2 ^ 31 ≤ n * 8) (hmax : n * 8 ≤ 2 ^ 32)
    (grant : Grant) : heap.morecore n grant = none := by
  have hunits : ¬n < 4096 := by omega
  have hsbrk : ∀ h' p, heap.sbrk (n * 8 % 2 ^ 32) grant = some (h', p) → h'.brk ≤ 12288 ∧ p = 12288 := by
    intro h' p hp
    obtain hzero | hneg : n * 8 % 2 ^ 32 = 0 ∨ 2 ^ 31 ≤ n * 8 % 2 ^ 32 := by omega
    · rw [hzero, Heap.sbrk.eq_def, if_pos rfl] at hp
      obtain ⟨rfl, rfl⟩ := Prod.mk.inj (Option.some.inj hp)
      exact ⟨hbrk.le, hbrk⟩
    · rw [Heap.sbrk.eq_def, if_neg (by omega), if_neg (by omega)] at hp
      dsimp only at hp
      split_ifs at hp with hsame hgone
      · obtain ⟨rfl, rfl⟩ := Prod.mk.inj (Option.some.inj hp)
        exact ⟨hbrk.le, hbrk⟩
      · obtain ⟨rfl, rfl⟩ := Prod.mk.inj (Option.some.inj hp)
        refine ⟨?_, hbrk⟩
        dsimp only
        omega
  rw [Heap.morecore]
  simp only [hunits, if_false]
  cases hresult : heap.sbrk (n * 8 % 2 ^ 32) grant with
  | none => rfl
  | some r =>
    obtain ⟨hle, hp⟩ := hsbrk r.1 r.2 hresult
    have hfault : r.1.mapped ≤ r.2 := by
      unfold Heap.mapped
      omega
    rw [Option.bind_eq_bind, Option.bind_some]
    simp only [hfault, true_or, if_true]
    rw [if_neg (by omega)]

/-- The store to the new block is outside of the memory of the process. -/
theorem malloc_unused (hn : 2 ^ 31 ≤ nunits nbytes * 8) : malloc 4000 unused.heap nbytes [some []] = none := by
  have hmax : nunits nbytes * 8 ≤ 2 ^ 32 := by
    unfold nunits
    omega
  have hends : (unused.heap.init 4000).ends (nunits nbytes) 4000 = true := by
    simp [Heap.ends, Heap.init, unused, Heap.ptr, Heap.setPtr, Heap.setSize]
  have hseek : seek (unused.heap.init 4000).ptr ((unused.heap.init 4000).ends (nunits nbytes)) rounds
      (unused.heap.init 4000).freep = some 4000 := by
    have hrounds : 0 < rounds := by decide
    obtain ⟨j, hj, hseek, -⟩ := seek_of_iterate (k := 0) hends hrounds
    obtain rfl : j = 0 := by omega
    exact hseek
  have hsmall : ¬nunits nbytes ≤ (unused.heap.init 4000).size ((unused.heap.init 4000).ptr 4000) := by
    have hsize : (unused.heap.init 4000).size ((unused.heap.init 4000).ptr 4000) = 0 := by decide
    omega
  rw [malloc, Heap.mallocLoop, hseek]
  simp [hsmall, morecore_unused (unused.heap.init 4000) rfl hn hmax]

theorem mallocLoop_one : ((unused.heap.init 4000).mallocLoop 1 [some []]).map (fun r => (r.2, r.1.size (r.2 - 8), r.1.brk)) =
    some (45056, 1, 45056) := by decide +kernel

theorem not_sound_unused (hlarge : 2 ^ 31 - 16 < nbytes) (hword : nbytes < 2 ^ 32) : ¬Sound 4000 unused nbytes [some []] := by
  rintro ⟨heap, p, hmalloc, hp⟩
  by_cases hwrap : nbytes + 7 < 2 ^ 32
  · rw [malloc_unused (by unfold nunits; omega)] at hmalloc
    cases hmalloc
  · have hone : nunits nbytes = 1 := by
      unfold nunits
      omega
    have hresult := mallocLoop_one
    rw [malloc, hone] at hmalloc
    rw [hmalloc] at hresult
    obtain ⟨rfl, hsize⟩ := Prod.mk.inj (Option.some.inj hresult)
    have hfits := (hp.resolve_left (by decide)).size
    have hunit : heap.size (45056 - 8) = 1 := (Prod.mk.inj hsize).1
    omega

/-- The first page of the new memory is not mapped, and the header of the new block is in it. -/
theorem not_sound_hole : ¬Sound 4000 unused 0 [some [3]] := by
  rintro ⟨heap, p, hmalloc, -⟩
  have hfault : (malloc 4000 unused.heap 0 [some [3]]).isNone = true := by decide +kernel
  rw [hmalloc] at hfault
  cases hfault

/-- All requests up to a size get memory that fits, from any heap that a program can have, exactly when the size is at
most 2^31 - 16 and the kernel, in `mapsAll`, maps every page of what it grants. -/
theorem malloc_sound_iff (nbytes : UInt32) (mapsAll : Bool) :
    (∀ base start as s, (system base start).RunIn State.Legal as s → ∀ n ≤ nbytes.toNat, ∀ grants, (mapsAll = true → Whole grants) →
      Sound base s n grants) ↔ nbytes.toNat ≤ 2 ^ 31 - 16 ∧ mapsAll = true := by
  constructor
  · intro hall
    have hunused := hall 4000 12288 [] unused (.start start_unused)
    constructor
    · by_contra hlarge
      exact not_sound_unused (by omega) nbytes.toNat_lt (hunused _ le_rfl [some []] fun _ => by decide)
    · by_contra hmaps
      exact not_sound_hole (hunused 0 (Nat.zero_le _) [some [3]] fun htrue => absurd htrue hmaps)
  · rintro ⟨hsmall, hmaps⟩ base start as s hrun n hn grants hgrants
    refine (Inv.of_run hrun).sound ⟨by omega, ?_, hgrants hmaps⟩
    unfold nunits
    omega

theorem malloc_too_small : ∃ heap p, malloc 4000 unused.heap (2 ^ 32 - 7) [some []] = some (heap, p) ∧ p ≠ 0 ∧
    heap.size (p - 8) = 1 ∧ heap.brk < p + (2 ^ 32 - 7) := by
  have hresult := mallocLoop_one
  obtain ⟨⟨heap, p⟩, hmalloc, hobserve⟩ := Option.map_eq_some_iff.mp hresult
  obtain ⟨rfl, hrest⟩ := Prod.mk.inj hobserve
  obtain ⟨hsize, hbrk⟩ := Prod.mk.inj hrest
  refine ⟨heap, _, hmalloc, by decide, hsize, ?_⟩
  rw [show heap.brk = 45056 from hbrk]
  decide

end Xv6.Umalloc
