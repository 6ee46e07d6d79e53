import Xv6.Umalloc.Malloc

/-!
# The heap along a run

What a program does with `malloc` and `free` keeps the free list, the blocks it has and the memory from `sbrk` in order.
-/

namespace Xv6.Umalloc

open Lib

variable {base start : Nat} {s : State} {l : Layout}

/-- The blocks that are not free are those that the program has, and each is large enough. -/
structure Lives (live : Nat → Option Nat) (l : Layout) : Prop where
  iff : ∀ p n, live p = some n ↔ ∃ x ∈ l, x.start + 8 = p ∧ x.tag = some n
  room : ∀ x ∈ l, ∀ n, x.tag = some n → n + 8 ≤ x.len

def Inv (base start : Nat) (s : State) : Prop := Start base start s ∨ ∃ l, Rep base start s.heap l ∧ Lives s.live l

/-! ### Stores -/

theorem Rep.congr {h h' : Heap} (hrep : Rep base start h l) (hmem : ∀ i, i = base ∨ (∃ x ∈ l, x.start = i) → h'.mem i = h.mem i)
    (hfreep : h'.freep = h.freep) (hbrk : h'.brk = h.brk) (hholes : h'.holes = h.holes) : Rep base start h' l := by
  refine ⟨hbrk ▸ hrep.tiles, hrep.circle.congr fun i hi => ?_, hrep.gaps, fun x hx => ?_, ?_, hfreep ▸ hrep.freep, hrep.base_pos,
    hrep.base_lt, hbrk ▸ hrep.brk_lt, hholes.trans hrep.whole⟩
  · rw [List.dropLast_concat] at hi
    refine congrArg Header.ptr (hmem i ?_)
    obtain hi | hi := List.mem_cons.mp hi
    · exact .inl hi
    · obtain ⟨x, hx, -, hstart⟩ := mem_frees.mp hi
      exact .inr ⟨x, hx, hstart⟩
  · rw [Heap.size, hmem _ (.inr ⟨x, hx, rfl⟩)]
    exact hrep.sizes x hx
  · rw [Heap.size, hmem _ (.inl rfl)]
    exact hrep.base_size

theorem Inv.store (h : Inv base start s) {a : Nat} (ha : ∃ p nbytes, s.live p = some nbytes ∧ p ≤ a ∧ a < p + nbytes ∧ (a - p) % 8 = 0)
    (v : Header) : Inv base start { s with heap := { s.heap with mem := Function.update s.heap.mem a v } } := by
  obtain ⟨p, nbytes, hlive, hle, hlt, -⟩ := ha
  obtain hs | ⟨l, hrep, hl⟩ := h
  · rw [hs.live] at hlive
    cases hlive
  · refine .inr ⟨l, hrep.congr (fun i hi => Function.update_of_ne ?_ _ _) rfl rfl rfl, hl⟩
    obtain ⟨x, hx, hstart, htag⟩ := (hl.iff p nbytes).mp hlive
    have hroom := hl.room x hx nbytes htag
    rintro rfl
    obtain rfl | ⟨y, hy, rfl⟩ := hi
    · have hbounds := (hrep.tiles.mem hx).1
      have hbase := hrep.base_lt
      omega
    · have hlen := (hrep.tiles.mem hy).2.2
      have hxy := hrep.tiles.eq_of_overlap hx hy (i := y.start) ⟨by omega, by unfold Span.stop; omega⟩
        ⟨le_rfl, by unfold Span.stop; omega⟩
      subst hxy
      omega

/-! ### Calls -/

theorem Inv.init (h : Inv base start s) : ∃ l, Rep base start (s.heap.init base) l ∧ Lives s.live l := by
  obtain hs | ⟨l, hrep, hl⟩ := h
  · refine ⟨[], ?_, ⟨by simp [hs.live], by simp⟩⟩
    rw [Heap.init, if_pos hs.freep]
    refine ⟨hs.brk.symm, ?_, .nil, by simp, ?_, List.mem_cons_self, hs.base_pos, hs.base_lt, ?_, hs.whole⟩
    · show Circle ((s.heap.setPtr base base).setSize base 0).ptr base []
      rw [ptr_setSize, ptr_setPtr]
      exact List.isChain_cons_cons.mpr ⟨Function.update_self .., .singleton base⟩
    · show ((s.heap.setPtr base base).setSize base 0).size base = 0
      rw [size_setSize, Function.update_self]
    · show s.heap.brk < 2 ^ 32
      rw [hs.brk]
      exact hs.start_lt
  · refine ⟨l, ?_, hl⟩
    rwa [Heap.init, if_neg hrep.freep_ne_zero]

theorem Lives.same {live : Nat → Option Nat} {l l' : Layout} (h : Lives live l) (hsame : SameLive l l') : Lives live l' := by
  have hmem : ∀ x n, x.tag = some n → (x ∈ l' ↔ x ∈ l) := fun x n hx => hsame x (by simp [hx])
  refine ⟨fun p n => (h.iff p n).trans ?_, fun x hx n htag => h.room x ((hmem x n htag).mp hx) n htag⟩
  constructor
  · rintro ⟨x, hx, hp, htag⟩
    exact ⟨x, (hmem x n htag).mpr hx, hp, htag⟩
  · rintro ⟨x, hx, hp, htag⟩
    exact ⟨x, (hmem x n htag).mp hx, hp, htag⟩

theorem nunits_le {nbytes : Nat} (h : nbytes + 7 ≤ 2 ^ 31 - 1) : nbytes + 8 ≤ 8 * nunits nbytes := by
  unfold nunits
  omega

theorem Inv.malloc (h : Inv base start s) (nbytes : Nat) (grants : List Grant) (hlegal : s.Legal (.malloc nbytes grants)) :
    ∃ heap p, malloc base s.heap nbytes grants = some (heap, p) ∧ (p ≠ 0 → s.live p = none) ∧
      Inv base start { heap := heap, live := if p = 0 then s.live else Function.update s.live p (some nbytes) } := by
  obtain ⟨l, hrep, hl⟩ := h.init
  obtain ⟨hbytes, hmax, hwhole⟩ := hlegal
  obtain ⟨heap, p, hloop, hres⟩ := hrep.mallocLoop (Nat.succ_pos _) hmax nbytes hwhole
  refine ⟨heap, p, hloop, ?_⟩
  obtain ⟨rfl, l', hrep', hlive⟩ | ⟨l', x, hrep', rfl, hlen, htag, hx, hnew, hold⟩ := hres
  · exact ⟨fun hne => absurd rfl hne, .inr ⟨l', hrep', hl.same hlive⟩⟩
  · -- A block that the program had begins elsewhere.
    have hapart : ∀ y ∈ l', y.tag ≠ none → y ≠ x → y.start + 8 ≠ x.start + 8 := by
      intro y hy _ hne heq
      exact hne (hrep'.tiles.eq_of_start hy hx (by omega))
    have holdne : ∀ y ∈ l, y ≠ x := by
      rintro y hy rfl
      exact hnew hy
    refine ⟨fun _ => ?_, .inr ⟨l', hrep', ⟨fun q m => ?_, fun y hy m hm => ?_⟩⟩⟩
    · by_contra hsome
      obtain ⟨m, hm⟩ := Option.ne_none_iff_exists'.mp hsome
      obtain ⟨y, hy, hstart, hytag⟩ := (hl.iff _ m).mp hm
      have hlive : y.tag ≠ none := by simp [hytag]
      exact hapart y ((hold y hlive (holdne y hy)).mpr hy) hlive (holdne y hy) hstart
    · show (if x.start + 8 = 0 then s.live else Function.update s.live (x.start + 8) (some nbytes)) q = some m ↔ _
      rw [if_neg (by omega)]
      by_cases hq : q = x.start + 8
      · subst hq
        rw [Function.update_self]
        constructor
        · intro hm
          exact ⟨x, hx, rfl, htag.trans hm⟩
        · rintro ⟨y, hy, hstart, hytag⟩
          by_cases hyx : y = x
          · rw [← hytag, hyx, htag]
          · exact absurd hstart (hapart y hy (by simp [hytag]) hyx)
      · rw [Function.update_of_ne hq, hl.iff]
        constructor
        · rintro ⟨y, hy, hstart, hytag⟩
          exact ⟨y, (hold y (by simp [hytag]) (holdne y hy)).mpr hy, hstart, hytag⟩
        · rintro ⟨y, hy, rfl, hytag⟩
          have hyx : y ≠ x := by
            rintro rfl
            exact hq rfl
          exact ⟨y, (hold y (by simp [hytag]) hyx).mp hy, rfl, hytag⟩
    · by_cases hyx : y = x
      · obtain rfl : nbytes = m := Option.some.inj (htag.symm.trans (hyx ▸ hm))
        rw [hyx, hlen]
        exact nunits_le hbytes
      · exact hl.room y ((hold y (by simp [hm]) hyx).mp hy) m hm

theorem Inv.free (h : Inv base start s) {ap : Nat} (hlive : s.live ap ≠ none) :
    ∃ heap, s.heap.free ap = some heap ∧ Inv base start { heap := heap, live := Function.update s.live ap none } := by
  obtain ⟨n, hn⟩ := Option.ne_none_iff_exists'.mp hlive
  obtain hs | ⟨l, hrep, hl⟩ := h
  · rw [hs.live] at hn
    cases hn
  · obtain ⟨x, hx, rfl, htag⟩ := (hl.iff ap n).mp hn
    obtain ⟨l₁, l₂, rfl⟩ := List.append_of_mem hx
    obtain ⟨heap, l', hfree, hrep', hsame, -⟩ := (hrep.hole (by simp [htag])).free
    have hkeep : ∀ y ∈ l₁ ++ l₂, y ∈ l₁ ++ x :: l₂ := by
      intro y hy
      obtain hy | hy := List.mem_append.mp hy
      · exact List.mem_append_left _ hy
      · exact List.mem_append_right _ (List.mem_cons_of_mem x hy)
    refine ⟨heap, hfree, .inr ⟨l', hrep', ⟨fun q m => ?_, fun y hy m hm => ?_⟩⟩⟩
    · show Function.update s.live (x.start + 8) none q = some m ↔ _
      have hmem : ∀ y, y.tag = some m → (y ∈ l' ↔ y ∈ l₁ ++ l₂) := fun y hy => hsame y (by simp [hy])
      -- The other blocks begin elsewhere.
      have hapart : ∀ y ∈ l₁ ++ l₂, y.start ≠ x.start := by
        intro y hy heq
        have hpairwise := hrep.tiles.pairwise_start
        rw [List.pairwise_append] at hpairwise
        obtain hy | hy := List.mem_append.mp hy
        · have hlt := hpairwise.2.2 y hy x List.mem_cons_self
          omega
        · have hlt := (List.pairwise_cons.mp hpairwise.2.1).1 y hy
          omega
      by_cases hq : q = x.start + 8
      · subst hq
        rw [Function.update_self]
        refine iff_of_false (by simp) ?_
        rintro ⟨y, hy, hstart, hytag⟩
        exact hapart y ((hmem y hytag).mp hy) (by omega)
      · rw [Function.update_of_ne hq, hl.iff]
        constructor
        · rintro ⟨y, hy, rfl, hytag⟩
          refine ⟨y, (hmem y hytag).mpr ?_, rfl, hytag⟩
          have hyx : y ≠ x := by
            rintro rfl
            exact hq rfl
          simpa [hyx] using hy
        · rintro ⟨y, hy, hstart, hytag⟩
          exact ⟨y, hkeep y ((hmem y hytag).mp hy), hstart, hytag⟩
    · exact hl.room y (hkeep y ((hsame y (by simp [hm])).mp hy)) m hm

theorem Inv.step (h : Inv base start s) {a : Label} (ha : s.Legal a) : ∃ s', s.step base a = .next s' ∧ Inv base start s' := by
  cases a with
  | malloc nbytes grants =>
    obtain ⟨heap, p, hmalloc, -, hinv⟩ := h.malloc nbytes grants ha
    exact ⟨_, by rw [State.step, hmalloc, Option.map_some, orLoops], hinv⟩
  | free ap =>
    obtain ⟨heap, hfree, hinv⟩ := h.free ha
    exact ⟨_, by rw [State.step, hfree, Option.map_some, orLoops], hinv⟩
  | store a v => exact ⟨_, rfl, h.store ha v⟩

theorem Inv.of_run {as : List Label} (hrun : (system base start).RunIn State.Legal as s) : Inv base start s := by
  refine hrun.invariant (I := fun _ s => Inv base start s) (fun s hs => .inl hs) fun as s a s' _ h ha hstep => ?_
  obtain ⟨t, ht, hinv⟩ := h.step ha
  obtain rfl := Outcome.next.inj (ht.symm.trans hstep)
  exact hinv

/-! ### The heap -/

def State.Block (s : State) (free : List Nat) (b : Nat) : Prop := b ∈ free ∨ s.live (b + 8) ≠ none

/-- The free list and the blocks that the program has. -/
structure HeapOf (base start : Nat) (s : State) (free : List Nat) : Prop where
  circle : Circle s.heap.ptr base free
  sorted : (base :: free).Pairwise (· < ·)
  freep : s.heap.freep ∈ base :: free
  /-- Free blocks are disjoint and not adjacent. -/
  apart : ∀ b ∈ free, ∀ c ∈ free, b < c → b + 8 * s.heap.size b < c
  kinds : ∀ b ∈ free, s.live (b + 8) = none
  room : ∀ p nbytes, s.live p = some nbytes → 8 ≤ p ∧ nbytes + 8 ≤ 8 * s.heap.size (p - 8)
  disjoint : ∀ b c, s.Block free b → s.Block free c → b ≠ c → b + 8 * s.heap.size b ≤ c ∨ c + 8 * s.heap.size c ≤ b
  covers : ∀ i, (∃ b, s.Block free b ∧ b ≤ i ∧ i < b + 8 * s.heap.size b) ↔ start ≤ i ∧ i < s.heap.brk

theorem Rep.apart {h : Heap} (hrep : Rep base start h l) {x y : Span (Option Nat)} (hx : x ∈ l) (hy : y ∈ l) (hxnone : x.tag = none)
    (hynone : y.tag = none) (hxy : x.start < y.start) : x.stop < y.start := by
  obtain ⟨l₁, l₂, rfl⟩ := List.append_of_mem hx
  have hmem : y ∈ l₂ := by
    obtain hy | hy := List.mem_append.mp hy
    · have hbounds := hrep.tiles.left.mem hy
      unfold Span.stop at hbounds
      omega
    · obtain rfl | hy := List.mem_cons.mp hy
      · omega
      · exact hy
  have hgaps := List.isChain_cons.mp (List.isChain_append.mp hrep.gaps).2.1
  have hright := hrep.tiles.right
  cases l₂ with
  | nil => cases hmem
  | cons z l₂ =>
    obtain ⟨hz, hlen, hrest⟩ := hright
    obtain rfl | hmem := List.mem_cons.mp hmem
    · exact absurd hynone ((hgaps.1 y rfl).resolve_left fun hne => hne hxnone)
    · have hbounds := (hrest.mem hmem).1
      unfold Span.stop at *
      omega

theorem Lives.block_iff (hl : Lives s.live l) (b : Nat) : s.Block (frees l) b ↔ ∃ x ∈ l, x.start = b := by
  constructor
  · rintro (hb | hb)
    · obtain ⟨x, hx, -, hstart⟩ := mem_frees.mp hb
      exact ⟨x, hx, hstart⟩
    · obtain ⟨n, hn⟩ := Option.ne_none_iff_exists'.mp hb
      obtain ⟨x, hx, hstart, -⟩ := (hl.iff _ n).mp hn
      exact ⟨x, hx, by omega⟩
  · rintro ⟨x, hx, rfl⟩
    cases htag : x.tag with
    | none => exact .inl (mem_frees.mpr ⟨x, hx, htag, rfl⟩)
    | some n =>
      right
      rw [(hl.iff _ n).mpr ⟨x, hx, rfl, htag⟩]
      simp

theorem Rep.heapOf (hrep : Rep base start s.heap l) (hl : Lives s.live l) : HeapOf base start s (frees l) := by
  have hstop : ∀ x ∈ l, x.start + 8 * s.heap.size x.start = x.stop := by
    intro x hx
    rw [hrep.sizes x hx]
    rfl
  refine ⟨hrep.circle, sorted hrep.tiles hrep.base_lt, hrep.freep, fun b hb c hc hbc => ?_, fun b hb => ?_, fun p n hn => ?_,
    fun b c hb hc hne => ?_, fun i => ?_⟩
  · obtain ⟨x, hx, hxnone, rfl⟩ := mem_frees.mp hb
    obtain ⟨y, hy, hynone, rfl⟩ := mem_frees.mp hc
    rw [hstop x hx]
    exact hrep.apart hx hy hxnone hynone hbc
  · obtain ⟨x, hx, hnone, rfl⟩ := mem_frees.mp hb
    by_contra hsome
    obtain ⟨n, hn⟩ := Option.ne_none_iff_exists'.mp hsome
    obtain ⟨y, hy, hstart, htag⟩ := (hl.iff _ n).mp hn
    obtain rfl := hrep.tiles.eq_of_start hy hx (by omega)
    rw [hnone] at htag
    cases htag
  · obtain ⟨x, hx, rfl, htag⟩ := (hl.iff p n).mp hn
    rw [Nat.add_sub_cancel, hrep.sizes x hx]
    exact ⟨by omega, hl.room x hx n htag⟩
  · obtain ⟨x, hx, rfl⟩ := (hl.block_iff b).mp hb
    obtain ⟨y, hy, rfl⟩ := (hl.block_iff c).mp hc
    rw [hstop x hx, hstop y hy]
    by_contra hover
    have hxlen := (hrep.tiles.mem hx).2.2
    have hylen := (hrep.tiles.mem hy).2.2
    unfold Span.stop at hover
    -- The later one of the two begins inside the other.
    refine hne (congrArg Span.start (hrep.tiles.eq_of_overlap hx hy (i := max x.start y.start) ?_ ?_)) <;> unfold Span.stop <;> omega
  · rw [← hrep.tiles.covers i]
    constructor
    · rintro ⟨b, hb, hi⟩
      obtain ⟨x, hx, rfl⟩ := (hl.block_iff b).mp hb
      rw [hstop x hx] at hi
      exact ⟨x, hx, hi⟩
    · rintro ⟨x, hx, hi⟩
      rw [← hstop x hx] at hi
      exact ⟨x.start, (hl.block_iff _).mpr ⟨x, hx, rfl⟩, hi⟩

/-- The heap between two calls, and what the next call does. -/
structure Allocator (base start : Nat) (s : State) : Prop where
  unused : s.heap.freep = 0 → s.heap.brk = start ∧ ∀ p, s.live p = none
  heap : s.heap.freep ≠ 0 → ∃ free, HeapOf base start s free
  ends : ∀ a e, s.Legal a → s.step base a ≠ .fail e
  fresh : ∀ nbytes grants heap p, s.Legal (.malloc nbytes grants) → malloc base s.heap nbytes grants = some (heap, p) → p ≠ 0 →
    s.live p = none
  /-- The loop of `malloc` calls `morecore` at most once. -/
  once : ∀ nbytes grant grants, s.Legal (.malloc nbytes (grant :: grants)) →
    malloc base s.heap nbytes (grant :: grants) = malloc base s.heap nbytes [grant]

theorem heap_invariant (base start : Nat) (as : List Label) (s : State) (hrun : (system base start).RunIn State.Legal as s) :
    Allocator base start s := by
  have hinv := Inv.of_run hrun
  refine ⟨fun hzero => ?_, fun hne => ?_, fun a e ha hfail => ?_, fun nbytes grants heap p ha hmalloc hp => ?_,
    fun nbytes grant grants ha => ?_⟩
  · obtain hs | ⟨l, hrep, -⟩ := hinv
    · exact ⟨hs.brk, hs.live⟩
    · exact absurd hzero hrep.freep_ne_zero
  · obtain hs | ⟨l, hrep, hl⟩ := hinv
    · exact absurd hs.freep hne
    · exact ⟨frees l, hrep.heapOf hl⟩
  · obtain ⟨t, ht, -⟩ := hinv.step ha
    rw [hfail] at ht
    cases ht
  · obtain ⟨heap', p', hmalloc', hfresh, -⟩ := hinv.malloc nbytes grants ha
    obtain ⟨-, rfl⟩ := Prod.mk.inj (Option.some.inj (hmalloc.symm.trans hmalloc'))
    exact hfresh hp
  · obtain ⟨l, hrep, -⟩ := hinv.init
    exact hrep.mallocLoop_once (Nat.succ_pos _) ha.2.1 (ha.2.2 grant List.mem_cons_self) grants

def unused : State := ⟨⟨fun _ => ⟨0, 0⟩, 0, 12288, []⟩, fun _ => none⟩

theorem start_unused : Start 4000 12288 unused := ⟨by decide, by decide, by decide, rfl, rfl, fun _ => rfl, rfl⟩

/-- Three blocks are allocated, the first and the second are freed, and the memory grows for a large one. -/
def threeBlocks : List Label :=
  [.malloc 10 [some []], .malloc 100 [], .malloc 1 [], .free 45040, .free 44928, .malloc 40000 [some []]]

/-- A test for what a program may do, stores apart. -/
def mayTake (s : State) : Label → Bool
  | .malloc nbytes grants => decide (nbytes + 7 ≤ 2 ^ 31 - 1 ∧ nunits nbytes * 8 ≤ 2 ^ 31 - 1 ∧ Whole grants)
  | .free ap => (s.live ap).isSome
  | .store _ _ => false

theorem legal_of_mayTake (s : State) (a : Label) (h : mayTake s a = true) : s.Legal a := by
  cases a with
  | malloc nbytes grants =>
    have hbounds : nbytes + 7 ≤ 2 ^ 31 - 1 ∧ nunits nbytes * 8 ≤ 2 ^ 31 - 1 ∧ Whole grants := of_decide_eq_true h
    exact hbounds
  | free ap => exact Option.isSome_iff_ne_none.mp h
  | store a v => cases h

theorem heap_invariant_threeBlocks : ∃ s, (system 4000 12288).RunIn State.Legal threeBlocks s ∧
    (s.heap.freep, s.heap.brk, s.live 44912, s.live 45064) = (12288, 85064, some 1, some 40000) ∧ Allocator 4000 12288 s := by
  have hobserve : ((system 4000 12288).execIn mayTake unused threeBlocks).map
      (fun s => (s.heap.freep, s.heap.brk, s.live 44912, s.live 45064)) = some (12288, 85064, some 1, some 40000) := by decide +kernel
  obtain ⟨s, hs, hstate⟩ := Option.map_eq_some_iff.mp hobserve
  have hrun := (Automaton.RunIn.start start_unused).execIn legal_of_mayTake hs
  exact ⟨s, hrun, hstate, heap_invariant 4000 12288 threeBlocks s hrun⟩

end Xv6.Umalloc
