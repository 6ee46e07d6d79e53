import Xv6.Bio.Refine

/-!
# When the cache runs out of buffers

`bget` needs a buffer that is neither held by a process nor pinned by the log. Thirty processes that wait for the disk,
each for a block of its own, hold all the buffers there are, and the next one to read panics.
-/

namespace Xv6.Bio

open Lib

section Load

variable {ι D : Type}

def State.held (s : State ι D) : Finset (Fin nbuf) := Finset.univ.filter fun b => (s.cache.buf b).busy = true

/-- The buffers that nobody holds and that wait for a commit. -/
def State.pinned (s : State ι D) : Finset (Fin nbuf) :=
  Finset.univ.filter fun b => (s.cache.buf b).busy = false ∧ (s.cache.buf b).dirty = true

theorem held_disjoint (s : State ι D) : Disjoint s.held s.pinned := by
  rw [Finset.disjoint_left]
  intro b hheld hpinned
  rw [State.held, Finset.mem_filter] at hheld
  rw [State.pinned, Finset.mem_filter, hheld.2] at hpinned
  cases hpinned.2.1

theorem mem_union_iff (s : State ι D) (b : Fin nbuf) : b ∈ s.held ∪ s.pinned ↔ s.cache.clean b = false := by
  simp only [State.held, State.pinned, Cache.clean, Finset.mem_union, Finset.mem_filter, Finset.mem_univ, true_and]
  cases (s.cache.buf b).busy <;> cases (s.cache.buf b).dirty <;> simp

theorem load_eq_iff (s : State ι D) : s.held.card + s.pinned.card = nbuf ↔ ∀ b, s.cache.clean b = false := by
  rw [← Finset.card_union_of_disjoint (held_disjoint s)]
  constructor
  · intro hcard b
    have huniv : s.held ∪ s.pinned = Finset.univ := Finset.eq_univ_of_card _ (by rw [hcard, Fintype.card_fin])
    rw [← mem_union_iff, huniv]
    exact Finset.mem_univ b
  · intro hall
    have huniv : s.held ∪ s.pinned = Finset.univ := Finset.eq_univ_of_forall fun b => (mem_union_iff s b).mpr (hall b)
    rw [huniv, Finset.card_univ, Fintype.card_fin]

variable [DecidableEq ι]

theorem go_looking {s : State ι D} {p : ι} {dev sector : UInt32} (hpos : s.pos p = .looking dev sector) :
    s.step (.go p) = s.look p dev sector := by
  rw [State.step, hpos]

theorem look_noBuffers {s : State ι D} {p : ι} {dev sector : UInt32} (hget : s.cache.bget dev sector = .noBuffers) :
    s.look p dev sector = .fail .noBuffers := by
  rw [State.look, hget]

theorem no_buffers_iff (disk : UInt32 → UInt32 → D) (as : List (Label ι D)) (s : State ι D) (p : ι)
    (hrun : (system disk).Run as s) : s.step (.go p) = .fail .noBuffers ↔
      ∃ dev sector, s.pos p = .looking dev sector ∧ (∀ b, ¬((s.cache.buf b).dev = dev ∧ (s.cache.buf b).sector = sector)) ∧
        s.held.card + s.pinned.card = nbuf := by
  have hinv := inv_of_run hrun
  constructor
  · intro hfail
    have hstep := hinv.go p
    rw [hfail] at hstep
    obtain ⟨q, dev, sector, hq, hpos, -, hget⟩ | ⟨e, he⟩ := hstep
    · obtain rfl := Label.go.inj hq
      have hfound := hinv.linked.bget dev sector
      rw [hget] at hfound
      cases hfound with
      | noBuffers hnone hall =>
        refine ⟨dev, sector, hpos, fun b hkey => ?_, (load_eq_iff s).mpr hall⟩
        have hcaches := caches_iff.mpr hkey
        rw [hnone b] at hcaches
        cases hcaches
    · cases he
  · rintro ⟨dev, sector, hpos, hkey, hload⟩
    have hall := (load_eq_iff s).mp hload
    have hfound := hinv.linked.bget dev sector
    rw [go_looking hpos]
    refine look_noBuffers ?_
    cases hget : s.cache.bget dev sector with
    | noBuffers => rfl
    | found b | busy b =>
      rw [hget] at hfound
      cases hfound
      exact absurd (caches_iff.mp ‹_›) (hkey b)
    | recycled b =>
      rw [hget] at hfound
      cases hfound with
      | recycled hnone hclean =>
        rw [hall b] at hclean
        cases hclean
    | loops =>
      rw [hget] at hfound
      cases hfound

end Load

theorem no_buffers_iff_oneRead : ∃ s : State (Fin nproc) Nat, (system fun _ sector => sector.toNat).Run [.bread 0 1 5] s ∧
    s.pos 0 = .looking 1 5 ∧ s.step (.go 0) ≠ .fail .noBuffers := by
  have hobserve : ((system fun _ sector => sector.toNat).exec (fresh (Fin nproc)) [.bread 0 1 5]).map
      (fun s => (s.pos 0, s.held.card + s.pinned.card)) = some (.looking 1 5, 0) := by decide +kernel
  obtain ⟨s, hs, heq⟩ := Option.map_eq_some_iff.mp hobserve
  obtain ⟨hpos, hload⟩ := Prod.mk.inj heq
  have hrun := (Automaton.Run.start (start_fresh (Fin nproc))).exec hs
  refine ⟨s, hrun, hpos, fun hfail => ?_⟩
  obtain ⟨_, _, -, -, hfull⟩ := (no_buffers_iff _ _ s 0 hrun).mp hfail
  rw [hload] at hfull
  cases hfull

/-- Thirty processes read a block each, and none of the reads is done; one more process begins to read. -/
def readers : List (Label (Fin nproc) Nat) :=
  ((List.range nbuf).flatMap fun p => [.bread (Fin.ofNat nproc p) 1 (UInt32.ofNat p), .go (Fin.ofNat nproc p)]) ++ [.bread 30 1 30]

/-- Nobody is in a transaction and nobody holds more than one buffer. -/
theorem readers_panic : ∃ s : State (Fin nproc) Nat, (system fun _ sector => sector.toNat).Run readers s ∧
    (∀ p, (s.holds p).card ≤ 1 ∧ s.ops.pc p = .idle) ∧ s.step (.go 30) = .fail .noBuffers := by
  have hobserve : ((system fun _ sector => sector.toNat).exec (fresh (Fin nproc)) readers).map
      (fun s => (decide (∀ p, (s.holds p).card ≤ 1 ∧ s.ops.pc p = .idle), (s.step (.go 30)).error?)) =
      some (true, some .noBuffers) := by decide +kernel
  obtain ⟨s, hs, heq⟩ := Option.map_eq_some_iff.mp hobserve
  obtain ⟨hprocs, hfail⟩ := Prod.mk.inj heq
  exact ⟨s, (Automaton.Run.start (start_fresh (Fin nproc))).exec hs, of_decide_eq_true hprocs, Outcome.error?_eq_some.mp hfail⟩

/-! ### The buffer that is recycled -/

section Recency

variable {ι D : Type} {l : List (Fin nbuf)}

/-- The links lead through all the buffers, in this order. -/
def Cache.Lists (c : Cache D) (l : List (Fin nbuf)) : Prop := c.Rep l ∧ ∀ b, b ∈ l

theorem Cache.Lists.brelse {c : Cache D} (h : c.Lists l) (b : Fin nbuf) : (c.brelse b).Lists (b :: l.erase b) := by
  refine ⟨?_, fun b' => (List.perm_cons_erase (h.2 b)).mem_iff.mp (h.2 b')⟩
  obtain ⟨l₁, l₂, -, rfl, herase⟩ := List.exists_erase_eq (h.2 b)
  rw [herase]
  exact (h.1.unlink.pushFront (List.nodup_middle.mp h.1.nodup).notMem).setBuf b _

/-- Only a release moves a buffer. -/
def moved (l : List (Fin nbuf)) : Label ι D → List (Fin nbuf)
  | .brelse _ b => b :: l.erase b
  | _ => l

/-- The buffers by their last release, the latest first. -/
def recency (as : List (Label ι D)) : List (Fin nbuf) := as.foldl moved (List.finRange nbuf).reverse

variable [DecidableEq ι] {s : State ι D}

theorem lists_step (h : s.cache.Lists l) (a : Label ι D) :
    (s.step a).Meets (fun s' => s'.cache.Lists (moved l a)) fun _ => True := by
  cases a with
  | brelse p b => exact .ite (fun _ => .ite (fun _ => trivial) fun _ => h.brelse b) fun _ => trivial
  | _ =>
    -- no other step touches the links
    simp only [State.step, State.look, State.fill, State.write, State.record, State.onLog]
    repeat' split
    all_goals first | exact h | trivial

theorem lists_of_run {disk : UInt32 → UInt32 → D} {as : List (Label ι D)} (hrun : (system disk).Run as s) :
    s.cache.Lists (recency as) := by
  refine hrun.invariant (I := fun as s => s.cache.Lists (recency as)) (fun s hs => ?_) fun as s a s' h ha => ?_
  · obtain ⟨c, hc, -⟩ := hs.cache
    have hempty : ((c.setPrev none none).setNext none none).Rep [] := ⟨by simp, by simp [Links, Cache.setNext, Cache.setPrev]⟩
    have hrep := hempty.initBufs (List.nodup_finRange nbuf) (by simp)
    rw [List.append_nil] at hrep
    exact ⟨hc ▸ hrep, by simp [recency]⟩
  · have hstep := lists_step h a
    rw [show s.step a = .next s' from ha] at hstep
    rwa [recency, List.foldl_append]

/-- A sector that is not cached gets the clean buffer that was released longest ago. -/
theorem bget_least_recent (disk : UInt32 → UInt32 → D) (as : List (Label ι D)) (s : State ι D)
    (hrun : (system disk).Run as s) (dev sector : UInt32) : s.cache.bget dev sector =
      match (recency as).find? (s.cache.caches dev sector) with
      | some b => if (s.cache.buf b).busy then .busy b else .found b
      | none => ((recency as).reverse.find? s.cache.clean).elim .noBuffers .recycled := by
  have hrep := (lists_of_run hrun).1
  rw [Cache.bget, hrep.forward, hrep.backward]
  cases (recency as).find? (s.cache.caches dev sector) with
  | some b => rfl
  | none => cases (recency as).reverse.find? s.cache.clean <;> rfl

end Recency

/-- Buffer 0 has been released; another sector gets buffer 1, which never was. -/
theorem bget_least_recent_writeThenRead : ∃ s : State (Fin 2) Nat, (system fun _ sector => sector.toNat).Run writeThenRead s ∧
    (recency writeThenRead).head? = some 0 ∧ s.cache.bget 1 9 = .recycled 1 := by
  have hobserve : ((system fun _ sector => sector.toNat).exec (fresh (Fin 2)) writeThenRead).map
      (fun s => ((recency writeThenRead).find? (s.cache.caches 1 9), (recency writeThenRead).reverse.find? s.cache.clean)) =
      some (none, some 1) := by decide +kernel
  obtain ⟨s, hs, heq⟩ := Option.map_eq_some_iff.mp hobserve
  obtain ⟨hcached, hclean⟩ := Prod.mk.inj heq
  have hrun := (Automaton.Run.start (start_fresh (Fin 2))).exec hs
  have hbget := bget_least_recent _ _ s hrun 1 9
  rw [List.nil_append, hcached, hclean] at hbget
  exact ⟨s, hrun, by decide +kernel, hbget⟩

end Xv6.Bio
