import Xv6.Bio.Links

/-!
# The buffer cache is a map from sectors to contents

At every moment each sector has its contents in one place: in the buffer that caches it, or on the disk. A buffer that
nobody holds and that is not dirty agrees with the disk, so nothing is lost when it is used for another sector.
-/

namespace Xv6.Bio

open Lib

section Steps

variable {ι D : Type} [DecidableEq ι]

variable {dev sector : UInt32} {a : Label ι D}

/-! ### The contents of a sector -/

def Event.apply (m : UInt32 → UInt32 → D) : Event D → UInt32 → UInt32 → D
  | .got .. => m
  | .put dev sector d => Function.update m dev (Function.update (m dev) sector d)

/-- What was last released or written for each sector, and what the disk held at first where that is nothing. -/
def contents (disk : UInt32 → UInt32 → D) (t : List (Event D)) : UInt32 → UInt32 → D := t.foldl Event.apply disk

/-- Whatever `bread` has returned were the contents of the sector. -/
def Refines (disk : UInt32 → UInt32 → D) (t : List (Event D)) : Prop :=
  ∀ t₁ dev sector d t₂, t = t₁ ++ .got dev sector d :: t₂ → contents disk t₁ dev sector = d

theorem contents_concat (disk : UInt32 → UInt32 → D) (t : List (Event D)) (e : Event D) :
    contents disk (t ++ [e]) = e.apply (contents disk t) := by
  rw [contents, List.foldl_append]
  rfl

theorem Refines.concat {disk : UInt32 → UInt32 → D} {t : List (Event D)} {e : Event D} (h : Refines disk t)
    (he : ∀ dev sector d, e = .got dev sector d → contents disk t dev sector = d) : Refines disk (t ++ [e]) := by
  intro t₁ dev sector d t₂ heq
  obtain rfl | ⟨t₂, e', rfl⟩ := List.eq_nil_or_concat' t₂
  · obtain ⟨rfl, hlast⟩ := List.append_inj' heq rfl
    exact he dev sector d (List.cons.inj hlast).1
  · rw [← List.cons_append, ← List.append_assoc] at heq
    exact h t₁ dev sector d t₂ (List.append_inj' heq rfl).1

theorem apply_put_self (m : UInt32 → UInt32 → D) (dev sector : UInt32) (d : D) :
    Event.apply m (.put dev sector d) dev sector = d := by
  simp [Event.apply]

theorem apply_put_of_ne (m : UInt32 → UInt32 → D) {dev' sector' : UInt32} (d : D)
    (hne : ¬(dev' = dev ∧ sector' = sector)) : Event.apply m (.put dev sector d) dev' sector' = m dev' sector' := by
  rw [Event.apply]
  by_cases hdev : dev' = dev
  · subst hdev
    rw [Function.update_self, Function.update_of_ne fun hsector => hne ⟨rfl, hsector⟩]
  · rw [Function.update_of_ne hdev]

/-! ### A buffer and its holder -/

inductive Phase where
  | rest | filling | writing

def Pos.phase (b : Fin nbuf) : Pos → Phase
  | .filling b' => if b' = b then .filling else .rest
  | .writing b' => if b' = b then .writing else .rest
  | _ => .rest

def State.phase (s : State ι D) (b : Fin nbuf) (p : ι) : Option Phase :=
  if b ∈ s.holds p then some ((s.pos p).phase b) else none

/-- A held buffer. `block` is on the disk and `want` the contents of its sector. -/
def Held (v : Buf D) (changed : Bool) (block want : D) : Phase → Prop
  | .rest => v.valid = true ∧ (changed = false → v.dirty = false → block = v.data)
  | .filling => v.valid = false ∧ v.dirty = false ∧ block = want
  | .writing => v.dirty = true

structure Sound (v : Buf D) (changed : Bool) (block want : D) (phase : ι → Option Phase) : Prop where
  free : v.busy = false → changed = false ∧
    (Real v.dev → v.valid = true ∧ v.data = want ∧ (v.dirty = false → block = want))
  held : ∀ p x, phase p = some x → v.busy = true ∧ Real v.dev ∧ Held v changed block want x
  owner : v.busy = true → ∃ p x, phase p = some x
  excl : ∀ p q x y, phase p = some x → phase q = some y → p = q

/-- The state of a buffer in a state of the system, where the sectors have the contents `m`. -/
def State.SoundAt (s : State ι D) (m : UInt32 → UInt32 → D) (b : Fin nbuf) : Prop :=
  Sound (s.cache.buf b) (s.changed b) (s.disk (s.cache.buf b).dev (s.cache.buf b).sector)
    (m (s.cache.buf b).dev (s.cache.buf b).sector) (s.phase b)

/-- A call is for a disk there is, or about a buffer that the process holds. -/
def Pos.Fits (held : Finset (Fin nbuf)) : Pos → Prop
  | .out => True
  | .looking dev _ | .asleep _ dev _ => Real dev
  | .filling b | .writing b | .logging b => b ∈ held

variable {v : Buf D} {pos : Pos}

omit [DecidableEq ι] in
theorem State.SoundAt.intro {s : State ι D} {m : UInt32 → UInt32 → D} {b : Fin nbuf} {phase : ι → Option Phase}
    (hbuf : s.cache.buf b = v) (hphase : s.phase b = phase)
    (h : Sound v (s.changed b) (s.disk v.dev v.sector) (m v.dev v.sector) phase) : s.SoundAt m b := by
  rw [State.SoundAt, hbuf, hphase]
  exact h

structure Inv (disk : UInt32 → UInt32 → D) (s : State ι D) : Prop where
  linked : s.cache.Linked
  unique : ∀ b b', Real (s.cache.buf b).dev → (s.cache.buf b').dev = (s.cache.buf b).dev →
    (s.cache.buf b').sector = (s.cache.buf b).sector → b' = b
  sound : ∀ b, s.SoundAt (contents disk s.trace) b
  uncached : ∀ dev sector, Real dev → (∀ b, s.cache.caches dev sector b = false) →
    s.disk dev sector = contents disk s.trace dev sector
  fits : ∀ p, (s.pos p).Fits (s.holds p)
  refines : Refines disk s.trace

/-- The invariant is kept, and the sector of a buffer changes only if the buffer was clean and nobody held it. -/
def Follows (disk : UInt32 → UInt32 → D) (s s' : State ι D) : Prop :=
  Inv disk s' ∧ ∀ b, (s'.cache.buf b).dev = (s.cache.buf b).dev ∧ (s'.cache.buf b).sector = (s.cache.buf b).sector ∨
    s.cache.clean b = true

/-! ### What a step keeps -/

variable {disk : UInt32 → UInt32 → D} {s s' : State ι D} {p : ι} {b : Fin nbuf}

omit [DecidableEq ι] in
theorem phase_congr (hholds : ∀ q, b ∈ s'.holds q ↔ b ∈ s.holds q) (hpos : ∀ q, b ∈ s.holds q → (s'.pos q).phase b = (s.pos q).phase b) :
    s'.phase b = s.phase b := by
  funext q
  rw [State.phase, State.phase]
  by_cases hq : b ∈ s.holds q
  · rw [if_pos hq, if_pos ((hholds q).mpr hq), hpos q hq]
  · rw [if_neg hq, if_neg ((hholds q).not.mpr hq)]

omit [DecidableEq ι] in
theorem phase_of_mem (hb : b ∈ s.holds p) : s.phase b p = some ((s.pos p).phase b) := if_pos hb

omit [DecidableEq ι] in
theorem mem_of_phase {x : Phase} (h : s.phase b p = some x) : b ∈ s.holds p := by
  by_contra hb
  rw [State.phase, if_neg hb] at h
  cases h

omit [DecidableEq ι] in
theorem Inv.held (h : Inv disk s) (hb : b ∈ s.holds p) : (s.cache.buf b).busy = true ∧ Real (s.cache.buf b).dev ∧
    Held (s.cache.buf b) (s.changed b) (s.disk (s.cache.buf b).dev (s.cache.buf b).sector)
      (contents disk s.trace (s.cache.buf b).dev (s.cache.buf b).sector) ((s.pos p).phase b) :=
  (h.sound b).held p _ (phase_of_mem hb)

omit [DecidableEq ι] in
theorem Inv.mem (h : Inv disk s) (hpos : s.pos p = .filling b ∨ s.pos p = .writing b ∨ s.pos p = .logging b) : b ∈ s.holds p := by
  have hfits := h.fits p
  rcases hpos with hpos | hpos | hpos <;> rwa [hpos] at hfits

theorem Inv.goto (h : Inv disk s) (ops : RedoLog.Sys ι) (hphase : ∀ b, pos.phase b = (s.pos p).phase b)
    (hfits : pos.Fits (s.holds p)) : Follows disk s ({ s with ops := ops }.goto p pos) := by
  refine ⟨⟨h.linked, h.unique, fun b => ?_, h.uncached, fun q => ?_, h.refines⟩, fun _ => .inl ⟨rfl, rfl⟩⟩
  · have hsame : ({ s with ops := ops }.goto p pos).phase b = s.phase b := by
      refine phase_congr (fun _ => Iff.rfl) fun q _ => ?_
      by_cases hq : q = p
      · rw [State.goto_pos, if_pos hq, hphase, hq]
      · rw [State.goto_pos, if_neg hq]
    rw [State.SoundAt, hsame]
    exact h.sound b
  · rw [State.goto_pos]
    by_cases hqp : q = p
    · rw [if_pos hqp, hqp]
      exact hfits
    · rw [if_neg hqp]
      exact h.fits q

/-- One buffer, its block on the disk and the contents of its sector change, the rest stays. -/
structure Touches (disk : UInt32 → UInt32 → D) (b : Fin nbuf) (s s' : State ι D) : Prop where
  linked : s'.cache.Linked
  dev : (s'.cache.buf b).dev = (s.cache.buf b).dev
  sector : (s'.cache.buf b).sector = (s.cache.buf b).sector
  buf : ∀ b', b' ≠ b → s'.cache.buf b' = s.cache.buf b'
  changed : ∀ b', b' ≠ b → s'.changed b' = s.changed b'
  block : ∀ dev sector, ¬(dev = (s.cache.buf b).dev ∧ sector = (s.cache.buf b).sector) → s'.disk dev sector = s.disk dev sector
  kept : ∀ dev sector, ¬(dev = (s.cache.buf b).dev ∧ sector = (s.cache.buf b).sector) →
    contents disk s'.trace dev sector = contents disk s.trace dev sector
  phase : ∀ b', b' ≠ b → s'.phase b' = s.phase b'

omit [DecidableEq ι] in
theorem Inv.touch (h : Inv disk s) (ht : Touches disk b s s') (hreal : Real (s.cache.buf b).dev)
    (hsound : s'.SoundAt (contents disk s'.trace) b) (hfits : ∀ p, (s'.pos p).Fits (s'.holds p))
    (hrefines : Refines disk s'.trace) : Follows disk s s' := by
  have hdev : ∀ b', (s'.cache.buf b').dev = (s.cache.buf b').dev := fun b' => by
    by_cases hb' : b' = b
    · rw [hb', ht.dev]
    · rw [ht.buf b' hb']
  have hsector : ∀ b', (s'.cache.buf b').sector = (s.cache.buf b').sector := fun b' => by
    by_cases hb' : b' = b
    · rw [hb', ht.sector]
    · rw [ht.buf b' hb']
  refine ⟨⟨ht.linked, ?_, ?_, ?_, hfits, hrefines⟩, fun b' => .inl ⟨hdev b', hsector b'⟩⟩
  · intro b₁ b₂
    rw [hdev, hdev, hsector, hsector]
    exact h.unique b₁ b₂
  · intro b'
    by_cases hb' : b' = b
    · rw [hb']
      exact hsound
    · have hkey : ¬((s.cache.buf b').dev = (s.cache.buf b).dev ∧ (s.cache.buf b').sector = (s.cache.buf b).sector) :=
        fun hkey => hb' (h.unique b b' hreal hkey.1 hkey.2)
      rw [State.SoundAt, ht.buf b' hb', ht.changed b' hb', ht.block _ _ hkey, ht.kept _ _ hkey, ht.phase b' hb']
      exact h.sound b'
  · intro dev sector hdev' hnone
    have hnone' : ∀ b', s.cache.caches dev sector b' = false := fun b' => by
      rw [← hnone b', Cache.caches, Cache.caches, hdev, hsector]
    have hkey : ¬(dev = (s.cache.buf b).dev ∧ sector = (s.cache.buf b).sector) := by
      rintro ⟨rfl, rfl⟩
      simpa [Cache.caches] using hnone' b
    rw [ht.block _ _ hkey, ht.kept _ _ hkey]
    exact h.uncached dev sector hdev' hnone'

variable {block : D}

theorem Inv.rework (h : Inv disk s) (hb : b ∈ s.holds p) {disk' : UInt32 → UInt32 → D} {ops : RedoLog.Sys ι} {pos : ι → Pos}
    {changed : Fin nbuf → Bool} {trace : List (Event D)} {x : Phase} {c : Bool}
    (hv : v.dev = (s.cache.buf b).dev ∧ v.sector = (s.cache.buf b).sector ∧ v.busy = true)
    (hchanged : ∀ b', b' ≠ b → changed b' = s.changed b')
    (hblock : ∀ dev sector, ¬(dev = (s.cache.buf b).dev ∧ sector = (s.cache.buf b).sector) → disk' dev sector = s.disk dev sector)
    (hkept : ∀ dev sector, ¬(dev = (s.cache.buf b).dev ∧ sector = (s.cache.buf b).sector) →
      contents disk trace dev sector = contents disk s.trace dev sector)
    (hpos : ∀ q, q ≠ p → pos q = s.pos q)
    (hbefore : s.pos p = .out ∨ s.pos p = .filling b ∨ s.pos p = .writing b ∨ s.pos p = .logging b)
    (hafter : pos p = .out ∧ x = .rest ∨ pos p = .writing b ∧ x = .writing) (hc : changed b = c)
    (hdisk : disk' (s.cache.buf b).dev (s.cache.buf b).sector = block) (hheld : ∀ want, Held v c block want x)
    (hrefines : Refines disk trace) :
    Follows disk s ⟨s.cache.setBuf b v, disk', ops, pos, s.holds, changed, trace⟩ := by
  have hbuf : (s.cache.setBuf b v).buf b = v := Function.update_self ..
  have hx : (pos p).phase b = x := by
    rcases hafter with ⟨hp, rfl⟩ | ⟨hp, rfl⟩ <;> simp [hp, Pos.phase]
  obtain ⟨hdev, hsector, hbusy⟩ := hv
  have hreal := (h.held hb).2.1
  refine h.touch (b := b) ⟨h.linked, ?_, ?_, ?_, hchanged, hblock, hkept, ?_⟩ hreal ?_ ?_ hrefines
  · rw [hbuf, hdev]
  · rw [hbuf, hsector]
  · exact fun b' hb' => Function.update_of_ne hb' _ _
  · refine fun b' hb' => phase_congr (fun _ => Iff.rfl) fun q _ => ?_
    show (pos q).phase b' = (s.pos q).phase b'
    by_cases hq : q = p
    · subst hq
      have hold : (s.pos q).phase b' = .rest := by
        rcases hbefore with h | h | h | h <;> simp [h, Pos.phase, hb'.symm]
      have hnew : (pos q).phase b' = .rest := by
        rcases hafter with ⟨h, -⟩ | ⟨h, -⟩ <;> simp [h, Pos.phase, hb'.symm]
      rw [hold, hnew]
    · rw [hpos q hq]
  · have hexcl : ∀ q r, b ∈ s.holds q → b ∈ s.holds r → q = r := fun q r hq hr =>
      (h.sound b).excl q r _ _ (phase_of_mem hq) (phase_of_mem hr)
    rw [State.SoundAt, hbuf, hdev, hsector]
    refine ⟨fun hfree => ?_, fun q y hy => ?_, fun _ => ⟨p, _, phase_of_mem hb⟩,
      fun q r y z hy hz => hexcl q r (mem_of_phase hy :) (mem_of_phase hz :)⟩
    · rw [hbusy] at hfree
      cases hfree
    · obtain rfl := hexcl q p (mem_of_phase hy :) hb
      have hphase : (if b ∈ s.holds q then some ((pos q).phase b) else none) = some x := by rw [if_pos hb, hx]
      obtain rfl : x = y := Option.some.inj (hphase.symm.trans hy)
      refine ⟨hbusy, hdev ▸ hreal, ?_⟩
      show Held v (changed b) (disk' _ _) _ x
      rw [hc, hdisk]
      exact hheld _
  · intro q
    show (pos q).Fits (s.holds q)
    by_cases hqp : q = p
    · subst hqp
      rcases hafter with ⟨hout, -⟩ | ⟨hout, -⟩
      · rw [hout]
        trivial
      · rw [hout]
        exact hb
    · rw [hpos q hqp]
      exact h.fits q

theorem iderw_read (hbusy : v.busy = true) (hvalid : v.valid = false) (hdirty : v.dirty = false) :
    iderw v block = .ok ({ v with data := block, valid := true }, block) := by
  simp [iderw, hbusy, hvalid, hdirty]

theorem iderw_write (hbusy : v.busy = true) (hdirty : v.dirty = true) :
    iderw v block = .ok ({ v with dirty := false, valid := true }, v.data) := by
  simp [iderw, hbusy, hdirty]

theorem update_other {α β : Type} [DecidableEq α] (f : α → β) (a : α) (v : β) : ∀ x, x ≠ a → Function.update f a v x = f x :=
  fun _ hx => Function.update_of_ne hx _ _

theorem Inv.fill (h : Inv disk s) (hpos : s.pos p = .filling b) :
    iderw (s.cache.buf b) (s.disk (s.cache.buf b).dev (s.cache.buf b).sector) = .ok
      ({ s.cache.buf b with data := s.disk (s.cache.buf b).dev (s.cache.buf b).sector, valid := true },
        s.disk (s.cache.buf b).dev (s.cache.buf b).sector) ∧
    Follows disk s ((((s.setBuf b { s.cache.buf b with
        data := s.disk (s.cache.buf b).dev (s.cache.buf b).sector, valid := true }).setDisk (s.cache.buf b).dev
          (s.cache.buf b).sector (s.disk (s.cache.buf b).dev (s.cache.buf b).sector)).goto p .out).emit
      (.got (s.cache.buf b).dev (s.cache.buf b).sector (s.disk (s.cache.buf b).dev (s.cache.buf b).sector))) := by
  have hb : b ∈ s.holds p := h.mem (by simp [hpos])
  obtain ⟨hbusy, -, hheld⟩ := h.held hb
  rw [hpos, Pos.phase, if_pos rfl] at hheld
  obtain ⟨hvalid, hdirty, hblock⟩ := hheld
  refine ⟨iderw_read hbusy hvalid hdirty, h.rework hb ⟨rfl, rfl, hbusy⟩ (fun _ _ => rfl) (fun _ _ => apply_put_of_ne s.disk _)
    (fun dev sector _ => ?_) (update_other s.pos p .out) (.inr (.inl hpos)) (.inl ⟨Function.update_self .., rfl⟩) rfl
    (apply_put_self s.disk _ _ _) (fun _ => ⟨rfl, fun _ _ => rfl⟩) (h.refines.concat fun dev sector d heq => ?_)⟩
  · rw [contents_concat]
    rfl
  · cases heq
    exact hblock.symm

theorem Inv.write (h : Inv disk s) (hpos : s.pos p = .writing b) :
    iderw (s.cache.buf b) (s.disk (s.cache.buf b).dev (s.cache.buf b).sector) =
      .ok ({ s.cache.buf b with dirty := false, valid := true }, (s.cache.buf b).data) ∧
    Follows disk s (((((s.setBuf b { s.cache.buf b with dirty := false, valid := true }).setDisk (s.cache.buf b).dev
        (s.cache.buf b).sector (s.cache.buf b).data).setChanged b false).goto p .out).emit
      (.put (s.cache.buf b).dev (s.cache.buf b).sector (s.cache.buf b).data)) := by
  have hb : b ∈ s.holds p := h.mem (by simp [hpos])
  obtain ⟨hbusy, -, hheld⟩ := h.held hb
  rw [hpos, Pos.phase, if_pos rfl] at hheld
  refine ⟨iderw_write hbusy hheld, h.rework hb ⟨rfl, rfl, hbusy⟩ (update_other s.changed b false)
    (fun _ _ => apply_put_of_ne s.disk _) (fun dev sector hne => ?_) (update_other s.pos p .out) (.inr (.inr (.inl hpos)))
    (.inl ⟨Function.update_self .., rfl⟩) (Function.update_self ..) (apply_put_self s.disk _ _ _)
    (fun _ => ⟨rfl, fun _ _ => rfl⟩) (h.refines.concat nofun)⟩
  rw [contents_concat]
  exact apply_put_of_ne _ _ hne

theorem Inv.record (h : Inv disk s) (hpos : s.pos p = .logging b) (ops : RedoLog.Sys ι) :
    Follows disk s (((({ s with ops := ops }).setBuf b { s.cache.buf b with dirty := true }).setChanged b false).goto p .out) := by
  have hb : b ∈ s.holds p := h.mem (by simp [hpos])
  obtain ⟨hbusy, -, hheld⟩ := h.held hb
  rw [hpos] at hheld
  exact h.rework hb ⟨rfl, rfl, hbusy⟩ (update_other s.changed b false) (fun _ _ _ => rfl) (fun _ _ _ => rfl)
    (update_other s.pos p .out) (.inr (.inr (.inr hpos))) (.inl ⟨Function.update_self .., rfl⟩) (Function.update_self ..) rfl
    (fun _ => ⟨hheld.1, nofun⟩) h.refines

theorem Inv.modify (h : Inv disk s) (hpos : s.pos p = .out) (hb : b ∈ s.holds p) (d : D) :
    Follows disk s ((s.setBuf b { s.cache.buf b with data := d }).setChanged b true) := by
  obtain ⟨hbusy, -, hheld⟩ := h.held hb
  rw [hpos] at hheld
  exact h.rework hb ⟨rfl, rfl, hbusy⟩ (update_other s.changed b true) (fun _ _ _ => rfl) (fun _ _ _ => rfl) (fun _ _ => rfl)
    (.inl hpos) (.inl ⟨hpos, rfl⟩) (Function.update_self ..) rfl (fun _ => ⟨hheld.1, nofun⟩) h.refines

theorem Inv.bwrite (h : Inv disk s) (hpos : s.pos p = .out) (hb : b ∈ s.holds p) :
    Follows disk s ((s.setBuf b { s.cache.buf b with dirty := true }).goto p (.writing b)) := by
  obtain ⟨hbusy, -, -⟩ := h.held hb
  exact h.rework hb ⟨rfl, rfl, hbusy⟩ (fun _ _ => rfl) (fun _ _ _ => rfl) (fun _ _ _ => rfl)
    (update_other s.pos p (.writing b)) (.inl hpos) (.inr ⟨Function.update_self .., rfl⟩) rfl rfl (fun _ => rfl) h.refines

theorem caches_iff {c : Cache D} : c.caches dev sector b = true ↔ (c.buf b).dev = dev ∧ (c.buf b).sector = sector := by
  simp [Cache.caches]

omit [DecidableEq ι] in
theorem Inv.not_held (h : Inv disk s) (hbusy : (s.cache.buf b).busy = false) (q : ι) : b ∉ s.holds q := by
  intro hq
  rw [(h.held hq).1] at hbusy
  cases hbusy

theorem mem_hold (q : ι) (b' : Fin nbuf) : b' ∈ (s.hold p b).holds q ↔ b' ∈ s.holds q ∨ q = p ∧ b' = b := by
  rw [State.hold]
  by_cases hq : q = p
  · subst hq
    simp [or_comm]
  · simp [hq]

section Take

variable {v : Buf D} {pos : Pos} {x : Phase}

theorem phase_take (hnone : ∀ q, b ∉ s.holds q) (hx : pos.phase b = x) :
    (((s.setBuf b v).hold p b).goto p pos).phase b = fun q => if q = p then some x else none := by
  funext q
  have hmem : b ∈ (((s.setBuf b v).hold p b).goto p pos).holds q ↔ q = p := by
    refine (mem_hold (s := s.setBuf b v) q b).trans ?_
    exact ⟨fun hor => (hor.resolve_left (hnone q)).1, fun hq => .inr ⟨hq, rfl⟩⟩
  rw [State.phase]
  by_cases hq : q = p
  · rw [if_pos (hmem.mpr hq), if_pos hq, State.goto_pos, if_pos hq, hx]
  · rw [if_neg (hmem.not.mpr hq), if_neg hq]

theorem phase_take_other {b' : Fin nbuf} (hb' : b' ≠ b) (hold : (s.pos p).phase b' = .rest) (hnew : pos.phase b' = .rest) :
    (((s.setBuf b v).hold p b).goto p pos).phase b' = s.phase b' := by
  refine phase_congr (fun q => ?_) fun q _ => ?_
  · exact (mem_hold (s := s.setBuf b v) q b').trans ⟨fun hor => hor.resolve_right fun hand => hb' hand.2, .inl⟩
  · rw [State.goto_pos]
    by_cases hq : q = p
    · rw [if_pos hq, hnew, hq, hold]
    · rw [if_neg hq]
      rfl

theorem Sound.taken {changed : Bool} {want : D} (hbusy : v.busy = true) (hreal : Real v.dev) (hheld : Held v changed block want x) :
    Sound v changed block want (fun q => if q = p then some x else none) where
  free hfree := by
    rw [hbusy] at hfree
    cases hfree
  held q y hy := by
    by_cases hq : q = p
    · obtain rfl : x = y := by simpa [hq] using hy
      exact ⟨hbusy, hreal, hheld⟩
    · simp [hq] at hy
  owner _ := ⟨p, x, if_pos rfl⟩
  excl q r y z hy hz := by
    by_cases hq : q = p
    · by_cases hr : r = p
      · rw [hq, hr]
      · simp [hr] at hz
    · simp [hq] at hy

theorem Inv.fits_take (h : Inv disk s) (hpos : pos.Fits (insert b (s.holds p))) (q : ι) :
    ((((s.setBuf b v).hold p b).goto p pos).pos q).Fits ((((s.setBuf b v).hold p b).goto p pos).holds q) := by
  rw [State.goto_pos]
  by_cases hq : q = p
  · subst hq
    rw [if_pos rfl]
    show pos.Fits (Function.update s.holds q (insert b (s.holds q)) q)
    rwa [Function.update_self]
  · rw [if_neg hq]
    show (s.pos q).Fits (Function.update s.holds p (insert b (s.holds p)) q)
    rw [Function.update_of_ne hq]
    exact h.fits q

end Take

omit [DecidableEq ι] in
theorem looking_rest (hpos : s.pos p = .looking dev sector) (b : Fin nbuf) : (s.pos p).phase b = .rest := by
  rw [hpos]
  rfl

theorem filling_other {b' : Fin nbuf} (hb' : b' ≠ b) : (Pos.filling b).phase b' = .rest := if_neg hb'.symm

theorem Inv.found (h : Inv disk s) (hpos : s.pos p = .looking dev sector)
    (hget : s.cache.bget dev sector = .found b) : (s.cache.buf b).valid = true ∧
    Follows disk s ((((s.setBuf b { s.cache.buf b with busy := true }).hold p b).goto p .out).emit (.got dev sector (s.cache.buf b).data)) := by
  have hfound := h.linked.bget dev sector
  rw [hget] at hfound
  cases hfound with
  | found hcaches hbusy =>
    obtain ⟨rfl, rfl⟩ := caches_iff.mp hcaches
    have hreal : Real (s.cache.buf b).dev := by
      have hfits := h.fits p
      rwa [hpos] at hfits
    obtain ⟨hchanged, hfree⟩ := (h.sound b).free hbusy
    obtain ⟨hvalid, hdata, hclean⟩ := hfree hreal
    have hcontents : contents disk (s.trace ++ [.got (s.cache.buf b).dev (s.cache.buf b).sector (s.cache.buf b).data]) = contents disk s.trace := by
      rw [contents_concat]
      rfl
    have hbuf : Function.update s.cache.buf b { s.cache.buf b with busy := true } b = { s.cache.buf b with busy := true } :=
      Function.update_self ..
    refine ⟨hvalid, h.touch (b := b) ⟨h.linked, ?_, ?_, update_other _ _ _, fun _ _ => rfl, fun _ _ _ => rfl, ?_, ?_⟩ hreal ?_
      (h.fits_take trivial) ?_⟩
    · exact (congrArg Buf.dev hbuf :)
    · exact (congrArg Buf.sector hbuf :)
    · exact fun _ _ _ => congrFun (congrFun hcontents _) _
    · exact fun b' hb' => phase_take_other hb' (looking_rest hpos b') rfl
    · have hphase : (((s.setBuf b { s.cache.buf b with busy := true }).hold p b).goto p .out).phase b =
          fun q => if q = p then some .rest else none := phase_take (h.not_held hbusy) rfl
      refine .intro (hbuf :) (hphase :) (.taken rfl hreal ⟨hvalid, fun _ hdirty => ?_⟩)
      exact (hclean hdirty).trans hdata.symm
    · refine h.refines.concat fun dev sector d heq => ?_
      cases heq
      exact hdata.symm

theorem Inv.recycled (h : Inv disk s) (hpos : s.pos p = .looking dev sector)
    (hget : s.cache.bget dev sector = .recycled b) (hv : v = ⟨true, false, false, dev, sector, (s.cache.buf b).data⟩) :
    Follows disk s (((s.setBuf b v).hold p b).goto p (.filling b)) := by
  have hfound := h.linked.bget dev sector
  rw [hget] at hfound
  cases hfound with
  | recycled hnone hclean =>
    have hreal : Real dev := by
      have hfits := h.fits p
      rwa [hpos] at hfits
    have hbuf : (s.cache.setBuf b v).buf b = v := Function.update_self ..
    have hother : ∀ b', b' ≠ b → (s.cache.setBuf b v).buf b' = s.cache.buf b' := update_other _ _ _
    have hkey : ∀ b', ¬((s.cache.buf b').dev = dev ∧ (s.cache.buf b').sector = sector) := fun b' hkey => by
      have hcaches := caches_iff.mpr hkey
      rw [hnone b'] at hcaches
      cases hcaches
    obtain ⟨hbusy, hdirty⟩ : (s.cache.buf b).busy = false ∧ (s.cache.buf b).dirty = false := by simpa [Cache.clean] using hclean
    refine ⟨⟨h.linked, ?_, ?_, ?_, h.fits_take (by simp [Pos.Fits]), h.refines⟩, fun b' => ?_⟩
    · intro b₁ b₂
      show Real ((s.cache.setBuf b v).buf b₁).dev → ((s.cache.setBuf b v).buf b₂).dev = ((s.cache.setBuf b v).buf b₁).dev →
        ((s.cache.setBuf b v).buf b₂).sector = ((s.cache.setBuf b v).buf b₁).sector → b₂ = b₁
      by_cases h₁ : b₁ = b
      · by_cases h₂ : b₂ = b
        · exact fun _ _ _ => h₂.trans h₁.symm
        · rw [h₁, hbuf, hother b₂ h₂, hv]
          exact fun _ hdev hsector => absurd ⟨hdev, hsector⟩ (hkey b₂)
      · by_cases h₂ : b₂ = b
        · rw [h₂, hbuf, hother b₁ h₁, hv]
          exact fun _ hdev hsector => absurd ⟨hdev.symm, hsector.symm⟩ (hkey b₁)
        · rw [hother b₁ h₁, hother b₂ h₂]
          exact h.unique b₁ b₂
    · intro b'
      by_cases hb' : b' = b
      · have hphase : (((s.setBuf b v).hold p b).goto p (.filling b)).phase b = fun q => if q = p then some .filling else none :=
          phase_take (h.not_held hbusy) (if_pos rfl)
        have hheld : Held v (s.changed b) (s.disk v.dev v.sector) (contents disk s.trace v.dev v.sector) .filling := by
          rw [hv]
          exact ⟨rfl, rfl, h.uncached dev sector hreal hnone⟩
        rw [hb']
        exact .intro hbuf hphase (.taken (by rw [hv]) (by rwa [hv]) hheld)
      · have hphase : (((s.setBuf b v).hold p b).goto p (.filling b)).phase b' = s.phase b' :=
          phase_take_other hb' (looking_rest hpos b') (filling_other hb')
        exact .intro (hother b' hb') hphase (h.sound b')
    · intro dev' sector' hreal' hnone'
      by_cases hold : (s.cache.buf b).dev = dev' ∧ (s.cache.buf b).sector = sector'
      · -- the sector the buffer was used for before is on the disk
        obtain ⟨rfl, rfl⟩ := hold
        exact (((h.sound b).free hbusy).2 hreal').2.2 hdirty
      · refine h.uncached dev' sector' hreal' fun b' => ?_
        by_cases hb' : b' = b
        · rw [hb', Cache.caches]
          exact decide_eq_false hold
        · have hcaches := hnone' b'
          rw [Cache.caches] at hcaches ⊢
          rwa [show (((s.setBuf b v).hold p b).goto p (.filling b)).cache.buf b' = s.cache.buf b' from hother b' hb'] at hcaches
    · by_cases hb' : b' = b
      · exact .inr (hb' ▸ hclean)
      · exact .inl ⟨congrArg Buf.dev (hother b' hb'), congrArg Buf.sector (hother b' hb')⟩

theorem phase_wakeOn (pos : Pos) (b b' : Fin nbuf) : (pos.wakeOn b).phase b' = pos.phase b' := by
  cases pos with
  | asleep b'' dev sector =>
    rw [Pos.wakeOn]
    split_ifs <;> rfl
  | _ => rfl

theorem fits_wakeOn {held : Finset (Fin nbuf)} (h : pos.Fits held) (b : Fin nbuf) : (pos.wakeOn b).Fits held := by
  cases pos with
  | asleep b'' dev sector =>
    rw [Pos.wakeOn]
    split_ifs <;> exact h
  | _ => exact h

theorem mem_drop (q : ι) (b' : Fin nbuf) : b' ∈ (s.drop p b).holds q ↔ b' ∈ s.holds q ∧ ¬(q = p ∧ b' = b) := by
  rw [State.drop]
  by_cases hq : q = p
  · subst hq
    simp [and_comm]
  · simp [hq]

theorem Inv.brelse (h : Inv disk s) (hpos : s.pos p = .out) (hb : b ∈ s.holds p) (hchanged : s.changed b = false) :
    Follows disk s ((State.drop { s with cache := s.cache.brelse b, pos := fun q => (s.pos q).wakeOn b } p b).emit
      (.put (s.cache.buf b).dev (s.cache.buf b).sector (s.cache.buf b).data)) := by
  obtain ⟨hbusy, hreal, hheld⟩ := h.held hb
  rw [hpos] at hheld
  obtain ⟨hvalid, hdisk⟩ := hheld
  have hbuf : (s.cache.brelse b).buf b = { s.cache.buf b with busy := false } := Function.update_self ..
  refine h.touch (b := b) ⟨h.linked.brelse b, ?_, ?_, update_other _ _ _, fun _ _ => rfl, fun _ _ _ => rfl, ?_, ?_⟩ hreal ?_ ?_
    (h.refines.concat nofun)
  · exact (congrArg Buf.dev hbuf :)
  · exact (congrArg Buf.sector hbuf :)
  · intro dev sector hne
    show contents disk (s.trace ++ [_]) dev sector = _
    rw [contents_concat]
    exact apply_put_of_ne _ _ hne
  · refine fun b' hb' => phase_congr (fun q => ?_) fun q _ => phase_wakeOn _ _ _
    exact (mem_drop (s := { s with cache := s.cache.brelse b, pos := fun q => (s.pos q).wakeOn b }) q b').trans
      ⟨And.left, fun hq => ⟨hq, fun hand => hb' hand.2⟩⟩
  · have hphase : (State.drop { s with cache := s.cache.brelse b, pos := fun q => (s.pos q).wakeOn b } p b).phase b = fun _ => none := by
      funext q
      refine if_neg fun hq => ?_
      obtain ⟨hmem, hnot⟩ := (mem_drop q b).mp hq
      exact hnot ⟨(h.sound b).excl q p _ _ (phase_of_mem (hmem :)) (phase_of_mem hb), rfl⟩
    refine .intro (hbuf :) (hphase :) ⟨fun _ => ⟨hchanged, fun _ => ⟨hvalid, ?_, fun hdirty => ?_⟩⟩, nofun, nofun, nofun⟩
    · show _ = contents disk (s.trace ++ [_]) _ _
      rw [contents_concat]
      exact (apply_put_self _ _ _ _).symm
    · show _ = contents disk (s.trace ++ [_]) _ _
      rw [contents_concat]
      exact (hdisk hchanged hdirty).trans (apply_put_self _ _ _ _).symm
  · intro q
    refine fits_wakeOn ?_ b
    by_cases hq : q = p
    · rw [hq]
      show (s.pos p).Fits _
      rw [hpos]
      trivial
    · have hsame : (State.drop { s with cache := s.cache.brelse b, pos := fun q => (s.pos q).wakeOn b } p b).holds q = s.holds q :=
        Function.update_of_ne hq _ _
      show (s.pos q).Fits ((State.drop { s with cache := s.cache.brelse b, pos := fun q => (s.pos q).wakeOn b } p b).holds q)
      rw [hsame]
      exact h.fits q

theorem fits_wake {held : Finset (Fin nbuf)} (h : pos.Fits held) : pos.wake.Fits held := by
  cases pos with
  | asleep b dev sector => exact h
  | _ => exact h

theorem phase_wake (pos : Pos) (b : Fin nbuf) : pos.wake.phase b = pos.phase b := by
  cases pos <;> rfl

omit [DecidableEq ι] in
theorem Inv.start (hs : Start disk s) : Inv disk s := by
  obtain ⟨c, hc, hflags⟩ := hs.cache
  have hdev : ∀ b, (s.cache.buf b).dev = -1 := fun b => by rw [hc, Cache.binit_buf]
  have hfree : ∀ b, (s.cache.buf b).busy = false := fun b => by
    rw [hc, Cache.binit_buf]
    exact (hflags b).1
  have hreal : ∀ b, ¬Real (s.cache.buf b).dev := fun b => by
    rw [hdev]
    decide
  refine ⟨?_, fun b _ hb => absurd hb (hreal b), fun b => ?_, fun dev sector _ _ => ?_, fun p => ?_, ?_⟩
  · rw [hc]
    exact Cache.linked_binit c
  · have hphase : s.phase b = fun _ => none := by
      funext q
      exact if_neg (by simp [hs.holds])
    refine .intro rfl hphase ⟨fun _ => ⟨hs.changed b, fun hb => absurd hb (hreal b)⟩, nofun, fun hbusy => ?_, nofun⟩
    rw [hfree] at hbusy
    cases hbusy
  · rw [hs.trace, hs.disk]
    rfl
  · rw [hs.pos]
    trivial
  · rw [hs.trace]
    intro t₁ dev sector d t₂ heq
    simp at heq

/-! ### The steps -/

/-- There is no buffer for the sector that is looked for, or the log panics. -/
def Excused (s : State ι D) (a : Label ι D) (e : Panic) : Prop :=
  (∃ p dev sector, a = .go p ∧ s.pos p = .looking dev sector ∧ e = .noBuffers ∧ s.cache.bget dev sector = .noBuffers) ∨
    ∃ e', e = .log e'

theorem onLog_meets {Q : State ι D → Prop} {c : RedoLog.Act ι} {f : RedoLog.Sys ι → State ι D} (h : ∀ ops, Q (f ops)) :
    (s.onLog c f).Meets Q (Excused s a) := by
  rw [State.onLog]
  cases RedoLog.freeStep s.ops c with
  | next ops => exact h ops
  | fail e => exact .inr ⟨e, rfl⟩
  | disabled => trivial

theorem Inv.look (h : Inv disk s) (hpos : s.pos p = .looking dev sector) :
    (s.look p dev sector).Meets (Follows disk s) (Excused s (.go p)) := by
  have hfound := h.linked.bget dev sector
  rw [State.look]
  cases hget : s.cache.bget dev sector with
  | found b =>
    obtain ⟨hvalid, hfollows⟩ := h.found hpos hget
    dsimp only
    rw [if_pos hvalid]
    exact hfollows
  | busy b =>
    have hfits := h.fits p
    rw [hpos] at hfits
    show Follows disk s (s.goto p (.asleep b dev sector))
    exact h.goto s.ops (fun b => by rw [hpos]; rfl) hfits
  | recycled b => exact h.recycled hpos hget rfl
  | noBuffers => exact .inl ⟨p, dev, sector, rfl, hpos, rfl, hget⟩
  | loops =>
    rw [hget] at hfound
    cases hfound

theorem Inv.go (h : Inv disk s) (p : ι) : (s.step (.go p)).Meets (Follows disk s) (Excused s (.go p)) := by
  rw [State.step]
  cases hpos : s.pos p with
  | looking dev sector => exact h.look hpos
  | filling b =>
    obtain ⟨hok, hfollows⟩ := h.fill hpos
    simp only [State.fill, hok]
    exact hfollows
  | writing b =>
    obtain ⟨hok, hfollows⟩ := h.write hpos
    simp only [State.write, hok]
    exact hfollows
  | logging b => exact onLog_meets (h.record hpos)
  | out | asleep => trivial

theorem Inv.step (h : Inv disk s) (a : Label ι D) : (s.step a).Meets (Follows disk s) (Excused s a) := by
  have hlog : ∀ ops, Follows disk s { s with ops := ops } := fun ops =>
    ⟨⟨h.linked, h.unique, h.sound, h.uncached, h.fits, h.refines⟩, fun _ => .inl ⟨rfl, rfl⟩⟩
  have hgoto : ∀ {p ops pos}, s.pos p = .out → (∀ b, pos.phase b = .rest) → pos.Fits (s.holds p) →
      Follows disk s ({ s with ops := ops }.goto p pos) := fun hout hrest =>
    h.goto _ fun b => by rw [hrest, hout]; rfl
  cases a with
  | go p => exact h.go p
  | bread p dev sector => exact .ite (fun hcond => hgoto hcond.1.1 (fun _ => rfl) hcond.2) fun _ => trivial
  | modify p b d => exact .ite (fun hcond => h.modify hcond.1.1 hcond.2 d) fun _ => trivial
  | logWrite p b => exact .ite (fun hcond => onLog_meets fun _ => hgoto hcond.1.1 (fun _ => rfl) hcond.2) fun _ => trivial
  | bwrite p b =>
    refine .ite (fun hcond => .ite (fun hfree => ?_) fun _ => h.bwrite hcond.1.1 hcond.2) fun _ => trivial
    simp [(h.held hcond.2).1] at hfree
  | brelse p b =>
    refine .ite (fun hcond => .ite (fun hfree => ?_) fun _ => h.brelse hcond.1.1 hcond.2.1 hcond.2.2) fun _ => trivial
    simp [(h.held hcond.2.1).1] at hfree
  | kill p =>
    rw [State.step]
    exact onLog_meets fun ops => h.goto ops (phase_wake _) (fits_wake (h.fits p))
  | enter p | endOp p | commit p => exact .ite (fun _ => onLog_meets hlog) fun _ => trivial
  | tryBegin p | finish p =>
    rw [State.step]
    exact onLog_meets hlog

theorem inv_of_run {as : List (Label ι D)} (hrun : (system disk).Run as s) : Inv disk s := by
  refine Automaton.Run.invariant (I := fun _ s => Inv disk s) (fun s hs => .start hs) (fun as s a s' hinv ha => ?_) hrun
  have hstep := hinv.step a
  rw [show s.step a = .next s' from ha] at hstep
  exact hstep.1

/-! ### What the cache is -/

/-- The list, the buffers and their holders, and what `bread` returns. -/
structure CacheOf (disk : UInt32 → UInt32 → D) (s : State ι D) : Prop where
  linked : ∃ l : List (Fin nbuf), LinkedRing s.cache.next s.cache.prev none (l.map some) ∧ ∀ b, b ∈ l
  unique : ∀ b b', Real (s.cache.buf b).dev → (s.cache.buf b').dev = (s.cache.buf b).dev →
    (s.cache.buf b').sector = (s.cache.buf b).sector → b' = b
  busy : ∀ b, (s.cache.buf b).busy = true ↔ ∃ p, b ∈ s.holds p
  excl : ∀ p q b, b ∈ s.holds p → b ∈ s.holds q → p = q
  recycles : ∀ a s' b, s.step a = .next s' →
    ¬((s'.cache.buf b).dev = (s.cache.buf b).dev ∧ (s'.cache.buf b).sector = (s.cache.buf b).sector) →
    (s.cache.buf b).busy = false ∧ (s.cache.buf b).dirty = false
  refines : Refines disk s.trace
  panics : ∀ a e, s.step a = .fail e → e = .noBuffers ∨ ∃ e', e = .log e'

theorem cache_refines (disk : UInt32 → UInt32 → D) (as : List (Label ι D)) (s : State ι D) (hrun : (system disk).Run as s) :
    CacheOf disk s := by
  have hinv := inv_of_run hrun
  refine ⟨hinv.linked, hinv.unique, fun b => ⟨fun hbusy => ?_, fun ⟨p, hp⟩ => (hinv.held hp).1⟩, fun p q b hp hq => ?_,
    fun a s' b ha hkey => ?_, hinv.refines, fun a e hfail => ?_⟩
  · obtain ⟨p, x, hx⟩ := (hinv.sound b).owner hbusy
    exact ⟨p, mem_of_phase hx⟩
  · exact (hinv.sound b).excl p q _ _ (phase_of_mem hp) (phase_of_mem hq)
  · have hstep := hinv.step a
    rw [ha] at hstep
    have hclean := (hstep.2 b).resolve_left hkey
    simpa [Cache.clean] using hclean
  · have hstep := hinv.step a
    rw [hfail] at hstep
    exact hstep.imp_left fun ⟨_, _, _, _, _, he, _⟩ => he

end Steps

/-- Nobody has used the cache yet, and each block holds its number. -/
def fresh (ι : Type) : State ι Nat where
  cache := Cache.binit ⟨fun _ => ⟨false, false, false, 0, 0, 0⟩, fun _ => none, fun _ => none⟩
  disk _ sector := sector.toNat
  ops := RedoLog.initial mkfsSuperblock
  pos _ := .out
  holds _ := ∅
  changed _ := false
  trace := []

theorem start_fresh (ι : Type) : Start (fun _ sector => sector.toNat) (fresh ι) :=
  ⟨⟨_, rfl, fun _ => ⟨rfl, rfl, rfl⟩⟩, rfl, ⟨_, rfl⟩, fun _ => rfl, fun _ => rfl, fun _ => rfl, rfl⟩

/-- A process reads a block, changes and writes it, and another one reads it. -/
def writeThenRead : List (Label (Fin 2) Nat) :=
  [.bread 0 1 5, .go 0, .go 0, .modify 0 0 77, .bwrite 0 0, .go 0, .brelse 0 0, .bread 1 1 5, .go 1]

theorem cache_refines_writeThenRead : ∃ s : State (Fin 2) Nat, (system fun _ sector => sector.toNat).Run writeThenRead s ∧
    s.trace = [.got 1 5 5, .put 1 5 77, .put 1 5 77, .got 1 5 77] ∧ CacheOf (fun _ sector => sector.toNat) s := by
  have hobserve : ((system fun _ sector => sector.toNat).exec (fresh (Fin 2)) writeThenRead).map State.trace =
      some [.got 1 5 5, .put 1 5 77, .put 1 5 77, .got 1 5 77] := by decide +kernel
  obtain ⟨s, hs, htrace⟩ := Option.map_eq_some_iff.mp hobserve
  have hrun := (Automaton.Run.start (start_fresh (Fin 2))).exec hs
  exact ⟨s, hrun, htrace, cache_refines _ _ s hrun⟩

end Xv6.Bio
