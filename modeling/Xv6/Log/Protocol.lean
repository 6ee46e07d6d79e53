import Xv6.Log.Admission

/-!
# The log protocol without a budget

`begin_op`, `log_write` and `end_op` by any number of processes, where an operation may log as many sectors as it likes
until `log_write` panics. The counter `outstanding` is the number of operations under way, a commit starts when it falls
to zero, and a process that sleeps in `begin_op` has something to wait for.
-/

namespace Xv6.RedoLog

open Lib

section Steps

variable {P : Type} [DecidableEq P]

def freeProtocol (P : Type) [DecidableEq P] : Automaton (Sys P) (Act P) Panic where
  start s := ∃ sb : Superblock, s = initial sb
  step := freeStep

variable {s t : Sys P} {p : P} {a : Act P}

/-! ### What holds between the steps -/

/-- The operations under way, and what is in the header when there are none. -/
structure Counted (s : Sys P) (ops : Finset P) : Prop where
  active : ∀ p, p ∈ ops ↔ (s.pc p).used.isSome
  outstanding : s.log.outstanding = ops.card
  empty : s.log.committing = false → s.log.outstanding = 0 → s.log.lh = []
  cleared : ∀ p, s.pc p = .committed → s.log.lh = []
  asleep : ∀ p, s.pc p = .asleep → s.log.committing = true ∨ Full s.log

variable {ops : Finset P}

omit [DecidableEq P] in
theorem Counted.pos (h : Counted s ops) (hp : (s.pc p).used.isSome) : 0 < s.log.outstanding := by
  rw [h.outstanding, Finset.card_pos]
  exact ⟨p, (h.active p).mpr hp⟩

omit [DecidableEq P] in
theorem Counted.idle (h : Counted s ops) (hzero : s.log.outstanding = 0) (p : P) : (s.pc p).used = none := by
  have hempty : ops = ∅ := Finset.card_eq_zero.mp (h.outstanding ▸ hzero)
  have hnot := (h.active p).not.mp (by simp [hempty])
  simpa using hnot

theorem Counted.move (h : Counted s ops) {pc : Pc} (hused : pc.used = (s.pc p).used)
    (hcommitted : pc ≠ .committed) (hasleep : pc = .asleep → s.log.committing = true ∨ Full s.log) : Counted (s.goto p pc) ops where
  active q := by rw [goto_used hused, h.active]
  outstanding := h.outstanding
  empty := h.empty
  cleared q hq := by
    by_cases hqp : q = p
    · rw [hqp, goto_self] at hq
      exact absurd hq hcommitted
    · exact h.cleared q (by simpa [hqp] using hq)
  asleep q hq := by
    by_cases hqp : q = p
    · rw [hqp, goto_self] at hq
      exact hasleep hq
    · exact h.asleep q (by simpa [hqp] using hq)

omit [DecidableEq P] in
theorem wake_ne_asleep (pc : Pc) : pc.wake ≠ .asleep := by
  cases pc <;> simp [Pc.wake]

omit [DecidableEq P] in
theorem wake_eq_committed {pc : Pc} : pc.wake = .committed ↔ pc = .committed := by
  cases pc <;> simp [Pc.wake]

theorem full_mono {log log' : Log} (h : Full log) (hlh : log.lh.length ≤ log'.lh.length) (hout : log.outstanding ≤ log'.outstanding) :
    Full log' := by
  rw [Full] at h ⊢
  exact h.trans_le (Nat.add_le_add hlh (Nat.mul_le_mul_right _ (by omega)))

theorem length_le_record (log : Log) (b : Nat) : log.lh.length ≤ (log.record b).lh.length := by
  rw [Log.record]
  split <;> simp

theorem Counted.step (h : Counted s ops) (hexcl : Exclusive s) (hstep : Step s a t) :
    ∃ ops', Counted t ops' := by
  cases hstep with
  | enter hp => exact ⟨ops, h.move (by rw [hp]; rfl) (by simp) (by simp)⟩
  | sleep hp hwhy => exact ⟨ops, h.move (by rw [hp]; rfl) (by simp) fun _ => hwhy⟩
  | @kill p =>
    refine ⟨ops, ?_⟩
    by_cases hp : s.pc p = .committed
    · have hsame : s.goto p (s.pc p).wake = s := by
        rw [hp, Sys.goto, show Pc.wake .committed = s.pc p from hp.symm, Function.update_eq_self]
      rwa [hsame]
    · exact h.move (used_wake _) (fun hw => hp (wake_eq_committed.mp hw)) fun hw => absurd hw (wake_ne_asleep _)
  | check hp => exact ⟨ops, h.move (by rw [hp]; rfl) (by simp) (by simp)⟩
  | @begun p hp hcommitting hroom =>
    have hout : p ∉ ops := by simp [h.active, hp, Pc.used]
    refine ⟨insert p ops, fun q => ?_, by simp [h.outstanding, Finset.card_insert_of_notMem hout], fun _ hzero => by simp at hzero,
      fun q hq => ?_, fun q hq => ?_⟩
    · by_cases hqp : q = p
      · simp [hqp, Pc.used]
      · simp [hqp, h.active]
    · by_cases hqp : q = p
      · simp [hqp] at hq
      · exact h.cleared q (by simpa [hqp] using hq)
    · by_cases hqp : q = p
      · simp [hqp] at hq
      · refine (h.asleep q (by simpa [hqp] using hq)).imp (fun hc => hc) fun hfull => ?_
        exact full_mono hfull (le_refl s.log.lh.length) (Nat.le_succ s.log.outstanding)
  | @append p used b hp =>
    have hpos := h.pos (p := p) (by rw [hp]; rfl)
    have hcommitting : s.log.committing = false := by
      by_contra hc
      exact absurd (hexcl.quiet (by simpa using hc)) hpos.ne'
    refine ⟨ops, fun q => ?_, by simpa using h.outstanding, fun _ hzero => ?_, fun q hq => ?_, fun q hq => ?_⟩
    · by_cases hqp : q = p
      · rw [hqp, h.active, hp, goto_self]
        exact iff_of_true rfl rfl
      · simp [hqp, h.active]
    · rw [goto_log, record_outstanding] at hzero
      exact absurd hzero hpos.ne'
    · by_cases hqp : q = p
      · simp [hqp] at hq
      · have hcommit := hexcl.committer q (by rw [show s.pc q = .committed by simpa [hqp] using hq]; rfl)
        simp [hcommitting] at hcommit
    · by_cases hqp : q = p
      · simp [hqp] at hq
      · refine (h.asleep q (by simpa [hqp] using hq)).imp (by simp) fun hfull => ?_
        exact full_mono hfull (length_le_record _ _) (by simp)
  | @endLast p used hp hcommitting hlast =>
    have hmem : p ∈ ops := (h.active p).mpr (by rw [hp]; rfl)
    have hcard := h.outstanding
    have hpos := h.pos (p := p) (by rw [hp]; rfl)
    refine ⟨ops.erase p, fun q => ?_, ?_, fun hc => by simp at hc, fun q hq => ?_, fun q hq => .inl rfl⟩
    · by_cases hqp : q = p
      · simp [hqp, Pc.used]
      · simp [hqp, h.active]
    · rw [Finset.card_erase_of_mem hmem, goto_log]
      dsimp only
      omega
    · by_cases hqp : q = p
      · simp [hqp] at hq
      · exact h.cleared q (by simpa [hqp] using hq)
  | @endOp p used hp hcommitting hmore =>
    have hmem : p ∈ ops := (h.active p).mpr (by rw [hp]; rfl)
    refine ⟨ops.erase p, fun q => ?_, ?_, fun _ hzero => ?_, fun q hq => ?_, fun q hq => ?_⟩
    · by_cases hqp : q = p
      · simp [hqp, Pc.used]
      · simp [hqp, h.active, Sys.wakeup]
    · rw [Finset.card_erase_of_mem hmem, ← h.outstanding]
      rfl
    · have : s.log.outstanding - 1 = 0 := hzero
      omega
    · by_cases hqp : q = p
      · simp [hqp] at hq
      · exact h.cleared q (wake_eq_committed.mp (by simpa [hqp, Sys.wakeup] using hq))
    · by_cases hqp : q = p
      · simp [hqp] at hq
      · exact absurd (by simpa [hqp, Sys.wakeup] using hq) (wake_ne_asleep (s.pc q))
  | @commit p hp =>
    have hcommitting := hexcl.committer p (by rw [hp]; rfl)
    refine ⟨ops, fun q => ?_, h.outstanding, fun _ _ => rfl, fun _ _ => rfl, fun q hq => .inl hcommitting⟩
    rw [goto_used (by dsimp only; rw [hp]; rfl), h.active]
  | @finish p hp =>
    refine ⟨ops, fun q => ?_, h.outstanding, fun _ _ => h.cleared p hp, fun q hq => h.cleared p hp, fun q hq => ?_⟩
    · rw [goto_used (by simp [Sys.wakeup, hp, Pc.wake, Pc.used]), h.active]
      simp [Sys.wakeup]
    · by_cases hqp : q = p
      · simp [hqp] at hq
      · exact absurd (by simpa [hqp, Sys.wakeup] using hq) (wake_ne_asleep (s.pc q))

theorem counted {as : List (Act P)} (h : (freeProtocol P).Run as s) : Exclusive s ∧ Listed as s ∧ ∃ ops, Counted s ops := by
  refine h.invariant (I := fun as s => Exclusive s ∧ Listed as s ∧ ∃ ops, Counted s ops) ?_ ?_
  · rintro s ⟨sb, rfl⟩
    exact ⟨⟨by simp [initial], by simp [initial, Pc.commits], by simp [initial, Pc.commits]⟩, ⟨List.nodup_nil, by simp [initial]⟩, ∅,
      ⟨by simp [initial, Pc.used], rfl, fun _ _ => rfl, by simp [initial], by simp [initial]⟩⟩
  · rintro as s a s' ⟨hexcl, hlisted, ops, hcounted⟩ ha
    have hstep := freeStep_cases ha
    exact ⟨hexcl.step hstep, hlisted.step hstep, hcounted.step hexcl hstep⟩

/-! ### The protocol -/

/-- What every state of the protocol satisfies. A commit is between the end of the last operation and the clearing of the
header; then no operation is under way, so all that wrote the sectors in the header have ended. -/
structure Safe (as : List (Act P)) (s : Sys P) : Prop where
  quiet : s.log.committing = true → s.log.outstanding = 0
  noWrite : s.log.committing = true → ∀ p b, freeStep s (.check p b) = .disabled ∧ freeStep s (.append p b) = .disabled
  noPanic : ∀ p e, freeStep s (.endOp p) ≠ .fail e
  nodup : s.log.lh.Nodup
  commits : ∀ p, s.pc p = .committing → (∀ b, b ∈ s.log.lh ↔ b ∈ sinceCommit as) ∧ ∀ q, (s.pc q).used = none
  asleep : ∀ p, s.pc p = .asleep → s.log.committing = true ∨ 0 < s.log.outstanding ∧ Full s.log

theorem log_protocol (as : List (Act P)) (s : Sys P) (hrun : (freeProtocol P).Run as s) : Safe as s := by
  obtain ⟨hexcl, hlisted, ops, hcounted⟩ := counted hrun
  refine ⟨hexcl.quiet, fun hcommitting p b => ?_, fun p e => ?_, hlisted.nodup, fun p hp => ?_, fun p hp => ?_⟩
  · have hidle := hcounted.idle (hexcl.quiet hcommitting) p
    cases hpc : s.pc p with
    | op used | logging used b => simp [hpc, Pc.used] at hidle
    | _ => simp [freeStep, step, hpc]
  · cases hpc : s.pc p with
    | op used =>
      have hpos := hcounted.pos (p := p) (by rw [hpc]; rfl)
      have hcommitting : s.log.committing ≠ true := fun hc => absurd (hexcl.quiet hc) hpos.ne'
      have hstep : freeStep s (.endOp p) = endOp s p := by simp only [freeStep, step, hpc]
      rw [hstep, endOp, if_neg hcommitting]
      dsimp only
      split <;> simp
    | _ => simp [freeStep, step, hpc]
  · have hquiet := hexcl.quiet (hexcl.committer p (by rw [hp]; rfl))
    exact ⟨hlisted.mem, hcounted.idle hquiet⟩
  · by_cases hcommitting : s.log.committing = true
    · exact .inl hcommitting
    · refine .inr ?_
      rw [Bool.not_eq_true] at hcommitting
      obtain hc | hfull := hcounted.asleep p hp
      · simp [hcommitting] at hc
      · -- with no operation under way the header is empty, and there would be room
        refine ⟨Nat.pos_of_ne_zero fun hzero => ?_, hfull⟩
        rw [Full, hcounted.empty hcommitting hzero, hzero] at hfull
        exact absurd hfull (by decide)

end Steps

/-- Process 0 commits sector 7 and process 1 sleeps. -/
def commitAndWait : List (Act Nat) := [.enter 0, .tryBegin 0, .check 0 7, .append 0 7, .endOp 0, .enter 1, .tryBegin 1]

theorem log_protocol_commit : ∃ s, (freeProtocol Nat).Run commitAndWait s ∧ s.pc 0 = .committing ∧ s.pc 1 = .asleep ∧ s.log.lh = [7] ∧
    Safe commitAndWait s := by
  have hobserve : ((freeProtocol Nat).exec (initial mkfsSuperblock) commitAndWait).map (fun s => (s.pc 0, s.pc 1, s.log.lh)) =
      some (.committing, .asleep, [7]) := by decide
  obtain ⟨s, hs, hobserved⟩ := Option.map_eq_some_iff.mp hobserve
  simp only [Prod.mk.injEq] at hobserved
  obtain ⟨hcommitting, hasleep, hlh⟩ := hobserved
  have hstart : (freeProtocol Nat).start (initial mkfsSuperblock) := ⟨mkfsSuperblock, rfl⟩
  have hrun : (freeProtocol Nat).Run commitAndWait s := (Automaton.Run.start hstart).exec hs
  exact ⟨s, hrun, hcommitting, hasleep, hlh, log_protocol _ s hrun⟩

end Xv6.RedoLog
