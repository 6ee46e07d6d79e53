import Xv6.Lib.Transition
import Xv6.Log.Code

/-!
# Admission to the log

`begin_op`, `log_write` and `end_op` as called by any number of processes, in any interleaving of the
sections that hold `log.lock`. The two tests at the head of `log_write` are made without the lock, so they
are a step of their own, and other processes may run between them and the locked part that records the
sector. `commit` runs without the lock as well, but touches the shared log only where it clears `lh.n`.
-/

namespace Xv6.RedoLog

open Lib

/-- Where a process is in an operation; `used` lists the distinct sectors the operation has logged. -/
inductive Pc where
  | idle
  /-- In `begin_op`, before its tests. -/
  | beginning
  /-- Sleeping on `&log` in `begin_op`. -/
  | asleep
  | op (used : List Nat)
  /-- In `log_write`, past its tests and before `acquire`. -/
  | logging (used : List Nat) (sector : Nat)
  /-- In `end_op` with `do_commit` set, before and after `commit`. -/
  | committing
  | committed
deriving DecidableEq

structure Sys (P : Type) where
  log : Log
  pc : P → Pc

inductive Act (P : Type) where
  | enter (p : P)
  | tryBegin (p : P)
  | kill (p : P)
  | check (p : P) (sector : Nat)
  | append (p : P) (sector : Nat)
  | endOp (p : P)
  | commit (p : P)
  | finish (p : P)

/-! ### The sectors of the open transaction -/

section History

variable {P : Type} {as : List (Act P)} {s : Sys P}

def loggedBy (sectors : List Nat) : Act P → List Nat
  | .append _ b => sectors ++ [b]
  | .commit _ => []
  | _ => sectors

/-- The sectors recorded since the last commit, in the order of the `log_write` calls. -/
def sinceCommit (as : List (Act P)) : List Nat := as.foldl loggedBy []

@[simp] theorem sinceCommit_nil : sinceCommit ([] : List (Act P)) = [] := rfl

@[simp] theorem sinceCommit_concat (as : List (Act P)) (a : Act P) :
    sinceCommit (as ++ [a]) = loggedBy (sinceCommit as) a := by
  simp [sinceCommit]

/-- The in-memory header lists each sector of the open transaction once. -/
structure Recorded (as : List (Act P)) (s : Sys P) : Prop where
  size : s.log.size = logSize
  nodup : s.log.lh.Nodup
  mem : ∀ b, b ∈ s.log.lh ↔ b ∈ sinceCommit as

theorem Recorded.length (h : Recorded as s) :
    s.log.lh.length = (sinceCommit as).dedup.length := by
  refine (List.Perm.length_eq ?_).symm
  rw [List.perm_ext_iff_of_nodup (List.nodup_dedup _) h.nodup]
  intro b
  rw [List.mem_dedup, h.mem b]

end History

section Steps

variable {P : Type} [DecidableEq P] {as : List (Act P)} {s : Sys P}

def Sys.goto (s : Sys P) (p : P) (pc : Pc) : Sys P := { s with pc := Function.update s.pc p pc }

def Pc.wake : Pc → Pc
  | .asleep => .beginning
  | pc => pc

def Sys.wakeup (s : Sys P) : Sys P := { s with pc := fun p => (s.pc p).wake }

def beginOp (s : Sys P) (p : P) : Sys P :=
  if s.log.committing then s.goto p .asleep
  else if s.log.lh.length + (s.log.outstanding + 1) * maxOpBlocks > logSize then s.goto p .asleep
  else { s with log := { s.log with outstanding := s.log.outstanding + 1 } }.goto p (.op [])

def endOp (s : Sys P) (p : P) : Outcome Panic (Sys P) :=
  let log := { s.log with outstanding := s.log.outstanding - 1 }
  if log.committing then .fail .committing
  else if log.outstanding = 0 then .next ({ s with log := { log with committing := true } }.goto p .committing)
  else .next ({ s with log := log }.wakeup.goto p .idle)

@[simp] theorem goto_log (s : Sys P) (p : P) (pc : Pc) : (s.goto p pc).log = s.log := rfl

@[simp] theorem goto_self (s : Sys P) (p : P) (pc : Pc) : (s.goto p pc).pc p = pc := Function.update_self ..

variable {p : P}

@[simp] theorem goto_of_ne (s : Sys P) {q : P} (hq : q ≠ p) (pc : Pc) : (s.goto p pc).pc q = s.pc q :=
  Function.update_of_ne hq ..

/-- One step. An operation keeps to its budget: it logs at most `MAXOPBLOCKS` distinct sectors. -/
def step (s : Sys P) : Act P → Outcome Panic (Sys P)
  | .enter p =>
    match s.pc p with
    | .idle => .next (s.goto p .beginning)
    | _ => .disabled
  | .tryBegin p =>
    match s.pc p with
    | .beginning => .next (beginOp s p)
    | _ => .disabled
  | .kill p =>
    -- `kill` makes a sleeping process runnable, and `begin_op` goes round its loop again
    .next (s.goto p (s.pc p).wake)
  | .check p sector =>
    match s.pc p with
    | .op used =>
      if (used.insert sector).length ≤ maxOpBlocks then
        match s.log.check with
        | some panic => .fail panic
        | none => .next (s.goto p (.logging used sector))
      else .disabled
    | _ => .disabled
  | .append p sector =>
    match s.pc p with
    | .logging used b =>
      if b = sector then .next ({ s with log := s.log.record sector }.goto p (.op (used.insert sector)))
      else .disabled
    | _ => .disabled
  | .endOp p =>
    match s.pc p with
    | .op _ => endOp s p
    | _ => .disabled
  | .commit p =>
    match s.pc p with
    | .committing => .next ({ s with log := { s.log with lh := [] } }.goto p .committed)
    | _ => .disabled
  | .finish p =>
    match s.pc p with
    | .committed => .next ({ s with log := { s.log with committing := false } }.wakeup.goto p .idle)
    | _ => .disabled

/-- What `initlog` leaves on a disk with super block `sb`, before any process has called `begin_op`. -/
def initial (sb : Superblock) : Sys P := ⟨⟨sb.size - sb.nlog, sb.nlog, 0, false, []⟩, fun _ => .idle⟩

def protocol (P : Type) [DecidableEq P] : Automaton (Sys P) (Act P) Panic where
  start s := ∃ sb : Superblock, sb.nlog = logSize ∧ s = initial sb
  step := step

/-- One step without a budget. -/
def freeStep (s : Sys P) : Act P → Outcome Panic (Sys P)
  | .check p sector =>
    match s.pc p with
    | .op used =>
      match s.log.check with
      | some panic => .fail panic
      | none => .next (s.goto p (.logging used sector))
    | _ => .disabled
  | a => step s a

/-! ### What a step can do, and why -/

def Full (log : Log) : Prop := logSize < log.lh.length + (log.outstanding + 1) * maxOpBlocks

inductive Step (s : Sys P) : Act P → Sys P → Prop where
  | enter {p : P} (hp : s.pc p = .idle) : Step s (.enter p) (s.goto p .beginning)
  | sleep {p : P} (hp : s.pc p = .beginning) (hwhy : s.log.committing = true ∨ Full s.log) : Step s (.tryBegin p) (s.goto p .asleep)
  | begun {p : P} (hp : s.pc p = .beginning) (hcommitting : s.log.committing = false) (hroom : ¬ Full s.log) :
      Step s (.tryBegin p) ({ s with log := { s.log with outstanding := s.log.outstanding + 1 } }.goto p (.op []))
  | kill {p : P} : Step s (.kill p) (s.goto p (s.pc p).wake)
  | check {p : P} {used : List Nat} {b : Nat} (hp : s.pc p = .op used) : Step s (.check p b) (s.goto p (.logging used b))
  | append {p : P} {used : List Nat} {b : Nat} (hp : s.pc p = .logging used b) :
      Step s (.append p b) ({ s with log := s.log.record b }.goto p (.op (used.insert b)))
  | endLast {p : P} {used : List Nat} (hp : s.pc p = .op used) (hcommitting : s.log.committing = false) (hlast : s.log.outstanding ≤ 1) :
      Step s (.endOp p) ({ s with log := { s.log with outstanding := 0, committing := true } }.goto p .committing)
  | endOp {p : P} {used : List Nat} (hp : s.pc p = .op used) (hcommitting : s.log.committing = false) (hmore : 1 < s.log.outstanding) :
      Step s (.endOp p) ({ s with log := { s.log with outstanding := s.log.outstanding - 1 } }.wakeup.goto p .idle)
  | commit {p : P} (hp : s.pc p = .committing) : Step s (.commit p) ({ s with log := { s.log with lh := [] } }.goto p .committed)
  | finish {p : P} (hp : s.pc p = .committed) :
      Step s (.finish p) ({ s with log := { s.log with committing := false } }.wakeup.goto p .idle)

theorem beginOp_cases (hp : s.pc p = .beginning) : Step s (.tryBegin p) (beginOp s p) := by
  rw [beginOp]
  by_cases hcommitting : s.log.committing = true
  · rw [if_pos hcommitting]
    exact .sleep hp (.inl hcommitting)
  · rw [if_neg hcommitting]
    split
    · exact .sleep hp (.inr ‹_›)
    · exact .begun hp (by simpa using hcommitting) ‹_›

variable {t : Sys P} {a : Act P}

theorem endOp_cases {used : List Nat} (hp : s.pc p = .op used) (h : endOp s p = .next t) : Step s (.endOp p) t := by
  rw [endOp] at h
  by_cases hcommitting : s.log.committing = true
  · rw [if_pos hcommitting] at h
    cases h
  · rw [if_neg hcommitting] at h
    rw [Bool.not_eq_true] at hcommitting
    dsimp only at h
    by_cases hlast : s.log.outstanding - 1 = 0
    · rw [if_pos hlast, hlast] at h
      cases h
      exact .endLast hp hcommitting (by omega)
    · rw [if_neg hlast] at h
      cases h
      exact .endOp hp hcommitting (by omega)

theorem freeStep_cases (h : freeStep s a = .next t) : Step s a t := by
  cases a with
  | check p b =>
    simp only [freeStep] at h
    split at h
    · split at h
      · cases h
      · cases h
        exact .check ‹_›
    · cases h
  | tryBegin p =>
    simp only [freeStep, step] at h
    split at h
    · cases h
      exact beginOp_cases ‹_›
    · cases h
  | endOp p =>
    simp only [freeStep, step] at h
    split at h
    · exact endOp_cases ‹_› h
    · cases h
  | enter p =>
    simp only [freeStep, step] at h
    split at h
    · cases h
      exact .enter ‹_›
    · cases h
  | kill p =>
    cases h
    exact .kill
  | append p b =>
    simp only [freeStep, step] at h
    split at h
    · split at h
      · subst b
        cases h
        exact .append ‹_›
      · cases h
    · cases h
  | commit p =>
    simp only [freeStep, step] at h
    split at h
    · cases h
      exact .commit ‹_›
    · cases h
  | finish p =>
    simp only [freeStep, step] at h
    split at h
    · cases h
      exact .finish ‹_›
    · cases h

/-- With a budget fewer steps can be taken. -/
theorem step_free (h : step s a = .next t) : freeStep s a = .next t ∧
    ∀ p b used, a = .check p b → s.pc p = .op used → (used.insert b).length ≤ maxOpBlocks := by
  cases a with
  | check p b =>
    simp only [step, freeStep] at h ⊢
    split at h
    · split at h
      · rename_i used hp hbudget
        refine ⟨h, fun p' b' used' ha hused => ?_⟩
        cases ha
        rw [hp] at hused
        cases hused
        exact hbudget
      · cases h
    · cases h
  | _ => exact ⟨h, fun _ _ _ ha => by cases ha⟩

/-! ### What the header holds -/

/-- The header lists each sector logged since the last commit once. -/
structure Listed (as : List (Act P)) (s : Sys P) : Prop where
  nodup : s.log.lh.Nodup
  mem : ∀ b, b ∈ s.log.lh ↔ b ∈ sinceCommit as

theorem Listed.step (h : Listed as s) (hstep : Step s a t) : Listed (as ++ [a]) t := by
  cases hstep with
  | append hp =>
    refine ⟨nodup_record h.nodup _, fun b => ?_⟩
    rw [goto_log, mem_record, h.mem b, sinceCommit_concat, loggedBy, List.mem_append, List.mem_singleton]
  | commit hp => exact ⟨List.nodup_nil, by simp [Sys.goto, loggedBy]⟩
  | enter | sleep | begun | kill | check | endLast | endOp | finish =>
    exact ⟨h.nodup, by simpa [Sys.goto, Sys.wakeup, loggedBy] using h.mem⟩

theorem Step.size (hstep : Step s a t) : t.log.size = s.log.size := by
  cases hstep with
  | append hp => simp [Sys.goto]
  | _ => rfl

theorem Recorded.step (h : Recorded as s) (hstep : Step s a t) : Recorded (as ++ [a]) t := by
  have hlisted : Listed as s := ⟨h.nodup, h.mem⟩
  exact ⟨hstep.size.trans h.size, (hlisted.step hstep).nodup, (hlisted.step hstep).mem⟩

theorem recorded (h : (protocol P).Run as s) : Recorded as s := by
  refine h.invariant (I := Recorded) ?_ fun as s a s' ih ha => ih.step (freeStep_cases (step_free ha).1)
  rintro s ⟨sb, hnlog, rfl⟩
  exact ⟨hnlog, List.nodup_nil, by simp [initial]⟩

/-! ### What admission reserves -/

def Pc.used : Pc → Option (List Nat)
  | .op used => some used
  | .logging used _ => some used
  | _ => none

/-- The sectors an operation may still add to the log. -/
def Pc.reserve (pc : Pc) : Nat := (pc.used.map fun used => maxOpBlocks - used.length).getD 0

def Pc.commits : Pc → Bool
  | .committing => true
  | .committed => true
  | _ => false

@[simp] theorem used_wake (pc : Pc) : pc.wake.used = pc.used := by cases pc <;> rfl

@[simp] theorem commits_wake (pc : Pc) : pc.wake.commits = pc.commits := by cases pc <;> rfl

@[simp] theorem reserve_wake (pc : Pc) : pc.wake.reserve = pc.reserve := by simp [Pc.reserve]

variable {pc : Pc}

theorem goto_used (hused : pc.used = (s.pc p).used) (q : P) :
    ((s.goto p pc).pc q).used = (s.pc q).used := by
  by_cases hq : q = p
  · rw [hq, goto_self, hused]
  · rw [goto_of_ne s hq]

theorem goto_commits (hcommits : pc.commits = (s.pc p).commits) (q : P) :
    ((s.goto p pc).pc q).commits = (s.pc q).commits := by
  by_cases hq : q = p
  · rw [hq, goto_self, hcommits]
  · rw [goto_of_ne s hq]

/-- At most one process commits, and then no operation is under way. -/
structure Exclusive (s : Sys P) : Prop where
  quiet : s.log.committing = true → s.log.outstanding = 0
  committer : ∀ p, (s.pc p).commits = true → s.log.committing = true
  single : ∀ p q, (s.pc p).commits = true → (s.pc q).commits = true → p = q

omit [DecidableEq P] in
theorem Exclusive.of_commits (h : Exclusive s) (hcommits : ∀ q, (t.pc q).commits = (s.pc q).commits)
    (hcommitting : t.log.committing = s.log.committing)
    (hquiet : t.log.committing = true → t.log.outstanding = 0) : Exclusive t where
  quiet := hquiet
  committer p hp := hcommitting ▸ h.committer p (hcommits p ▸ hp)
  single p q hp hq := h.single p q (hcommits p ▸ hp) (hcommits q ▸ hq)

omit [DecidableEq P] in
theorem Exclusive.none_commits (h : Exclusive s) (hcommitting : s.log.committing = false) (p : P) :
    (s.pc p).commits = false := by
  have := h.committer p
  simp_all

theorem Exclusive.step (h : Exclusive s) (hstep : Step s a t) : Exclusive t := by
  cases hstep with
  | enter hp => exact h.of_commits (goto_commits (by rw [hp]; rfl)) rfl h.quiet
  | sleep hp hwhy => exact h.of_commits (goto_commits (by rw [hp]; rfl)) rfl h.quiet
  | begun hp hcommitting hroom =>
    exact h.of_commits (goto_commits (by dsimp only; rw [hp]; rfl)) rfl (by simp [hcommitting])
  | kill => exact h.of_commits (goto_commits (commits_wake _)) rfl h.quiet
  | check hp => exact h.of_commits (goto_commits (by rw [hp]; rfl)) rfl h.quiet
  | append hp => exact h.of_commits (goto_commits (by dsimp only; rw [hp]; rfl)) (by simp) (by simpa using h.quiet)
  | @endLast p used hp hcommitting hlast =>
    have hnone := h.none_commits hcommitting
    refine ⟨fun _ => rfl, fun _ _ => rfl, fun q r hq hr => ?_⟩
    have honly : ∀ q, (({ s with log := { s.log with outstanding := 0, committing := true } }.goto p
        .committing).pc q).commits = true → q = p := by
      intro q hq
      by_contra hne
      rw [goto_of_ne _ hne, hnone] at hq
      cases hq
    rw [honly q hq, honly r hr]
  | endOp hp hcommitting hmore =>
    refine h.of_commits (fun q => ?_) rfl (by simp [Sys.wakeup, hcommitting])
    rw [goto_commits (by simp [Sys.wakeup, hp, Pc.wake, Pc.commits])]
    exact commits_wake _
  | @commit p hp =>
    exact h.of_commits (goto_commits (by dsimp only; rw [hp]; rfl)) rfl h.quiet
  | @finish p hp =>
    have hnone : ∀ q, (({ s with log := { s.log with committing := false } }.wakeup.goto p .idle).pc q).commits =
        false := by
      intro q
      by_cases hq : q = p
      · rw [hq, goto_self]; rfl
      · rw [goto_of_ne _ hq]
        by_contra hc
        exact hq (h.single q p (by simpa [Sys.wakeup] using hc) (by rw [hp]; rfl))
    exact ⟨by simp [Sys.wakeup], fun q hq => by simp [hnone q] at hq, fun q r hq => by simp [hnone q] at hq⟩

/-- The operations under way are those `outstanding` counts, and what they may still log fits in the log. -/
structure Admitted (s : Sys P) (ops : Finset P) : Prop where
  active : ∀ p, p ∈ ops ↔ (s.pc p).used.isSome
  outstanding : s.log.outstanding = ops.card
  logged : ∀ p used, (s.pc p).used = some used → used ⊆ s.log.lh
  budget : ∀ p used b, s.pc p = .logging used b → (used.insert b).length ≤ maxOpBlocks
  room : s.log.lh.length + ∑ p ∈ ops, (s.pc p).reserve ≤ logSize

variable {ops : Finset P}

theorem Admitted.move (h : Admitted s ops)
    (hused : pc.used = (s.pc p).used)
    (hbudget : ∀ used b, pc = .logging used b → (used.insert b).length ≤ maxOpBlocks) :
    Admitted (s.goto p pc) ops where
  active q := by rw [goto_used hused, h.active]
  outstanding := h.outstanding
  logged q used hq := h.logged q used (goto_used hused q ▸ hq)
  budget q used b hq := by
    by_cases hqp : q = p
    · subst hqp
      exact hbudget used b (by simpa using hq)
    · exact h.budget q used b (by simpa [hqp] using hq)
  room := by simpa only [Pc.reserve, goto_used hused, goto_log] using h.room

omit [DecidableEq P] in
theorem Admitted.wakeup (h : Admitted s ops) : Admitted s.wakeup ops where
  active p := by rw [h.active, Sys.wakeup, used_wake]
  outstanding := h.outstanding
  logged p used hp := h.logged p used (by simpa [Sys.wakeup] using hp)
  budget p used b hp := by
    refine h.budget p used b ?_
    simp only [Sys.wakeup] at hp
    cases hpc : s.pc p <;> simp_all [Pc.wake]
  room := by simpa [Sys.wakeup] using h.room

theorem sum_goto_reserve (hp : p ∉ ops) (pc : Pc) :
    ∑ q ∈ ops, ((s.goto p pc).pc q).reserve = ∑ q ∈ ops, (s.pc q).reserve := by
  refine Finset.sum_congr rfl fun q hq => ?_
  rw [goto_of_ne]
  rintro rfl
  exact hp hq

omit [DecidableEq P] in
theorem sum_reserve_le (s : Sys P) (ops : Finset P) : ∑ q ∈ ops, (s.pc q).reserve ≤ ops.card * maxOpBlocks := by
  refine (Finset.sum_le_card_nsmul ops _ maxOpBlocks fun q _ => ?_).trans_eq (smul_eq_mul ..)
  unfold Pc.reserve
  cases (s.pc q).used <;> simp

theorem Admitted.begun (h : Admitted s ops) (hp : s.pc p = .beginning)
    (hroom : s.log.lh.length + (s.log.outstanding + 1) * maxOpBlocks ≤ logSize) :
    Admitted ({ s with log := { s.log with outstanding := s.log.outstanding + 1 } }.goto p (.op [])) (insert p ops) := by
  have hout : p ∉ ops := by simp [h.active, hp, Pc.used]
  refine ⟨fun q => ?_, by simp [h.outstanding, Finset.card_insert_of_notMem hout], fun q used hq => ?_,
    fun q used b hq => ?_, ?_⟩
  · by_cases hq : q = p
    · simp [hq, Pc.used]
    · simp [hq, h.active]
  · by_cases hqp : q = p
    · subst hqp
      obtain rfl : [] = used := by simpa [Pc.used] using hq
      exact List.nil_subset _
    · exact h.logged q used (by simpa [hqp] using hq)
  · by_cases hqp : q = p
    · simp [hqp] at hq
    · exact h.budget q used b (by simpa [hqp] using hq)
  · -- what `begin_op` has tested is the room for a whole budget of each operation
    have hsum := sum_reserve_le s ops
    rw [Finset.sum_insert hout, sum_goto_reserve hout, goto_self]
    rw [h.outstanding, Nat.add_one_mul] at hroom
    simp only [goto_log, Pc.reserve, Pc.used, Option.map_some, Option.getD_some, List.length_nil] at hsum ⊢
    omega

theorem Admitted.leave (h : Admitted s ops) (hp : (s.pc p).used.isSome)
    (hothers : ∀ q, q ≠ p → t.pc q = s.pc q) (hidle : (t.pc p).used = none) (hlh : t.log.lh = s.log.lh)
    (hout : t.log.outstanding = s.log.outstanding - 1) : Admitted t (ops.erase p) := by
  have hmem : p ∈ ops := (h.active p).mpr hp
  refine ⟨fun q => ?_, by rw [hout, h.outstanding, Finset.card_erase_of_mem hmem], fun q used hq => ?_,
    fun q used b hq => ?_, ?_⟩
  · by_cases hq : q = p
    · simp [hq, hidle]
    · simp [hq, h.active, hothers q hq]
  · by_cases hqp : q = p
    · rw [hqp, hidle] at hq
      cases hq
    · rw [hothers q hqp] at hq
      exact hlh ▸ h.logged q used hq
  · by_cases hqp : q = p
    · rw [hqp] at hq
      rw [hq] at hidle
      cases hidle
    · exact h.budget q used b (hothers q hqp ▸ hq)
  · have hsame : ∑ q ∈ ops.erase p, (t.pc q).reserve = ∑ q ∈ ops.erase p, (s.pc q).reserve :=
      Finset.sum_congr rfl fun q hq => by rw [hothers q (Finset.ne_of_mem_erase hq)]
    have hroom := h.room
    rw [← Finset.add_sum_erase ops _ hmem] at hroom
    rw [hsame, hlh]
    omega

/-- A sector that is new to the log is new to its operation, which had it in reserve. -/
theorem Admitted.append (h : Admitted s ops) {used : List Nat} {b : Nat}
    (hp : s.pc p = .logging used b) :
    Admitted ({ s with log := s.log.record b }.goto p (.op (used.insert b))) ops := by
  have hmem : p ∈ ops := (h.active p).mpr (by rw [hp]; rfl)
  have hsub : used ⊆ s.log.lh := h.logged p used (by rw [hp]; rfl)
  refine ⟨fun q => ?_, by simpa using h.outstanding, fun q used' hq => ?_, fun q used' b' hq => ?_, ?_⟩
  · by_cases hq : q = p
    · simp [hq, hmem, Pc.used]
    · simp [hq, h.active]
  · intro b' hb'
    simp only [goto_log, mem_record]
    by_cases hqp : q = p
    · subst hqp
      obtain rfl : used.insert b = used' := by simpa [Pc.used] using hq
      exact (List.mem_insert_iff.mp hb').symm.imp (fun hb' => hsub hb') id
    · exact .inl (h.logged q used' (by simpa [hqp] using hq) hb')
  · by_cases hqp : q = p
    · simp [hqp] at hq
    · exact h.budget q used' b' (by simpa [hqp] using hq)
  · have hroom := h.room
    have hbudget := h.budget p used b hp
    rw [← Finset.add_sum_erase ops _ hmem, hp] at hroom
    rw [← Finset.add_sum_erase ops _ hmem, sum_goto_reserve (Finset.notMem_erase p ops), goto_self, goto_log]
    simp only [Pc.reserve, Pc.used, Option.map_some, Option.getD_some] at hroom ⊢
    by_cases hb : b ∈ s.log.lh
    · have hgrow : used.length ≤ (used.insert b).length := (List.suffix_insert b used).length_le
      rw [Log.record, if_pos hb]
      omega
    · have hnew : b ∉ used := fun hb' => hb (hsub hb')
      rw [List.length_insert_of_not_mem hnew] at hbudget ⊢
      rw [Log.record, if_neg hb]
      simp only [List.length_append, List.length_cons, List.length_nil]
      omega

omit [DecidableEq P] in
theorem Admitted.clear (h : Admitted s ops) (hquiet : s.log.outstanding = 0) :
    Admitted { s with log := { s.log with lh := [] } } ∅ := by
  obtain rfl : ops = ∅ := Finset.card_eq_zero.mp (h.outstanding ▸ hquiet)
  refine ⟨h.active, h.outstanding, fun q used hq => ?_, h.budget, by simp⟩
  have := (h.active q).mpr (by rw [show (s.pc q).used = some used from hq]; rfl)
  simp at this

theorem Admitted.step (h : Admitted s ops) (hexcl : Exclusive s) (hstep : Step s a t)
    (hbudget : ∀ p b used, a = .check p b → s.pc p = .op used → (used.insert b).length ≤ maxOpBlocks) :
    ∃ ops', Admitted t ops' := by
  cases hstep with
  | enter hp => exact ⟨ops, h.move (by rw [hp]; rfl) (by simp)⟩
  | sleep hp hwhy => exact ⟨ops, h.move (by rw [hp]; rfl) (by simp)⟩
  | @begun p hp hcommitting hroom => exact ⟨insert p ops, h.begun hp (Nat.not_lt.mp hroom)⟩
  | @kill p =>
    refine ⟨ops, h.move (used_wake _) fun used b hpc => h.budget p used b ?_⟩
    cases hp : s.pc p <;> simp_all [Pc.wake]
  | @check p used b hp =>
    refine ⟨ops, h.move (by rw [hp]; rfl) fun used' b' hpc => ?_⟩
    obtain ⟨rfl, rfl⟩ := Pc.logging.inj hpc
    exact hbudget p _ _ rfl hp
  | append hp => exact ⟨ops, h.append hp⟩
  | @endLast p used hp hcommitting hlast =>
    exact ⟨ops.erase p, h.leave (by rw [hp]; rfl) (fun q hq => goto_of_ne _ hq _) (by simp [Pc.used]) rfl
      (by simp only [goto_log]; omega)⟩
  | @endOp p used hp hcommitting hmore =>
    have hused : (s.wakeup.pc p).used.isSome := by
      rw [Sys.wakeup, used_wake, hp]
      rfl
    exact ⟨ops.erase p, h.wakeup.leave hused (fun q hq => goto_of_ne _ hq _) (by simp [Pc.used]) rfl rfl⟩
  | @commit p hp =>
    have hquiet : s.log.outstanding = 0 := hexcl.quiet (hexcl.committer p (by rw [hp]; rfl))
    exact ⟨∅, (h.clear hquiet).move (by dsimp only; rw [hp]; rfl) (by simp)⟩
  | @finish p hp =>
    have hmove : Admitted (s.wakeup.goto p .idle) ops := by
      refine h.wakeup.move ?_ (by simp)
      rw [Sys.wakeup, used_wake, hp]
      rfl
    exact ⟨ops, ⟨hmove.active, hmove.outstanding, hmove.logged, hmove.budget, hmove.room⟩⟩

/-- Admission keeps the transaction within the `LOGSIZE` entries of the header, and `end_op` never panics. -/
theorem admitted (h : (protocol P).Run as s) :
    Exclusive s ∧ ∃ ops, Admitted s ops := by
  refine h.invariant (I := fun _ s => Exclusive s ∧ ∃ ops, Admitted s ops) ?_ ?_
  · rintro s ⟨sb, hnlog, rfl⟩
    exact ⟨⟨by simp [initial], by simp [initial, Pc.commits], by simp [initial, Pc.commits]⟩, ∅,
      ⟨by simp [initial, Pc.used], rfl, by simp [initial, Pc.used], by simp [initial], by simp [initial]⟩⟩
  · rintro as s a s' ⟨hexcl, ops, hadm⟩ ha
    obtain ⟨ha, hbudget⟩ := step_free ha
    have hstep := freeStep_cases ha
    exact ⟨hexcl.step hstep, hadm.step hexcl hstep hbudget⟩

/-! ### When a transaction is too big -/

omit [DecidableEq P] in
theorem Admitted.outstanding_pos (h : Admitted s ops) {used : List Nat}
    (hp : s.pc p = .op used) : 0 < s.log.outstanding := by
  rw [h.outstanding, Finset.card_pos]
  exact ⟨p, (h.active p).mpr (by rw [hp]; rfl)⟩

theorem check_of_full {log : Log} (hsize : log.size = logSize) (hfull : logSize - 1 ≤ log.lh.length) :
    log.check = some .tooBig := by
  rw [Log.check, if_pos]
  simp only [logSize, maxOpBlocks] at *
  omega

theorem check_of_room {log : Log} (hsize : log.size = logSize) (hroom : log.lh.length < logSize - 1)
    (hout : 0 < log.outstanding) : log.check = none := by
  rw [Log.check, if_neg, if_neg]
  · omega
  · simp only [logSize, maxOpBlocks] at *
    omega

/-- On a disk laid out by `mkfs` a `log_write` within its operation's budget panics exactly when the
operations since the last commit have logged `LOGSIZE - 1` distinct sectors; it goes on otherwise. -/
theorem tooBig_iff (as : List (Act P)) (s : Sys P) (h : (protocol P).Run as s) (p : P) (used : List Nat)
    (sector : Nat) (hp : s.pc p = .op used) (hbudget : (used.insert sector).length ≤ maxOpBlocks) :
    (step s (.check p sector) = .fail .tooBig ↔ logSize - 1 ≤ (sinceCommit as).dedup.length) ∧
    ((sinceCommit as).dedup.length < logSize - 1 →
      step s (.check p sector) = .next (s.goto p (.logging used sector))) := by
  obtain ⟨-, ops, hadm⟩ := admitted h
  have hrec := recorded h
  rw [← hrec.length]
  have hcheck : step s (.check p sector) = match s.log.check with
      | some panic => .fail panic
      | none => .next (s.goto p (.logging used sector)) := by
    simp only [step, hp, if_pos hbudget]
  by_cases hfull : logSize - 1 ≤ s.log.lh.length
  · rw [hcheck, check_of_full hrec.size hfull]
    exact ⟨iff_of_true rfl hfull, fun hroom => absurd hfull (by omega)⟩
  · rw [hcheck, check_of_room hrec.size (by omega) (hadm.outstanding_pos hp)]
    exact ⟨iff_of_false (by simp) hfull, fun _ => rfl⟩

end Steps

/-- Three processes are admitted; the first two log ten sectors each and the third nine. -/
def threeOps : List (Act Nat) :=
  (List.range 3).flatMap (fun p => [.enter p, .tryBegin p]) ++
    (List.range 29).flatMap (fun b => [.check (b / 10) b, .append (b / 10) b])

theorem run_start : (protocol Nat).Run [] (initial mkfsSuperblock) := .start ⟨mkfsSuperblock, rfl, rfl⟩

theorem threeOps_tooBig : ((protocol Nat).exec (initial mkfsSuperblock) threeOps).bind
    (fun s => (step s (.check 2 29)).error?) = some .tooBig := by
  decide

/-- The third process is within its budget at its tenth sector, and panics. -/
theorem admission_insufficient : ∃ (as : List (Act Nat)) (s : Sys Nat), (protocol Nat).Run as s ∧
    step s (.check 2 29) = .fail .tooBig := by
  obtain ⟨s, hs, hpanic⟩ := Option.bind_eq_some_iff.mp threeOps_tooBig
  exact ⟨threeOps, s, run_start.exec hs, Outcome.error?_eq_some.mp hpanic⟩

/-- A lone process at its first sector meets the hypotheses, and goes on. -/
theorem tooBig_iff_first : ∃ s t, (protocol Nat).Run [.enter 0, .tryBegin 0] s ∧ step s (.check 0 29) = .next t := by
  have hexec : (((protocol Nat).exec (initial mkfsSuperblock) [.enter 0, .tryBegin 0]).map fun s => s.pc 0) =
      some (.op []) := by decide
  obtain ⟨s, hs, hp⟩ := Option.map_eq_some_iff.mp hexec
  have hrun : (protocol Nat).Run [.enter 0, .tryBegin 0] s := run_start.exec hs
  exact ⟨s, _, hrun, (tooBig_iff _ s hrun 0 [] 29 hp (by decide)).2 (by decide)⟩

end Xv6.RedoLog
