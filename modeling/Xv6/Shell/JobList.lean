import Xv6.Lib.Links
import Xv6.Lib.Transition

/-!
# The job list of the shell in memory

`addJobToList`, `removeJobFromList` and `clearFinishedJobs` of `sh.c` on the jobs as they lie in memory. A pointer is an
address, and 0 is the null pointer. What `malloc` has given out and not got back is kept by its contents; any other memory
may change between the calls. `clearFinishedJobs` reads the job it has freed, which is taken to be as it was.
-/

namespace Xv6.Shell.JobList

open Lib

abbrev Addr : Type := Nat

/-- `struct job`, without the text that nothing reads. -/
structure Cell where
  jid : Int32
  fd : Int32
  next : Addr
  prev : Addr

structure State where
  mem : Addr → Cell
  first : Addr
  last : Addr
  fgJob : Addr
  jobcntr : Int32
  /-- The jobs that are allocated. -/
  live : Finset Addr
  /-- The descriptors closed so far. -/
  closed : List Int32

namespace State

def setNext (s : State) (a b : Addr) : State := { s with mem := Function.update s.mem a { s.mem a with next := b } }

def setPrev (s : State) (a b : Addr) : State := { s with mem := Function.update s.mem a { s.mem a with prev := b } }

def addJobToList (s : State) (job : Addr) : State :=
  if s.first = 0 then { s with first := job, last := job }
  else
    let s := s.setPrev job s.last
    let s := s.setNext s.last job
    { s with last := job }

def removeJobFromList (s : State) (job : Addr) : State :=
  let s := if s.fgJob = job then { s with fgJob := 0 } else s
  let s := if s.first = job ∧ s.last = job then { s with first := 0 } else s
  let s := if s.first = job then { s with first := (s.mem job).next } else s
  let s := if s.last = job then { s with last := (s.mem job).prev } else s
  let s := if (s.mem job).prev ≠ 0 then s.setNext (s.mem job).prev (s.mem job).next else s
  if (s.mem job).next ≠ 0 then s.setPrev (s.mem job).next (s.mem job).prev else s

def clearJob (s : State) (isJobEmpty : Int32 → Int32) (job : Addr) : State :=
  if isJobEmpty (s.mem job).jid = 1 then
    { s with closed := s.closed ++ [(s.mem job).fd], live := s.live.erase job }.removeJobFromList job
  else s

/-- The loop from a job on, for at most `n` rounds. -/
def clearFrom (isJobEmpty : Int32 → Int32) : Nat → Addr → State → Option State
  | _, 0, s => some s
  | 0, _, _ => none
  | n + 1, job, s =>
    let s := s.clearJob isJobEmpty job
    clearFrom isJobEmpty n (s.mem job).next s

def clearFinishedJobs (s : State) (isJobEmpty : Int32 → Int32) (n : Nat) : Option State := clearFrom isJobEmpty n s.first s

/-- The new job that `main` makes, with the next number. -/
def newJob (s : State) (job : Addr) (fd : Int32) : State :=
  { s with
    mem := Function.update s.mem job ⟨s.jobcntr + 1, fd, 0, 0⟩
    jobcntr := s.jobcntr + 1
    live := insert job s.live }

/-- The jobs that are found by going from one to the next. -/
def walk (s : State) : Nat → Addr → List Addr
  | _, 0 => []
  | 0, _ => []
  | n + 1, a => a :: s.walk n (s.mem a).next

def jobs (s : State) : List Addr := s.walk s.live.card s.first

end State

/-- A job is made at an address that is free and added; the finished jobs are removed, with the answers of `isJobEmpty`;
`fgJob` is set to null or to a listed job; memory that is not allocated changes. -/
inductive Label where
  | add (job : Addr) (fd : Int32)
  | clear (isJobEmpty : Int32 → Int32)
  | setFg (job : Addr)
  | scribble (a : Addr) (c : Cell)

def step (s : State) : Label → Outcome Empty State
  | .add job fd => if job ≠ 0 ∧ job ∉ s.live then .next ((s.newJob job fd).addJobToList job) else .disabled
  | .clear isJobEmpty =>
    match s.clearFinishedJobs isJobEmpty (s.live.card + 1) with
    | some s => .next s
    | none => .disabled
  | .setFg job => if job = 0 ∨ job ∈ s.jobs then .next { s with fgJob := job } else .disabled
  | .scribble a c => if a ∉ s.live then .next { s with mem := Function.update s.mem a c } else .disabled

structure Start (s : State) : Prop where
  first : s.first = 0
  last : s.last = 0
  fgJob : s.fgJob = 0
  jobcntr : s.jobcntr = 0
  live : s.live = ∅

def system : Automaton State Label Empty where
  start := Start
  step := step

/-! ### The list -/

/-- The list from first to last, with the header as the links of the null pointer. -/
def State.next (s : State) (a : Addr) : Addr := if a = 0 then s.first else (s.mem a).next

def State.prev (s : State) (a : Addr) : Addr := if a = 0 then s.last else (s.mem a).prev

abbrev Rep (s : State) (l : List Addr) : Prop := LinkedRing s.next s.prev 0 l

section Fields

variable (s : State) (a b : Addr)

@[simp] theorem next_zero : s.next 0 = s.first := if_pos rfl

@[simp] theorem prev_zero : s.prev 0 = s.last := if_pos rfl

variable {a}

theorem next_of_ne (ha : a ≠ 0) : s.next a = (s.mem a).next := if_neg ha

theorem prev_of_ne (ha : a ≠ 0) : s.prev a = (s.mem a).prev := if_neg ha

@[simp] theorem setNext_next (ha : a ≠ 0) : (s.setNext a b).next = Function.update s.next a b := by
  funext x
  by_cases hx : x = a
  · subst hx
    simp [State.next, State.setNext, ha]
  · simp [State.next, State.setNext, hx]

@[simp] theorem setNext_prev : (s.setNext a b).prev = s.prev := by
  funext x
  by_cases hx : x = a
  · subst hx
    simp [State.prev, State.setNext]
  · simp [State.prev, State.setNext, hx]

@[simp] theorem setPrev_prev (ha : a ≠ 0) : (s.setPrev a b).prev = Function.update s.prev a b := by
  funext x
  by_cases hx : x = a
  · subst hx
    simp [State.prev, State.setPrev, ha]
  · simp [State.prev, State.setPrev, hx]

@[simp] theorem setPrev_next : (s.setPrev a b).next = s.next := by
  funext x
  by_cases hx : x = a
  · subst hx
    simp [State.next, State.setPrev]
  · simp [State.next, State.setPrev, hx]

theorem set_jid (a b x : Addr) : ((s.setNext a b).mem x).jid = (s.mem x).jid ∧ ((s.setPrev a b).mem x).jid = (s.mem x).jid := by
  by_cases hx : x = a <;> simp [State.setNext, State.setPrev, hx]

variable {s} {s' : State}

theorem next_of_mem (hmem : s'.mem = s.mem) : s'.next = Function.update s.next 0 s'.first := by
  funext x
  by_cases hx : x = 0 <;> simp [State.next, hx, hmem]

theorem prev_of_mem (hmem : s'.mem = s.mem) : s'.prev = Function.update s.prev 0 s'.last := by
  funext x
  by_cases hx : x = 0 <;> simp [State.prev, hx, hmem]

end Fields

variable {l : List Addr}
variable {s : State} {job : Addr} {l₁ l₂ : List Addr}

theorem Rep.nonnull (h : Rep s l) {a : Addr} (ha : a ∈ l) : a ≠ 0 := by
  rintro rfl
  exact (List.nodup_cons.mp h.nodup).1 ha

theorem Rep.frame {s s' : State} (h : Rep s l) (hmem : ∀ a ∈ l, s'.mem a = s.mem a) (hfirst : s'.first = s.first)
    (hlast : s'.last = s.last) : Rep s' l := by
  refine LinkedRing.congr h (fun x hx => ?_) fun x hx => ?_ <;> obtain rfl | hx := List.mem_cons.mp hx
  · simpa using hfirst
  · rw [next_of_ne _ (h.nonnull hx), next_of_ne _ (h.nonnull hx), hmem x hx]
  · simpa using hlast
  · rw [prev_of_ne _ (h.nonnull hx), prev_of_ne _ (h.nonnull hx), hmem x hx]

/-! ### The functions -/

theorem Rep.first_eq_zero (h : Rep s l) : s.first = 0 ↔ l = [] := by
  rw [← next_zero, h.next_head]
  cases l with
  | nil => simp
  | cons a l => simpa using h.nonnull (a := a) (by simp)

theorem Rep.last_eq_zero (h : Rep s l) : s.last = 0 ↔ l = [] := by
  rw [← prev_zero, h.prev_head]
  cases hl : l.getLast? with
  | none => simpa using hl
  | some a =>
    refine iff_of_false (h.nonnull (List.mem_of_getLast? hl)) ?_
    rintro rfl
    cases hl

theorem add_rep (h : Rep s l) (hjob : job ≠ 0) (hnew : job ∉ l)
    (hnext : (s.mem job).next = 0) (hprev : (s.mem job).prev = 0) : Rep (s.addJobToList job) (l ++ [job]) := by
  have hring := h.append (a := job) (by simp [hjob, hnew])
  -- the new job has no successor, and no predecessor unless it gets one
  have hzeroNext : Function.update s.next job 0 = s.next := by
    rw [Function.update_eq_self_iff, next_of_ne s hjob, hnext]
  have hzeroPrev : Function.update s.prev job 0 = s.prev := by
    rw [Function.update_eq_self_iff, prev_of_ne s hjob, hprev]
  rw [hzeroNext, prev_zero] at hring
  by_cases hfirst : s.first = 0
  · have hadd : s.addJobToList job = { s with first := job, last := job } := if_pos hfirst
    have hnext' : (s.addJobToList job).next = Function.update s.next 0 job := by
      rw [hadd]
      exact next_of_mem rfl
    have hprev' : (s.addJobToList job).prev = Function.update s.prev 0 job := by
      rw [hadd]
      exact prev_of_mem rfl
    rw [h.last_eq_zero.mpr (h.first_eq_zero.mp hfirst), hzeroPrev] at hring
    rw [Rep, hnext', hprev']
    exact hring
  · have hadd : s.addJobToList job = { (s.setPrev job s.last).setNext s.last job with last := job } := if_neg hfirst
    have hlast : s.last ≠ 0 := fun hlast => hfirst (h.first_eq_zero.mpr (h.last_eq_zero.mp hlast))
    have hnext' : (s.addJobToList job).next = Function.update s.next s.last job := by
      rw [hadd]
      exact (setNext_next _ _ hlast).trans (by rw [setPrev_next])
    have hprev' : (s.addJobToList job).prev = Function.update (Function.update s.prev job s.last) 0 job := by
      rw [hadd, ← setPrev_prev s _ hjob, ← setNext_prev (s.setPrev job s.last) job]
      exact prev_of_mem rfl
    rw [Rep, hnext', hprev']
    exact hring

def State.unfocus (s : State) (job : Addr) : State := { s with fgJob := if s.fgJob = job then 0 else s.fgJob }

/-- What is stored depends on whether the job is the first and whether it is the last. -/
theorem remove_eq (hjob : job ≠ 0) (hfirst : s.first = job ↔ (s.mem job).prev = 0)
    (hlast : s.last = job ↔ (s.mem job).next = 0) (hself : (s.mem job).prev ≠ job) :
    s.removeJobFromList job =
      if (s.mem job).prev = 0 then
        if (s.mem job).next = 0 then { s.unfocus job with first := 0, last := 0 }
        else { s.unfocus job with first := (s.mem job).next }.setPrev (s.mem job).next 0
      else if (s.mem job).next = 0 then { s.unfocus job with last := (s.mem job).prev }.setNext (s.mem job).prev 0
      else ((s.unfocus job).setNext (s.mem job).prev (s.mem job).next).setPrev (s.mem job).next (s.mem job).prev := by
  have hfg : (if s.fgJob = job then { s with fgJob := 0 } else s) = s.unfocus job := by
    rw [State.unfocus]
    split <;> rfl
  rw [State.removeJobFromList, hfg]
  have hmem : (s.unfocus job).mem = s.mem := rfl
  have hfirst' : (s.unfocus job).first = s.first := rfl
  have hlast' : (s.unfocus job).last = s.last := rfl
  generalize s.unfocus job = s₀ at *
  rw [← hfirst', ← hmem] at hfirst
  rw [← hlast', ← hmem] at hlast
  rw [← hmem] at hself ⊢
  by_cases hp : (s₀.mem job).prev = 0
  · by_cases hn : (s₀.mem job).next = 0
    · simp [hp, hn, hfirst, hlast, hjob.symm]
    · simp [hp, hn, hfirst, hlast]
  · by_cases hn : (s₀.mem job).next = 0
    · simp [hp, hn, hfirst, hlast, State.setNext, hself.symm]
    · simp [hp, hn, hfirst, hlast, State.setNext, hself.symm]

section Remove

variable {s : State} {l₁ l₂ : List Addr} {job : Addr} (h : Rep s (l₁ ++ job :: l₂))

include h

theorem Rep.prev_ne : (s.mem job).prev ≠ job := by
  have hjob := h.nonnull (a := job) (by simp)
  rw [← prev_of_ne s hjob, h.split.2]
  cases hlast : l₁.getLast? with
  | none => exact hjob.symm
  | some a =>
    rintro rfl
    have hnodup := (List.nodup_cons.mp h.nodup).2
    exact (List.nodup_append.mp hnodup).2.2 a (List.mem_of_getLast? hlast) a (by simp) rfl

theorem Rep.first_iff : s.first = job ↔ (s.mem job).prev = 0 := by
  have hjob := h.nonnull (a := job) (by simp)
  rw [← next_zero, h.next_head, ← prev_of_ne s hjob, h.split.2]
  cases l₁ with
  | nil => simp
  | cons a l₁ =>
    refine iff_of_false (fun heq => ?_) ?_
    · obtain rfl : a = job := heq
      have hnodup := (List.nodup_cons.mp h.nodup).2
      exact absurd rfl ((List.nodup_append.mp hnodup).2.2 a (by simp) a (by simp))
    · rw [List.getLast?_cons]
      refine h.nonnull ?_
      rw [Option.getD_some]
      cases hlast : l₁.getLast? with
      | none => simp
      | some b => simp [List.mem_of_getLast? hlast]

theorem Rep.last_iff : s.last = job ↔ (s.mem job).next = 0 := by
  have hjob := h.nonnull (a := job) (by simp)
  rw [← prev_zero, h.prev_head, ← next_of_ne s hjob, h.split.1, List.getLast?_append, List.getLast?_cons, Option.some_or, Option.getD_some]
  cases l₂ with
  | nil => simp
  | cons a l₂ =>
    refine iff_of_false ?_ (h.nonnull (by simp))
    rw [List.getLast?_cons, Option.getD_some]
    rintro rfl
    have hnodup := (List.nodup_append.mp (List.nodup_cons.mp h.nodup).2).2.1
    refine (List.nodup_cons.mp hnodup).1 ?_
    cases hlast : l₂.getLast? with
    | none => simp
    | some b => simp [List.mem_of_getLast? hlast]

theorem remove_links : (s.removeJobFromList job).next = Function.update s.next (s.prev job) (s.next job) ∧
    (s.removeJobFromList job).prev = Function.update s.prev (s.next job) (s.prev job) := by
  have hjob := h.nonnull (a := job) (by simp)
  have hnext : (s.unfocus job).next = s.next := rfl
  have hprev : (s.unfocus job).prev = s.prev := rfl
  rw [remove_eq hjob h.first_iff h.last_iff h.prev_ne, prev_of_ne s hjob, next_of_ne s hjob]
  by_cases hp : (s.mem job).prev = 0
  · by_cases hn : (s.mem job).next = 0
    · rw [if_pos hp, if_pos hn, hp, hn]
      exact ⟨next_of_mem rfl, prev_of_mem rfl⟩
    · rw [if_pos hp, if_neg hn, hp, setPrev_next, setPrev_prev _ _ hn]
      exact ⟨next_of_mem rfl, by rw [← hprev]; rfl⟩
  · by_cases hn : (s.mem job).next = 0
    · rw [if_neg hp, if_pos hn, hn, setNext_prev, setNext_next _ _ hp]
      exact ⟨by rw [← hnext]; rfl, prev_of_mem rfl⟩
    · rw [if_neg hp, if_neg hn, setPrev_next, setNext_next _ _ hp, setPrev_prev _ _ hn, setNext_prev, hnext, hprev]
      exact ⟨rfl, rfl⟩

theorem remove_rep : Rep (s.removeJobFromList job) (l₁ ++ l₂) := by
  obtain ⟨hnext, hprev⟩ := remove_links h
  rw [Rep, hnext, hprev]
  exact h.erase

theorem remove_frame : (∀ a, ((s.removeJobFromList job).mem a).jid = (s.mem a).jid) ∧
    (s.removeJobFromList job).fgJob = (s.unfocus job).fgJob ∧ (s.removeJobFromList job).live = s.live ∧
    (s.removeJobFromList job).jobcntr = s.jobcntr := by
  have hjob := h.nonnull (a := job) (by simp)
  rw [remove_eq hjob h.first_iff h.last_iff h.prev_ne]
  split_ifs
  · exact ⟨fun _ => rfl, rfl, rfl, rfl⟩
  · exact ⟨fun x => (set_jid _ _ _ x).2, rfl, rfl, rfl⟩
  · exact ⟨fun x => (set_jid _ _ _ x).1, rfl, rfl, rfl⟩
  · exact ⟨fun x => (set_jid _ _ _ x).2.trans (set_jid _ _ _ x).1, rfl, rfl, rfl⟩

end Remove

variable {n : Nat}

theorem walk_eq (h : Rep s (l₁ ++ l₂)) (hn : l₂.length ≤ n) :
    s.walk n (l₂.head?.getD 0) = l₂ := by
  induction l₂ generalizing l₁ n with
  | nil => cases n <;> rfl
  | cons a l₂ ih =>
    obtain ⟨n, rfl⟩ : ∃ k, n = k + 1 := ⟨n - 1, by simp at hn; omega⟩
    have ha := h.nonnull (a := a) (by simp)
    obtain ⟨a, rfl⟩ := Nat.exists_eq_succ_of_ne_zero ha
    show (a + 1) :: s.walk n (s.mem (a + 1)).next = _
    have hrest : Rep s ((l₁ ++ [a + 1]) ++ l₂) := by simpa using h
    rw [← next_of_ne s ha, h.split.1, ih hrest (by simpa using hn)]

/-- What `clearFinishedJobs` does to the rest of the list. -/
structure Cleared (isJobEmpty : Int32 → Int32) (l₁ l₂ : List Addr) (s s' : State) : Prop where
  rep : Rep s' (l₁ ++ l₂.filter fun a => isJobEmpty (s.mem a).jid ≠ 1)
  jid : ∀ a, (s'.mem a).jid = (s.mem a).jid
  fgJob : s'.fgJob = if s.fgJob ∈ l₂ ∧ isJobEmpty (s.mem s.fgJob).jid = 1 then 0 else s.fgJob
  live : ∀ a, a ∈ s'.live ↔ a ∈ s.live ∧ ¬(a ∈ l₂ ∧ isJobEmpty (s.mem a).jid = 1)
  jobcntr : s'.jobcntr = s.jobcntr

theorem clearFrom_succ (isJobEmpty : Int32 → Int32) (n : Nat) (hjob : job ≠ 0) (s : State) :
    State.clearFrom isJobEmpty (n + 1) job s =
      State.clearFrom isJobEmpty n ((s.clearJob isJobEmpty job).mem job).next (s.clearJob isJobEmpty job) := by
  obtain ⟨job, rfl⟩ := Nat.exists_eq_succ_of_ne_zero hjob
  rfl

theorem clearJob_empty {isJobEmpty : Int32 → Int32} (h : Rep s (l₁ ++ job :: l₂))
    (hempty : isJobEmpty (s.mem job).jid = 1) :
    Rep (s.clearJob isJobEmpty job) (l₁ ++ l₂) ∧ ((s.clearJob isJobEmpty job).mem job).next = (s.mem job).next ∧
    (∀ a, ((s.clearJob isJobEmpty job).mem a).jid = (s.mem a).jid) ∧ (s.clearJob isJobEmpty job).fgJob = (s.unfocus job).fgJob ∧
    (s.clearJob isJobEmpty job).live = s.live.erase job ∧ (s.clearJob isJobEmpty job).jobcntr = s.jobcntr := by
  have hjob := h.nonnull (a := job) (by simp)
  rw [State.clearJob, if_pos hempty]
  have h₀ : Rep { s with closed := s.closed ++ [(s.mem job).fd], live := s.live.erase job } (l₁ ++ job :: l₂) := h
  obtain ⟨hjid, hfg, hlive, hcntr⟩ := remove_frame h₀
  refine ⟨remove_rep h₀, ?_, hjid, hfg, hlive, hcntr⟩
  rw [← next_of_ne _ hjob, (remove_links h₀).1, Function.update_of_ne, next_of_ne _ hjob]
  rw [prev_of_ne _ hjob]
  exact h.prev_ne.symm

theorem clearFrom_cleared (isJobEmpty : Int32 → Int32) (h : Rep s (l₁ ++ l₂)) :
    ∃ s', (∀ n, l₂.length ≤ n → State.clearFrom isJobEmpty n (l₂.head?.getD 0) s = some s') ∧ Cleared isJobEmpty l₁ l₂ s s' := by
  induction l₂ generalizing l₁ s with
  | nil =>
    refine ⟨s, fun n _ => by cases n <;> rfl, ?_, fun _ => rfl, by simp, by simp, rfl⟩
    simpa using h
  | cons a l₂ ih =>
    have ha := h.nonnull (a := a) (by simp)
    have hnext : (s.mem a).next = l₂.head?.getD 0 := by rw [← next_of_ne s ha, h.split.1]
    have hround : ∀ {s'}, ((s.clearJob isJobEmpty a).mem a).next = (s.mem a).next →
        (∀ n, l₂.length ≤ n → State.clearFrom isJobEmpty n (l₂.head?.getD 0) (s.clearJob isJobEmpty a) = some s') →
        ∀ n, (a :: l₂).length ≤ n → State.clearFrom isJobEmpty n ((a :: l₂).head?.getD 0) s = some s' := by
      intro s' hsame hrest n hn
      obtain ⟨n, rfl⟩ : ∃ k, n = k + 1 := ⟨n - 1, by simp at hn; omega⟩
      show State.clearFrom isJobEmpty (n + 1) a s = some s'
      rw [clearFrom_succ _ _ ha, hsame, hnext]
      exact hrest n (by simpa using hn)
    by_cases hempty : isJobEmpty (s.mem a).jid = 1
    · obtain ⟨hrep, hsame, hjid, hfg, hlive, hcntr⟩ := clearJob_empty h hempty
      obtain ⟨s', hs', hcleared⟩ := ih hrep
      refine ⟨s', hround hsame hs', ?_, fun x => (hcleared.jid x).trans (hjid x), ?_, fun x => ?_, hcleared.jobcntr.trans hcntr⟩
      · have hfilter := hcleared.rep
        simp only [hjid] at hfilter
        simpa [hempty] using hfilter
      · rw [hcleared.fgJob, hfg, hjid, State.unfocus]
        by_cases hfa : s.fgJob = a
        · have hzero : 0 ∉ l₂ := fun hmem => h.nonnull (a := 0) (by simp [hmem]) rfl
          simp [hfa, hempty, hzero]
        · simp [hfa]
      · rw [hcleared.live, hlive, hjid, Finset.mem_erase, List.mem_cons]
        by_cases hx : x = a
        · simp [hx, hempty]
        · simp [hx]
    · have hclear : s.clearJob isJobEmpty a = s := if_neg hempty
      have hrest : Rep s ((l₁ ++ [a]) ++ l₂) := by simpa using h
      obtain ⟨s', hs', hcleared⟩ := ih hrest
      refine ⟨s', hround (by rw [hclear]) (by rw [hclear]; exact hs'), ?_, hcleared.jid, ?_, fun x => ?_, hcleared.jobcntr⟩
      · simpa [hempty] using hcleared.rep
      · rw [hcleared.fgJob]
        by_cases hfa : s.fgJob = a
        · simp [hfa, hempty]
        · simp [hfa]
      · rw [hcleared.live, List.mem_cons]
        by_cases hx : x = a
        · simp [hx, hempty]
        · simp [hx]

theorem add_frame (s : State) (job : Addr) : (∀ a, ((s.addJobToList job).mem a).jid = (s.mem a).jid) ∧
    (s.addJobToList job).fgJob = s.fgJob ∧ (s.addJobToList job).live = s.live ∧ (s.addJobToList job).jobcntr = s.jobcntr := by
  rw [State.addJobToList]
  split
  · exact ⟨fun _ => rfl, rfl, rfl, rfl⟩
  · exact ⟨fun x => (set_jid _ _ _ x).1.trans (set_jid _ _ _ x).2, rfl, rfl, rfl⟩

/-! ### Along a run -/

def Label.isAdd : Label → Bool
  | .add .. => true
  | _ => false

def created (as : List Label) : Nat := as.countP Label.isAdd

def State.jidOf (s : State) (a : Addr) : Int := (s.mem a).jid.toInt

/-- The numbers are those of `main`'s counter, as long as it has not run over. -/
structure Numbered (n : Nat) (s : State) (l : List Addr) : Prop where
  jobcntr : s.jobcntr.toInt = n
  increasing : (l.map s.jidOf).Pairwise (· < ·)
  le : ∀ a ∈ l, s.jidOf a ≤ n

structure Inv (as : List Label) (s : State) (l : List Addr) : Prop where
  rep : Rep s l
  live : ∀ a, a ∈ s.live ↔ a ∈ l
  fgJob : s.fgJob = 0 ∨ s.fgJob ∈ l
  numbered : created as < 2 ^ 31 → Numbered (created as) s l

variable {as : List Label}

theorem Inv.card (h : Inv as s l) : s.live.card = l.length := by
  have hlive : s.live = l.toFinset := Finset.ext fun a => by rw [h.live, List.mem_toFinset]
  rw [hlive, List.toFinset_card_of_nodup (List.nodup_cons.mp h.rep.nodup).2]

theorem Inv.jobs (h : Inv as s l) : s.jobs = l := by
  rw [State.jobs, h.card, ← next_zero, h.rep.next_head]
  have hrep : Rep s ([] ++ l) := h.rep
  exact walk_eq hrep le_rfl

theorem Inv.clear (h : Inv as s l) (isJobEmpty : Int32 → Int32) :
    ∃ s', (∀ n, l.length ≤ n → s.clearFinishedJobs isJobEmpty n = some s') ∧ Cleared isJobEmpty [] l s s' := by
  have hrep : Rep s ([] ++ l) := h.rep
  obtain ⟨s', hs', hcleared⟩ := clearFrom_cleared isJobEmpty hrep
  refine ⟨s', fun n hn => ?_, hcleared⟩
  rw [State.clearFinishedJobs, ← next_zero, h.rep.next_head]
  exact hs' n hn

theorem created_concat (as : List Label) (a : Label) : created (as ++ [a]) = created as + if a.isAdd then 1 else 0 := by
  rw [created, List.countP_append, List.countP_singleton]
  rfl

theorem toInt_succ {x : Int32} (hx : x.toInt = n) (hn : n + 1 < 2 ^ 31) : (x + 1).toInt = (n + 1 : Nat) := by
  rw [Int32.toInt_add, hx, show (1 : Int32).toInt = 1 from rfl, Int.bmod_eq_of_le] <;> omega

theorem Numbered.add {s s' : State} (h : Numbered n s l) (hn : n + 1 < 2 ^ 31)
    (hcntr : s'.jobcntr = s.jobcntr + 1) (hjid : ∀ a ∈ l, s'.jidOf a = s.jidOf a) (hjob : (s'.mem job).jid = s.jobcntr + 1) :
    Numbered (n + 1) s' (l ++ [job]) := by
  have hlast : s'.jidOf job = (n + 1 : Nat) := by
    rw [State.jidOf, hjob]
    exact toInt_succ h.jobcntr hn
  refine ⟨by rw [hcntr]; exact toInt_succ h.jobcntr hn, ?_, fun a ha => ?_⟩
  · rw [List.map_append, List.pairwise_append, List.map_congr_left hjid]
    refine ⟨h.increasing, List.pairwise_singleton _ _, fun x hx y hy => ?_⟩
    obtain ⟨a, ha, rfl⟩ := List.mem_map.mp hx
    rw [List.map_singleton, List.mem_singleton] at hy
    rw [hy, hlast]
    exact (h.le a ha).trans_lt (by omega)
  · rcases List.mem_append.mp ha with ha | ha
    · rw [hjid a ha]
      exact (h.le a ha).trans (by omega)
    · rw [List.mem_singleton.mp ha, hlast]

theorem Numbered.sublist {s s' : State} {l' : List Addr} (h : Numbered n s l) (hcntr : s'.jobcntr = s.jobcntr)
    (hjid : ∀ a ∈ l', s'.jidOf a = s.jidOf a) (hsub : l'.Sublist l) : Numbered n s' l' where
  jobcntr := by rw [hcntr, h.jobcntr]
  increasing := by
    rw [List.map_congr_left hjid]
    exact h.increasing.sublist (hsub.map _)
  le a ha := by
    rw [hjid a ha]
    exact h.le a (hsub.subset ha)

theorem newJob_self (s : State) (job : Addr) (fd : Int32) : (s.newJob job fd).mem job = ⟨s.jobcntr + 1, fd, 0, 0⟩ :=
  Function.update_self ..

theorem newJob_of_ne (s : State) {job a : Addr} (fd : Int32) (ha : a ≠ job) : (s.newJob job fd).mem a = s.mem a :=
  Function.update_of_ne ha _ _

theorem Inv.add (h : Inv as s l) (job : Addr) (fd : Int32) (hjob : job ≠ 0) (hnew : job ∉ l) :
    Inv (as ++ [.add job fd]) ((s.newJob job fd).addJobToList job) (l ++ [job]) := by
  obtain ⟨hjid, hfg, hlive, hcntr⟩ := add_frame (s.newJob job fd) job
  have hmem : ∀ a ∈ l, (s.newJob job fd).mem a = s.mem a := fun a ha => newJob_of_ne s fd (by rintro rfl; exact hnew ha)
  have hself := newJob_self s job fd
  refine ⟨?_, fun a => ?_, ?_, fun hcreated => ?_⟩
  · exact add_rep (h.rep.frame hmem rfl rfl) hjob hnew (by rw [hself]) (by rw [hself])
  · rw [hlive, List.mem_append, List.mem_singleton]
    show a ∈ insert job s.live ↔ _
    rw [Finset.mem_insert, h.live, or_comm]
  · rw [hfg]
    exact h.fgJob.imp_right (List.mem_append_left _)
  · rw [created_concat] at hcreated ⊢
    refine (h.numbered (by omega)).add hcreated hcntr (fun a ha => ?_) ?_
    · rw [State.jidOf, hjid, hmem a ha]
      rfl
    · rw [hjid, hself]

theorem Inv.step {s s' : State} {a : Label} (h : Inv as s l) (hstep : step s a = .next s') :
    ∃ l', Inv (as ++ [a]) s' l' := by
  cases a with
  | add job fd =>
    rw [JobList.step] at hstep
    split at hstep
    · rename_i hfresh
      cases hstep
      rw [h.live] at hfresh
      exact ⟨_, h.add job fd hfresh.1 hfresh.2⟩
    · cases hstep
  | clear isJobEmpty =>
    obtain ⟨t, ht, hcleared⟩ := h.clear isJobEmpty
    rw [JobList.step, ht _ (by rw [h.card]; omega)] at hstep
    cases hstep
    refine ⟨_, hcleared.rep, fun a => ?_, ?_, fun hcreated => ?_⟩
    · rw [hcleared.live, h.live, List.nil_append, List.mem_filter]
      simp only [ne_eq, decide_not, Bool.not_eq_true', decide_eq_false_iff_not, not_and]
      exact ⟨fun ⟨hl, hne⟩ => ⟨hl, hne hl⟩, fun ⟨hl, hne⟩ => ⟨hl, fun _ => hne⟩⟩
    · rw [hcleared.fgJob]
      split
      · exact .inl rfl
      · rename_i hnot
        refine h.fgJob.imp_right fun hl => ?_
        rw [List.nil_append, List.mem_filter]
        exact ⟨hl, by simpa [hl] using hnot⟩
    · rw [created_concat] at hcreated ⊢
      exact (h.numbered (by omega)).sublist hcleared.jobcntr (fun a _ => congrArg Int32.toInt (hcleared.jid a)) (by simp)
  | setFg job =>
    rw [JobList.step] at hstep
    split at hstep
    · rename_i hlisted
      cases hstep
      rw [h.jobs] at hlisted
      refine ⟨l, h.rep, h.live, hlisted, fun hcreated => ?_⟩
      rw [created_concat] at hcreated ⊢
      exact (h.numbered (by omega)).sublist rfl (fun _ _ => rfl) (List.Sublist.refl l)
    · cases hstep
  | scribble a c =>
    rw [JobList.step] at hstep
    split at hstep
    · rename_i hfree
      cases hstep
      rw [h.live] at hfree
      have hmem : ∀ b ∈ l, Function.update s.mem a c b = s.mem b := fun b hb =>
        Function.update_of_ne (by rintro rfl; exact hfree hb) _ _
      refine ⟨l, h.rep.frame hmem rfl rfl, h.live, h.fgJob, fun hcreated => ?_⟩
      rw [created_concat] at hcreated ⊢
      exact (h.numbered (by omega)).sublist rfl (fun b hb => congrArg (fun c => c.jid.toInt) (hmem b hb)) (List.Sublist.refl l)
    · cases hstep

theorem inv_of_run (hrun : system.Run as s) : ∃ l, Inv as s l := by
  refine Automaton.Run.invariant (I := fun as s => ∃ l, Inv as s l) (fun s hs => ?_) (fun as s a s' ⟨l, h⟩ hstep => h.step hstep) hrun
  obtain ⟨hfirst, hlast, hfg, hcntr, hlive⟩ := (hs : Start s)
  refine ⟨[], ⟨List.nodup_singleton 0, ?_⟩, by simp [hlive], .inl hfg, fun _ => ⟨by rw [hcntr]; rfl, .nil, by simp⟩⟩
  exact List.isChain_cons_cons.mpr ⟨⟨by simpa using hfirst, by simpa using hlast⟩, .singleton 0⟩

/-! ### The representation -/

/-- The header and the links describe this list of jobs. -/
structure Describes (s : State) (l : List Addr) : Prop where
  nodup : l.Nodup
  nonnull : 0 ∉ l
  first : s.first = l.head?.getD 0
  last : s.last = l.getLast?.getD 0
  next : ∀ l₁ a l₂, l = l₁ ++ a :: l₂ → (s.mem a).next = l₂.head?.getD 0
  prev : ∀ l₁ a l₂, l = l₁ ++ a :: l₂ → (s.mem a).prev = l₁.getLast?.getD 0

theorem Rep.describes (h : Rep s l) : Describes s l where
  nodup := (List.nodup_cons.mp h.nodup).2
  nonnull := (List.nodup_cons.mp h.nodup).1
  first := by rw [← next_zero, h.next_head]
  last := by rw [← prev_zero, h.prev_head]
  next l₁ a l₂ hl := by
    subst hl
    rw [← next_of_ne s (h.nonnull (a := a) (by simp)), h.split.1]
  prev l₁ a l₂ hl := by
    subst hl
    rw [← prev_of_ne s (h.nonnull (a := a) (by simp)), h.split.2]

/-- The jobs form one list, with their numbers increasing as long as fewer than 2^31 jobs have been made, and
`clearFinishedJobs` goes through it and leaves the jobs that are not empty. -/
theorem job_list (as : List Label) (s : State) (hrun : system.Run as s) :
    ∃ l, Describes s l ∧ (s.fgJob = 0 ∨ s.fgJob ∈ l) ∧ (created as < 2 ^ 31 → (l.map s.jidOf).Pairwise (· < ·)) ∧
      ∀ isJobEmpty, ∃ s', (∀ n, l.length ≤ n → s.clearFinishedJobs isJobEmpty n = some s') ∧
        Describes s' (l.filter fun a => isJobEmpty (s.mem a).jid ≠ 1) ∧ ∀ a, (s'.mem a).jid = (s.mem a).jid := by
  obtain ⟨l, h⟩ := inv_of_run hrun
  refine ⟨l, h.rep.describes, h.fgJob, fun hcreated => (h.numbered hcreated).increasing, fun isJobEmpty => ?_⟩
  obtain ⟨s', hs', hcleared⟩ := h.clear isJobEmpty
  exact ⟨s', hs', Rep.describes hcleared.rep, hcleared.jid⟩

def empty : State := ⟨fun _ => ⟨0, 0, 0, 0⟩, 0, 0, 0, 0, ∅, []⟩

theorem start_empty : Start empty := ⟨rfl, rfl, rfl, rfl, rfl⟩

def twoJobs : List Label := [.add 8 3, .add 16 4, .setFg 16, .clear fun jid => if jid = 1 then 1 else 0]

theorem job_list_twoJobs : ∃ s l, system.Run twoJobs s ∧ s.first = 16 ∧ s.last = 16 ∧ Describes s l ∧
    (s.fgJob = 0 ∨ s.fgJob ∈ l) ∧ (l.map s.jidOf).Pairwise (· < ·) := by
  have hobserve : (system.exec empty twoJobs).map (fun s => (s.first, s.last)) = some (16, 16) := by decide +kernel
  obtain ⟨s, hs, hobserved⟩ := Option.map_eq_some_iff.mp hobserve
  obtain ⟨hfirst, hlast⟩ := Prod.mk.inj hobserved
  have hrun : system.Run twoJobs s := (Automaton.Run.start start_empty).exec hs
  obtain ⟨l, hl, hfg, hincreasing, -⟩ := job_list _ s hrun
  exact ⟨s, l, hrun, hfirst, hlast, hl, hfg, hincreasing (by decide)⟩

/-! ### When the counter runs over -/

theorem Run.add (hrun : system.Run as s) (h : Inv as s l) (job : Addr) (fd : Int32)
    (hjob : job ≠ 0) (hnew : job ∉ l) : system.Run (as ++ [.add job fd]) ((s.newJob job fd).addJobToList job) := by
  refine hrun.step ?_
  show JobList.step s (.add job fd) = _
  rw [JobList.step, if_pos ⟨hjob, by rwa [h.live]⟩]

/-- Any number of jobs are made one after the other, each after the one before has finished. -/
theorem counter_reaches (k : Nat) : ∃ as s, system.Run as s ∧ Inv as s [] ∧ s.jobcntr = Int32.ofNat k := by
  induction k with
  | zero =>
    obtain ⟨l, h⟩ := inv_of_run (.start start_empty)
    have hl : l = [] := List.eq_nil_iff_forall_not_mem.mpr fun a ha => by simpa [empty] using (h.live a).mpr ha
    exact ⟨[], empty, .start start_empty, hl ▸ h, rfl⟩
  | succ k ih =>
    obtain ⟨as, s, hrun, h, hcntr⟩ := ih
    have hrun₁ := Run.add hrun h 8 3 (by decide) (by simp)
    have h₁ := h.add 8 3 (by decide) (by simp)
    obtain ⟨t, ht, hcleared⟩ := h₁.clear fun _ => 1
    have hstep : JobList.step ((s.newJob 8 3).addJobToList 8) (.clear fun _ => 1) = .next t := by
      rw [JobList.step, ht _ (by rw [h₁.card]; simp)]
    obtain ⟨l, h₂⟩ := h₁.step hstep
    have hl : l = [] := by
      refine List.eq_nil_iff_forall_not_mem.mpr fun a ha => ?_
      obtain ⟨hlive, hnot⟩ := (hcleared.live a).mp ((h₂.live a).mpr ha)
      exact hnot ⟨(h₁.live a).mp hlive, rfl⟩
    have hrun₂ : system.Run (as ++ [.add 8 3] ++ [.clear fun _ => 1]) t := hrun₁.step hstep
    refine ⟨_, t, hrun₂, hl ▸ h₂, ?_⟩
    rw [hcleared.jobcntr, (add_frame _ _).2.2.2]
    show s.jobcntr + 1 = _
    rw [hcntr, Int32.ofNat_add]
    rfl

/-- The job after number 2^31 - 1 has a negative number. -/
theorem jids_not_increasing : ∃ as s, system.Run as s ∧ Describes s [8, 16] ∧ [8, 16].map s.jidOf = [2 ^ 31 - 1, -2 ^ 31] ∧
    ¬ ([8, 16].map s.jidOf).Pairwise (· < ·) := by
  obtain ⟨as, s, hrun, h, hcntr⟩ := counter_reaches (2 ^ 31 - 2)
  have hrun₁ := Run.add hrun h 8 3 (by decide) (by simp)
  have h₁ := h.add 8 3 (by decide) (by simp)
  have hrun₂ := Run.add hrun₁ h₁ 16 4 (by decide) (by simp)
  have h₂ := h₁.add 16 4 (by decide) (by simp)
  have hjids : [8, 16].map ((((s.newJob 8 3).addJobToList 8).newJob 16 4).addJobToList 16).jidOf = [2 ^ 31 - 1, -2 ^ 31] := by
    have hkeep : ((((s.newJob 8 3).addJobToList 8).newJob 16 4).mem 8).jid = s.jobcntr + 1 := by
      rw [newJob_of_ne _ _ (by decide), (add_frame _ 8).1 8, newJob_self]
    have hsecond : ((((s.newJob 8 3).addJobToList 8).newJob 16 4).mem 16).jid = s.jobcntr + 1 + 1 := by
      rw [newJob_self, (add_frame _ 8).2.2.2]
      rfl
    simp only [List.map_cons, List.map_nil, State.jidOf, (add_frame _ _).1, hkeep, hsecond, hcntr]
    decide
  exact ⟨_, _, hrun₂, h₂.rep.describes, hjids, by rw [hjids]; decide⟩

end Xv6.Shell.JobList
