import Xv6.Shell.JobList

/-!
# The `fg` command of the shell

`main` of `sh.c` looks for the job with the number after `fg` and makes it the foreground job. The loop reads the number
of a job before it compares the pointer with 0, and address 0 can be read: it holds the first bytes of the program.
-/

namespace Xv6.Shell.JobList

/-- `atoi` of `ulib.c` from the number `n` on; the byte after the text is the NUL. -/
def atoi (n : Int32) : List UInt8 → Int32
  | [] => n
  | c :: s => if 0x30 ≤ c ∧ c ≤ 0x39 then atoi (n * 10 + Int32.ofNat c.toNat - 0x30) s else n

namespace State

/-- The loop from a job on, for at most `n` rounds: the job it ends with, and the jobs it reads the number of. -/
def fgLoop (s : State) (jid : Int32) : Nat → Addr → Option (Addr × List Addr)
  | 0, _ => none
  | n + 1, j =>
    if (s.mem j).jid ≠ jid ∧ j ≠ 0 then (s.fgLoop jid n (s.mem j).next).map fun r => (r.1, j :: r.2)
    else some (j, [j])

def fg (s : State) (text : List UInt8) (n : Nat) : Option (State × List Addr) :=
  (s.fgLoop (atoi 0 text) n s.first).map fun r => ({ s with fgJob := r.1 }, r.2)

/-- The first job of a list that has the number, or null. -/
def jobWith (s : State) (jid : Int32) (l : List Addr) : Addr := (l.find? fun a => (s.mem a).jid == jid).getD 0

end State

variable {s : State} {l : List Addr} {jid : Int32}

theorem fgLoop_eq (l₁ : List Addr) {l₂ : List Addr} {n : Nat} (h : Describes s (l₁ ++ l₂)) (hn : l₂.length < n) :
    s.fgLoop jid n (l₂.head?.getD 0) =
      some (s.jobWith jid l₂, (l₂.takeWhile fun a => (s.mem a).jid != jid) ++ [s.jobWith jid l₂]) := by
  induction l₂ generalizing l₁ n with
  | nil =>
    obtain ⟨n, rfl⟩ := Nat.exists_eq_add_one.mpr hn
    exact if_neg fun hnot => hnot.2 rfl
  | cons a l₂ ih =>
    obtain ⟨n, rfl⟩ : ∃ k, n = k + 1 := ⟨n - 1, by omega⟩
    have ha : a ≠ 0 := fun h0 => h.nonnull (by simp [h0])
    show s.fgLoop jid (n + 1) a = _
    by_cases hjid : (s.mem a).jid = jid
    · simp [State.fgLoop, State.jobWith, hjid]
    · have hrest : Describes s ((l₁ ++ [a]) ++ l₂) := by simpa using h
      rw [State.fgLoop, if_pos ⟨hjid, ha⟩, h.next l₁ a l₂ rfl, ih _ hrest (by simpa using hn)]
      simp [State.jobWith, hjid]

theorem jobWith_ne_zero (hnull : 0 ∉ l) : s.jobWith jid l ≠ 0 ↔ ∃ job ∈ l, (s.mem job).jid = jid := by
  unfold State.jobWith
  cases hfind : l.find? fun a => (s.mem a).jid == jid with
  | none =>
    have hnone := List.find?_eq_none.mp hfind
    simp only [beq_iff_eq] at hnone
    simpa using hnone
  | some a =>
    have ha : a ∈ l := List.mem_of_find?_eq_some hfind
    have hjid : (s.mem a).jid = jid := by simpa using List.find?_some hfind
    exact iff_of_true (fun h0 => hnull (h0 ▸ ha)) ⟨a, ha, hjid⟩

/-- The loop ends and the foreground job is the one with the number, or null; a null pointer has been read through
unless there is such a job. -/
theorem fg_iff (s : State) (l : List Addr) (text : List UInt8) (h : Describes s l) :
    ∃ reads, (∀ n, l.length < n → s.fg text n = some ({ s with fgJob := s.jobWith (atoi 0 text) l }, reads)) ∧
      (0 ∉ reads ↔ ∃ job ∈ l, (s.mem job).jid = atoi 0 text) := by
  refine ⟨(l.takeWhile fun a => (s.mem a).jid != atoi 0 text) ++ [s.jobWith (atoi 0 text) l], fun n hn => ?_, ?_⟩
  · rw [State.fg, h.first, fgLoop_eq [] h hn]
    rfl
  · rw [← jobWith_ne_zero h.nonnull, List.mem_append, List.mem_singleton, not_or]
    have hread : 0 ∉ l.takeWhile fun a => (s.mem a).jid != atoi 0 text := fun h0 =>
      h.nonnull ((List.takeWhile_sublist _).mem h0)
    exact ⟨fun hnot => Ne.symm hnot.2, fun hne => ⟨hread, Ne.symm hne⟩⟩

def oneJob : State := { empty with mem := fun _ => ⟨1, 3, 0, 0⟩, first := 8, last := 8 }

theorem describes_oneJob : Describes oneJob [8] :=
  Rep.describes ⟨by simp, by simp [Lib.Links, State.next, State.prev, oneJob, empty]⟩

theorem fg_iff_oneJob : ∃ reads, oneJob.fg [0x31, 0x0A] 2 = some ({ oneJob with fgJob := 8 }, reads) ∧ 0 ∉ reads := by
  obtain ⟨reads, hfg, hnull⟩ := fg_iff oneJob [8] [0x31, 0x0A] describes_oneJob
  exact ⟨reads, hfg 2 (by decide), hnull.mpr ⟨8, by simp, by decide⟩⟩

theorem fg_reads_null : Describes empty [] ∧ empty.fg [0x31, 0x0A] 1 = some (empty, [0]) :=
  ⟨Rep.describes ⟨by simp, by simp [Lib.Links, State.next, State.prev, empty]⟩, rfl⟩

end Xv6.Shell.JobList
