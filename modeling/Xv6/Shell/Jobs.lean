import Xv6.Shell.Main

/-!
# The pipes of the jobs

The shell keeps the write end of the pipe of each job it lists. It closes it when it finds the job finished, and also when
it reads an end of the input while the job is in the foreground, but then the job stays in the list and its descriptor
is free for the next pipe. As long as the latter does not happen each listed job has a descriptor of its own that refers
to its pipe.

A child of the shell inherits what the shell has open and closes only the write end of its own pipe, so the write ends
stay with the shell only if a command is launched when it has none of another job open.
-/

namespace Xv6.Shell

open Lib Files

/-! ### Descriptor tables -/

variable {fd : Fd}

theorem fdalloc_some {o : Ofile} (h : fdalloc o = some fd) : o fd = none := by
  simpa using List.find?_some h

variable {read write : Fd} {sh : Self} {o o' : Ofile} {k : Nat}

theorem sysPipe_some {n : Nat} (h : sysPipe o n = some (read, write, o')) :
    o read = none ∧ o write = none ∧ read ≠ write ∧
      o' = Function.update (Function.update o read (some (.pipe n false))) write (some (.pipe n true)) := by
  simp only [sysPipe] at h
  split at h
  · cases h
  · rename_i fd0 hread
    split at h
    · cases h
    · rename_i fd1 hwrite
      obtain ⟨rfl, h'⟩ := Prod.mk.inj (Option.some.inj h)
      obtain ⟨rfl, rfl⟩ := Prod.mk.inj h'
      have hnone := fdalloc_some hwrite
      have hne : fd1 ≠ fd0 := by
        rintro rfl
        rw [Function.update_self] at hnone
        cases hnone
      rw [Function.update_of_ne hne] at hnone
      exact ⟨fdalloc_some hread, hnone, hne.symm, rfl⟩

variable {x : Object}

section

variable {o o' : Ofile} {n k : Nat} {read write : Fd}

theorem sysPipe_write (h : sysPipe o n = some (read, write, o')) : o' write = some (.pipe n true) := by
  obtain ⟨-, -, -, rfl⟩ := sysPipe_some h
  exact Function.update_self ..

theorem sysPipe_old (h : sysPipe o n = some (read, write, o')) (fd : Fd) (hfd : o fd ≠ none) :
    o' fd = o fd ∧ fd ≠ read ∧ fd ≠ write := by
  obtain ⟨hread, hwrite, -, rfl⟩ := sysPipe_some h
  have hr : fd ≠ read := by
    rintro rfl
    exact hfd hread
  have hw : fd ≠ write := by
    rintro rfl
    exact hfd hwrite
  exact ⟨by rw [Function.update_of_ne hw, Function.update_of_ne hr], hr, hw⟩

theorem sysPipe_object (h : sysPipe o n = some (read, write, o')) (hx : o' fd = some x) :
    o fd = some x ∨ x = .pipe n false ∨ x = .pipe n true ∧ fd = write := by
  obtain ⟨-, -, -, rfl⟩ := sysPipe_some h
  by_cases hw : fd = write
  · subst hw
    rw [Function.update_self] at hx
    exact .inr (.inr ⟨(Option.some.inj hx).symm, rfl⟩)
  · rw [Function.update_of_ne hw] at hx
    by_cases hr : fd = read
    · subst hr
      rw [Function.update_self] at hx
      exact .inr (.inl (Option.some.inj hx).symm)
    · rw [Function.update_of_ne hr] at hx
      exact .inl hx

variable {fd' : Fd}

theorem sysClose_object (hx : sysClose o fd fd' = some x) : o fd' = some x ∧ fd' ≠ fd := by
  by_cases hne : fd' = fd
  · subst hne
    rw [sysClose, Function.update_self] at hx
    cases hx
  · rw [sysClose, Function.update_of_ne hne] at hx
    exact ⟨hx, hne⟩

theorem sysDup_cases (o : Ofile) (fd : Fd) :
    sysDup o fd = o ∨ ∃ x fd', o fd = some x ∧ o fd' = none ∧ sysDup o fd = Function.update o fd' (some x) := by
  rw [sysDup]
  cases hx : o fd with
  | none => exact .inl rfl
  | some x =>
    cases hfd : fdalloc o with
    | none => exact .inl rfl
    | some fd' => exact .inr ⟨x, fd', rfl, fdalloc_some hfd, rfl⟩

theorem sysDup_object (hx : sysDup o fd fd' = some x) : o fd' = some x ∨ o fd = some x := by
  obtain hsame | ⟨y, fd'', hy, -, hdup⟩ := sysDup_cases o fd
  · exact .inl (by rwa [hsame] at hx)
  · rw [hdup] at hx
    by_cases hne : fd' = fd''
    · subst hne
      rw [Function.update_self] at hx
      exact .inr (hy.trans hx)
    · rw [Function.update_of_ne hne] at hx
      exact .inl hx

theorem sysDup_old (h : o fd' ≠ none) : sysDup o fd fd' = o fd' := by
  obtain hsame | ⟨y, fd'', -, hnone, hdup⟩ := sysDup_cases o fd
  · rw [hsame]
  · rw [hdup, Function.update_of_ne]
    rintro rfl
    exact h hnone

theorem sysOpen_object (hx : sysOpen o fd = some x) : o fd = some x ∨ x = .file := by
  rw [sysOpen] at hx
  cases hfd : fdalloc o with
  | none =>
    rw [hfd] at hx
    exact .inl hx
  | some fd' =>
    simp only [hfd] at hx
    by_cases hne : fd = fd'
    · subst hne
      rw [Function.update_self] at hx
      exact .inr (Option.some.inj hx).symm
    · rw [Function.update_of_ne hne] at hx
      exact .inl hx

theorem Object.below.mono (h : x.below n) (hle : n ≤ k) : x.below k := by
  cases x with
  | file => trivial
  | pipe m w => exact lt_of_lt_of_le h hle

end

/-! ### The job list -/

/-- What holds of the memory of the shell between lines, whatever was typed. -/
structure Self.Ok (sh : Self) (k : Nat) : Prop where
  nodup : sh.jlist.Nodup
  sub : ∀ j ∈ sh.jlist, j ∈ sh.launched
  fg : ∀ j, sh.fgJob = some j → j ∈ sh.jlist
  below : ∀ j ∈ sh.launched, j.pipe < k
  inj : ∀ i ∈ sh.launched, ∀ j ∈ sh.launched, i.pipe = j.pipe → i = j
  closed : ∀ c ∈ sh.closed, c.1 ∈ sh.launched
  ofile : ∀ fd x, sh.ofile fd = some x → x.below k
  stdin : ∃ x, sh.ofile 0 = some x ∧ ∀ j ∈ sh.launched, x ≠ .pipe j.pipe true
  fd : ∀ j ∈ sh.launched, j.fd ≠ 0

/-- Each listed job has its own descriptor for its own pipe, and has not been closed; the others have been closed once. -/
structure Self.Fds (sh : Self) : Prop where
  own : ∀ j ∈ sh.jlist, sh.ofile j.fd = some (.pipe j.pipe true)
  closes : ∀ c ∈ sh.closed, c.2 = some (.pipe c.1.pipe true)
  once : ∀ j ∈ sh.launched, (sh.closed.map Prod.fst).count j = if j ∈ sh.jlist then 0 else 1

variable {i j job : Job} {buf input : List UInt8}

namespace Self

variable {sh : Self} {k : Nat}

theorem Ok.mono {k' : Nat} (h : sh.Ok k) (hle : k ≤ k') : sh.Ok k' :=
  { h with
    below := fun j hj => (h.below j hj).trans_le hle
    ofile := fun fd x hx => (h.ofile fd x hx).mono hle }

theorem Ok.closeJob (h : sh.Ok k) (hj : j ∈ sh.launched) : (sh.closeJob j).Ok k where
  nodup := h.nodup
  sub := h.sub
  fg := h.fg
  below := h.below
  inj := h.inj
  closed c hc := by
    rcases List.mem_append.mp hc with hc | hc
    · exact h.closed c hc
    · rw [List.mem_singleton.mp hc]
      exact hj
  ofile fd x hx := h.ofile fd x (sysClose_object hx).1
  stdin := by
    obtain ⟨x, hx, hne⟩ := h.stdin
    exact ⟨x, (Function.update_of_ne (h.fd j hj).symm _ _).trans hx, hne⟩
  fd := h.fd

variable {fg : Option Job}

theorem Ok.setFg (h : sh.Ok k) (hfg : ∀ j, fg = some j → j ∈ sh.jlist) : ({ sh with fgJob := fg } : Self).Ok k :=
  { h with fg := hfg }

theorem Ok.remove (h : sh.Ok k) (j : Job) : (sh.removeJobFromList j).Ok k where
  nodup := h.nodup.erase j
  sub i hi := h.sub i (List.mem_of_mem_erase hi)
  fg i hi := by
    simp only [removeJobFromList] at hi
    split at hi
    · cases hi
    · rename_i hne
      refine (List.mem_erase_of_ne ?_).mpr (h.fg i hi)
      rintro rfl
      exact hne hi
  below := h.below
  inj := h.inj
  closed := h.closed
  ofile := h.ofile
  stdin := h.stdin
  fd := h.fd

/-- The loop of `clearFinishedJobs` closes and removes jobs that are in the list at that time. -/
theorem clear_induct {I : Self → Prop} (hstep : ∀ sh j, I sh → j ∈ sh.jlist → I ((sh.closeJob j).removeJobFromList j))
    (done : Job → Bool) (hnodup : sh.jlist.Nodup) (h : I sh) : I (sh.clearFinishedJobs done) := by
  have hloop : ∀ (l : List Job) (sh : Self), I sh → l.Nodup → (∀ j ∈ l, j ∈ sh.jlist) →
      I (l.foldl (fun sh j => if done j then (sh.closeJob j).removeJobFromList j else sh) sh) := by
    intro l
    induction l with
    | nil => exact fun sh h _ _ => h
    | cons j l ih =>
      intro sh h hl hmem
      obtain ⟨hj, hl⟩ := List.nodup_cons.mp hl
      rw [List.foldl_cons]
      split
      · refine ih _ (hstep sh j h (hmem j (by simp))) hl fun i hi => ?_
        refine (List.mem_erase_of_ne ?_).mpr (hmem i (by simp [hi]))
        rintro rfl
        exact hj hi
      · exact ih sh h hl fun i hi => hmem i (by simp [hi])
  exact hloop sh.jlist sh h hnodup fun _ hj => hj

theorem Ok.clear (h : sh.Ok k) (done : Job → Bool) : (sh.clearFinishedJobs done).Ok k :=
  clear_induct (I := fun sh => sh.Ok k) (fun _ j h hj => (h.closeJob (h.sub j hj)).remove j) done h.nodup h

theorem clear_launched (done : Job → Bool) (hnodup : sh.jlist.Nodup) : (sh.clearFinishedJobs done).launched = sh.launched :=
  clear_induct (I := fun sh' => sh'.launched = sh.launched) (fun _ _ h _ => h) done hnodup rfl

theorem Fds.eq_of_fd (hok : sh.Ok k) (h : sh.Fds) (hi : i ∈ sh.jlist) (hj : j ∈ sh.jlist) (hfd : i.fd = j.fd) : i = j := by
  have hobject := (h.own i hi).symm.trans ((congrArg sh.ofile hfd).trans (h.own j hj))
  exact hok.inj i (hok.sub i hi) j (hok.sub j hj) (Object.pipe.inj (Option.some.inj hobject)).1

theorem Fds.remove (hok : sh.Ok k) (h : sh.Fds) (hj : j ∈ sh.jlist) : ((sh.closeJob j).removeJobFromList j).Fds where
  own i hi := by
    obtain ⟨hne, hi⟩ := (List.Nodup.mem_erase_iff hok.nodup).mp hi
    refine (Function.update_of_ne (fun hfd => hne ?_) _ _).trans (h.own i hi)
    exact h.eq_of_fd hok hi hj hfd
  closes c hc := by
    rcases List.mem_append.mp hc with hc | hc
    · exact h.closes c hc
    · rw [List.mem_singleton.mp hc]
      exact h.own j hj
  once i hi := by
    have hold := h.once i hi
    show ((sh.closed ++ [(j, sh.ofile j.fd)]).map Prod.fst).count i = if i ∈ sh.jlist.erase j then 0 else 1
    rw [List.map_append, List.count_append, hold]
    by_cases hij : i = j
    · subst hij
      simp [hj, List.Nodup.mem_erase_iff hok.nodup]
    · simp [List.Nodup.mem_erase_iff hok.nodup, hij, Ne.symm hij]

theorem Fds.clear (hok : sh.Ok k) (h : sh.Fds) (done : Job → Bool) : (sh.clearFinishedJobs done).Fds := by
  have hboth := clear_induct (I := fun sh => sh.Ok k ∧ sh.Fds)
    (fun _ j h hj => ⟨(h.1.closeJob (h.1.sub j hj)).remove j, h.2.remove h.1 hj⟩) done hok.nodup ⟨hok, h⟩
  exact hboth.2

/-- The line read, or the end of the input with the pipe of the foreground job closed. -/
theorem getcmd_some {sh₁ : Self} (h : getcmd sh input = some (sh₁, buf)) :
    byte (gets nbuf input) 0 ≠ 0 ∧ sh₁ = sh ∨
    byte (gets nbuf input) 0 = 0 ∧ ∃ j, sh.fgJob = some j ∧ sh₁ = { sh.closeJob j with fgJob := none } := by
  simp only [getcmd] at h
  split at h
  · rename_i hzero
    obtain ⟨j, hj, heq⟩ := Option.map_eq_some_iff.mp h
    exact .inr ⟨hzero, j, hj, (Prod.mk.inj heq).1.symm⟩
  · rename_i hzero
    exact .inl ⟨hzero, (Prod.mk.inj (Option.some.inj h)).1.symm⟩

theorem Ok.getcmd {sh₁ : Self} (hok : sh.Ok k) (h : getcmd sh input = some (sh₁, buf)) :
    sh₁.Ok k ∧ sh₁.launched = sh.launched := by
  obtain ⟨-, rfl⟩ | ⟨-, j, hj, rfl⟩ := getcmd_some h
  · exact ⟨hok, rfl⟩
  · exact ⟨(hok.closeJob (hok.sub j (hok.fg j hj))).setFg (by simp), rfl⟩

theorem mem_addJob_jlist {o : Ofile} : i ∈ (sh.addJob job fg o).jlist ↔ i ∈ sh.jlist ∨ i = job := by
  simp [addJob]

theorem mem_addJob_launched {o : Ofile} :
    i ∈ (sh.addJob job fg o).launched ↔ i ∈ sh.launched ∨ i = job := by
  simp [addJob]

theorem Ok.launch (h : sh.Ok k) {read write : Fd} {o : Ofile} {jid : UInt32} (hpipe : sysPipe sh.ofile k = some (read, write, o))
    (hfg : fg = sh.fgJob ∨ fg = some ⟨jid, write, k⟩) :
    (sh.addJob ⟨jid, write, k⟩ fg (sysClose o read)).Ok (k + 1) := by
  have hnew : ∀ j ∈ sh.launched, j.pipe ≠ k := fun j hj => (h.below j hj).ne
  obtain ⟨x, hx, hxne⟩ := h.stdin
  obtain ⟨hstdin, hread0, hwrite0⟩ := sysPipe_old hpipe 0 (by rw [hx]; simp)
  refine ⟨?_, ?_, ?_, ?_, ?_, ?_, ?_, ?_, ?_⟩
  · refine List.Nodup.append h.nodup (List.nodup_singleton _) (List.disjoint_singleton.mpr fun hmem => ?_)
    exact hnew _ (h.sub _ hmem) rfl
  · simp only [mem_addJob_jlist, mem_addJob_launched]
    exact fun j hj => hj.imp_left (h.sub j)
  · intro j hj
    obtain rfl | rfl := hfg
    · exact List.mem_append_left _ (h.fg j hj)
    · exact mem_addJob_jlist.mpr (.inr (Option.some.inj hj).symm)
  · simp only [mem_addJob_launched]
    rintro j (hj | rfl)
    · exact (h.below j hj).trans (Nat.lt_succ_self k)
    · exact Nat.lt_succ_self k
  · simp only [mem_addJob_launched]
    rintro i (hi | rfl) j (hj | rfl) hpipes
    · exact h.inj i hi j hj hpipes
    · exact absurd hpipes (hnew i hi)
    · exact absurd hpipes.symm (hnew j hj)
    · rfl
  · exact fun c hc => List.mem_append_left _ (h.closed c hc)
  · intro fd y hy
    obtain hold | rfl | ⟨rfl, -⟩ := sysPipe_object hpipe (sysClose_object hy).1
    · exact (h.ofile fd y hold).mono (Nat.le_succ k)
    · exact Nat.lt_succ_self k
    · exact Nat.lt_succ_self k
  · refine ⟨x, (Function.update_of_ne hread0 _ _).trans (hstdin.trans hx), ?_⟩
    simp only [mem_addJob_launched]
    rintro j (hj | rfl)
    · exact hxne j hj
    · rintro rfl
      exact absurd (h.ofile 0 _ hx) (lt_irrefl k)
  · simp only [mem_addJob_launched]
    rintro j (hj | rfl)
    · exact h.fd j hj
    · exact hwrite0.symm

theorem Fds.launch (hok : sh.Ok k) (h : sh.Fds) {read write : Fd} {o : Ofile} {jid : UInt32}
    (hpipe : sysPipe sh.ofile k = some (read, write, o)) :
    (sh.addJob ⟨jid, write, k⟩ fg (sysClose o read)).Fds := by
  have hnew : ∀ j ∈ sh.launched, j ≠ ⟨jid, write, k⟩ := by
    rintro j hj rfl
    exact absurd (hok.below _ hj) (lt_irrefl k)
  refine ⟨?_, h.closes, ?_⟩
  · simp only [mem_addJob_jlist]
    rintro j (hj | rfl)
    · have hown := h.own j hj
      obtain ⟨hold, hread, -⟩ := sysPipe_old hpipe j.fd (by rw [hown]; simp)
      exact (Function.update_of_ne hread _ _).trans (hold.trans hown)
    · exact (Function.update_of_ne (sysPipe_some hpipe).2.2.1.symm _ _).trans (sysPipe_write hpipe)
  · simp only [mem_addJob_jlist, mem_addJob_launched]
    rintro j (hj | rfl)
    · simp only [hnew j hj, or_false]
      exact h.once j hj
    · simp only [or_true, if_true]
      refine List.count_eq_zero.mpr fun hmem => ?_
      obtain ⟨c, hc, hc'⟩ := List.mem_map.mp hmem
      exact hnew _ (hok.closed c hc) hc'

end Self

/-! ### Whole runs -/

structure Inv (s : State) : Prop where
  shell : (∀ e, s.phase ≠ .exited e) → s.shell.Ok s.pipes
  launched : ∀ j ∈ s.shell.launched, j.pipe < s.pipes
  others : ∀ p fd x, s.ofile p fd = some x → x.below s.pipes
  fresh : ∀ p, s.nextpid ≤ p → s.role p = none

variable {s s' : State} {p : Nat}

/-- All descriptors of a table refer to objects of a kind. -/
def Only (G : Object → Prop) (o : Ofile) : Prop := ∀ fd x, o fd = some x → G x

theorem Change.only {G : Object → Prop} {r : Role} {r' : Option Role} (h : Change o r o' r') (hfile : G .file)
    (ho : Only G o) : Only G o' := by
  cases h with
  | closeStdin | closeWrite | close => exact fun fd x hx => ho fd x (sysClose_object hx).1
  | dupRead | dup => exact fun fd x hx => (sysDup_object hx).elim (ho fd x) (ho _ x)
  | «open» => exact fun fd x hx => (sysOpen_object hx).elim (ho fd x) fun hx => hx ▸ hfile
  | exit => exact fun fd x hx => nomatch hx

theorem Moves.shell (h : Moves s s') : s'.shell = s.shell ∧ s.pipes ≤ s'.pipes := by
  cases h with
  | pipe => exact ⟨rfl, Nat.le_succ _⟩
  | _ => exact ⟨rfl, le_rfl⟩

theorem only_mono {o : Ofile} {n k : Nat} (h : Only (Object.below n) o) (hle : n ≤ k) : Only (Object.below k) o :=
  fun fd x hx => (h fd x hx).mono hle

theorem only_sysPipe {G : Object → Prop} {n : Nat} (hpipe : sysPipe o n = some (read, write, o'))
    (ho : Only G o) (hread : G (.pipe n false)) (hwrite : G (.pipe n true)) : Only G o' := by
  intro fd x hx
  obtain hold | rfl | ⟨rfl, -⟩ := sysPipe_object hpipe hx
  · exact ho fd x hold
  · exact hread
  · exact hwrite

theorem Moves.others (h : Moves s s') (hinv : Inv s) :
    (∀ p, Only (Object.below s'.pipes) (s'.ofile p)) ∧ ∀ p, s'.nextpid ≤ p → s'.role p = none := by
  cases h with
  | waited | idle => exact ⟨hinv.others, hinv.fresh⟩
  | @change p r o r' hrole hchange =>
    refine ⟨fun q => ?_, fun q hq => ?_⟩
    · by_cases hqp : q = p
      · subst hqp
        rw [setRole_ofile, setOfile_self]
        exact hchange.only trivial (hinv.others q)
      · rw [setRole_ofile, setOfile_of_ne _ _ _ hqp]
        exact hinv.others q
    · have hqp : q ≠ p := by
        rintro rfl
        rw [hinv.fresh q hq] at hrole
        cases hrole
      exact (setRole_of_ne _ _ _ hqp).trans (hinv.fresh q hq)
  | @fork p r r' hrole =>
    refine ⟨fun q => ?_, fun q hq => ?_⟩
    · by_cases hqn : q = s.nextpid
      · subst hqn
        rw [setRole_ofile, spawn_ofile_self]
        exact hinv.others p
      · rw [setRole_ofile, spawn_ofile_of_ne _ _ _ hqn]
        exact hinv.others q
    · have hle : s.nextpid + 1 ≤ q := hq
      have hqp : q ≠ p := by
        rintro rfl
        rw [hinv.fresh q (by omega)] at hrole
        cases hrole
      rw [setRole_of_ne _ _ _ hqp, spawn_role_of_ne _ _ _ (by omega)]
      exact hinv.fresh q (by omega)
  | @pipe p read write o hrole hpipe =>
    refine ⟨fun q => ?_, hinv.fresh⟩
    by_cases hqp : q = p
    · subst hqp
      show Only _ ((s.setOfile q o).ofile q)
      rw [setOfile_self]
      exact only_sysPipe hpipe (only_mono (hinv.others q) (Nat.le_succ _)) (Nat.lt_succ_self _) (Nat.lt_succ_self _)
    · show Only _ ((s.setOfile p o).ofile q)
      rw [setOfile_of_ne _ _ _ hqp]
      exact only_mono (hinv.others q) (Nat.le_succ _)

theorem Moves.live (h : Moves s s') {e : Exit} (he : s.phase = .exited e) : s'.phase = .exited e := by
  cases h with
  | waited hphase =>
    rw [hphase] at he
    cases he
  | _ => exact he

theorem Inv.moves (h : Inv s) (hs : Moves s s') : Inv s' := by
  obtain ⟨hshell, hle⟩ := hs.shell
  obtain ⟨hothers, hfresh⟩ := hs.others h
  refine ⟨fun hlive => ?_, ?_, hothers, hfresh⟩
  · rw [hshell]
    exact (h.shell fun e he => hlive e (hs.live he)).mono hle
  · rw [hshell]
    exact fun j hj => (h.launched j hj).trans_le hle

inductive Reads (s : State) (input : List UInt8) (done : Job → Bool) (pipeOk forkOk : Bool) : State → Prop where
  | exit : Reads s input done pipeOk forkOk (s.exitShell .endOfInput)
  | stay {sh : Self} (hturn : turn s.shell input done = .stay sh) : Reads s input done pipeOk forkOk { s with shell := sh }
  | run {sh : Self} {buf : List UInt8} {s' : State} (hturn : turn s.shell input done = .run sh buf)
      (hlaunch : Launch s sh buf pipeOk forkOk s') : Reads s input done pipeOk forkOk s'

variable {done : Job → Bool} {forkOk pipeOk : Bool}

theorem step_line
    (h : step s (.line input done pipeOk forkOk) = .next s') : s.phase = .top ∧ Reads s input done pipeOk forkOk s' := by
  simp only [step] at h
  split at h
  · refine ⟨‹_›, ?_⟩
    split at h
    · cases h
      exact .exit
    · cases h
      exact .stay ‹_›
    · cases h
      exact .run ‹_› (launch_cases ..)
  · cases h

/-- What holds once the line is read and the finished jobs are gone, whatever the foreground job, holds after the turn. -/
theorem turn_rule {I : Self → Prop}
    (h : ∀ sh₁ buf fg, getcmd sh input = some (sh₁, buf) → (fg = (sh₁.clearFinishedJobs done).fgJob ∨
      ∀ j, fg = some j → j ∈ (sh₁.clearFinishedJobs done).jlist) → I { sh₁.clearFinishedJobs done with fgJob := fg }) :
    (∀ sh', turn sh input done = .stay sh' → I sh') ∧ ∀ sh' buf, turn sh input done = .run sh' buf → I sh' := by
  have hcases := turn_cases sh input done
  generalize turn sh input done = t at hcases
  cases hcases with
  | exit => exact ⟨nofun, nofun⟩
  | stay fg hget hfg =>
    refine ⟨fun sh' heq => ?_, nofun⟩
    obtain rfl := Turn.stay.inj heq
    exact h _ _ fg hget hfg
  | run hget =>
    refine ⟨nofun, fun sh' buf' heq => ?_⟩
    obtain ⟨rfl, -⟩ := Turn.run.inj heq
    exact h _ _ _ hget (.inl rfl)

theorem turn_ok (h : sh.Ok k) (input : List UInt8) (done : Job → Bool) :
    (∀ sh', turn sh input done = .stay sh' → sh'.Ok k ∧ sh'.launched = sh.launched) ∧
    (∀ sh' buf, turn sh input done = .run sh' buf → sh'.Ok k ∧ sh'.launched = sh.launched) := by
  refine turn_rule (I := fun sh' => sh'.Ok k ∧ sh'.launched = sh.launched) fun sh₁ buf fg hget hfg => ?_
  obtain ⟨hok, hlaunched⟩ := h.getcmd hget
  have hclear := hok.clear done
  refine ⟨hclear.setFg fun j hj => ?_, (Self.clear_launched done hok.nodup).trans hlaunched⟩
  obtain rfl | hmem := hfg
  · exact hclear.fg j hj
  · exact hmem j hj

theorem Inv.exitShell (h : Inv s) (why : Exit) : Inv (s.exitShell why) :=
  ⟨fun hlive => absurd rfl (hlive why), h.launched, h.others, h.fresh⟩

/-- A launch makes one more process, with the table of the shell and both ends of the new pipe. -/
theorem Inv.reads (h : Inv s) (htop : s.phase = .top)
    (hs : Reads s input done pipeOk forkOk s') : Inv s' := by
  have hok := h.shell fun e he => by simp [htop] at he
  obtain ⟨hstay, hrun⟩ := turn_ok hok input done
  cases hs with
  | exit => exact h.exitShell _
  | stay hturn =>
    obtain ⟨hok', hlaunched⟩ := hstay _ hturn
    refine ⟨fun _ => hok', ?_, h.others, h.fresh⟩
    exact hok'.below
  | @run sh buf _ hturn hlaunch =>
    obtain ⟨hok', hlaunched⟩ := hrun _ _ hturn
    cases hlaunch with
    | noPipe | malformed | noFork => exact h.exitShell _
    | @done read write o fg hpipeOk hpipe hline hfork hfg =>
      have hok'' := hok'.launch hpipe hfg
      refine ⟨fun _ => hok'', hok''.below, fun q fd x hx => ?_, fun q hq => ?_⟩
      · by_cases hq : q = s.nextpid
        · subst hq
          replace hx : o fd = some x := (congrFun (Function.update_self ..) fd).symm.trans hx
          exact only_sysPipe hpipe (only_mono hok'.ofile (Nat.le_succ _)) (Nat.lt_succ_self _) (Nat.lt_succ_self _) fd x hx
        · replace hx : s.ofile q fd = some x := (congrFun (Function.update_of_ne hq ..) fd).symm.trans hx
          exact (h.others q fd x hx).mono (Nat.le_succ _)
      · have hle : s.nextpid + 1 ≤ q := hq
        exact (Function.update_of_ne (by omega) _ _).trans (h.fresh q (by omega))

theorem Start.inv (h : Start s) : Inv s := by
  refine ⟨fun _ => ?_, by simp [h.launched], h.others, h.fresh⟩
  obtain ⟨x, hx⟩ := Option.ne_none_iff_exists'.mp h.stdin
  exact ⟨by simp [h.jlist], by simp [h.jlist], by simp [h.fgJob], by simp [h.launched], by simp [h.launched], by simp [h.closed],
    h.shell, ⟨x, hx, by simp [h.launched]⟩, by simp [h.launched]⟩

theorem line_or (a : Label) : (∃ input done pipeOk forkOk, a = .line input done pipeOk forkOk) ∨
    ∀ input done pipeOk forkOk, a ≠ .line input done pipeOk forkOk := by
  cases a with
  | line input done pipeOk forkOk => exact .inl ⟨input, done, pipeOk, forkOk, rfl⟩
  | _ => exact .inr fun _ _ _ _ h => nomatch h

variable {as : List Label}

theorem inv_of_run (hrun : system.Run as s) : Inv s := by
  refine Automaton.Run.invariant (I := fun _ s => Inv s) (fun s hs => Start.inv hs) (fun as s a s' h hstep => ?_) hrun
  obtain ⟨input, done, pipeOk, forkOk, rfl⟩ | ha := line_or a
  · obtain ⟨htop, hreads⟩ := step_line hstep
    exact h.reads htop hreads
  · exact h.moves (step_moves ha hstep)

/-! ### The descriptors of the jobs -/

/-- The line is the end of the input while a job is in the foreground. -/
def ClosesForeground (s : State) : Label → Prop
  | .line input _ _ _ => byte (gets nbuf input) 0 = 0 ∧ s.shell.fgJob ≠ none
  | _ => False

structure JobFds (s : State) : Prop extends s.shell.Fds where
  distinct : (s.shell.jlist.map Job.fd).Nodup

theorem Self.Fds.turn (hok : sh.Ok k) (h : sh.Fds)
    (hkeep : ¬ (byte (gets nbuf input) 0 = 0 ∧ sh.fgJob ≠ none)) (done : Job → Bool) :
    (∀ sh', turn sh input done = .stay sh' → sh'.Fds) ∧ ∀ sh' buf, turn sh input done = .run sh' buf → sh'.Fds := by
  have hsame : ∀ sh₁ buf, getcmd sh input = some (sh₁, buf) → sh₁ = sh := by
    intro sh₁ buf hget
    obtain ⟨-, rfl⟩ | ⟨hzero, j, hj, -⟩ := Self.getcmd_some hget
    · rfl
    · exact absurd ⟨hzero, by rw [hj]; simp⟩ hkeep
  have hclear := h.clear hok done
  refine turn_rule (I := Self.Fds) fun sh₁ buf fg hget _ => ?_
  rw [hsame _ _ hget]
  exact ⟨hclear.own, hclear.closes, hclear.once⟩

theorem fds_of_run (hrun : system.RunIn (fun s a => ¬ ClosesForeground s a) as s) :
    (∀ e, s.phase ≠ .exited e) → s.shell.Fds := by
  refine Automaton.RunIn.invariant (I := fun _ s => (∀ e, s.phase ≠ .exited e) → s.shell.Fds) (fun s hs _ => ?_)
    (fun as s a s' hrun h hkeep hstep => ?_) hrun
  · obtain ⟨-, hjlist, -, hclosed, hlaunched, -⟩ := (hs : Start s)
    exact ⟨by simp [hjlist], by simp [hclosed], by simp [hlaunched]⟩
  · have hinv := inv_of_run hrun
    obtain ⟨input, done, pipeOk, forkOk, rfl⟩ | ha := line_or a
    · obtain ⟨htop, hreads⟩ := step_line hstep
      have hlive : ∀ e, s.phase ≠ .exited e := fun e he => by simp [htop] at he
      have hok := hinv.shell hlive
      obtain ⟨hstay, hrun⟩ := (h hlive).turn hok hkeep done
      cases hreads with
      | exit => exact fun hlive' => absurd rfl (hlive' .endOfInput)
      | stay hturn => exact fun _ => hstay _ hturn
      | run hturn hlaunch =>
        have hok' := ((turn_ok hok input done).2 _ _ hturn).1
        cases hlaunch with
        | noPipe | malformed | noFork => exact fun hlive' => absurd rfl (hlive' _)
        | done fg hpipeOk hpipe => exact fun _ => (hrun _ _ hturn).launch hok' hpipe
    · have hmoves := step_moves ha hstep
      rw [hmoves.shell.1]
      exact fun hlive' => h fun e he => hlive' e (hmoves.live he)

/-- A job whose pipe was closed at the end of the input: it is still listed, or its descriptor was closed again. -/
def Stale (j : Job) (sh : Self) : Prop :=
  j ∈ sh.launched ∧ sh.ofile j.fd = none ∧ (j ∈ sh.jlist ∧ j ∈ sh.closed.map Prod.fst ∨ (j, none) ∈ sh.closed)

theorem Stale.not_fds (h : j ∈ sh.launched)
    (hstale : j ∈ sh.jlist ∧ j ∈ sh.closed.map Prod.fst ∨ (j, none) ∈ sh.closed) : ¬ sh.Fds := by
  intro hfds
  obtain ⟨hlisted, hclosed⟩ | hclosed := hstale
  · have hcount := hfds.once j h
    rw [if_pos hlisted] at hcount
    exact List.count_eq_zero.mp hcount hclosed
  · cases hfds.closes _ hclosed

theorem Stale.remove (h : Stale j sh) : Stale j ((sh.closeJob i).removeJobFromList i) := by
  obtain ⟨hlaunched, hnone, hstale⟩ := h
  refine ⟨hlaunched, ?_, ?_⟩
  · show sysClose sh.ofile i.fd j.fd = none
    rw [sysClose, Function.update_apply]
    split
    · rfl
    · exact hnone
  · by_cases hij : i = j
    · subst hij
      exact .inr (List.mem_append_right _ (by rw [hnone]; simp))
    · refine hstale.imp (fun hlisted => ?_) (List.mem_append_left _)
      refine ⟨(List.mem_erase_of_ne (Ne.symm hij)).mpr hlisted.1, ?_⟩
      rw [show ((sh.closeJob i).removeJobFromList i).closed = sh.closed ++ [_] from rfl, List.map_append]
      exact List.mem_append_left _ hlisted.2

theorem stale_turn (hok : sh.Ok k)
    (hzero : byte (gets nbuf input) 0 = 0) (hj : sh.fgJob = some j) (done : Job → Bool) :
    (∀ sh', turn sh input done = .stay sh' → Stale j sh') ∧ ∀ sh' buf, turn sh input done = .run sh' buf → Stale j sh' := by
  have hclosed : Stale j { sh.closeJob j with fgJob := none } := by
    refine ⟨hok.sub j (hok.fg j hj), Function.update_self .., .inl ⟨hok.fg j hj, ?_⟩⟩
    simp [Self.closeJob]
  refine turn_rule (I := Stale j) fun sh₁ buf fg hget _ => ?_
  obtain ⟨hne, -⟩ | ⟨-, i, hi, rfl⟩ := Self.getcmd_some hget
  · exact absurd hzero hne
  · obtain rfl := Option.some.inj (hj.symm.trans hi)
    exact Self.clear_induct (I := Stale j) (fun _ _ h _ => h.remove) done hok.nodup hclosed

/-- As long as no end of the input is read while a job is in the foreground, each job in the list has a descriptor of its
own that is the write end of its pipe, and it is closed once, when the job leaves the list. An end of the input read while a
job is in the foreground breaks this, unless the shell exits. -/
theorem job_fds (as : List Label) (s : State) :
    (system.RunIn (fun s a => ¬ ClosesForeground s a) as s → s.phase = .top → JobFds s) ∧
    ∀ a s', system.Run as s → ClosesForeground s a → system.step s a = .next s' → (∀ e, s'.phase ≠ .exited e) → ¬ JobFds s' := by
  refine ⟨fun hrun htop => ?_, fun a s' hrun hcloses hstep hlive => ?_⟩
  · have hlive : ∀ e, s.phase ≠ .exited e := fun e he => by simp [htop] at he
    have hfds := fds_of_run hrun hlive
    have hok := (inv_of_run hrun.run).shell hlive
    refine ⟨hfds, List.Nodup.map_on (fun i hi j hj hfd => ?_) hok.nodup⟩
    exact hfds.eq_of_fd hok hi hj hfd
  · obtain ⟨input, done, pipeOk, forkOk, rfl⟩ | ha := line_or a
    · obtain ⟨htop, hreads⟩ := step_line hstep
      have hok := (inv_of_run hrun).shell fun e he => by simp [htop] at he
      obtain ⟨hzero, hsome⟩ := hcloses
      obtain ⟨j, hj⟩ := Option.ne_none_iff_exists'.mp hsome
      obtain ⟨hstay, hrun⟩ := stale_turn hok hzero hj done
      refine fun hfds => ?_
      cases hreads with
      | exit => exact hlive .endOfInput rfl
      | stay hturn =>
        obtain ⟨hlaunched, -, hstale⟩ := hstay _ hturn
        exact Stale.not_fds hlaunched hstale hfds.toFds
      | run hturn hlaunch =>
        obtain ⟨hlaunched, -, hstale⟩ := hrun _ _ hturn
        cases hlaunch with
        | noPipe | malformed | noFork => exact hlive _ rfl
        | done =>
          refine Stale.not_fds (List.mem_append_left _ hlaunched) ?_ hfds.toFds
          exact hstale.imp_left fun h => ⟨List.mem_append_left _ h.1, h.2⟩
    · cases a with
      | line input done pipeOk forkOk => exact absurd rfl (ha input done pipeOk forkOk)
      | _ => exact hcloses.elim

/-- A job reads its input in the foreground until the end of the input. -/
def secondLaunch : List Label :=
  [typed ['c', 'a', 't', '\n'], .go 0 true, .go 0 true, .go 0 true, .go 0 true, .go 0 true, .waited, typed [],
    .go 2 true, .go 2 true, .go 2 true, .go 2 true, .go 2 true, .waited]

/-- After the end of the input two listed jobs have the same descriptor. -/
theorem job_fds_shared : ∃ s, system.Run secondLaunch s ∧ s.phase = .top ∧ s.shell.jlist.map Job.fd = [4, 4] ∧ ¬ JobFds s := by
  have hobserve : (system.exec initial secondLaunch).map (fun s => (s.phase, s.shell.jlist.map Job.fd)) = some (.top, [4, 4]) := by
    decide +kernel
  obtain ⟨s, hs, hobserved⟩ := Option.map_eq_some_iff.mp hobserve
  obtain ⟨htop, hfds⟩ := Prod.mk.inj hobserved
  refine ⟨s, (Automaton.Run.start start_initial).exec hs, htop, hfds, fun h => ?_⟩
  have hdistinct := h.distinct
  rw [hfds] at hdistinct
  exact absurd hdistinct (by decide)

def twoJobs : List Label :=
  [typed ['c', 'a', 't', '&', '\n'], .go 0 true, .go 0 true, .go 0 true, .go 0 true, .go 0 true, .waited, typed ['c', 'a', 't', '&', '\n'],
    .go 2 true, .go 2 true, .go 2 true, .go 2 true, .go 2 true, .waited]

theorem twoJobs_keep : ∀ a ∈ twoJobs, ∀ s, ¬ ClosesForeground s a := by
  have hline : ∀ s, ¬ ClosesForeground s (typed ['c', 'a', 't', '&', '\n']) := fun s h => absurd h.1 (by decide)
  have hgo : ∀ s p ok, ¬ ClosesForeground s (.go p ok) := fun _ _ _ h => h
  have hwaited : ∀ s, ¬ ClosesForeground s .waited := fun _ h => h
  simp [twoJobs, hline, hgo, hwaited]

theorem job_fds_background : ∃ s, system.RunIn (fun s a => ¬ ClosesForeground s a) twoJobs s ∧ s.phase = .top ∧
    s.shell.jlist.map Job.fd = [4, 5] ∧ JobFds s := by
  have hobserve : (system.exec initial twoJobs).map (fun s => (s.phase, s.shell.jlist.map Job.fd)) = some (.top, [4, 5]) := by
    decide +kernel
  obtain ⟨s, hs, hobserved⟩ := Option.map_eq_some_iff.mp hobserve
  obtain ⟨htop, hfds⟩ := Prod.mk.inj hobserved
  have hrun := (Automaton.RunIn.start start_initial).exec twoJobs_keep hs
  exact ⟨s, hrun, htop, hfds, (job_fds _ s).1 hrun htop⟩

/-! ### Who holds the write ends -/

def JobEnd (jobs : List Job) (x : Object) : Prop := ∃ j ∈ jobs, x = .pipe j.pipe true

/-- If a command is launched, the shell has no write end of another job open. -/
def LaunchesAlone (s : State) : Label → Prop
  | .line input done _ _ => ∀ sh buf, turn s.shell input done = .run sh buf → Only (fun x => ¬ JobEnd s.shell.launched x) sh.ofile
  | _ => True

/-- No process but the shell has the write end of a job, once it has executed the closes of the launch. -/
def OnlyShell (s : State) : Prop :=
  ∀ p r, s.role p = some r → r.ready = true → Only (fun x => ¬ JobEnd s.shell.launched x) (s.ofile p)

/-- Where a process may hold the write end of a job: a child on its way at that of its own pipe, others nowhere. -/
def Role.mayHold : Role → Fd → Prop
  | .launcher .closeStdin read write, fd | .launcher .dupRead read write, fd | .launcher .closeWrite read write, fd =>
    fd = write ∧ read ≠ write
  | _, _ => False

theorem Role.not_mayHold {r : Role} (h : r.ready = true) : ¬r.mayHold fd := by
  cases r with
  | program => exact id
  | launcher pc => cases pc <;> simp_all [Role.ready, Role.mayHold]

def Clean (s : State) : Prop :=
  ∀ p r fd x, s.role p = some r → s.ofile p fd = some x → JobEnd s.shell.launched x → r.mayHold fd

theorem Clean.onlyShell (h : Clean s) : OnlyShell s := fun p r hr hready fd x hx hend =>
  Role.not_mayHold hready (h p r fd x hr hx hend)

def State.writeopen (s : State) (n : Nat) : Prop :=
  (∃ fd, s.shell.ofile fd = some (.pipe n true)) ∨ ∃ p r fd, s.role p = some r ∧ s.ofile p fd = some (.pipe n true)

theorem jobEnd_append {jobs : List Job} (hx : x.below job.pipe) (h : JobEnd (jobs ++ [job]) x) : JobEnd jobs x := by
  obtain ⟨j, hj, rfl⟩ := h
  rcases List.mem_append.mp hj with hj | hj
  · exact ⟨j, hj, rfl⟩
  · rw [List.mem_singleton.mp hj] at hx
    exact absurd hx (lt_irrefl _)

theorem not_jobEnd_fresh {jobs : List Job} (h : ∀ j ∈ jobs, j.pipe < k) (w : Bool) : ¬ JobEnd jobs (.pipe k w) := by
  rintro ⟨j, hj, heq⟩
  rw [(Object.pipe.inj heq).1] at h
  exact lt_irrefl _ (h j hj)

theorem Clean.moves (hinv : Inv s) (h : Clean s) (hs : Moves s s') : Clean s' := by
  cases hs with
  | waited | idle => exact h
  | @change p r o r' hrole hchange =>
    intro q rq fd x hq hx hend
    by_cases hqp : q = p
    · subst hqp
      rw [setRole_self] at hq
      replace hx : o fd = some x := (congrFun (setOfile_self ..) fd).symm.trans hx
      cases hchange with
      | closeStdin =>
        cases hq
        exact h q (.launcher .closeStdin ..) fd x hrole (sysClose_object hx).1 hend
      | close => exact (h q _ fd x hrole (sysClose_object hx).1 hend).elim
      | dupRead =>
        cases hq
        obtain hx | hx := sysDup_object hx
        · exact h q (.launcher .dupRead ..) fd x hrole hx hend
        · have hheld := h q _ _ x hrole hx hend
          exact absurd hheld.1 hheld.2
      | closeWrite =>
        obtain ⟨hx, hne⟩ := sysClose_object hx
        exact absurd (h q _ fd x hrole hx hend).1 hne
      | «open» =>
        obtain hx | rfl := sysOpen_object hx
        · exact (h q _ fd x hrole hx hend).elim
        · simp [JobEnd] at hend
      | dup => exact (sysDup_object hx).elim (fun hx => (h q _ fd x hrole hx hend).elim) fun hx => (h q _ _ x hrole hx hend).elim
      | exit => cases hq
    · rw [setRole_of_ne _ _ _ hqp] at hq
      exact h q rq fd x hq ((congrFun (setOfile_of_ne _ _ _ hqp) fd).symm.trans hx) hend
  | @fork p r r' hrole hready hready' =>
    have htable : ∀ fd x, s.ofile p fd = some x → ¬JobEnd s.shell.launched x := h.onlyShell p r hrole hready
    intro q rq fd x hq hx hend
    rw [setRole_ofile] at hx
    by_cases hqn : q = s.nextpid
    · subst hqn
      rw [spawn_ofile_self] at hx
      exact absurd hend (htable fd x hx)
    rw [spawn_ofile_of_ne _ _ _ hqn] at hx
    by_cases hqp : q = p
    · subst hqp
      exact absurd hend (htable fd x hx)
    · rw [setRole_of_ne _ _ _ hqp, spawn_role_of_ne _ _ _ hqn] at hq
      exact h q rq fd x hq hx hend
  | @pipe p read write o hrole hpipe =>
    intro q rq fd x hq hx hend
    replace hx : (s.setOfile p o).ofile q fd = some x := hx
    by_cases hqp : q = p
    · subst hqp
      rw [setOfile_self] at hx
      exact absurd hend (only_sysPipe hpipe (h.onlyShell q _ hrole rfl) (not_jobEnd_fresh hinv.launched false)
        (not_jobEnd_fresh hinv.launched true) fd x hx)
    · rw [setOfile_of_ne _ _ _ hqp] at hx
      exact h q rq fd x hq hx hend

theorem Clean.reads (hinv : Inv s) (htop : s.phase = .top) (h : Clean s)
    (halone : LaunchesAlone s (.line input done pipeOk forkOk)) (hs : Reads s input done pipeOk forkOk s') : Clean s' := by
  obtain ⟨hstay, hrun⟩ := turn_ok (hinv.shell fun e he => by simp [htop] at he) input done
  cases hs with
  | exit => exact h
  | @stay sh hturn => exact fun p r fd x hp hx hend => h p r fd x hp hx ((hstay _ hturn).2 ▸ hend)
  | @run sh buf _ hturn hlaunch =>
    obtain ⟨hok, hlaunched⟩ := hrun _ _ hturn
    have hfree := halone _ _ hturn
    rw [← hlaunched] at hfree
    cases hlaunch with
    | noPipe | malformed | noFork => exact h
    | @done read write o fg hpipeOk hpipe hline hfork hfg =>
      intro p r fd x hp hx hend
      replace hp : (s.spawn (.launcher .closeStdin read write) o).role p = some r := hp
      replace hx : (s.spawn (.launcher .closeStdin read write) o).ofile p fd = some x := hx
      replace hend : JobEnd (sh.launched ++ [⟨sh.jobcntr + 1, write, s.pipes⟩]) x := hend
      by_cases hpn : p = s.nextpid
      · subst hpn
        rw [spawn_role_self] at hp
        rw [spawn_ofile_self] at hx
        cases hp
        refine ⟨?_, (sysPipe_some hpipe).2.2.1⟩
        obtain hx | rfl | ⟨-, hfd⟩ := sysPipe_object hpipe hx
        · exact absurd (jobEnd_append (hok.ofile fd x hx) hend) (hfree fd x hx)
        · simp [JobEnd] at hend
        · exact hfd
      · -- the new job adds no end to the tables that were there
        rw [spawn_role_of_ne _ _ _ hpn] at hp
        rw [spawn_ofile_of_ne _ _ _ hpn] at hx
        exact h p r fd x hp hx (hlaunched ▸ jobEnd_append (hinv.others p fd x hx) hend)

theorem clean_of_run (hrun : system.RunIn LaunchesAlone as s) : Clean s := by
  refine Automaton.RunIn.invariant (I := fun _ => Clean) (fun s hs => ?_) (fun as s a s' hrun h halone hstep => ?_) hrun
  · replace hs : Start s := hs
    intro p r fd x _ _ hend
    simp [JobEnd, hs.launched] at hend
  · have hinv := inv_of_run hrun
    obtain ⟨input, done, pipeOk, forkOk, rfl⟩ | ha := line_or a
    · obtain ⟨htop, hreads⟩ := step_line hstep
      exact h.reads hinv htop halone hreads
    · exact h.moves hinv (step_moves ha hstep)

theorem step_go {pc : LaunchPc} (h : s.role p = some (.launcher pc read write)) :
    system.step s (.go p true) = .next (stepLauncher s p true read write pc) := by
  show step s (.go p true) = _
  simp only [step, h]

theorem exec_launcher (h : s.role p = some (.launcher .closeStdin read write)) :
    ∃ s', system.exec s (List.replicate 3 (.go p true)) = some s' ∧ s'.role p = some (.launcher .fork read write) ∧
      s'.ofile p = sysClose (sysDup (sysClose (s.ofile p) 0) read) write ∧ s'.shell = s.shell := by
  let s₁ := stepLauncher s p true read write .closeStdin
  let s₂ := stepLauncher s₁ p true read write .dupRead
  have h₁ : s₁.role p = some (.launcher .dupRead read write) := setRole_self ..
  have h₂ : s₂.role p = some (.launcher .closeWrite read write) := setRole_self ..
  have ho₁ : s₁.ofile p = sysClose (s.ofile p) 0 := setOfile_self ..
  have ho₂ : s₂.ofile p = sysDup (s₁.ofile p) read := setOfile_self ..
  refine ⟨stepLauncher s₂ p true read write .closeWrite, ?_, setRole_self .., ?_, rfl⟩
  · show (system.step s (.go p true)).state?.bind _ = _
    rw [step_go h]
    show (system.step s₁ (.go p true)).state?.bind _ = _
    rw [step_go h₁]
    show (system.step s₂ (.go p true)).state?.bind _ = _
    rw [step_go h₂]
    rfl
  · rw [← ho₁, ← ho₂]
    exact setOfile_self ..

theorem launch_leaks
    (hok : sh.Ok s.pipes) (hx : sh.ofile fd = some x) (hend : JobEnd sh.launched x) (hlaunch : Launch s sh buf pipeOk forkOk s')
    (hlive : ∀ e, s'.phase ≠ .exited e) :
    ∃ s'', system.exec s' (List.replicate 3 (.go s.nextpid true)) = some s'' ∧ ¬ OnlyShell s'' := by
  have hstdin : fd ≠ 0 := by
    rintro rfl
    obtain ⟨y, hy, hne⟩ := hok.stdin
    obtain rfl := Option.some.inj (hx.symm.trans hy)
    obtain ⟨j, hj, heq⟩ := hend
    exact hne j hj heq
  cases hlaunch with
  | noPipe | malformed | noFork => exact absurd rfl (hlive _)
  | @done read write o fg hpipeOk hpipe hline hfork hfg =>
    have hstart : (s.launched read write o (sh.addJob ⟨sh.jobcntr + 1, write, s.pipes⟩ fg (sysClose o read))).role s.nextpid =
        some (.launcher .closeStdin read write) := spawn_role_self s o _
    obtain ⟨s'', hexec, hrole, hofile, hshell⟩ := exec_launcher hstart
    refine ⟨s'', hexec, fun honly => honly s.nextpid _ hrole rfl fd x ?_ ?_⟩
    · obtain ⟨hold, -, hwrite⟩ := sysPipe_old hpipe fd (by rw [hx]; simp)
      have hclose : sysClose o 0 fd = some x := (Function.update_of_ne hstdin _ _).trans (hold.trans hx)
      rw [hofile]
      refine (Function.update_of_ne hwrite _ _).trans ?_
      show sysDup (sysClose ((s.spawn _ o).ofile s.nextpid) 0) read fd = some x
      rw [spawn_ofile_self, sysDup_old (by rw [hclose]; simp), hclose]
    · obtain ⟨j, hj, heq⟩ := hend
      rw [hshell]
      exact ⟨j, List.mem_append_left _ hj, heq⟩

/-- As long as every command is launched when the shell has no write end of another job open, no process but the shell has a
write end of a job once its launch is over, and when the shell closes one, it is closed. Otherwise the child that is being
launched ends up with the write end of the other job. -/
theorem only_shell_holds (as : List Label) (s : State) :
    (system.RunIn LaunchesAlone as s → OnlyShell s ∧
      ∀ j ∈ s.shell.launched, (∀ fd, s.shell.ofile fd ≠ some (.pipe j.pipe true)) → (∀ p r, s.role p = some r → r.ready = true) →
        ¬ s.writeopen j.pipe) ∧
    ∀ a s', system.Run as s → ¬ LaunchesAlone s a → system.step s a = .next s' → (∀ e, s'.phase ≠ .exited e) →
      ∃ s'', system.exec s' (List.replicate 3 (.go s.nextpid true)) = some s'' ∧ ¬ OnlyShell s'' := by
  refine ⟨fun hrun => ?_, fun a s' hrun halone hstep hlive => ?_⟩
  · have honly := (clean_of_run hrun).onlyShell
    refine ⟨honly, fun j hj hshell hready hopen => ?_⟩
    obtain ⟨fd, hfd⟩ | ⟨p, r, fd, hp, hfd⟩ := hopen
    · exact hshell fd hfd
    · exact honly p r hp (hready p r hp) fd _ hfd ⟨j, hj, rfl⟩
  · have hinv := inv_of_run hrun
    obtain ⟨input, done, pipeOk, forkOk, rfl⟩ | ha := line_or a
    · obtain ⟨htop, hreads⟩ := step_line hstep
      obtain ⟨sh, buf, hturn, fd, x, hx, hend⟩ : ∃ sh buf, turn s.shell input done = .run sh buf ∧
          ∃ fd x, sh.ofile fd = some x ∧ JobEnd s.shell.launched x := by
        by_contra hnone
        refine halone fun sh buf hturn fd x hx hend => hnone ⟨sh, buf, hturn, fd, x, hx, hend⟩
      obtain ⟨hok, hlaunched⟩ := (turn_ok (hinv.shell fun e he => by simp [htop] at he) input done).2 _ _ hturn
      cases hreads with
      | exit => exact absurd rfl (hlive .endOfInput)
      | stay hturn' => cases hturn.symm.trans hturn'
      | run hturn' hlaunch =>
        obtain ⟨rfl, rfl⟩ := Turn.run.inj (hturn.symm.trans hturn')
        exact launch_leaks hok hx (hlaunched ▸ hend) hlaunch hlive
    · refine absurd ?_ halone
      cases a with
      | line input done pipeOk forkOk => exact absurd rfl (ha input done pipeOk forkOk)
      | _ => trivial

def oneJob : List Label := List.replicate 5 (.go 0 true) ++ [.waited]

theorem only_shell_holds_oneJob : ∃ s, system.RunIn LaunchesAlone ([typed ['c', 'a', 't', '&', '\n']] ++ oneJob) s ∧ s.phase = .top ∧
    s.shell.ofile 4 = some (.pipe 0 true) ∧ s.role 1 = some .program ∧ OnlyShell s := by
  have hobserve : (system.step initial (typed ['c', 'a', 't', '&', '\n'])).state?.bind (fun s => (system.exec s oneJob).map fun s =>
      (s.phase, s.shell.ofile 4, s.role 1)) = some (.top, some (.pipe 0 true), some .program) := by decide +kernel
  obtain ⟨s₁, hs₁, hrest⟩ := Option.bind_eq_some_iff.mp hobserve
  obtain ⟨s, hs, hobserved⟩ := Option.map_eq_some_iff.mp hrest
  simp only [Prod.mk.injEq] at hobserved
  obtain ⟨htop, hfd, hrole⟩ := hobserved
  have halone : LaunchesAlone initial (typed ['c', 'a', 't', '&', '\n']) := by
    intro sh buf _ fd x _ hend
    simp [JobEnd, initial] at hend
  have halone' : ∀ b ∈ oneJob, ∀ s, LaunchesAlone s b := by simp [oneJob, LaunchesAlone]
  have hrun := ((Automaton.RunIn.start start_initial).step halone (Outcome.state?_eq_some.mp hs₁)).exec halone' hs
  exact ⟨s, hrun, htop, hfd, hrole, ((only_shell_holds _ s).1 hrun).1⟩

/-- The second of two background jobs holds the write end of the first. -/
theorem second_holds_first : ∃ s, system.Run twoJobs s ∧ s.phase = .top ∧ ¬ OnlyShell s := by
  have hobserve : (system.exec initial twoJobs).map (fun s => (s.phase, s.role 3, s.ofile 3 4, s.shell.launched.map Job.pipe)) =
      some (.top, some .program, some (.pipe 0 true), [0, 1]) := by decide +kernel
  obtain ⟨s, hs, hobserved⟩ := Option.map_eq_some_iff.mp hobserve
  simp only [Prod.mk.injEq] at hobserved
  obtain ⟨htop, hrole, hfd, hjobs⟩ := hobserved
  refine ⟨s, (Automaton.Run.start start_initial).exec hs, htop, fun honly => ?_⟩
  refine honly 3 _ hrole rfl 4 _ hfd ?_
  have hmem : 0 ∈ s.shell.launched.map Job.pipe := by rw [hjobs]; simp
  obtain ⟨j, hj, hpipe⟩ := List.mem_map.mp hmem
  exact ⟨j, hj, by rw [hpipe]⟩

end Xv6.Shell
