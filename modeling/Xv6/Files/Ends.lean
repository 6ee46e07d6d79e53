import Xv6.Files.Counts

/-!
# Pipe ends and pages

An open end of a pipe belongs to one file of the table or to a call that has just given up the last reference to
that file and is about to close the end. So `pipeclose` never finds its end closed, and the second of the two calls
for a pipe is the one that frees the page.
-/

namespace Xv6.Files

open Lib

def Table.fileEnds (t : Table) : Multiset (Nat × Bool) := total fun f => (t.file f).ends

def State.callEnds (s : State) : Multiset (Nat × Bool) := total fun p => (s.pc p).ends

def State.openEnds (s : State) : Multiset (Nat × Bool) := s.fileEnds + s.callEnds

theorem fileEnds_setFile (t : Table) (f : FileId) (v : File) :
    (t.setFile f v).fileEnds + (t.file f).ends = t.fileEnds + v.ends := by
  have hchange := total_change (f := fun g => (t.file g).ends) (g := fun g => ((t.setFile f v).file g).ends) f
    fun g hg => by rw [setFile_file, if_neg hg]
  simpa [Table.fileEnds] using hchange

variable {t : Table} {f : FileId}

theorem fileEnds_keep {v : File} (h : v.ends = (t.file f).ends) :
    (t.setFile f v).fileEnds = t.fileEnds := by
  have hchange := fileEnds_setFile t f v
  rw [h] at hchange
  exact add_right_cancel hchange

variable {s s' : State} {p : Slot} {pc : Pc}

theorem callEnds_change (h : s'.pc = Function.update s.pc p pc) :
    s'.callEnds + (s.pc p).ends = s.callEnds + pc.ends := by
  have hchange := total_change (f := fun q => (s.pc q).ends) (g := fun q => (s'.pc q).ends) p
    fun q hq => by rw [h, Function.update_of_ne hq]
  rw [h, Function.update_self] at hchange
  rw [State.callEnds, State.callEnds, h]
  exact hchange

variable {e : Option (Nat × Bool)}

/-- The end that `fileclose` leaves to be closed is the one that its file was. -/
theorem fileclose_ends {t' : Table} (h : fileclose t f = .ok (t', e)) :
    t'.fileEnds + e.elim 0 ({·}) = t.fileEnds := by
  obtain ⟨-, ⟨n, -, rfl, rfl⟩ | ⟨-, rfl, rfl⟩⟩ := fileclose_ok h
  · rw [fileEnds_keep (by rfl)]
    exact add_zero _
  · have hchange := fileEnds_setFile t f { t.file f with ref := 0, type := .none }
    rw [show File.ends { t.file f with ref := 0, type := .none } = 0 from rfl, add_zero] at hchange
    rw [← hchange, File.ends]
    split <;> rfl

theorem makePipe_ends {f0 f1 : FileId} (hne : f0 ≠ f1) (h0 : (t.file f0).type = .none)
    (h1 : (t.file f1).type = .none) : (makePipe t f0 f1).fileEnds = t.fileEnds + {(t.pages, false)} + {(t.pages, true)} := by
  let t0 : Table := { t with page := Function.update t.page t.pages ⟨true, true, 0⟩, pages := t.pages + 1 }
  have hfirst := fileEnds_setFile t0 f0 { t.file f0 with type := .pipe, readable := true, writable := false, pipe := t.pages }
  have hsecond := fileEnds_setFile
    (t0.setFile f0 { t.file f0 with type := .pipe, readable := true, writable := false, pipe := t.pages }) f1
    { t.file f1 with type := .pipe, readable := false, writable := true, pipe := t.pages }
  rw [setFile_file, if_neg hne.symm, show (t0.file f1).ends = 0 by simp [File.ends, t0, h1], add_zero] at hsecond
  rw [show (t0.file f0).ends = 0 by simp [File.ends, t0, h0], add_zero] at hfirst
  have hmake : makePipe t f0 f1 = (t0.setFile f0 { t.file f0 with type := .pipe, readable := true, writable := false, pipe := t.pages }).setFile
      f1 { t.file f1 with type := .pipe, readable := false, writable := true, pipe := t.pages } := by
    simp [makePipe, t0, Table.setFile, Function.update_of_ne hne.symm]
  rw [hmake, hsecond, hfirst]
  rfl

inductive EndsStep (s s' : State) : Prop where
  | keep (hends : s'.openEnds = s.openEnds) (hpage : s'.page = s.page) (hpages : s'.pages = s.pages)
  | close {n : Nat} {w : Bool} (hends : s'.openEnds + {(n, w)} = s.openEnds) (hpage : s'.page = (pipeclose s.toTable n w).page)
      (hpages : s'.pages = s.pages)
  | make (hends : s'.openEnds = s.openEnds + {(s.pages, false)} + {(s.pages, true)})
      (hpage : s'.page = Function.update s.page s.pages ⟨true, true, 0⟩) (hpages : s'.pages = s.pages + 1)

theorem EndsStep.of_still (hpc : s'.pc = Function.update s.pc p pc)
    (hfile : s'.fileEnds = s.fileEnds) (hends : pc.ends = (s.pc p).ends) (hpage : s'.page = s.page) (hpages : s'.pages = s.pages) :
    EndsStep s s' := by
  have hcall := callEnds_change hpc
  rw [hends] at hcall
  refine .keep ?_ hpage hpages
  rw [State.openEnds, State.openEnds, hfile, add_right_cancel hcall]

theorem EndsStep.of_fileclose
    (hclose : fileclose s.toTable f = .ok (t, e)) (htable : s'.toTable = t) (hpc : s'.pc = Function.update s.pc p pc)
    (hends : pc.ends = e.elim 0 ({·})) (hold : (s.pc p).ends = 0) : EndsStep s s' := by
  have hcall := callEnds_change hpc
  have hfile := fileclose_ends hclose
  obtain ⟨-, hpage, hpages, -⟩ := fileclose_frame hclose
  refine .keep ?_ (by rw [htable, hpage]) (by rw [htable, hpages])
  rw [hold, add_zero, hends] at hcall
  rw [State.openEnds, State.openEnds, hcall, htable, ← hfile]
  abel

theorem EndsStep.of_closeEnd (hfile : s'.file = s.file)
    (hpage : s'.page = (closeEnd s.toTable e).page) (hpages : s'.pages = s.pages) (hpc : s'.pc = Function.update s.pc p pc)
    (hends : pc.ends = 0) (hold : (s.pc p).ends = e.elim 0 ({·})) : EndsStep s s' := by
  have hcall := callEnds_change hpc
  have hfiles : s'.fileEnds = s.fileEnds := by rw [Table.fileEnds, Table.fileEnds, hfile]
  rw [hold, hends, add_zero] at hcall
  cases e with
  | none =>
    refine .keep ?_ hpage hpages
    rw [State.openEnds, State.openEnds, hfiles, ← hcall]
    exact (congrArg _ (add_zero _)).symm
  | some e =>
    refine .close (n := e.1) (w := e.2) ?_ hpage hpages
    rw [State.openEnds, State.openEnds, hfiles, ← hcall, add_assoc]
    rfl

theorem Trans.ends (h : Counts s) (hs : Trans s p s') : EndsStep s s' := by
  cases hs with
  | openAlloc hpc | pipeAlloc hpc | pipeSecond hpc | dup hpc | forkDup hpc =>
    exact .of_still rfl (fileEnds_keep (by rfl)) (by rw [hpc]; rfl) rfl rfl
  | openFd hpc | openFull hpc | pipeNoFile hpc | pipeNoPage hpc | pipeFd0 hpc | pipeFull0 hpc | pipeFd1 hpc | pipeFull1 hpc
  | dupFd hpc | close hpc | closed hpc | fork hpc | forkSkip hpc | forked hpc | exit hpc | exitSkip hpc | exited hpc =>
    exact .of_still rfl rfl (by rw [hpc]; rfl) rfl rfl
  | @openInit f r w hpc =>
    have htype := (h.raw p f (by simp [hpc, Pc.raw])).1
    refine .of_still rfl (fileEnds_keep ?_) (by rw [hpc]; rfl) rfl rfl
    simp [File.ends, htype]
  | @pipePage f0 f1 hpc =>
    have h0 := h.raw p f0 (by simp [hpc, Pc.raw])
    have h1 := h.raw p f1 (by simp [hpc, Pc.raw])
    have hne : f0 ≠ f1 := by
      rintro rfl
      have hle := Multiset.count_le_of_le f0 (le_total s.counted p)
      rw [← h.ref f0, h0.2, State.counted, hpc] at hle
      simp [Pc.inflight] at hle
    have hpc' : ((s.withTable (makePipe s.toTable f0 f1)).goto p (.pipeFd0 f0 f1)).pc = Function.update s.pc p (.pipeFd0 f0 f1) := rfl
    have hcall := callEnds_change hpc'
    rw [hpc] at hcall
    refine .make ?_ rfl rfl
    rw [State.openEnds, State.openEnds, add_right_cancel hcall]
    show (makePipe s.toTable f0 f1).fileEnds + _ = _
    rw [makePipe_ends hne h0.1 h1.1]
    abel
  | @fileclose f fs t e hpc hclose =>
    refine .of_fileclose hclose rfl rfl ?_ (by rw [hpc]; rfl)
    cases e <;> rfl
  | @exitClose fd f t e hpc hf hclose =>
    refine .of_fileclose hclose rfl rfl ?_ (by rw [hpc]; rfl)
    cases e <;> rfl
  | @closeEnd fs e hpc =>
    refine .of_closeEnd (closeEnd_file ..) rfl ?_ rfl rfl ?_
    · cases e <;> rfl
    · rw [hpc]
      cases e <;> rfl
  | @exitClosed fd e hpc =>
    refine .of_closeEnd (closeEnd_file ..) rfl ?_ rfl rfl ?_
    · cases e <;> rfl
    · rw [hpc]
      cases e <;> rfl

/-! ### Pages -/

theorem isOpen_pipeclose (t : Table) (n : Nat) (w : Bool) (e : Nat × Bool) :
    (pipeclose t n w).isOpen e = (t.isOpen e && e != (n, w)) := by
  obtain ⟨m, b⟩ := e
  by_cases hm : m = n
  · subst hm
    cases b <;> cases w <;> simp [Table.isOpen, pipeclose, Page.close] <;> split <;> simp_all
  · cases b <;> simp [Table.isOpen, pipeclose, hm]

/-- The page of a pipe has been freed if and only if both ends are closed. -/
structure Ends (s : State) : Prop where
  count : ∀ e, s.openEnds.count e = if s.isOpen e then 1 else 0
  fresh : ∀ n, s.pages ≤ n → s.page n = ⟨false, false, 0⟩
  frees : ∀ n, n < s.pages → (s.page n).frees = if (s.page n).readopen ∨ (s.page n).writeopen then 0 else 1

variable {n : Nat}

theorem Ends.not_open (h : Ends s) (hn : s.pages ≤ n) (w : Bool) : s.isOpen (n, w) = false := by
  rw [Table.isOpen, h.fresh n hn]
  exact ite_self _

theorem Ends.close {w : Bool} (h : Ends s) (hends : s'.openEnds + {(n, w)} = s.openEnds)
    (hpage : s'.page = (pipeclose s.toTable n w).page) (hpages : s'.pages = s.pages) : Ends s' := by
  have hcount : ∀ e, s'.openEnds.count e + ({(n, w)} : Multiset (Nat × Bool)).count e = s.openEnds.count e := fun e => by
    rw [← hends, Multiset.count_add]
  have hisOpen : ∀ e, s'.isOpen e = (s.isOpen e && e != (n, w)) := fun e => by
    rw [← isOpen_pipeclose, Table.isOpen, Table.isOpen, hpage]
  have hopen : s.isOpen (n, w) = true := by
    have hone := hcount (n, w)
    rw [h.count, Multiset.count_singleton_self] at hone
    by_contra hclosed
    rw [if_neg hclosed] at hone
    omega
  have hn : n < s.pages := by
    by_contra hge
    rw [h.not_open (not_lt.mp hge)] at hopen
    cases hopen
  refine ⟨fun e => ?_, fun m hm => ?_, fun m hm => ?_⟩
  · have he := hcount e
    rw [h.count] at he
    rw [hisOpen]
    by_cases heq : e = (n, w)
    · subst heq
      simp_all
    · rw [Multiset.count_singleton, if_neg heq, add_zero] at he
      simpa [heq] using he
  · rw [hpages] at hm
    rw [hpage, show (pipeclose s.toTable n w).page m = s.page m from Function.update_of_ne (by omega) _ _]
    exact h.fresh m hm
  · rw [hpages] at hm
    by_cases hmn : m = n
    · subst hmn
      have hfrees := h.frees m hm
      have hnow : s'.page m = _ := (congrFun hpage m).trans (Function.update_self ..)
      cases w <;> simp_all [Table.isOpen, Page.close] <;> split <;> simp_all
    · rw [hpage, show (pipeclose s.toTable n w).page m = s.page m from Function.update_of_ne hmn _ _]
      exact h.frees m hm

theorem Ends.make (h : Ends s) (hends : s'.openEnds = s.openEnds + {(s.pages, false)} + {(s.pages, true)})
    (hpage : s'.page = Function.update s.page s.pages ⟨true, true, 0⟩) (hpages : s'.pages = s.pages + 1) : Ends s' := by
  have hold : ∀ m, m ≠ s.pages → s'.page m = s.page m := fun m hm => by rw [hpage, Function.update_of_ne hm]
  have hnew : s'.page s.pages = ⟨true, true, 0⟩ := by rw [hpage, Function.update_self]
  refine ⟨fun ⟨m, w⟩ => ?_, fun m hm => ?_, fun m hm => ?_⟩
  · rw [hends, Multiset.count_add, Multiset.count_add, h.count]
    by_cases hm : m = s.pages
    · subst hm
      rw [h.not_open le_rfl, Table.isOpen, hnew]
      cases w <;> simp
    · have hsame : s'.isOpen (m, w) = s.isOpen (m, w) := by rw [Table.isOpen, Table.isOpen, hold m hm]
      simp [hsame, hm]
  · rw [hold m (by omega)]
    exact h.fresh m (by omega)
  · by_cases hmn : m = s.pages
    · rw [hmn, hnew]
      rfl
    · rw [hold m hmn]
      exact h.frees m (by omega)

theorem Ends.step (h : Ends s) (hs : EndsStep s s') : Ends s' := by
  cases hs with
  | keep hends hpage hpages =>
    refine ⟨fun e => ?_, fun n hn => ?_, fun n hn => ?_⟩
    · rw [hends, Table.isOpen, hpage]
      exact h.count e
    · rw [hpage]
      exact h.fresh n (hpages ▸ hn)
    · rw [hpage]
      exact h.frees n (hpages ▸ hn)
  | close hends hpage hpages => exact h.close hends hpage hpages
  | make hends hpage hpages => exact h.make hends hpage hpages

/-! ### Whole runs -/

structure Inv (s : State) : Prop where
  calls : Local s
  counts : Counts s
  ends : Ends s

theorem Boot.inv (h : Boot s) : Inv s := by
  have hcounted : ∀ p, s.counted p = 0 := fun p => by
    rw [State.counted, h.pc p, show s.ofile p = fun _ => none from funext (h.ofile p)]
    simp [visible, Pc.masked, Pc.inflight, slotsOf]
  have hends : s.openEnds = 0 := by
    simp [State.openEnds, Table.fileEnds, State.callEnds, File.ends, Pc.ends, h.pc, (h.file _).2]
  refine ⟨⟨fun p => ?_, fun p hp => absurd (h.pc p) hp, fun p np i hp => ?_, fun p q np i j hp => ?_, fun p _ => h.ofile p⟩,
    ⟨fun f => ?_, fun p f hf => ?_, fun f _ => (h.file f).2⟩, fun e => ?_, fun n _ => h.page n, fun n hn => ?_⟩
  · rw [h.pc p]
    trivial
  · rw [h.pc p] at hp
    cases hp
  · rw [h.pc p] at hp
    cases hp
  · rw [total_congr (g := fun _ => 0) hcounted, (h.file f).1]
    simp
  · rw [h.pc p] at hf
    simp [Pc.raw] at hf
  · simp [hends, Table.isOpen, h.page]
  · rw [h.pages] at hn
    omega

theorem inv_of_run {as : List Label} (hrun : system.Run as s) : Inv s := by
  refine Automaton.Run.invariant (I := fun _ s => Inv s) (fun s hs => Boot.inv hs) (fun as s a s' h hstep => ?_) hrun
  obtain rfl | ⟨p, hs⟩ | ⟨p, hzombie, rfl⟩ := step_cases hstep
  · exact h
  · exact ⟨local_step h.calls hs, ⟨counts_ref h.calls hs h.counts.ref, counts_raw h.calls h.counts hs, counts_free h.counts hs⟩,
      h.ends.step (hs.ends h.counts)⟩
  · refine ⟨h.calls.reap hzombie, ⟨h.counts.ref, h.counts.raw, h.counts.free⟩, h.ends.count, h.ends.fresh, h.ends.frees⟩

def File.IsEnd (v : File) (n : Nat) (writable : Bool) : Prop := v.type = .pipe ∧ v.pipe = n ∧ v.writable = writable

/-- Between calls the count of a file is the number of descriptors for it, and an end is open as long as a file is
that end. -/
structure Exact (s : State) : Prop where
  ref : ∀ f, (s.file f).ref = (Finset.univ.filter fun x : Slot × Fd => s.ofile x.1 x.2 = some f).card
  readopen : ∀ n, (s.page n).readopen = true ↔ ∃ f, 0 < (s.file f).ref ∧ (s.file f).IsEnd n false
  writeopen : ∀ n, (s.page n).writeopen = true ↔ ∃ f, 0 < (s.file f).ref ∧ (s.file f).IsEnd n true

theorem count_slotsOf (o : Fd → Option FileId) (f : FileId) : (slotsOf o).count f = ∑ fd, if o fd = some f then 1 else 0 := by
  rw [slotsOf, count_total]
  refine Finset.sum_congr rfl fun fd _ => ?_
  cases h : o fd with
  | none => simp
  | some g => simp [Multiset.count_singleton, eq_comm]

theorem mem_fileEnds {w : Bool} : (n, w) ∈ t.fileEnds ↔ ∃ f, (t.file f).IsEnd n w := by
  rw [Table.fileEnds, mem_total]
  refine exists_congr fun f => ?_
  rw [File.ends, File.IsEnd]
  split
  · simp [*, eq_comm]
  · simp [*]

theorem Inv.isOpen_iff (h : Inv s) (hidle : ∀ p, s.pc p = .idle) (n : Nat) (w : Bool) :
    s.isOpen (n, w) = true ↔ ∃ f, 0 < (s.file f).ref ∧ (s.file f).IsEnd n w := by
  have hcall : s.callEnds = 0 := by
    simp [State.callEnds, hidle, Pc.ends]
  have hcount := h.ends.count (n, w)
  rw [State.openEnds, hcall, add_zero] at hcount
  have hmem : s.isOpen (n, w) = true ↔ (n, w) ∈ s.fileEnds := by
    rw [← Multiset.count_pos, hcount]
    split <;> simp_all
  rw [hmem, mem_fileEnds]
  refine exists_congr fun f => ⟨fun hf => ⟨?_, hf⟩, fun hf => hf.2⟩
  refine Nat.pos_of_ne_zero fun hzero => ?_
  have hnone := h.counts.free f hzero
  rw [hf.1] at hnone
  cases hnone

theorem Inv.exact (h : Inv s) (hidle : ∀ p, s.pc p = .idle) : Exact s where
  ref f := by
    rw [h.counts.ref, count_total, Finset.card_filter, Fintype.sum_prod_type]
    refine Finset.sum_congr rfl fun p _ => ?_
    rw [State.counted, hidle p, ← count_slotsOf]
    exact congrArg _ (add_zero _)
  readopen n := h.isOpen_iff hidle n false
  writeopen n := h.isOpen_iff hidle n true

/-- Every pipe that was allocated: the page has been freed once if both ends are closed, and not yet otherwise. -/
def FreedOnce (s : State) : Prop :=
  ∀ n, n < s.pages → (s.page n).frees = if (s.page n).readopen = false ∧ (s.page n).writeopen = false then 1 else 0

theorem refs_exact (as : List Label) (s : State) (hrun : system.Run as s) :
    FreedOnce s ∧ ((∀ p, s.pc p = .idle) → Exact s) := by
  have hinv := inv_of_run hrun
  refine ⟨fun n hn => ?_, hinv.exact⟩
  rw [hinv.ends.frees n hn]
  cases (s.page n).readopen <;> cases (s.page n).writeopen <;> rfl

/-- The first process alone, before it opens the console. -/
def boot : State where
  file _ := ⟨.none, 0, false, false, 0⟩
  ofile _ _ := none
  page _ := ⟨false, false, 0⟩
  pages := 0
  pc _ := .idle
  life p := if p = 0 then .alive else .unused
  initproc := 0

theorem boot_start : Boot boot where
  file _ := ⟨rfl, rfl⟩
  ofile _ _ := rfl
  page _ := rfl
  pages := rfl
  pc _ := rfl
  life _ := rfl

def pipeClose : List Label :=
  .call 0 .pipe true :: List.replicate 4 (.go 0 true) ++ .call 0 (.close 0) true :: List.replicate 3 (.go 0 true)

theorem refs_exact_pipeClose :
    ∃ s, system.Run pipeClose s ∧ (s.file 1).ref = 1 ∧ s.page 0 = ⟨false, true, 0⟩ ∧ FreedOnce s ∧ Exact s := by
  have hobserve : (system.exec boot pipeClose).map (fun s =>
      decide ((∀ p, s.pc p = .idle) ∧ (s.file 1).ref = 1 ∧ s.page 0 = ⟨false, true, 0⟩)) = some true := by decide +kernel
  obtain ⟨s, hs, hobserved⟩ := Option.map_eq_some_iff.mp hobserve
  obtain ⟨hidle, href, hpage⟩ := of_decide_eq_true hobserved
  have hrun := (Automaton.Run.start boot_start).exec hs
  obtain ⟨hfreed, hexact⟩ := refs_exact _ s hrun
  exact ⟨s, hrun, href, hpage, hfreed, hexact hidle⟩

end Xv6.Files
