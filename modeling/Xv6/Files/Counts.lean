import Xv6.Files.Table
import Xv6.Lib.Resources

/-!
# Reference counts of open files

The count of a file is the number of references to it: in the descriptors of the processes, but for a
descriptor whose reference is still to be counted (`dup`) or counted no more (`exit`), and those that a call in
progress has not stored yet or not given back yet. Between calls only the descriptors are left.
-/

namespace Xv6.Files

open Lib

/-! ### Where the references are -/

/-- The files of a descriptor table, one for each descriptor. -/
def slotsOf (o : Fd → Option FileId) : Multiset FileId := total fun fd => (o fd).elim 0 ({·})

namespace Pc

/-- The descriptor that does not count: its reference is yet to be taken, or given back already. -/
def masked : Pc → Option Fd
  | .dup fd _ | .exitClose fd _ => some fd
  | _ => none

def inflight : Pc → Multiset FileId
  | .openFd f _ _ | .pipeSecond f => {f}
  | .pipePage f0 f1 | .pipeFd0 f0 f1 => {f0} + {f1}
  | .pipeFd1 _ _ f1 => {f1}
  | .closing fs | .closeEnd _ fs => fs
  | _ => 0

def ends : Pc → Multiset (Nat × Bool)
  | .closeEnd (some e) _ | .exitClose _ (some e) => {e}
  | _ => 0

/-- The files that have been allocated and not yet set up. -/
def raw : Pc → Multiset FileId
  | .openFd f _ _ | .openInit f _ _ | .pipeSecond f => {f}
  | .pipePage f0 f1 => {f0, f1}
  | _ => 0

/-- What the call knows of the descriptors of its process. -/
def Ok (o : Fd → Option FileId) : Pc → Prop
  | .openInit f _ _ => ∃ fd, o fd = some f
  | .pipeFd1 fd f _ => o fd = some f
  | .dup fd f => o fd = some f ∧ ∃ fd', fd' ≠ fd ∧ o fd' = some f
  | .exiting i => ∀ fd : Fd, fd.val < i → o fd = none
  | .exitClose fd _ => ∀ fd' : Fd, fd' < fd → o fd' = none
  | _ => True

end Pc

def visible (pc : Pc) (o : Fd → Option FileId) : Fd → Option FileId :=
  match pc.masked with
  | some fd => Function.update o fd none
  | none => o

def State.counted (s : State) (p : Slot) : Multiset FileId := slotsOf (visible (s.pc p) (s.ofile p)) + (s.pc p).inflight

def File.ends (v : File) : Multiset (Nat × Bool) := if v.type = .pipe then {(v.pipe, v.writable)} else 0

def Table.isOpen (t : Table) (e : Nat × Bool) : Bool := if e.2 then (t.page e.1).writeopen else (t.page e.1).readopen

variable {o : Fd → Option FileId}

theorem slotsOf_fill {fd : Fd} (f : FileId) (h : o fd = none) :
    slotsOf (Function.update o fd (some f)) = slotsOf o + {f} := by
  have hchange := total_change (f := fun fd => (o fd).elim 0 ({·})) (g := fun fd' => (Function.update o fd (some f) fd').elim 0 ({·}))
    fd fun k hk => by rw [Function.update_of_ne hk]
  simpa [slotsOf, h] using hchange

theorem slotsOf_clear {fd : Fd} {f : FileId} (h : o fd = some f) :
    slotsOf o = slotsOf (Function.update o fd none) + {f} := by
  have hfill := slotsOf_fill f (Function.update_self fd none o)
  rwa [Function.update_idem, ← h, Function.update_eq_self] at hfill

theorem mem_slotsOf {f : FileId} : f ∈ slotsOf o ↔ ∃ fd, o fd = some f := by
  rw [slotsOf, mem_total]
  refine exists_congr fun fd => ?_
  cases h : o fd with
  | none => simp
  | some g => simp [eq_comm]

/-! ### The fields after a step -/

variable {t' : Table} {e : Option (Nat × Bool)}

section Fields

variable (s : State) (t : Table) (p q : Slot) (f g : FileId) (fd : Fd) (v : File)

@[simp] theorem setFile_file : (t.setFile f v).file g = if g = f then v else t.file g := Function.update_apply ..

@[simp] theorem setFd_self (o : Option FileId) : (t.setFd p fd o).ofile p = Function.update (t.ofile p) fd o :=
  Function.update_self ..

theorem setFd_of_ne {p q : Slot} (h : q ≠ p) (o : Option FileId) : (t.setFd p fd o).ofile q = t.ofile q :=
  Function.update_of_ne h _ _

@[simp] theorem goto_self (pc : Pc) : (s.goto p pc).pc p = pc := Function.update_self ..

theorem goto_of_ne {p q : Slot} (h : q ≠ p) (pc : Pc) : (s.goto p pc).pc q = s.pc q := Function.update_of_ne h _ _

@[simp] theorem closeEnd_file (e : Option (Nat × Bool)) : (closeEnd t e).file = t.file := by
  cases e <;> rfl

@[simp] theorem closeEnd_ofile (e : Option (Nat × Bool)) : (closeEnd t e).ofile = t.ofile := by
  cases e <;> rfl

theorem fileclose_frame {t : Table} {f : FileId} (h : fileclose t f = .ok (t', e)) :
    t'.ofile = t.ofile ∧ t'.page = t.page ∧ t'.pages = t.pages ∧ ∀ g, g ≠ f → t'.file g = t.file g := by
  obtain ⟨-, ⟨n, -, rfl, -⟩ | ⟨-, rfl, -⟩⟩ := fileclose_ok h <;>
    exact ⟨rfl, rfl, rfl, fun g hg => Function.update_of_ne hg _ _⟩

end Fields

variable {s : State} {p : Slot} {f : FileId} {fd : Fd}

/-! ### Processes and their calls -/

structure Local (s : State) : Prop where
  pc : ∀ p, (s.pc p).Ok (s.ofile p)
  alive : ∀ p, s.pc p ≠ .idle → s.life p = .alive
  forking : ∀ p np i, s.pc p = .forking np i → s.life np = .embryo ∧ ∀ fd : Fd, i ≤ fd.val → s.ofile np fd = none
  unique : ∀ p q np i j, s.pc p = .forking np i → s.pc q = .forking np j → p = q
  closed : ∀ p, s.life p = .unused ∨ s.life p = .zombie → ∀ fd, s.ofile p fd = none

theorem Local.embryo (h : Local s) (hp : s.life p ≠ .alive) : s.pc p = .idle :=
  Classical.not_not.mp fun hpc => hp (h.alive p hpc)

variable {s' : State} {pc' : Pc}

theorem Local.not_forked (h : Local s) (halive : s.life p = .alive) (q : Slot) (i : Nat) :
    s.pc q ≠ .forking p i := by
  intro hq
  have hembryo := (h.forking q p i hq).1
  rw [halive] at hembryo
  cases hembryo

variable {np : Slot}

/-- A process goes on with its call, and what changes is in its own slot or in one that no other call is about. -/
theorem Local.change (h : Local s) (halive : s.life p = .alive)
    (hpc : s'.pc = Function.update s.pc p pc') (hnp : np = p ∨ s.life np ≠ .alive)
    (hforks : ∀ q i, q ≠ p → s.pc q ≠ .forking np i) (hlife : ∀ q, q ≠ np → s'.life q = s.life q)
    (hofile : ∀ q, q ≠ p → q ≠ np → s'.ofile q = s.ofile q) (hok : pc'.Ok (s'.ofile p)) (hrun : pc' ≠ .idle → s'.life p = .alive)
    (hfork : ∀ m i, pc' = .forking m i → m = np ∧ s'.life np = .embryo ∧ ∀ fd : Fd, i ≤ fd.val → s'.ofile np fd = none)
    (hclosed : s'.life np = .unused ∨ s'.life np = .zombie → ∀ fd, s'.ofile np fd = none) : Local s' := by
  have hself : s'.pc p = pc' := by rw [hpc, Function.update_self]
  have hother : ∀ q, q ≠ p → s'.pc q = s.pc q := fun q hq => by rw [hpc, Function.update_of_ne hq]
  have hbusy : ∀ q, q ≠ p → s.pc q ≠ .idle → q ≠ np := by
    rintro q hq hidle rfl
    exact hnp.elim hq fun hdead => hdead (h.alive q hidle)
  refine ⟨fun q => ?_, fun q hq => ?_, fun q m i hq => ?_, fun q r m i j hq hr => ?_, fun q hq => ?_⟩
  · by_cases hqp : q = p
    · subst hqp
      rwa [hself]
    · rw [hother q hqp]
      by_cases hidle : s.pc q = .idle
      · rw [hidle]
        trivial
      · rw [hofile q hqp (hbusy q hqp hidle)]
        exact h.pc q
  · by_cases hqp : q = p
    · subst hqp
      exact hrun (hself ▸ hq)
    · rw [hother q hqp] at hq
      rw [hlife q (hbusy q hqp hq)]
      exact h.alive q hq
  · by_cases hqp : q = p
    · subst hqp
      obtain ⟨rfl, hembryo, hnone⟩ := hfork m i (hself.symm.trans hq)
      exact ⟨hembryo, hnone⟩
    · rw [hother q hqp] at hq
      have hmp : m ≠ p := by
        rintro rfl
        exact h.not_forked halive q i hq
      have hmn : m ≠ np := by
        rintro rfl
        exact hforks q i hqp hq
      rw [hlife m hmn, hofile m hmp hmn]
      exact h.forking q m i hq
  · by_cases hqp : q = p <;> by_cases hrp : r = p
    · rw [hqp, hrp]
    · rw [hqp, hself] at hq
      rw [hother r hrp] at hr
      exact absurd ((hfork m i hq).1 ▸ hr) (hforks r j hrp)
    · rw [hrp, hself] at hr
      rw [hother q hqp] at hq
      exact absurd ((hfork m j hr).1 ▸ hq) (hforks q i hqp)
    · exact h.unique q r m i j (hother q hqp ▸ hq) (hother r hrp ▸ hr)
  · by_cases hqn : q = np
    · subst hqn
      exact hclosed hq
    · rw [hlife q hqn] at hq
      have hqp : q ≠ p := by
        rintro rfl
        rw [halive] at hq
        cases hq <;> contradiction
      rw [hofile q hqp hqn]
      exact h.closed q hq

theorem Local.move (h : Local s) (halive : s.life p = .alive)
    (hlife : s'.life = s.life) (hpc : s'.pc = Function.update s.pc p pc') (hofile : ∀ q, q ≠ p → s'.ofile q = s.ofile q)
    (hok : pc'.Ok (s'.ofile p)) (hfork : ∀ np i, pc' ≠ .forking np i) : Local s' := by
  have halive' : s'.life p = .alive := by rw [hlife, halive]
  refine h.change halive hpc (.inl rfl) (fun q i _ => h.not_forked halive q i) (fun q _ => by rw [hlife]) (fun q hq _ => hofile q hq)
    hok (fun _ => halive') (fun m i heq => absurd heq (hfork m i)) fun hdead => ?_
  rw [halive'] at hdead
  cases hdead <;> contradiction

theorem Trans.alive (h : Local s) (hs : Trans s p s') : s.life p = .alive := by
  cases hs with
  | openAlloc _ hlife | pipeAlloc _ hlife | dupFd _ hlife | close _ hlife | fork _ hlife | exit _ hlife => exact hlife
  | openFd hpc | openFull hpc | openInit hpc | pipeSecond hpc | pipeNoFile hpc | pipePage hpc | pipeNoPage hpc
  | pipeFd0 hpc | pipeFull0 hpc | pipeFd1 hpc | pipeFull1 hpc | dup hpc | closed hpc | fileclose hpc | closeEnd hpc
  | forkDup hpc | forkSkip hpc | forked hpc | exitClose hpc | exitSkip hpc | exitClosed hpc | exited hpc =>
    exact h.alive p (by rw [hpc]; simp)

theorem Local.fork (h : Local s) (hlife : s.life p = .alive)
    (hnp : s.life np = .unused) : Local ((s.setLife np .embryo).goto p (.forking np 0)) := by
  have hne : p ≠ np := by
    rintro rfl
    rw [hlife] at hnp
    cases hnp
  have hembryo : ((s.setLife np .embryo).goto p (.forking np 0)).life np = .embryo := Function.update_self ..
  refine h.change hlife rfl (.inr (by rw [hnp]; decide)) (fun q i _ hq => ?_) (fun q hq => Function.update_of_ne hq _ _)
    (fun _ _ _ => rfl) trivial (fun _ => (Function.update_of_ne hne _ _).trans hlife) (fun m i heq => ?_) fun hdead => ?_
  · -- nobody forks into an unused slot
    have hold := (h.forking q np i hq).1
    rw [hnp] at hold
    cases hold
  · exact ⟨(Pc.forking.inj heq).1.symm, hembryo, fun fd _ => h.closed np (.inl hnp) fd⟩
  · rw [hembryo] at hdead
    cases hdead <;> contradiction

theorem Local.forkNext (h : Local s) (hpc : s.pc p = .forking np fd)
    (hpc' : s'.pc = Function.update s.pc p (.forking np (fd + 1))) (hlife : s'.life = s.life)
    (hofile : ∀ q, q ≠ np → s'.ofile q = s.ofile q)
    (hnext : ∀ fd' : Fd, fd' ≠ fd → s'.ofile np fd' = s.ofile np fd') : Local s' := by
  obtain ⟨hembryo, hnone⟩ := h.forking p np fd hpc
  have halive := h.alive p (by rw [hpc]; simp)
  rw [← hlife] at hembryo
  refine h.change halive hpc' (.inr (by rw [← hlife, hembryo]; decide)) (fun q i hq hfork => hq (h.unique q p np i fd hfork hpc))
    (fun q _ => by rw [hlife]) (fun q _ hq => hofile q hq) trivial (fun _ => by rw [hlife, halive]) (fun m i heq => ?_) fun hdead => ?_
  · obtain ⟨rfl, rfl⟩ := Pc.forking.inj heq
    refine ⟨rfl, hembryo, fun fd' hfd' => ?_⟩
    rw [hnext fd' (by rintro rfl; omega)]
    exact hnone fd' (by omega)
  · rw [hembryo] at hdead
    cases hdead <;> contradiction

/-- A process stops being in a call and its slot, or that of its child, changes its state. -/
theorem Local.finish {l : Life} (h : Local s) (halive : s.life p = .alive)
    (hnp : np = p ∨ s.life np ≠ .alive) (hothers : ∀ q i, q ≠ p → s.pc q ≠ .forking np i) (hl : l ≠ .unused)
    (hclosed : l = .zombie → ∀ fd, s.ofile np fd = none) : Local ((s.setLife np l).goto p .idle) := by
  refine h.change halive rfl hnp hothers (fun q hq => Function.update_of_ne hq _ _) (fun _ _ _ => rfl) trivial
    (fun hidle => absurd rfl hidle) (fun _ _ heq => by cases heq) fun hdead => ?_
  rw [show ((s.setLife np l).goto p .idle).life np = l from Function.update_self ..] at hdead
  exact hclosed (hdead.resolve_left hl)

theorem Local.reap (h : Local s) (hzombie : s.life p = .zombie) : Local (s.setLife p .unused) := by
  have hlife : ∀ q, q ≠ p → (s.setLife p .unused).life q = s.life q := fun q hq => Function.update_of_ne hq _ _
  have hne : ∀ q, s.life q ≠ .zombie → q ≠ p := by
    rintro q hq rfl
    exact hq hzombie
  refine ⟨h.pc, fun q hq => ?_, fun q np i hq => ?_, h.unique, fun q hq => ?_⟩
  · have halive := h.alive q hq
    rwa [hlife q (hne q (by rw [halive]; decide))]
  · have hembryo := (h.forking q np i hq).1
    rw [hlife np (hne np (by rw [hembryo]; decide))]
    exact h.forking q np i hq
  · by_cases hqp : q = p
    · exact h.closed q (.inr (hqp ▸ hzombie))
    · exact h.closed q (hlife q hqp ▸ hq)

theorem local_step (h : Local s) (hs : Trans s p s') : Local s' := by
  have halive := hs.alive h
  have hpc := h.pc p
  cases hs with
  | openAlloc | openFull | openInit | pipeAlloc | pipeSecond | pipeNoFile | pipePage | pipeNoPage | pipeFull0 | dup | closed =>
    exact h.move halive rfl rfl (fun q _ => rfl) trivial (by simp)
  | @openFd f r w fd hat hfd =>
    refine h.move halive rfl rfl (fun q hq => setFd_of_ne _ _ hq _) ⟨fd, ?_⟩ (by simp)
    exact (congrFun (setFd_self ..) _).trans (Function.update_self ..)
  | pipeFd0 hat hfd =>
    refine h.move halive rfl rfl (fun q hq => setFd_of_ne _ _ hq _) ?_ (by simp)
    exact (congrFun (setFd_self ..) _).trans (Function.update_self ..)
  | pipeFd1 | pipeFull1 | close => exact h.move halive rfl rfl (fun q hq => setFd_of_ne _ _ hq _) trivial (by simp)
  | @dupFd f fd fd' hat hlife hf hfd =>
    have hne : fd ≠ fd' := by
      rintro rfl
      rw [hf] at hfd
      cases hfd
    refine h.move halive rfl rfl (fun q hq => setFd_of_ne _ _ hq _) ⟨?_, fd, hne, ?_⟩ (by simp)
    · exact (congrFun (setFd_self ..) _).trans (Function.update_self ..)
    · exact (congrFun (setFd_self ..) _).trans ((Function.update_of_ne hne _ _).trans hf)
  | fileclose hat hclose =>
    exact h.move halive rfl rfl (fun q _ => congrFun (fileclose_frame hclose).1 q) trivial (by simp)
  | closeEnd hat => exact h.move halive rfl rfl (fun q _ => congrFun (closeEnd_ofile ..) q) trivial (by simp)
  | fork hat hlife hnp => exact h.fork hlife hnp
  | @forkDup np fd f hat hf =>
    refine h.forkNext hat rfl rfl (fun q hq => setFd_of_ne _ _ hq _) fun fd' hfd' => ?_
    exact (congrFun (setFd_self ..) _).trans (Function.update_of_ne hfd' _ _)
  | forkSkip hat hf => exact h.forkNext hat rfl rfl (fun q _ => rfl) fun _ _ => rfl
  | @forked np i hat hi =>
    have hembryo := (h.forking p np i hat).1
    refine h.finish halive (.inr (by rw [hembryo]; decide)) (fun q j hq hfork => ?_) (by decide) (by simp)
    exact hq (h.unique q p np j i hfork hat)
  | exit => exact h.move halive rfl rfl (fun q _ => rfl) (fun fd hfd => absurd hfd (Nat.not_lt_zero _)) (by simp)
  | @exitClose fd f t e hat hf hclose =>
    refine h.move halive rfl rfl (fun q _ => congrFun (fileclose_frame hclose).1 q) (fun fd' hfd' => ?_) (by simp)
    rw [hat] at hpc
    exact (congrFun (congrFun (fileclose_frame hclose).1 p) fd').trans (hpc fd' hfd')
  | @exitSkip fd hat hf =>
    refine h.move halive rfl rfl (fun q _ => rfl) (fun fd' hfd' => ?_) (by simp)
    rw [hat] at hpc
    rcases Nat.lt_succ_iff_lt_or_eq.mp hfd' with hlt | heq
    · exact hpc fd' hlt
    · exact Fin.ext heq ▸ hf
  | @exitClosed fd e hat =>
    refine h.move halive rfl rfl (fun q hq => (setFd_of_ne _ _ hq _).trans (congrFun (closeEnd_ofile ..) q)) (fun fd' hfd' => ?_)
      (by simp)
    rw [hat] at hpc
    refine (congrFun (setFd_self ..) fd').trans ?_
    rcases Nat.lt_succ_iff_lt_or_eq.mp hfd' with hlt | heq
    · rw [Function.update_of_ne (by rintro rfl; exact lt_irrefl _ hlt), closeEnd_ofile]
      exact hpc fd' hlt
    · obtain rfl := Fin.ext heq
      exact Function.update_self ..
  | @exited i hat hi =>
    rw [hat] at hpc
    exact h.finish halive (.inl rfl) (fun q j _ => h.not_forked halive q j) (by decide) fun _ fd => hpc fd (by omega)

/-! ### The counts -/

/-- One process, `q`, takes references and gives some back, and the counts follow. -/
structure Exchange (s s' : State) (q : Slot) (gain loss : Multiset FileId) : Prop where
  others : ∀ r, r ≠ q → s'.counted r = s.counted r
  place : s'.counted q + loss = s.counted q + gain
  refs : ∀ f, (s'.file f).ref + loss.count f = (s.file f).ref + gain.count f

theorem counted_congr {q : Slot} (hpc : s'.pc q = s.pc q) (hofile : s'.ofile q = s.ofile q) :
    s'.counted q = s.counted q := by
  rw [State.counted, State.counted, hpc, hofile]

theorem Exchange.own {gain loss : Multiset FileId} {pc : Pc} (hold : s.pc p = pc)
    (hpc : s'.pc = Function.update s.pc p pc') (hofile : ∀ q, q ≠ p → s'.ofile q = s.ofile q)
    (hplace : slotsOf (visible pc' (s'.ofile p)) + pc'.inflight + loss =
      slotsOf (visible pc (s.ofile p)) + pc.inflight + gain)
    (hrefs : ∀ f, (s'.file f).ref + loss.count f = (s.file f).ref + gain.count f) : Exchange s s' p gain loss where
  others r hr := counted_congr (by rw [hpc, Function.update_of_ne hr]) (hofile r hr)
  place := by
    rw [State.counted, State.counted, hpc, Function.update_self, hold]
    exact hplace
  refs := hrefs

theorem setFile_gain (t : Table) (f : FileId) {v : File} (hv : v.ref = (t.file f).ref + 1) (g : FileId) :
    ((t.setFile f v).file g).ref + (0 : Multiset FileId).count g = (t.file g).ref + ({f} : Multiset FileId).count g := by
  by_cases hg : g = f
  · subst hg
    simp [hv]
  · simp [hg]

theorem fileclose_loss {t : Table} (h : fileclose t f = .ok (t', e)) (g : FileId) :
    (t'.file g).ref + ({f} : Multiset FileId).count g = (t.file g).ref + (0 : Multiset FileId).count g := by
  obtain ⟨-, ⟨n, hn, rfl, -⟩ | ⟨hone, rfl, -⟩⟩ := fileclose_ok h <;> by_cases hg : g = f
  · subst hg
    simp [hn]
  · simp [hg]
  · subst hg
    simp [hone]
  · simp [hg]

theorem Exchange.still {pc : Pc} (hold : s.pc p = pc) (hpc : s'.pc = Function.update s.pc p pc')
    (hofile : ∀ q, q ≠ p → s'.ofile q = s.ofile q)
    (hplace : slotsOf (visible pc' (s'.ofile p)) + pc'.inflight = slotsOf (visible pc (s.ofile p)) + pc.inflight)
    (hrefs : ∀ f, (s'.file f).ref = (s.file f).ref) : Exchange s s' p 0 0 :=
  .own hold hpc hofile (by rw [hplace]) fun f => by rw [hrefs]

theorem openFile_ref (t : Table) (f g : FileId) (r w : Bool) : ((openFile t f r w).file g).ref = (t.file g).ref := by
  by_cases hg : g = f
  · subst hg
    simp [openFile]
  · simp [openFile, hg]

theorem makePipe_ref (t : Table) (f0 f1 g : FileId) : ((makePipe t f0 f1).file g).ref = (t.file g).ref := by
  by_cases h1 : g = f1 <;> by_cases h0 : g = f0 <;> simp_all [makePipe]

theorem closing_cons (f : FileId) (fs : List FileId) : (Pc.closing (f :: fs)).inflight = fs + {f} := by
  rw [add_comm, Multiset.singleton_add]
  rfl

theorem Trans.exchange (h : Local s) (hs : Trans s p s') :
    ∃ q gain loss, Exchange s s' q gain loss := by
  have hok := h.pc p
  cases hs with
  | openAlloc hpc hlife hfree | pipeAlloc hpc hlife hfree =>
    refine ⟨p, _, 0, .own hpc rfl (fun q _ => rfl) ?_ (setFile_gain _ _ (by rw [hfree]))⟩
    show slotsOf (s.ofile p) + {_} + 0 = slotsOf (s.ofile p) + 0 + {_}
    abel
  | pipeSecond hpc hfree =>
    refine ⟨p, _, 0, .own hpc rfl (fun q _ => rfl) ?_ (setFile_gain _ _ (by rw [hfree]))⟩
    show slotsOf (s.ofile p) + ({_} + {_}) + 0 = slotsOf (s.ofile p) + {_} + {_}
    abel
  | dup hpc =>
    refine ⟨p, _, 0, .own hpc rfl (fun q _ => rfl) ?_ (setFile_gain _ _ rfl)⟩
    rw [hpc] at hok
    show slotsOf (s.ofile p) + 0 + 0 = slotsOf (Function.update (s.ofile p) _ none) + 0 + {_}
    rw [slotsOf_clear hok.1]
    abel
  | openFull hpc | pipeNoFile hpc | pipeNoPage hpc | pipeFull0 hpc | closed hpc | forkSkip hpc | exit hpc | exitSkip hpc
  | fork hpc | forked hpc | exited hpc =>
    exact ⟨p, 0, 0, .still hpc rfl (fun q _ => rfl) rfl fun _ => rfl⟩
  | openInit hpc =>
    exact ⟨p, 0, 0, .still hpc rfl (fun q _ => rfl) rfl fun _ => openFile_ref ..⟩
  | pipePage hpc =>
    exact ⟨p, 0, 0, .still hpc rfl (fun q _ => rfl) rfl fun _ => makePipe_ref ..⟩
  | closeEnd hpc =>
    refine ⟨p, 0, 0, .still hpc rfl (fun q _ => congrFun (closeEnd_ofile ..) q) ?_ fun g => congrArg File.ref (congrFun (closeEnd_file ..) g)⟩
    show slotsOf ((Files.closeEnd s.toTable _).ofile p) + _ = _
    rw [closeEnd_ofile]
    rfl
  | openFd hpc hfd | pipeFd1 hpc hfd =>
    refine ⟨p, 0, 0, .still hpc rfl (fun q hq => setFd_of_ne _ _ hq _) ?_ fun _ => rfl⟩
    show slotsOf ((s.setFd p _ _).ofile p) + 0 = slotsOf (s.ofile p) + {_}
    rw [setFd_self, slotsOf_fill _ hfd, add_zero]
  | pipeFd0 hpc hfd =>
    refine ⟨p, 0, 0, .still hpc rfl (fun q hq => setFd_of_ne _ _ hq _) ?_ fun _ => rfl⟩
    show slotsOf ((s.setFd p _ _).ofile p) + {_} = slotsOf (s.ofile p) + ({_} + {_})
    rw [setFd_self, slotsOf_fill _ hfd, add_assoc]
  | pipeFull1 hpc =>
    refine ⟨p, 0, 0, .still hpc rfl (fun q hq => setFd_of_ne _ _ hq _) ?_ fun _ => rfl⟩
    rw [hpc] at hok
    show slotsOf ((s.setFd p _ _).ofile p) + ({_} + {_}) = slotsOf (s.ofile p) + {_}
    rw [setFd_self, slotsOf_clear hok, add_assoc]
  | dupFd hpc hlife hf hfd =>
    refine ⟨p, 0, 0, .still hpc rfl (fun q hq => setFd_of_ne _ _ hq _) ?_ fun _ => rfl⟩
    show slotsOf (Function.update ((s.setFd p _ _).ofile p) _ none) + 0 = slotsOf (s.ofile p) + 0
    rw [setFd_self, Function.update_idem, ← hfd, Function.update_eq_self]
  | close hpc hlife hf =>
    refine ⟨p, 0, 0, .still hpc rfl (fun q hq => setFd_of_ne _ _ hq _) ?_ fun _ => rfl⟩
    show slotsOf ((s.setFd p _ _).ofile p) + {_} = slotsOf (s.ofile p) + 0
    rw [setFd_self, slotsOf_clear hf, add_zero]
  | exitClosed hpc =>
    refine ⟨p, 0, 0, .still hpc rfl (fun q hq => (setFd_of_ne _ _ hq _).trans (congrFun (closeEnd_ofile ..) q)) ?_
      fun g => congrArg File.ref (congrFun (closeEnd_file ..) g)⟩
    show slotsOf (((Files.closeEnd s.toTable _).setFd p _ _).ofile p) + 0 = slotsOf (Function.update (s.ofile p) _ none) + 0
    rw [setFd_self, closeEnd_ofile]
  | fileclose hpc hclose =>
    have hframe := (fileclose_frame hclose).1
    refine ⟨p, 0, _, .own hpc rfl (fun q _ => congrFun hframe q) ?_ (fileclose_loss hclose)⟩
    rw [closing_cons]
    show slotsOf (_ : Fd → Option FileId) + _ + {_} = slotsOf (s.ofile p) + (_ + {_}) + 0
    rw [add_zero, ← add_assoc, ← hframe]
    rfl
  | exitClose hpc hf hclose =>
    have hframe := (fileclose_frame hclose).1
    refine ⟨p, 0, _, .own hpc rfl (fun q _ => congrFun hframe q) ?_ (fileclose_loss hclose)⟩
    show slotsOf (Function.update _ _ none) + 0 + {_} = slotsOf (s.ofile p) + 0 + 0
    rw [slotsOf_clear hf, ← hframe, add_zero, add_zero, add_zero]
    rfl
  | @forkDup np fd f hpc hf =>
    -- the reference goes to the child
    obtain ⟨hembryo, hnone⟩ := h.forking p np fd hpc
    have hidle : s.pc np = .idle := h.embryo (by rw [hembryo]; decide)
    have hne : np ≠ p := by
      rintro rfl
      rw [hpc] at hidle
      cases hidle
    refine ⟨np, {f}, 0, fun r hr => ?_, ?_, setFile_gain _ _ rfl⟩
    · by_cases hrp : r = p
      · subst hrp
        rw [State.counted, State.counted, hpc, goto_self]
        show slotsOf ((Table.setFd _ np _ _).ofile r) + 0 = slotsOf (s.ofile r) + 0
        rw [setFd_of_ne _ _ hr]
        rfl
      · exact counted_congr (goto_of_ne _ hrp _) (setFd_of_ne _ _ hr _)
    · rw [State.counted, State.counted, goto_of_ne _ hne]
      show slotsOf (visible (s.pc np) ((Table.setFd _ np _ _).ofile np)) + (s.pc np).inflight + 0 = _
      rw [hidle, setFd_self]
      show slotsOf (Function.update (s.ofile np) fd (some f)) + 0 + 0 = slotsOf (s.ofile np) + 0 + {f}
      rw [slotsOf_fill _ (hnone fd le_rfl), add_zero, add_zero, add_zero]

/-- The files that have not been set up yet belong to one call each, and those without a reference to none. -/
structure Counts (s : State) : Prop where
  ref : ∀ f, (s.file f).ref = (total s.counted).count f
  raw : ∀ p f, f ∈ (s.pc p).raw → (s.file f).type = .none ∧ (s.file f).ref = 1
  free : ∀ f, (s.file f).ref = 0 → (s.file f).type = .none

theorem counts_ref (h : Local s) (hs : Trans s p s')
    (href : ∀ f, (s.file f).ref = (total s.counted).count f) (f : FileId) : (s'.file f).ref = (total s'.counted).count f := by
  obtain ⟨q, gain, loss, hothers, hplace, hrefs⟩ := hs.exchange h
  have hcount := congrArg (Multiset.count f) (total_exchange q hothers hplace)
  rw [Multiset.count_add, Multiset.count_add] at hcount
  have hf := hrefs f
  rw [href f] at hf
  omega

/-- A reference that the call of a process holds, or one of its descriptors. -/
theorem raw_counted (h : Local s) (hf : f ∈ (s.pc p).raw) : f ∈ s.counted p := by
  have hok := h.pc p
  rw [State.counted]
  cases hpc : s.pc p with
  | openFd g r w | pipeSecond g | pipePage g g' =>
    rw [hpc] at hf
    refine Multiset.mem_add.mpr (.inr ?_)
    simpa [Pc.raw, Pc.inflight] using hf
  | openInit g r w =>
    rw [hpc] at hf hok
    obtain rfl := Multiset.mem_singleton.mp hf
    exact Multiset.mem_add.mpr (.inl (mem_slotsOf.mpr hok))
  | _ =>
    rw [hpc] at hf
    simp [Pc.raw] at hf

theorem fd_counted (hmasked : (s.pc p).masked = none)
    (hf : s.ofile p fd = some f) : f ∈ s.counted p := by
  rw [State.counted, visible, hmasked]
  exact Multiset.mem_add.mpr (.inl (mem_slotsOf.mpr ⟨fd, hf⟩))

theorem Trans.file_eq (h : Local s) (hs : Trans s p s') {g : FileId} (hpos : (s.file g).ref ≠ 0)
    (hnot : g ∉ s.counted p) : s'.file g = s.file g := by
  have hok := h.pc p
  have hne : ∀ f, (s.file f).ref = 0 ∨ f ∈ s.counted p → g ≠ f := by
    rintro f hf rfl
    exact hf.elim hpos hnot
  cases hs with
  | openAlloc hpc hlife hfree | pipeAlloc hpc hlife hfree | pipeSecond hpc hfree =>
    exact Function.update_of_ne (hne _ (.inl hfree)) _ _
  | openInit hpc =>
    refine Function.update_of_ne (hne _ (.inr (raw_counted h ?_))) _ _
    simp [hpc, Pc.raw]
  | @pipePage f0 f1 hpc =>
    have h0 := hne f0 (.inr (raw_counted h (by simp [hpc, Pc.raw])))
    have h1 := hne f1 (.inr (raw_counted h (by simp [hpc, Pc.raw])))
    exact (Function.update_of_ne h1 _ _).trans (Function.update_of_ne h0 _ _)
  | @dup f fd hpc =>
    rw [hpc] at hok
    obtain ⟨-, fd', hfd', hf⟩ := hok
    refine Function.update_of_ne (hne f (.inr ?_)) _ _
    rw [State.counted, hpc]
    exact Multiset.mem_add.mpr (.inl (mem_slotsOf.mpr ⟨fd', (Function.update_of_ne hfd' _ _).trans hf⟩))
  | @fileclose f fs t e hpc hclose =>
    refine (fileclose_frame hclose).2.2.2 g (hne f (.inr ?_))
    rw [State.counted, hpc, closing_cons]
    simp
  | forkDup hpc hf => exact Function.update_of_ne (hne _ (.inr (fd_counted (by rw [hpc]; rfl) hf))) _ _
  | exitClose hpc hf hclose => exact (fileclose_frame hclose).2.2.2 g (hne _ (.inr (fd_counted (by rw [hpc]; rfl) hf)))
  | closeEnd hpc | exitClosed hpc => exact congrFun (closeEnd_file ..) g
  | _ => rfl

theorem Trans.pc_eq {p q : Slot} (hs : Trans s p s') (hq : q ≠ p) : s'.pc q = s.pc q := by
  cases hs <;> exact goto_of_ne _ hq _

theorem setFile_free {t : Table} {v : File} (hfree : ∀ g, (t.file g).ref = 0 → (t.file g).type = .none)
    (hv : v.ref = 0 → v.type = .none) (g : FileId) (hg : ((t.setFile f v).file g).ref = 0) :
    ((t.setFile f v).file g).type = .none := by
  rw [setFile_file] at hg ⊢
  split at hg
  · rw [if_pos ‹_›]
    exact hv hg
  · rw [if_neg ‹_›]
    exact hfree g hg

theorem fileclose_free {t : Table} (h : fileclose t f = .ok (t', e))
    (hfree : ∀ g, (t.file g).ref = 0 → (t.file g).type = .none) (g : FileId) (hg : (t'.file g).ref = 0) :
    (t'.file g).type = .none := by
  obtain ⟨-, ⟨n, -, rfl, -⟩ | ⟨-, rfl, -⟩⟩ := fileclose_ok h
  · exact setFile_free hfree (fun hv => absurd hv (Nat.succ_ne_zero n)) g hg
  · exact setFile_free hfree (fun _ => rfl) g hg

theorem counts_free (h : Counts s) (hs : Trans s p s') (g : FileId) (hg : (s'.file g).ref = 0) :
    (s'.file g).type = .none := by
  cases hs with
  | openAlloc | pipeAlloc | pipeSecond => exact setFile_free h.free (fun hv => absurd hv one_ne_zero) g hg
  | dup | forkDup => exact setFile_free h.free (fun hv => absurd hv (Nat.succ_ne_zero _)) g hg
  | @openInit f r w hpc =>
    have hone := (h.raw p f (by simp [hpc, Pc.raw])).2
    have hv : ({ s.file f with type := .inode, readable := r, writable := w } : File).ref ≠ 0 := by
      show (s.file f).ref ≠ 0
      omega
    exact setFile_free h.free (fun hzero => absurd hzero hv) g hg
  | @pipePage f0 f1 hpc =>
    have h0 := (h.raw p f0 (by simp [hpc, Pc.raw])).2
    have h1 := (h.raw p f1 (by simp [hpc, Pc.raw])).2
    -- neither file is free, and the others are as they were
    have hold : (s.file g).ref = 0 := (makePipe_ref ..).symm.trans hg
    have hg0 : g ≠ f0 := by
      rintro rfl
      omega
    have hg1 : g ≠ f1 := by
      rintro rfl
      omega
    rw [show ((s.withTable (makePipe s.toTable f0 f1)).goto p (.pipeFd0 f0 f1)).file g = s.file g from
      (Function.update_of_ne hg1 _ _).trans (Function.update_of_ne hg0 _ _)]
    exact h.free g hold
  | fileclose hpc hclose | exitClose hpc hf hclose => exact fileclose_free hclose h.free g hg
  | @closeEnd fs e hpc | @exitClosed fd e hpc =>
    have hfile := congrFun (closeEnd_file s.toTable e) g
    exact (congrArg File.type hfile).trans (h.free g ((congrArg File.ref hfile).symm.trans hg))
  | _ => exact h.free g hg

theorem counts_raw (hlocal : Local s) (h : Counts s) (hs : Trans s p s') (q : Slot) (f : FileId)
    (hf : f ∈ (s'.pc q).raw) : (s'.file f).type = .none ∧ (s'.file f).ref = 1 := by
  by_cases hq : q = p
  · subst hq
    have hself : ∀ {t : State} {pc : Pc}, f ∈ ((t.goto q pc).pc q).raw → f ∈ pc.raw := fun hf => by rwa [goto_self] at hf
    cases hs with
    | openAlloc hpc hlife hfree | pipeAlloc hpc hlife hfree =>
      obtain rfl := Multiset.mem_singleton.mp (hself hf)
      show ((s.setFile f _).file f).type = .none ∧ ((s.setFile f _).file f).ref = 1
      simp [h.free f hfree]
    | openFd hpc =>
      obtain rfl := Multiset.mem_singleton.mp (hself hf)
      exact h.raw q f (by simp [hpc, Pc.raw])
    | @pipeSecond f0 f1 hpc hfree =>
      have h0 := h.raw q f0 (by simp [hpc, Pc.raw])
      have hne : f0 ≠ f1 := by
        rintro rfl
        omega
      obtain rfl | rfl : f = f0 ∨ f = f1 := by simpa [Pc.raw] using hself hf
      · show ((s.setFile f1 _).file f).type = .none ∧ ((s.setFile f1 _).file f).ref = 1
        simpa [hne] using h0
      · show ((s.setFile f _).file f).type = .none ∧ ((s.setFile f _).file f).ref = 1
        simp [h.free f hfree]
    | _ => exact absurd (hself hf) (Multiset.notMem_zero f)
  · rw [hs.pc_eq hq] at hf
    obtain ⟨htype, hone⟩ := h.raw q f hf
    rw [hs.file_eq hlocal (by omega)]
    · exact ⟨htype, hone⟩
    · intro hmem
      have htwo := two_le_count_total (f := s.counted) hq hmem (raw_counted hlocal hf)
      rw [← h.ref f] at htwo
      omega

end Xv6.Files
