import Xv6.Vm.Machine

/-!
# Address spaces stay isolated along every run

What a process owns is read off its slot, so a step of one process changes the share of that process and leaves
what the others own alone. The invariant is isolation of the whole, and that no process and no image under
construction is larger than the user part of an address space.
-/

namespace Xv6.Vm

open Lib Syscall Memory

open ProcTable (Slot)

/-! ### What the processes own -/

/-- The page directories under construction or to be freed. -/
def Stage.dirs : Stage → Multiset Nat
  | .loading d _ | .allocated d _ _ | .stacked d _ | .guarded d _ | .replaced d => {d}
  | .idle | .booting | .forking _ => 0

/-- The page directory of a process, if it has one of its own. -/
def Mproc.ownDir (v : Mproc) : Multiset Nat :=
  match v.life with
  | .built | .alive | .zombie => holds v.pgdir
  | .unused | .embryo => 0

def Mproc.dirs (v : Mproc) : Multiset Nat := v.ownDir + v.stage.dirs

def Machine.dirs (m : Machine) : Multiset Nat := holds m.kpgdir + total fun p => (m.procs p).dirs

/-- The bounds on sizes that a stage of `exec` has established. -/
def Stage.Bounded : Stage → Prop
  | .loading _ sz | .stacked _ sz | .guarded _ sz => sz.toNat ≤ kernbase
  | .allocated _ sz ph => sz.toNat ≤ kernbase ∧ ph.vaddr.toNat + ph.filesz.toNat ≤ kernbase
  | .idle | .booting | .forking _ | .replaced _ => True

def Mproc.Bounded (v : Mproc) : Prop := v.sz.toNat ≤ kernbase ∧ v.stage.Bounded

structure Sound (L : Layout) (m : Machine) : Prop where
  isolated : Isolated L m.mem m.dirs (m.kstacks + m.pipes)
  bounded : ∀ p, (m.procs p).Bounded

def Machine.otherDirs (m : Machine) (p : Slot) : Multiset Nat :=
  holds m.kpgdir + total (Function.update (fun q => (m.procs q).dirs) p 0)

def Machine.otherStacks (m : Machine) (p : Slot) : Multiset Nat :=
  total (Function.update (fun q => holds (m.procs q).kstack) p 0) + m.pipes

variable {L : Layout} {m m' : Machine} {p : Slot}

theorem dirs_split (m : Machine) (p : Slot) : m.dirs = (m.procs p).dirs + m.otherDirs p := by
  rw [Machine.dirs, Machine.otherDirs, total_split _ p]
  abel

theorem stacks_split (m : Machine) (p : Slot) : m.kstacks + m.pipes = holds (m.procs p).kstack + m.otherStacks p := by
  rw [Machine.kstacks, Machine.otherStacks, total_split _ p, add_assoc]

theorem procs_set (m : Machine) (p : Slot) (v : Mproc) : (m.set p v).procs p = v := Function.update_self _ _ _

theorem procs_set_ne {q : Slot} (h : q ≠ p) (m : Machine) (v : Mproc) : (m.set p v).procs q = m.procs q :=
  Function.update_of_ne h _ _

theorem otherDirs_set (m : Machine) (p : Slot) (v : Mproc) : (m.set p v).otherDirs p = m.otherDirs p := by
  rw [Machine.otherDirs, Machine.otherDirs]
  congr 2
  funext q
  by_cases hq : q = p
  · subst hq
    simp
  · simp [hq, procs_set_ne hq]

theorem otherStacks_set (m : Machine) (p : Slot) (v : Mproc) : (m.set p v).otherStacks p = m.otherStacks p := by
  rw [Machine.otherStacks, Machine.otherStacks]
  congr 2
  funext q
  by_cases hq : q = p
  · subst hq
    simp
  · simp [hq, procs_set_ne hq]

theorem sound_iff (m : Machine) (p : Slot) : Sound L m ↔
    Isolated L m.mem ((m.procs p).dirs + m.otherDirs p) (holds (m.procs p).kstack + m.otherStacks p) ∧
      ∀ q, (m.procs q).Bounded := by
  rw [← dirs_split, ← stacks_split]
  exact ⟨fun h => ⟨h.1, h.2⟩, fun h => ⟨h.1, h.2⟩⟩

theorem Sound.set (h : Sound L m) {v : Mproc} {mem : Memory}
    (hmem : Isolated L mem (v.dirs + m.otherDirs p) (holds v.kstack + m.otherStacks p)) (hv : v.Bounded) :
    Sound L (Machine.set { m with mem := mem } p v) := by
  rw [sound_iff _ p, procs_set, otherDirs_set, otherStacks_set]
  refine ⟨hmem, fun q => ?_⟩
  by_cases hq : q = p
  · subst hq
    rwa [procs_set]
  · rw [procs_set_ne hq]
    exact h.bounded q

variable {dirs held : Multiset Nat} {s : Memory} {α : Type} {d : Nat}

theorem sound_run {f : VmM α} {k : α → Machine → Machine}
    (hf : Ends f (fun a mem => Sound L (k a { m with mem := mem })) m.mem) (hrun : m.run f k = .next m') :
    Sound L m' := by
  unfold Machine.run at hrun
  split at hrun
  · rename_i a mem hok
    obtain rfl := Outcome.next.inj hrun
    exact wp_ok hf hok
  · cases hrun

section Exec

variable {s : Memory} {dirs held : Multiset Nat}

/-- The new address space is part of the process's share until `exec` fails or takes it over. -/
def ExecKeeps (L : Layout) (dirs held : Multiset Nat) (st : Stage) (s : Memory) : Prop :=
  Isolated L s (st.dirs + dirs) held ∧ st.Bounded

theorem ends_bad {d : Nat} (h : Isolated L s ({d} + dirs) held) : Ends (bad L d) (ExecKeeps L dirs held) s := by
  rw [Multiset.singleton_add] at h
  unfold bad
  rw [Ends, wp_bind]
  refine ends_freevm h fun s' hs' => ⟨?_, trivial⟩
  rwa [Stage.dirs, zero_add]

theorem ends_execCall {st : Stage} {c : ExecCall} {f : VmM Stage} (hc : execCall L st c = some f)
    (h : Isolated L s (st.dirs + dirs) held) (hb : st.Bounded) : Ends f (ExecKeeps L dirs held) s := by
  have hmem : ∀ d, d ∈ ({d} : Multiset Nat) + dirs := fun d =>
    Multiset.mem_add.mpr (.inl (Multiset.mem_singleton_self d))
  unfold execCall at hc
  split at hc
  · rename_i d sz ph
    split at hc
    · cases hc
    · rename_i hwrap
      obtain rfl := Option.some.inj hc
      rw [Ends, wp_ite]
      split
      · exact ends_bad h
      · rename_i hsizes
        rw [wp_bind]
        refine ends_allocuvm h (hmem d) hb fun r s' hr hne hs' => ?_
        rw [wp_ite]
        split
        · exact ends_bad hs'
        · rename_i hr0
          refine ⟨hs', hr, ?_⟩
          have hnew := (hne hr0).1
          have hle : ph.filesz.toNat ≤ ph.memsz.toNat := not_lt.mp fun hlt => hsizes (BitVec.lt_def.mpr hlt)
          rw [BitVec.toNat_add, Nat.mod_eq_of_lt (not_le.mp hwrap)] at hnew
          omega
  · rename_i d sz ph readi
    obtain rfl := Option.some.inj hc
    rw [Ends, wp_bind]
    refine ends_loaduvm h (hmem d) hb.2 fun r s' hs' => ?_
    cases r with
    | true => exact ⟨hs', hb.1⟩
    | false => exact ends_bad hs'
  · rename_i d sz
    obtain rfl := Option.some.inj hc
    rw [Ends, wp_bind]
    have hsz : (pgroundup sz).toNat ≤ kernbase := by
      apply pgroundup_le
      exact hb
    generalize pgroundup sz + 2 * 4096 = newsz
    refine ends_allocuvm h (hmem d) hsz fun r s' hr _ hs' => ?_
    rw [wp_ite]
    split
    · exact ends_bad hs'
    · exact ⟨hs', hr⟩
  · rename_i d sz
    obtain rfl := Option.some.inj hc
    unfold Ends
    rw [wp_bind]
    exact ends_clearpteu h (hmem d) fun s' hs' => ⟨hs', hb⟩
  · rename_i d sz va buf
    obtain rfl := Option.some.inj hc
    rw [Ends, wp_bind]
    refine ends_copyoutLoop h (hmem d) fun r s' hs' => ?_
    cases r with
    | true => exact ⟨hs', hb⟩
    | false => exact ends_bad hs'
  · obtain rfl := Option.some.inj hc
    exact ends_bad h
  · obtain rfl := Option.some.inj hc
    exact ends_bad h
  · cases hc

end Exec

/-! ### Steps -/

theorem ends_need {e : Panic} {f : VmM (Option α)} {Q : α → Memory → Prop}
    (h : Ends f (fun r s' => ∀ a, r = some a → Q a s') s) : Ends (need e f) Q s := by
  unfold need
  rw [Ends, wp_bind]
  refine wp_mono h (fun r s' hr => ?_) fun _ he => he
  cases r with
  | none => trivial
  | some a => exact hr a rfl

theorem Sound.kvmalloc (h : Sound L m) (hstep : m.call L .kvmalloc = .next m') : Sound L m' := by
  simp only [Machine.call] at hstep
  split at hstep
  · rename_i hnone
    refine sound_run (ends_need (ends_setupkvm h.isolated (by simp) ?_)) hstep
    rintro d s' hs' _ ⟨⟩
    refine ⟨?_, h.bounded⟩
    have hdirs : d ::ₘ m.dirs = Machine.dirs { m with kpgdir := some d, mem := s' } := by
      rw [Machine.dirs, Machine.dirs, hnone, holds, zero_add, holds, Multiset.singleton_add]
    rwa [hdirs] at hs'
  · cases hstep

/-- One process makes a call, and it must be shown what becomes of its share. -/
theorem Sound.share {f : VmM α} {k : α → Machine → Machine} {v : α → Mproc} (h : Sound L m)
    (hk : ∀ a mem, k a { m with mem := mem } = Machine.set { m with mem := mem } p (v a))
    (hf : ∀ dirs held, Isolated L m.mem ((m.procs p).dirs + dirs) (holds (m.procs p).kstack + held) →
      Ends f (fun a s' => Isolated L s' ((v a).dirs + dirs) (holds (v a).kstack + held) ∧ (v a).Bounded) m.mem)
    (hstep : m.run f k = .next m') : Sound L m' := by
  refine sound_run (wp_mono (hf _ _ ((sound_iff m p).mp h).1) (fun a s' ha => ?_) fun _ he => he) hstep
  rw [hk]
  exact h.set ha.1 ha.2

theorem Sound.shrink (h : Sound L m) {v : Mproc} (hdirs : v.dirs ≤ (m.procs p).dirs)
    (hstack : holds v.kstack ≤ holds (m.procs p).kstack) (hv : v.Bounded) : Sound L (m.set p v) :=
  h.set (((sound_iff m p).mp h).1.mono (add_le_add_left hdirs _) (add_le_add_left hstack _)) hv

theorem Sound.withMem (h : Sound L m) {mem : Memory} (hmem : Isolated L mem m.dirs (m.kstacks + m.pipes)) :
    Sound L { m with mem := mem } := ⟨hmem, h.bounded⟩

theorem Sound.initStack (h : Sound L m) (hstep : m.call L .initStack = .next m') : Sound L m' := by
  simp only [Machine.call] at hstep
  split at hstep
  · refine h.share (p := 0) (v := fun q => { m.procs 0 with life := .embryo, kstack := some q, stage := .booting })
      (fun _ _ => rfl) ?_ hstep
    intro dirs held hm
    refine ends_need (ends_kalloc hm (by simp) ?_)
    rintro q s' hs' _ ⟨⟩
    refine ⟨hs'.mono (add_le_add_left ?_ _) (Multiset.cons_le_cons q (Multiset.le_add_left _ _)), (h.bounded 0).1, trivial⟩
    simp [Mproc.dirs, Mproc.ownDir, Stage.dirs]
  · cases hstep

theorem Sound.initDir (h : Sound L m) (hstep : m.call L .initDir = .next m') : Sound L m' := by
  simp only [Machine.call] at hstep
  split at hstep
  · rename_i hlife hstage
    refine h.share (p := 0) (v := fun d => { m.procs 0 with life := .built, pgdir := some d }) (fun _ _ => rfl) ?_ hstep
    intro dirs held hm
    refine ends_need (ends_setupkvm hm (by simp) ?_)
    rintro d s' hs' _ ⟨⟩
    refine ⟨hs'.mono ?_ le_rfl, h.bounded 0⟩
    rw [Mproc.dirs, hstage]
    exact Multiset.cons_le_cons d (Multiset.le_add_left _ _)
  · cases hstep

theorem Sound.initCode {init : List UInt8} (h : Sound L m) (hstep : m.call L (.initCode init) = .next m') : Sound L m' := by
  simp only [Machine.call] at hstep
  split at hstep
  · rename_i d hlife hstage hdir
    refine h.share (p := 0) (v := fun _ => { m.procs 0 with life := .alive, sz := 4096, stage := .idle })
      (fun _ _ => rfl) ?_ hstep
    intro dirs held hm
    have hdirs : (m.procs 0).dirs = {d} := by
      rw [Mproc.dirs, Mproc.ownDir, hlife, hstage, hdir]
      rfl
    rw [hdirs] at hm
    refine ends_inituvm hm (Multiset.mem_add.mpr (.inl (Multiset.mem_singleton_self d))) fun s' hs' => ⟨?_, ?_, trivial⟩
    · rwa [Mproc.dirs, Mproc.ownDir, hdir]
    · change (4096 : Word).toNat ≤ kernbase
      decide
  · cases hstep

/-! #### `fork` and `growproc` -/

theorem mem_dirs_of_alive (hlife : (m.procs p).life = .alive) (hdir : (m.procs p).pgdir = some d) :
    d ∈ m.dirs := by
  rw [dirs_split m p, Mproc.dirs, Mproc.ownDir, hlife, hdir]
  simp [holds]

theorem Sound.allocproc (h : Sound L m) (hstep : m.call L (.allocproc p) = .next m') : Sound L m' := by
  simp only [Machine.call] at hstep
  split at hstep
  · rename_i hlife hstage
    split at hstep
    · obtain rfl := Outcome.next.inj hstep
      exact h
    · rename_i np hfind
      refine sound_run (ends_kalloc ((sound_iff m np).mp h).1 (fun s' hs' => ?_) fun q s' hs' => ?_) hstep
      · exact h.set (hs'.mono le_rfl (add_le_add_left (Multiset.zero_le _) _)) (h.bounded np)
      · have hnp : Sound L (Machine.set { m with mem := s' } np { m.procs np with life := .embryo, kstack := some q }) := by
          refine h.set (hs'.mono (add_le_add_left ?_ _) (Multiset.cons_le_cons q (Multiset.le_add_left _ _))) (h.bounded np)
          simp [Mproc.dirs, Mproc.ownDir]
        refine hnp.shrink ?_ le_rfl ⟨(hnp.bounded p).1, trivial⟩
        exact add_le_add_right (Multiset.zero_le _) _
  · cases hstep

theorem ends_forkCopy {Q : Option Nat → Memory → Prop} {sz : Word}
    {kstack : Option Nat} (h : Isolated L s dirs (holds kstack + held)) (hd : d ∈ dirs) (hsz : sz.toNat ≤ kernbase)
    (hnone : ∀ s', Isolated L s' dirs held → Q none s')
    (hsome : ∀ d' s', Isolated L s' (d' ::ₘ dirs) (holds kstack + held) → Q (some d') s') :
    Ends (forkCopy L d sz kstack) Q s := by
  unfold forkCopy
  rw [Ends, wp_bind]
  refine ends_copyuvm h hd hsz (fun s' hs' => ?_) hsome
  cases kstack with
  | none => trivial
  | some q =>
    simp only [wp_bind]
    exact ends_kfree hs' hnone

theorem Sound.forkCopy (h : Sound L m) (hstep : m.call L (.forkCopy p) = .next m') : Sound L m' := by
  simp only [Machine.call] at hstep
  split at hstep
  · rename_i np d hlife hstage hdir
    have hmem : d ∈ (m.procs np).dirs + m.otherDirs np := by
      rw [← dirs_split]
      exact mem_dirs_of_alive hlife hdir
    have hidle : ∀ m₁ : Machine, Sound L m₁ → Sound L (m₁.set p { m₁.procs p with stage := .idle }) := fun m₁ h₁ =>
      h₁.shrink (add_le_add_right (Multiset.zero_le _) _) le_rfl ⟨(h₁.bounded p).1, trivial⟩
    refine sound_run (ends_forkCopy ((sound_iff m np).mp h).1 hmem (h.bounded p).1 (fun s' hs' => ?_) fun d' s' hs' => ?_) hstep
    · refine hidle _ (h.set (hs'.mono (add_le_add_left ?_ _) (le_of_eq (zero_add _))) (h.bounded np))
      simp [Mproc.dirs, Mproc.ownDir]
    · refine hidle _ (h.set (hs'.mono ?_ le_rfl) ⟨(h.bounded p).1, trivial⟩)
      rw [← Multiset.singleton_add]
      exact add_le_add_right (Multiset.le_add_left _ _) _
  · cases hstep

theorem ends_growproc {Q : Option Word → Memory → Prop} {sz n : Word}
    (h : Isolated L s dirs held) (hd : d ∈ dirs) (hsz : sz.toNat ≤ kernbase)
    (hQ : ∀ r s', Isolated L s' dirs held → (∀ sz', r = some sz' → sz'.toNat ≤ kernbase) → Q r s') :
    Ends (growproc L d sz n) Q s := by
  have hpost : ∀ (r : Word) s', r.toNat ≤ kernbase → Isolated L s' dirs held → Q (if r = 0 then none else some r) s' := by
    intro r s' hr hs'
    refine hQ _ s' hs' fun sz' hsome => ?_
    split at hsome
    · cases hsome
    · obtain rfl := Option.some.inj hsome
      exact hr
  unfold growproc
  rw [Ends, wp_ite, wp_ite]
  split
  · rw [wp_bind]
    exact ends_allocuvm h hd hsz fun r s' hr _ hs' => hpost r s' hr hs'
  · split
    · rw [wp_bind]
      exact ends_deallocuvm h hd hsz fun r s' hr hs' => hpost r s' (hr.trans hsz) hs'
    · refine hQ _ s h fun sz' hsome => ?_
      obtain rfl := Option.some.inj hsome
      exact hsz

theorem Sound.growproc {n : Word} (h : Sound L m) (hstep : m.call L (.growproc p n) = .next m') : Sound L m' := by
  simp only [Machine.call] at hstep
  split at hstep
  · rename_i d hlife hstage hdir
    refine sound_run (ends_growproc h.isolated (mem_dirs_of_alive hlife hdir) (h.bounded p).1 fun r s' hs' hr => ?_) hstep
    cases r with
    | none => exact h.withMem hs'
    | some sz =>
      rw [dirs_split m p, stacks_split m p] at hs'
      exact h.set hs' ⟨hr sz rfl, (h.bounded p).2⟩
  · cases hstep

/-! #### `exec` -/

theorem Sound.execStart (h : Sound L m) (hstep : m.call L (.execStart p) = .next m') : Sound L m' := by
  simp only [Machine.call] at hstep
  split at hstep
  · rename_i hlife hstage
    refine sound_run (ends_setupkvm ((sound_iff m p).mp h).1 (fun s' hs' => ?_) fun d s' hs' => ?_) hstep
    · rw [← dirs_split, ← stacks_split] at hs'
      exact h.withMem hs'
    · refine h.set (hs'.mono (le_of_eq ?_) le_rfl) ⟨(h.bounded p).1, Nat.zero_le _⟩
      rw [Mproc.dirs, Mproc.dirs, hstage]
      change (m.procs p).ownDir + {d} + m.otherDirs p = d ::ₘ ((m.procs p).ownDir + 0 + m.otherDirs p)
      rw [← Multiset.singleton_add]
      abel
  · cases hstep

theorem Sound.exec {c : ExecCall} (h : Sound L m) (hstep : m.call L (.exec p c) = .next m') : Sound L m' := by
  simp only [Machine.call] at hstep
  split at hstep
  · rename_i f hlife hcall
    refine h.share (p := p) (v := fun st => { m.procs p with stage := st }) (fun _ _ => rfl) ?_ hstep
    intro dirs held hm
    rw [Mproc.dirs, add_comm (m.procs p).ownDir, add_assoc] at hm
    refine wp_mono (ends_execCall hcall hm (h.bounded p).2) (fun st s' hst => ⟨?_, (h.bounded p).1, hst.2⟩) fun _ he => he
    rw [Mproc.dirs, add_comm _ st.dirs, add_assoc]
    exact hst.1
  · cases hstep

theorem Sound.execCommit (h : Sound L m) (hstep : m.call L (.execCommit p) = .next m') : Sound L m' := by
  simp only [Machine.call] at hstep
  split at hstep
  · rename_i d sz old hlife hstage hdir
    obtain rfl := Outcome.next.inj hstep
    have hb := (h.bounded p).2
    rw [hstage] at hb
    refine h.shrink (le_of_eq ?_) le_rfl ⟨hb, trivial⟩
    -- the old and the new directory change places
    rw [Mproc.dirs, Mproc.dirs, Mproc.ownDir, Mproc.ownDir, hlife, hstage, hdir]
    exact add_comm _ _
  · cases hstep

theorem Sound.execFree (h : Sound L m) (hstep : m.call L (.execFree p) = .next m') : Sound L m' := by
  simp only [Machine.call] at hstep
  split at hstep
  · rename_i old hlife hstage
    refine h.share (p := p) (v := fun _ => { m.procs p with stage := .idle }) (fun _ _ => rfl) ?_ hstep
    intro dirs held hm
    rw [Mproc.dirs, hstage, add_comm (m.procs p).ownDir, add_assoc] at hm
    refine ends_freevm (d := old) (by rwa [← Multiset.singleton_add]) fun s' hs' => ⟨?_, (h.bounded p).1, trivial⟩
    rw [Mproc.dirs]
    change Isolated L s' ((m.procs p).ownDir + 0 + dirs) _
    rwa [add_zero]
  · cases hstep

/-! #### `exit`, `waitpid` and pipes -/

theorem Sound.exit (h : Sound L m) (hstep : m.call L (.exit p) = .next m') : Sound L m' := by
  simp only [Machine.call] at hstep
  split at hstep
  · rename_i hlife hstage
    obtain rfl := Outcome.next.inj hstep
    refine h.shrink (le_of_eq ?_) le_rfl (h.bounded p)
    rw [Mproc.dirs, Mproc.dirs, Mproc.ownDir, Mproc.ownDir, hlife]
  · cases hstep

theorem Sound.freeStack (h : Sound L m) (hstep : m.call L (.freeStack p) = .next m') : Sound L m' := by
  simp only [Machine.call] at hstep
  split at hstep
  · rename_i q hlife hstack
    refine h.share (p := p) (v := fun _ => { m.procs p with kstack := none }) (fun _ _ => rfl) ?_ hstep
    intro dirs held hm
    rw [hstack, holds, Multiset.singleton_add] at hm
    refine ends_kfree hm fun s' hs' => ⟨?_, h.bounded p⟩
    change Isolated L s' _ (0 + held)
    rwa [zero_add]
  · cases hstep

theorem Sound.freeDir (h : Sound L m) (hstep : m.call L (.freeDir p) = .next m') : Sound L m' := by
  simp only [Machine.call] at hstep
  split at hstep
  · rename_i hlife hstack
    refine h.share (p := p) (v := fun _ => { m.procs p with life := .unused }) (fun _ _ => rfl) ?_ hstep
    intro dirs held hm
    cases hdir : (m.procs p).pgdir with
    | none => trivial
    | some d =>
      rw [Mproc.dirs, Mproc.ownDir, hlife, hdir, holds, add_assoc, Multiset.singleton_add] at hm
      refine ends_freevm hm fun s' hs' => ⟨?_, h.bounded p⟩
      rw [Mproc.dirs, Mproc.ownDir]
      change Isolated L s' (0 + (m.procs p).stage.dirs + dirs) _
      rwa [zero_add]
  · cases hstep

theorem Sound.pipealloc (h : Sound L m) (hstep : m.call L .pipealloc = .next m') : Sound L m' := by
  simp only [Machine.call] at hstep
  refine sound_run (ends_kalloc h.isolated (fun s' hs' => ⟨hs', h.bounded⟩) fun q s' hs' => ⟨?_, h.bounded⟩) hstep
  have hpipes : q ::ₘ (m.kstacks + (m.pipes : Multiset Nat)) = m.kstacks + ((q :: m.pipes : List Nat) : Multiset Nat) := by
    rw [← Multiset.cons_coe, Multiset.add_cons]
  rw [hpipes] at hs'
  exact hs'

theorem Sound.pipeclose {q : Nat} (h : Sound L m) (hstep : m.call L (.pipeclose q) = .next m') : Sound L m' := by
  simp only [Machine.call] at hstep
  split at hstep
  · rename_i hq
    have hpipes : m.kstacks + (m.pipes : Multiset Nat) = q ::ₘ (m.kstacks + ((m.pipes.erase q : List Nat) : Multiset Nat)) := by
      rw [← Multiset.add_cons, ← Multiset.coe_erase, Multiset.cons_erase (Multiset.mem_coe.mpr hq)]
    have hm := h.isolated
    rw [hpipes] at hm
    exact sound_run (ends_kfree hm fun s' hs' => ⟨hs', h.bounded⟩) hstep
  · cases hstep

/-! #### Stores -/

theorem writable_mem {d q : Nat} {va : Word} (h : Isolated L s dirs held)
    (hd : d ∈ dirs) (hq : s.writable d va = some q) : q ∈ s.userPages d := by
  unfold Memory.writable Memory.pte at hq
  split at hq
  · rename_i e he
    split at he
    · rename_i hp
      obtain rfl := Option.some.inj he
      split at hq
      · rename_i hflags
        obtain rfl := Option.some.inj hq
        refine mem_userPages ?_ hp (mem_pointedBy hflags.1)
        by_contra hhigh
        exact hflags.2.1 ((h.tidy d hd).kernel _ _ (not_lt.mp hhigh) hp hflags.1)
      · cases hq
    · cases he
  · cases hq

theorem Sound.store {va : Word} {b : UInt8} (h : Sound L m) (hstep : m.call L (.store p va b) = .next m') :
    Sound L m' := by
  simp only [Machine.call] at hstep
  split at hstep
  · rename_i q hlife hstage hq
    obtain rfl := Outcome.next.inj hstep
    obtain ⟨d, hdir, hwritable⟩ := Option.bind_eq_some_iff.mp hq
    have hd := mem_dirs_of_alive hlife hdir
    exact h.withMem (h.isolated.write hd (writable_mem h.isolated hd hwritable) _)
  · cases hstep

theorem Sound.scribble {q : Nat} {b : Page} (h : Sound L m) (hstep : m.call L (.scribble q b) = .next m') :
    Sound L m' := by
  simp only [Machine.call] at hstep
  split at hstep
  · rename_i hq
    obtain rfl := Outcome.next.inj hstep
    exact h.withMem (h.isolated.fill hq b)
  · cases hstep

theorem Sound.call {c : Call} (h : Sound L m) (hstep : m.call L c = .next m') : Sound L m' := by
  cases c with
  | kvmalloc => exact h.kvmalloc hstep
  | initStack => exact h.initStack hstep
  | initDir => exact h.initDir hstep
  | initCode => exact h.initCode hstep
  | allocproc => exact h.allocproc hstep
  | forkCopy => exact h.forkCopy hstep
  | growproc => exact h.growproc hstep
  | execStart => exact h.execStart hstep
  | exec => exact h.exec hstep
  | execCommit => exact h.execCommit hstep
  | execFree => exact h.execFree hstep
  | exit => exact h.exit hstep
  | freeStack => exact h.freeStack hstep
  | freeDir => exact h.freeDir hstep
  | pipealloc => exact h.pipealloc hstep
  | pipeclose => exact h.pipeclose hstep
  | store => exact h.store hstep
  | scribble => exact h.scribble hstep

theorem sound_start (hstart : (machine L).start m) : Sound L m := by
  obtain ⟨hnodup, hram, hkpgdir, hpipes, hprocs⟩ := hstart
  have hdirs : m.dirs = 0 := by
    rw [Machine.dirs, hkpgdir, hprocs]
    simp [holds, Mproc.dirs, Mproc.ownDir, Stage.dirs]
  have hstacks : m.kstacks + (m.pipes : Multiset Nat) = 0 := by
    rw [Machine.kstacks, hpipes, hprocs]
    simp [holds]
  have howned : m.mem.owned 0 0 = m.mem.free := by
    simp [owned]
  constructor
  · rw [hdirs, hstacks]
    refine ⟨?_, ?_, by simp⟩
    · rwa [howned]
    · rwa [howned]
  · intro p
    rw [hprocs]
    exact ⟨Nat.zero_le _, trivial⟩

end Xv6.Vm
