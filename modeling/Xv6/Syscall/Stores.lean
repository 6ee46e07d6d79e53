import Xv6.Proc.System
import Xv6.Proc.Marks

/-!
# What the kernel stores in its callers' memory

`wait`, `waitpid` and `pstat` store their results at an address that the user passes, in kernel mode, where
every address can be written. `sys_wait` and `sys_waitpid` fetch the address as a plain integer; `sys_pstat`
checks four bytes of the structure that it fills in.
-/

namespace Xv6.System

open Lib ProcTable Syscall

abbrev Store := Word × UInt8

def storeBytes (a : Word) (bs : List UInt8) : List Store := (bytesFrom a bs.length).zip bs

def wordBytes (v : Word) : List UInt8 := (List.range 4).map fun i => UInt8.ofNat (v.toNat / 256 ^ i)

def Within (sz : Word) (l : List Store) : Prop := ∀ st ∈ l, st.1.toNat < sz.toNat

theorem within_storeBytes {sz a : Word} {bs : List UInt8} (hbs : 0 < bs.length) :
    Within sz (storeBytes a bs) ↔ a.toNat + bs.length ≤ sz.toNat := by
  rw [← bytesFrom_below hbs]
  have hfst : (storeBytes a bs).map Prod.fst = bytesFrom a bs.length :=
    List.map_fst_zip (by simp [bytesFrom])
  constructor
  · intro h b hb
    rw [← hfst] at hb
    obtain ⟨st, hst, rfl⟩ := List.mem_map.mp hb
    exact h st hst
  · intro h st hst
    refine h st.1 ?_
    rw [← hfst]
    exact List.mem_map_of_mem hst

/-! ### `wait` and `waitpid` -/

/-- What the next round of the `waitpid` that the process at `p` is in stores, `*status = p->exit_status`. -/
def waitStores (s : Sys) (p : Slot) : List Store :=
  match s.table.pc p with
  | .waiting childPid true =>
    match scan s.table p childPid false slots with
    | .zombie q => storeBytes (s.statusPtr p) (wordBytes (BitVec.ofInt 32 (s.table.proc q).exitStatus))
    | .done _ => []
  | _ => []

theorem step_waiting {t t' : Table} {a : Act} {es : List Event} (hs : Step t a t' es) {q : Slot} {c : Int} {b : Bool}
    (hq : t'.pc q = .waiting c b) : t.pc q = .waiting c b ∨ a = .own q (.waitCall c b) := by
  rcases step_pc hs q with hsame | ⟨o, rfl⟩
  · exact .inl (hsame ▸ hq)
  · cases hs with
    | noSlot | slept | fault | yield | sleep => exact .inl hq
    | @waitCall _ c' b' =>
      obtain ⟨rfl, rfl⟩ : c' = c ∧ b' = b := by simpa using hq
      exact .inr rfl
    | forkAlloc | forkFail | forkFill | forkRun | exit | exitClose | exitZombie | waited | failed => simp at hq

/-- A process in `waitpid` has a status pointer or none as its argument says. -/
theorem statusPtr_run {as : List SysAct} {s : Sys} (hrun : system.Run as s) (p : Slot) (c : Int) (b : Bool)
    (hpc : s.table.pc p = .waiting c b) : b = decide (s.statusPtr p ≠ 0) := by
  revert p c b
  refine hrun.invariant (I := fun _ s => ∀ p c b, s.table.pc p = .waiting c b → b = decide (s.statusPtr p ≠ 0)) ?_ ?_
  · rintro s ⟨htable, -⟩ p c b hpc
    have hfirst : firstTable = s.table := by simpa [userinit_zeroTable] using htable
    rw [← hfirst] at hpc
    cases hpc
  · intro as s a s' ih hs p c b hpc
    cases sysStep_cases hs with
    | badArgs => exact ih p c b hpc
    | fields => exact ih p c b hpc
    | table ha hstep =>
      rcases step_waiting (step_cases hstep) hpc with hold | hcall
      · exact ih p c b hold
      · exact absurd hcall (ha p c b)
    | @waitpid q call childPid status t es hq hstep =>
      rcases step_waiting (step_cases hstep) hpc with hold | hcall
      · have hne : p ≠ q := by
          rintro rfl
          rw [hq] at hold
          cases hold
        show b = decide (Function.update s.statusPtr q status p ≠ 0)
        rw [Function.update_of_ne hne]
        exact ih p c b hold
      · obtain ⟨rfl, hargs⟩ := Act.own.inj hcall
        obtain ⟨-, rfl⟩ := Own.waitCall.inj hargs
        show decide (status ≠ 0) = decide (Function.update s.statusPtr q status q ≠ 0)
        rw [Function.update_self]

/-- In every state that is reached, a process that has called `wait` or `waitpid` stores only in its own memory iff
no child that it looks for is a zombie, its status pointer is null, or the word there lies below its size. -/
theorem wait_stores_iff (as : List SysAct) (s : Sys) (hrun : system.Run as s) (p : Slot) (childPid : Int) (status : Bool)
    (hpc : s.table.pc p = .waiting childPid status) :
    Within (s.fields p).sz (waitStores s p) ↔
      (∀ q, scan s.table p childPid false slots ≠ .zombie q) ∨ s.statusPtr p = 0 ∨
      (s.statusPtr p).toNat + 4 ≤ (s.fields p).sz.toNat := by
  have hstatus := statusPtr_run hrun p childPid status hpc
  cases status with
  | false =>
    have hnull : s.statusPtr p = 0 := by simpa using hstatus
    simp [waitStores, hpc, Within, hnull]
  | true =>
    have hptr : s.statusPtr p ≠ 0 := by simpa using hstatus
    cases hscan : scan s.table p childPid false slots with
    | done b => simp [waitStores, hpc, hscan, Within]
    | zombie q =>
      simp only [waitStores, hpc, hscan]
      rw [within_storeBytes (by simp [wordBytes])]
      have hlength : (wordBytes (BitVec.ofInt 32 (s.table.proc q).exitStatus)).length = 4 := by simp [wordBytes]
      rw [hlength]
      constructor
      · intro hbelow
        exact .inr (.inr hbelow)
      · rintro (hnone | hnull | hbelow)
        · exact absurd rfl (hnone q)
        · exact absurd hnull hptr
        · exact hbelow

/-- Init waits with the status pointer `ptr` for its child, which has exited. -/
def waitAt (ptr : Word) : List SysAct :=
  [.table (.schedule 0), .table (.own 0 .forkAlloc), .table (.own 0 .forkFill), .table (.own 0 .forkRun),
    .table (.schedule 1), .table (.own 1 (.exit 0)), .table (.own 1 .exitClose), .table (.own 1 .exitZombie),
    .call 0 (.sysWait 0 fun _ => ptr)]

/-- Init, of size 4096, waits for its child, which has exited, with a status pointer into the kernel. -/
theorem wait_stores_in_kernel : ∃ as s, system.Run as s ∧ s.table.pc 0 = .waiting (-1) true ∧ (s.fields 0).sz = 4096 ∧
    (waitStores s 0).map Prod.fst = [0x80100000, 0x80100001, 0x80100002, 0x80100003] := by
  have hexec : ((system.exec firstSys (waitAt 0x80100000)).map fun s => decide (s.table.pc 0 = .waiting (-1) true ∧
      (s.fields 0).sz = 4096 ∧ (waitStores s 0).map Prod.fst = [0x80100000, 0x80100001, 0x80100002, 0x80100003])) = some true := by
    decide +kernel
  obtain ⟨s, hs, hall⟩ := Option.map_eq_some_iff.mp hexec
  exact ⟨_, s, run_firstSys.exec hs, of_decide_eq_true hall⟩

/-- With a status pointer below its size it stores in its own memory. -/
theorem wait_stores_iff_below : ∃ as s, system.Run as s ∧ waitStores s 0 ≠ [] ∧ Within (s.fields 0).sz (waitStores s 0) := by
  have hexec : ((system.exec firstSys (waitAt 4092)).map fun s => decide (s.table.pc 0 = .waiting (-1) true ∧
      (s.fields 0).sz = 4096 ∧ s.statusPtr 0 = 4092 ∧ waitStores s 0 ≠ [])) = some true := by
    decide +kernel
  obtain ⟨s, hs, hall⟩ := Option.map_eq_some_iff.mp hexec
  obtain ⟨hpc, hsz, hptr, hstores⟩ := of_decide_eq_true hall
  have hrun := run_firstSys.exec hs
  exact ⟨_, s, hrun, hstores, (wait_stores_iff _ s hrun 0 (-1) true hpc).mpr (.inr (.inr (by rw [hptr, hsz]; decide)))⟩

/-! ### `pstat` -/

def stateNumber : ProcState → Word
  | .unused => 0
  | .embryo => 1
  | .sleeping => 2
  | .runnable => 3
  | .running => 4
  | .zombie => 5

/-- The arguments that `sys_pstat` passes on; the pointer is checked as one to four bytes. -/
def sysPstat (u : User) : Option (Int × Word) :=
  match argint u 0, argptr u 1 4 with
  | some pid, some stat => some (pid.toInt, stat)
  | _, _ => none

/-- What `pstat` stores in the `struct procstat` at `stat`, in its order, and what it returns. The fields `name`,
`sz`, `nofile` and `state` are at the offsets 0, 16, 20 and 24. -/
def pstat (s : Sys) (pid : Int) (stat : Word) : List Store × Int :=
  match slots.find? fun p => (s.table.proc p).pid = pid with
  | some p =>
    (storeBytes stat (List.ofFn (s.fields p).name) ++
      storeBytes (stat + 20) (wordBytes (BitVec.ofNat 32 (numFileOpen (s.fields p)))) ++
      storeBytes (stat + 24) (wordBytes (stateNumber (s.table.proc p).state)) ++
      storeBytes (stat + 16) (wordBytes (s.fields p).sz), 0)
  | none => ([], -1)

theorem within_append {sz : Word} {l l' : List Store} : Within sz (l ++ l') ↔ Within sz l ∧ Within sz l' := by
  simp only [Within, List.mem_append]
  exact forall₂_or_left

theorem length_wordBytes (v : Word) : (wordBytes v).length = 4 := by simp [wordBytes]

theorem within_procstat {sz stat v₁ v₂ v₃ : Word} {name : Name} :
    Within sz (storeBytes stat (List.ofFn name) ++ storeBytes (stat + 20) (wordBytes v₁) ++
      storeBytes (stat + 24) (wordBytes v₂) ++ storeBytes (stat + 16) (wordBytes v₃)) ↔ stat.toNat + 28 ≤ sz.toNat := by
  have hsz := sz.isLt
  have hoffset : ∀ i : Nat, (stat + BitVec.ofNat 32 i).toNat = (stat.toNat + i) % 2 ^ 32 := toNat_offset stat
  have h16 := hoffset 16
  have h20 := hoffset 20
  have h24 := hoffset 24
  simp only [within_append]
  rw [within_storeBytes (by simp), within_storeBytes (by simp [length_wordBytes]),
    within_storeBytes (by simp [length_wordBytes]), within_storeBytes (by simp [length_wordBytes])]
  simp only [List.length_ofFn, length_wordBytes]
  constructor
  · rintro ⟨⟨⟨hname, hnofile⟩, hstate⟩, hsize⟩
    rw [show (stat + 16).toNat = (stat.toNat + 16) % 2 ^ 32 from h16] at hsize
    rw [show (stat + 20).toNat = (stat.toNat + 20) % 2 ^ 32 from h20] at hnofile
    rw [show (stat + 24).toNat = (stat.toNat + 24) % 2 ^ 32 from h24] at hstate
    omega
  · intro hall
    rw [show (stat + 16).toNat = (stat.toNat + 16) % 2 ^ 32 from h16,
      show (stat + 20).toNat = (stat.toNat + 20) % 2 ^ 32 from h20,
      show (stat + 24).toNat = (stat.toNat + 24) % 2 ^ 32 from h24]
    omega

def callPstat (s : Sys) (p : Slot) (esp : Word) (word : Word → Word) : List Store × Int :=
  match sysPstat (s.user p esp word) with
  | some (pid, stat) => pstat s pid stat
  | none => ([], -1)

/-- The system call `pstat` stores only in the caller's memory iff its arguments do not pass the checks, no slot
has the pid, or all 28 bytes of the structure lie below the caller's size. -/
theorem pstat_stores_iff (s : Sys) (p : Slot) (esp : Word) (word : Word → Word) :
    Within (s.fields p).sz (callPstat s p esp word).1 ↔
      ∀ pid stat, sysPstat (s.user p esp word) = some (pid, stat) →
        (∀ q, (s.table.proc q).pid ≠ pid) ∨ stat.toNat + 28 ≤ (s.fields p).sz.toNat := by
  unfold callPstat
  cases hargs : sysPstat (s.user p esp word) with
  | none => simp [Within]
  | some args =>
    obtain ⟨pid, stat⟩ := args
    have hcall : Within (s.fields p).sz (pstat s pid stat).1 ↔
        (∀ q, (s.table.proc q).pid ≠ pid) ∨ stat.toNat + 28 ≤ (s.fields p).sz.toNat := by
      unfold pstat
      cases hfind : slots.find? fun q => (s.table.proc q).pid = pid with
      | none =>
        have hnone : ∀ q, (s.table.proc q).pid ≠ pid := by
          intro q
          simpa using List.find?_eq_none.mp hfind q (mem_slots q)
        exact iff_of_true (by simp [Within]) (.inl hnone)
      | some q =>
        have hq : (s.table.proc q).pid = pid := by simpa using List.find?_some hfind
        rw [within_procstat]
        constructor
        · intro hbelow
          exact .inr hbelow
        · rintro (hnone | hbelow)
          · exact absurd hq (hnone q)
          · exact hbelow
    dsimp only
    rw [hcall]
    constructor
    · rintro h pid' stat' heq
      obtain ⟨rfl, rfl⟩ := Prod.mk.inj (Option.some.inj heq)
      exact h
    · intro h
      exact h pid stat rfl

/-- Init, of size 4096, asks for its own status at 4092: the checks pass, and 24 bytes are stored past its end. -/
theorem pstat_stores_past_end : ∃ as s, system.Run as s ∧ (s.table.proc 0).state = .running ∧ (s.fields 0).sz = 4096 ∧
    (callPstat s 0 0 fun a => if a = 4 then 1 else 4092).2 = 0 ∧
    ((callPstat s 0 0 fun a => if a = 4 then 1 else 4092).1.filter fun st => 4096 ≤ st.1.toNat).length = 24 := by
  have hexec : ((system.exec firstSys [.table (.schedule 0)]).map fun s => decide ((s.table.proc 0).state = .running ∧
      (s.fields 0).sz = 4096 ∧ (callPstat s 0 0 fun a => if a = 4 then 1 else 4092).2 = 0 ∧
      ((callPstat s 0 0 fun a => if a = 4 then 1 else 4092).1.filter fun st => 4096 ≤ st.1.toNat).length = 24)) =
      some true := by decide +kernel
  obtain ⟨s, hs, hall⟩ := Option.map_eq_some_iff.mp hexec
  exact ⟨_, s, run_firstSys.exec hs, of_decide_eq_true hall⟩

end Xv6.System
