import Xv6.Exec.Stack

/-!
# Returning from `main`

A program that returns from `main` runs into the code that `exec` has put on its stack. The processor executes
the instructions that occur on this way, on the bytes in memory; `int` enters the kernel, and `sys_exit` fetches
its argument from the user's stack.
-/

namespace Xv6.Exec

open Lib Syscall Vm

/-! ### Instructions -/

structure Cpu where
  eax : Word
  esp : Word
  eip : Word
  space : Space

/-- What an instruction leads to: the next one, or an interrupt. -/
inductive Next where
  | go (c : Cpu)
  | int (n : UInt8) (c : Cpu)

namespace Cpu

variable (c : Cpu)

def accessible (a : Word) : Bool := c.space.user (a.toNat / pgsize) && c.space.user ((a + 3).toNat / pgsize)

def fetch (a : Word) : Option UInt8 := if c.space.user (a.toNat / pgsize) then some (c.space.byte a) else none

def word (a : Word) : Word := BitVec.ofNat 32 (leNat (loadBytes c.space.byte a 4))

def load (a : Word) : Option Word := if c.accessible a then some (c.word a) else none

def storeWord (a v : Word) : Option Cpu :=
  if c.accessible a then some { c with space := { c.space with byte := store c.space.byte a (leBytes 4 v.toNat) } }
  else none

/-- The instructions `ret`, `pushl %eax`, `movl imm, %eax` and `int imm`; nothing for a fault. -/
def step : Option Next :=
  match c.fetch c.eip with
  | some 0xC3 => (c.load c.esp).map fun a => .go { c with eip := a, esp := c.esp + 4 }
  | some 0x50 => (c.storeWord (c.esp - 4) c.eax).map fun c' => .go { c' with esp := c.esp - 4, eip := c.eip + 1 }
  | some 0xB8 => (c.load (c.eip + 1)).map fun v => .go { c with eax := v, eip := c.eip + 5 }
  | some 0xCD => (c.fetch (c.eip + 1)).map fun n => .int n { c with eip := c.eip + 2 }
  | _ => none

def untilInt : Nat → Cpu → Option (UInt8 × Cpu)
  | 0, _ => none
  | n + 1, c =>
    match c.step with
    | some (.go c') => untilInt n c'
    | some (.int k c') => some (k, c')
    | none => none

end Cpu

/-! ### The kernel -/

/-- The status with which `sys_exit` calls `exit`, if it does. -/
def sysExit (u : User) : Option Int := (argint u 0).map BitVec.toInt

/-- The status with which an interrupt leads to `exit`, if it does: `trap`, and `syscall` for number `SYS_exit`. -/
def trap (killed : Bool) (sz : Word) (n : UInt8) (c : Cpu) : Option Int :=
  if n = 64 then
    if killed then some 0
    else if c.eax = 2 then sysExit ⟨sz, c.esp, c.word⟩ else none
  else none

/-- The status with which a process of size `sz` exits, after at most `n` instructions. -/
def exitStatus (killed : Bool) (sz : Word) (n : Nat) (c : Cpu) : Option Int :=
  match c.untilInt n with
  | some (k, c') => trap killed sz k c'
  | none => none

/-! ### The way from `main` to `exit` -/

theorem getElem_loadBytes {m : Word → UInt8} {a : Word} {n i : Nat} {bs : List UInt8} (h : loadBytes m a n = bs)
    (hi : i < n) : m (a + BitVec.ofNat 32 i) = bs.getD i 0 := by
  subst h
  simp [loadBytes, List.getD_eq_getElem?_getD, hi]

/-- From `lo` up to the end of the stack, memory is as `exec` left it. -/
def Kept (e : Started) (lo : Nat) (c : Cpu) : Prop :=
  ∀ a : Word, lo ≤ a.toNat → a.toNat < e.sz.toNat →
    c.space.user (a.toNat / pgsize) = true ∧ c.space.byte a = e.space.byte a

namespace Kept

variable {e : Started} {lo : Nat} {c : Cpu} {a : Word} (h : Kept e lo c)

include h

theorem fetch (hlo : lo ≤ a.toNat) (hhi : a.toNat < e.sz.toNat) : c.fetch a = some (e.space.byte a) := by
  obtain ⟨huser, hbyte⟩ := h a hlo hhi
  rw [Cpu.fetch, if_pos huser, hbyte]

theorem accessible (hlo : lo ≤ a.toNat) (hhi : a.toNat + 4 ≤ e.sz.toNat) : c.accessible a = true := by
  have hlt := e.sz.isLt
  have hlast : (a + 3).toNat = a.toNat + 3 := by
    rw [BitVec.toNat_add]
    exact Nat.mod_eq_of_lt (by change a.toNat + 3 < 2 ^ 32; omega)
  rw [Cpu.accessible, (h a hlo (by omega)).1, (h (a + 3) (by omega) (by omega)).1]
  rfl

theorem word {v : Nat} (hlo : lo ≤ a.toNat) (hhi : a.toNat + 4 ≤ e.sz.toNat)
    (hv : loadBytes e.space.byte a 4 = leBytes 4 v) (hlt : v < 2 ^ 32) : c.word a = BitVec.ofNat 32 v := by
  have hsame : loadBytes c.space.byte a 4 = loadBytes e.space.byte a 4 := by
    refine loadBytes_congr fun i hi => (h _ ?_ ?_).2
    all_goals
      have hsz := e.sz.isLt
      rw [toNat_offset, Nat.mod_eq_of_lt (by omega)]
      omega
  rw [Cpu.word, hsame, hv, leNat_leBytes (by omega)]

theorem load {v : Nat} (hlo : lo ≤ a.toNat) (hhi : a.toNat + 4 ≤ e.sz.toNat)
    (hv : loadBytes e.space.byte a 4 = leBytes 4 v) (hlt : v < 2 ^ 32) : c.load a = some (BitVec.ofNat 32 v) := by
  rw [Cpu.load, if_pos (h.accessible hlo hhi), h.word hlo hhi hv hlt]

theorem storeWord {v : Word} (hlo : lo = a.toNat) (hhi : a.toNat + 4 ≤ e.sz.toNat) :
    ∃ s, c.storeWord a v = some { c with space := s } ∧ ∀ c' : Cpu, c'.space = s → Kept e (lo + 4) c' := by
  refine ⟨_, if_pos (h.accessible hlo.le hhi), fun c' hc' b hb hb' => ?_⟩
  rw [hc']
  refine ⟨(h b (by omega) hb').1, ?_⟩
  rw [← (h b (by omega) hb').2]
  refine store_of_le ?_
  rw [length_leBytes, BitVec.toNat_sub_of_le (by rw [BitVec.le_def]; omega)]
  omega

end Kept

/-- A process in `main`, about to execute `ret` with the stack pointer that it started with, and with nothing
changed from there on. -/
structure Returning (e : Started) (c : Cpu) : Prop where
  ret : c.fetch c.eip = some 0xC3
  esp : c.esp = e.esp
  kept : Kept e e.esp.toNat c

/-! #### One instruction after the other -/

section Steps

variable {c : Cpu}

theorem step_ret {a : Word} (hfetch : c.fetch c.eip = some 0xC3) (hload : c.load c.esp = some a) :
    c.step = some (.go { c with eip := a, esp := c.esp + 4 }) := by
  rw [Cpu.step, hfetch]
  simp only [hload, Option.map_some]

theorem step_push {s : Space} (hfetch : c.fetch c.eip = some 0x50)
    (hstore : c.storeWord (c.esp - 4) c.eax = some { c with space := s }) :
    c.step = some (.go { c with space := s, esp := c.esp - 4, eip := c.eip + 1 }) := by
  rw [Cpu.step, hfetch]
  simp only [hstore, Option.map_some]

theorem step_mov {v : Word} (hfetch : c.fetch c.eip = some 0xB8) (hload : c.load (c.eip + 1) = some v) :
    c.step = some (.go { c with eax := v, eip := c.eip + 5 }) := by
  rw [Cpu.step, hfetch]
  simp only [hload, Option.map_some]

theorem step_int {n : UInt8} (hfetch : c.fetch c.eip = some 0xCD) (hnext : c.fetch (c.eip + 1) = some n) :
    c.step = some (.int n { c with eip := c.eip + 2 }) := by
  rw [Cpu.step, hfetch]
  simp only [hnext, Option.map_some]

theorem untilInt_go {c' : Cpu} (h : c.step = some (.go c')) (n : Nat) : c.untilInt (n + 1) = c'.untilInt n := by
  rw [Cpu.untilInt, h]

theorem untilInt_int {c' : Cpu} {k : UInt8} (h : c.step = some (.int k c')) (n : Nat) :
    c.untilInt (n + 1) = some (k, c') := by
  rw [Cpu.untilInt, h]

end Steps

/-- The code of `implicit_exit`, with the stack pointer at the return address of `main` and its value in `%eax`:
when it enters the kernel, the value lies where the return address was. -/
theorem untilInt_implicitExit {img : Image} {argc : Nat} {e : Started} {c : Cpu} (hlaid : Laid img argc e)
    (h : Returning e c) (n : Nat) :
    ∃ c', c.untilInt (n + 4) = some (64, c') ∧ c'.eax = 2 ∧ c'.esp = e.esp ∧ Kept e (e.esp.toNat + 4) c' := by
  have htop := hlaid.top
  have hroom := img.room
  have hlow := img.low
  have hcodeLen : implicitExit.length = 8 := rfl
  rw [hcodeLen] at htop
  unfold pgsize at hroom
  unfold kernbase at hlow
  -- the addresses of the code
  obtain ⟨a, ha⟩ : ∃ a, a = img.sz - BitVec.ofNat 32 implicitExit.length := ⟨_, rfl⟩
  have hcode := hlaid.code
  have hret := hlaid.ret
  rw [← ha] at hcode hret
  have haddr : a.toNat = img.sz.toNat - 8 := by
    rw [ha, BitVec.toNat_sub_of_le (by rw [BitVec.le_def]; change 8 ≤ _; omega)]
    rfl
  have hplus : ∀ k < 8, (a + BitVec.ofNat 32 k).toNat = img.sz.toNat - 8 + k := by
    intro k hk
    rw [toNat_offset, haddr]
    exact Nat.mod_eq_of_lt (by omega)
  have hbyte : ∀ k, k < 8 → e.space.byte (a + BitVec.ofNat 32 k) = implicitExit.getD k 0 := fun k hk =>
    getElem_loadBytes hcode hk
  have hesz := congrArg BitVec.toNat hlaid.sz
  have hfetch : ∀ c₁ : Cpu, Kept e (e.esp.toNat + 4) c₁ → ∀ k, k < 8 →
      c₁.fetch (a + BitVec.ofNat 32 k) = some (implicitExit.getD k 0) := by
    intro c₁ h₁ k hk
    rw [h₁.fetch (by rw [hplus k hk]; omega) (by rw [hplus k hk]; omega), hbyte k hk]
  have hnext : ∀ i k : Nat, a + BitVec.ofNat 32 i + BitVec.ofNat 32 k = a + BitVec.ofNat 32 (i + k) := fun i k => by
    rw [BitVec.add_assoc, BitVec.ofNat_add]
  -- `ret` goes to the code
  have hload : c.load c.esp = some a := by
    rw [h.esp, h.kept.load le_rfl (by omega) hret a.isLt, BitVec.ofNat_toNat, BitVec.setWidth_eq]
  have hkept₁ : Kept e (e.esp.toNat + 4) { c with eip := a, esp := c.esp + 4 } := fun b hb => h.kept b (by omega)
  have hfetch₁ := hfetch _ hkept₁ 0 (by omega)
  rw [BitVec.add_zero] at hfetch₁
  -- `pushl` stores the value where the return address was
  have hesp : c.esp + 4 - 4 = e.esp := by rw [BitVec.add_sub_cancel, h.esp]
  have hkept₀ : Kept e e.esp.toNat { c with eip := a, esp := c.esp + 4 } := h.kept
  obtain ⟨s, hstore, hkept⟩ := hkept₀.storeWord (a := e.esp) (v := c.eax) rfl (by omega)
  rw [← hesp] at hstore
  have hkept₂ : Kept e (e.esp.toNat + 4) { c with eip := a + 1, esp := c.esp + 4 - 4, space := s } := hkept _ rfl
  -- `movl` loads the number of the system call
  have himm : loadBytes e.space.byte (a + BitVec.ofNat 32 1 + BitVec.ofNat 32 1) 4 = leBytes 4 2 := by
    rw [hnext, loadBytes_drop (k := implicitExit.length) (by decide), hcode]
    decide
  have hmov : Cpu.load { c with eip := a + 1, esp := c.esp + 4 - 4, space := s } (a + 1 + 1) = some 2 := by
    refine hkept₂.load ?_ ?_ himm (by decide)
    all_goals
      rw [show a + 1 + 1 = a + BitVec.ofNat 32 2 from hnext 1 1, hplus 2 (by omega)]
      omega
  have hkept₃ : Kept e (e.esp.toNat + 4) { c with eax := 2, eip := a + 1 + 5, esp := c.esp + 4 - 4, space := s } := hkept _ rfl
  have hfetch₃ := hfetch _ hkept₃ 6 (by omega)
  have hfetch₄ := hfetch _ hkept₃ 7 (by omega)
  rw [← hnext 1 5] at hfetch₃
  rw [← hnext 6 1, ← hnext 1 5] at hfetch₄
  refine ⟨{ c with eax := 2, eip := a + 1 + 5 + 2, esp := c.esp + 4 - 4, space := s }, ?_, rfl, hesp, hkept _ rfl⟩
  rw [untilInt_go (step_ret h.ret hload), untilInt_go (step_push hfetch₁ hstore),
    untilInt_go (step_mov (hfetch _ hkept₂ 1 (by omega)) hmov), untilInt_int (step_int hfetch₃ hfetch₄)]
  rfl

theorem exitStatus_eq_argc {img : Image} {argc : Nat} {e : Started} {c : Cpu} (hlaid : Laid img argc e)
    (h : Returning e c) {sz : Word} (hsz : e.sz.toNat ≤ sz.toNat) (n : Nat) :
    exitStatus false sz (n + 4) c = some (argc : Int) := by
  obtain ⟨c', hrun, heax, hesp, hkept⟩ := untilInt_implicitExit hlaid h n
  have htop := hlaid.top
  have hfew := hlaid.few
  have hesz := congrArg BitVec.toNat hlaid.sz
  have hlt := img.sz.isLt
  have hnat : (e.esp + 4).toNat = e.esp.toNat + 4 := by
    rw [BitVec.toNat_add]
    exact Nat.mod_eq_of_lt (by change e.esp.toNat + 4 < 2 ^ 32; omega)
  have hword : c'.word (e.esp + 4) = BitVec.ofNat 32 argc :=
    hkept.word (by omega) (by omega) hlaid.count (by unfold maxarg at hfew; omega)
  have harg : argint ⟨sz, c'.esp, c'.word⟩ 0 = some (BitVec.ofNat 32 argc) := by
    have haddr : c'.esp + 4 + 4 * BitVec.ofNat 32 0 = e.esp + 4 := by simp [hesp]
    have hnat' : (e.esp + 4 + 4).toNat = e.esp.toNat + 8 := by
      rw [BitVec.toNat_add, hnat]
      exact Nat.mod_eq_of_lt (by change e.esp.toNat + 4 + 4 < 2 ^ 32; omega)
    rw [argint, haddr, fetchint, if_neg]
    · exact congrArg some hword
    · rw [not_or, ge_iff_le, gt_iff_lt, BitVec.le_def, BitVec.lt_def, hnat, hnat']
      change ¬sz.toNat ≤ _ ∧ ¬sz.toNat < _
      omega
  have hint : (BitVec.ofNat 32 argc).toInt = argc := by
    rw [BitVec.toInt_eq_toNat_of_lt]
    · rw [BitVec.toNat_ofNat, Nat.mod_eq_of_lt (by unfold maxarg at hfew; omega)]
    · rw [BitVec.toNat_ofNat]
      unfold maxarg at hfew
      omega
  rw [exitStatus, hrun]
  simp only [trap, heax, sysExit, harg, Option.map_some, hint, if_true, Bool.false_eq_true, if_false]

/-- A program that returns from `main` exits with the value that `main` returns just if that is `argc`. -/
theorem return_status_iff (img : Image) (argv : List CString) (e : Started) (hexec : buildStack img argv = some e)
    (c : Cpu) (hmain : Returning e c) (sz : Word) (hsz : e.sz.toNat ≤ sz.toNat) (n : Nat) :
    exitStatus false sz (n + 4) c = some c.eax.toInt ↔ c.eax.toInt = argv.length := by
  rw [exitStatus_eq_argc (buildStack_laid hexec) hmain hsz, Option.some.injEq]
  exact eq_comm

/-- A program of one page that begins with `ret`, with the stack allocated. -/
def retImage : Image where
  space := ⟨fun k => k = 0 ∨ k = 2, fun a => if a = 0 then 0xC3 else 0⟩
  sz := 3 * 4096
  aligned := by decide
  room := by decide
  low := by decide
  guard := by decide
  kernel := by
    intro k hk
    have hne : ¬(k = 0 ∨ k = 2) := by
      rw [show kernbase / pgsize = 524288 from rfl] at hk
      omega
    exact decide_eq_false hne

def retArgs : List CString := [⟨[0x61], by decide, by decide⟩]

theorem buildStack_ret : ∃ e, buildStack retImage retArgs = some e ∧ ∀ r, Returning e ⟨r, e.esp, 0, e.space⟩ := by
  have hcode : (buildStack retImage retArgs).map (fun e => e.space.byte 0) = some 0xC3 := by decide
  obtain ⟨e, he, hbyte⟩ := Option.map_eq_some_iff.mp hcode
  have hlaid := buildStack_laid he
  have huser : ∀ k, k = 0 ∨ k = 2 → e.space.user k = true := by
    intro k hk
    rw [hlaid.user]
    exact decide_eq_true hk
  refine ⟨e, he, fun r => ⟨?_, rfl, fun a hlo hhi => ⟨huser _ (.inr ?_), rfl⟩⟩⟩
  · have hpage : (0 : Word).toNat / pgsize = 0 := by decide
    simp only [Cpu.fetch, hpage, huser 0 (.inl rfl), hbyte, if_true]
  · have hsz : retImage.sz.toNat = 12288 := by decide
    have hbottom := hlaid.bottom
    rw [hlaid.sz, hsz] at hhi
    rw [hsz] at hbottom
    unfold pgsize at *
    omega

theorem return_status_iff_one : ∃ e, buildStack retImage retArgs = some e ∧
    exitStatus false e.sz 4 ⟨1, e.esp, 0, e.space⟩ = some 1 := by
  obtain ⟨e, he, hmain⟩ := buildStack_ret
  exact ⟨e, he, (return_status_iff retImage retArgs e he _ (hmain 1) e.sz le_rfl 0).mpr rfl⟩

/-- A program that returns `0` exits with status `1`. -/
theorem return_zero_exits_one : ∃ e, buildStack retImage retArgs = some e ∧
    Returning e ⟨0, e.esp, 0, e.space⟩ ∧ exitStatus false e.sz 4 ⟨0, e.esp, 0, e.space⟩ = some 1 := by
  obtain ⟨e, he, hmain⟩ := buildStack_ret
  exact ⟨e, he, hmain 0, exitStatus_eq_argc (buildStack_laid he) (hmain 0) le_rfl 0⟩

end Xv6.Exec
