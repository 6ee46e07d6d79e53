import Xv6.Lib.Memory
import Xv6.Vm.Addr

/-!
# The stack that `exec` builds

The second half of `exec`: the address space has been loaded and ends with an inaccessible page and a page for
the stack. At the top of the stack goes the code of `implicit_exit`, below it the argument strings, and below
them the words that `main` finds: the address of that code to return to, `argc`, `argv` and the pointers to the
arguments. The address space is given by the pages that the user may access and by their bytes.
-/

namespace Xv6.Exec

open Lib Syscall Vm

/-- The user part of an address space: the pages with `PTE_P` and `PTE_U`, and what lies at each address. -/
structure Space where
  user : Nat → Bool
  byte : Word → UInt8

def copyoutLoop : Nat → Space → Word → List UInt8 → Option Space
  | 0, s, _, _ => some s
  | n + 1, s, va, buf =>
    if buf.length > 0 then
      let va0 := pgrounddown va
      if s.user (va0.toNat / pgsize) then
        let m := min (pgsize - (va - va0).toNat) buf.length
        copyoutLoop n { s with byte := store s.byte va (buf.take m) } (va0 + 4096) (buf.drop m)
      else none
    else some s

def copyout (s : Space) (va : Word) (buf : List UInt8) : Option Space :=
  copyoutLoop (buf.length / pgsize + 2) s va buf

/-- The code of `implicit_exit`: `pushl %eax`, `movl $SYS_exit, %eax` and `int $T_SYSCALL`. -/
def implicitExit : List UInt8 := [0x50, 0xB8, 2, 0, 0, 0, 0xCD, 64]

def maxarg : Nat := 32

/-- A string of the caller's, which lies with its terminator below `KERNBASE`. -/
structure CString where
  bytes : List UInt8
  nonzero : 0 ∉ bytes
  short : bytes.length + 1 ≤ kernbase

/-- An address space after the allocation of the stack: two pages at its end, the lower one inaccessible. -/
structure Image where
  space : Space
  sz : Word
  aligned : sz.toNat % pgsize = 0
  room : 2 * pgsize ≤ sz.toNat
  low : sz.toNat < kernbase
  guard : space.user (sz.toNat / pgsize - 2) = false
  kernel : ∀ k, kernbase / pgsize ≤ k → space.user k = false

/-- Push the argument strings, and collect their addresses. -/
def pushArgs : List CString → Nat → Space → Word → List Word → Option (Space × Word × List Word)
  | [], _, s, sp, ustack => some (s, sp, ustack)
  | arg :: argv, argc, s, sp, ustack =>
    if argc ≥ maxarg then none
    else
      let sp := (sp - BitVec.ofNat 32 (arg.bytes.length + 1)) &&& ~~~3
      match copyout s sp (arg.bytes ++ [0]) with
      | none => none
      | some s => pushArgs argv (argc + 1) s sp (ustack ++ [sp])

/-- The address space and the registers that `exec` returns to. -/
structure Started where
  space : Space
  sz : Word
  esp : Word

def buildStack (img : Image) (argv : List CString) : Option Started :=
  let addr := img.sz - BitVec.ofNat 32 implicitExit.length
  match copyout img.space addr implicitExit with
  | none => none
  | some s =>
    match pushArgs argv 0 s addr [] with
    | none => none
    | some (s, sp, args) =>
      let argc := argv.length
      let ustack := [addr, BitVec.ofNat 32 argc, sp - BitVec.ofNat 32 ((argc + 1) * 4)] ++ args ++ [0]
      let esp := sp - BitVec.ofNat 32 ((3 + argc + 1) * 4)
      match copyout s esp (ustack.flatMap fun v => leBytes 4 v.toNat) with
      | none => none
      | some s => some ⟨s, img.sz, esp⟩

/-! ### What `copyout` does -/

theorem page_pgrounddown (va : Word) : (pgrounddown va).toNat / pgsize = va.toNat / pgsize := by
  rw [toNat_pgrounddown, Nat.mul_div_cancel _ (by decide)]

theorem toNat_sub_pgrounddown (va : Word) : (va - pgrounddown va).toNat = va.toNat % pgsize := by
  have hdown := toNat_pgrounddown va
  rw [BitVec.toNat_sub_of_le (by rw [BitVec.le_def, hdown]; exact Nat.div_mul_le_self _ _), hdown]
  unfold pgsize
  omega

theorem pgrounddown_next (va : Word) : pgrounddown va + 4096 = va + BitVec.ofNat 32 (pgsize - va.toNat % pgsize) := by
  apply BitVec.eq_of_toNat_eq
  rw [toNat_offset, BitVec.toNat_add, toNat_pgrounddown]
  change (va.toNat / pgsize * pgsize + 4096) % 2 ^ 32 = _
  unfold pgsize
  congr 1
  omega

theorem copyoutLoop_eq_some {n : Nat} {s s' : Space} {va : Word} {buf : List UInt8}
    (hfuel : buf.length + va.toNat % pgsize ≤ pgsize * n) (htop : va.toNat + buf.length ≤ 2 ^ 32)
    (h : copyoutLoop n s va buf = some s') :
    s' = { s with byte := store s.byte va buf } ∧
      ∀ a, va.toNat ≤ a → a < va.toNat + buf.length → s.user (a / pgsize) = true := by
  induction n generalizing s va buf with
  | zero =>
    have hnil : buf = [] := List.eq_nil_of_length_eq_zero (by omega)
    subst hnil
    obtain rfl := Option.some.inj h
    exact ⟨by rw [store_nil], fun a hlo hhi => absurd hhi (by simp only [List.length_nil]; omega)⟩
  | succ n ih =>
    have hva := va.isLt
    rw [copyoutLoop] at h
    split at h
    · rename_i hpos
      simp only [toNat_sub_pgrounddown, page_pgrounddown] at h
      split at h
      · rename_i huser
        by_cases hlast : buf.length ≤ pgsize - va.toNat % pgsize
        · -- the rest of the page takes all bytes
          rw [Nat.min_eq_right hlast, List.take_length, List.drop_length] at h
          have hdone : ∀ k (t : Space) a, copyoutLoop k t a [] = some t := by
            intro k t a
            cases k <;> rfl
          rw [hdone] at h
          refine ⟨(Option.some.inj h).symm, fun a hlo hhi => ?_⟩
          rw [show a / pgsize = va.toNat / pgsize by unfold pgsize at *; omega]
          exact huser
        · have hlt := not_le.mp hlast
          rw [Nat.min_eq_left hlt.le] at h
          have hlen : (buf.take (pgsize - va.toNat % pgsize)).length = pgsize - va.toNat % pgsize := by
            rw [List.length_take]
            omega
          have hnat : (va + BitVec.ofNat 32 (pgsize - va.toNat % pgsize)).toNat =
              va.toNat + (pgsize - va.toNat % pgsize) := by
            rw [toNat_offset]
            exact Nat.mod_eq_of_lt (by omega)
          rw [pgrounddown_next] at h
          obtain ⟨rfl, hrest⟩ := ih (by rw [hnat, List.length_drop]; unfold pgsize at *; omega)
            (by rw [hnat, List.length_drop]; omega) h
          refine ⟨?_, fun a hlo hhi => ?_⟩
          · have hall : (buf.take (pgsize - va.toNat % pgsize)).length + (buf.drop (pgsize - va.toNat % pgsize)).length ≤
                2 ^ 32 := by
              rw [hlen, List.length_drop]
              omega
            have happend := store_append (m := s.byte) (a := va) hall
            rw [hlen, List.take_append_drop] at happend
            simp only [happend]
          · by_cases hin : a < va.toNat + (pgsize - va.toNat % pgsize)
            · rw [show a / pgsize = va.toNat / pgsize by unfold pgsize at *; omega]
              exact huser
            · exact hrest a (by rw [hnat]; omega) (by rw [hnat, List.length_drop]; omega)
      · cases h
    · rename_i hnil
      obtain rfl := List.eq_nil_of_length_eq_zero (not_lt.mp hnil |> Nat.le_zero.mp)
      obtain rfl := Option.some.inj h
      exact ⟨by rw [store_nil], fun a hlo hhi => absurd hhi (by simp only [List.length_nil]; omega)⟩

/-- A copy that succeeds stores the bytes, all of them in pages of the user's. -/
theorem copyout_eq_some {s s' : Space} {va : Word} {buf : List UInt8} (htop : va.toNat + buf.length ≤ 2 ^ 32)
    (h : copyout s va buf = some s') : s' = { s with byte := store s.byte va buf } ∧
      ∀ a, va.toNat ≤ a → a < va.toNat + buf.length → s.user (a / pgsize) = true :=
  copyoutLoop_eq_some (by unfold pgsize; omega) htop h

theorem user_of_copyout {s s' : Space} {va : Word} {buf : List UInt8} (hpos : 0 < buf.length)
    (h : copyout s va buf = some s') : s.user (va.toNat / pgsize) = true := by
  rw [copyout, copyoutLoop, if_pos hpos] at h
  simp only [page_pgrounddown] at h
  split at h
  · rename_i huser
    exact huser
  · cases h

/-! ### The stack page -/

/-- The stack so far: the stack pointer is in the last page, and the code lies at its top. -/
structure OnStack (img : Image) (s : Space) (sp : Word) : Prop where
  user : s.user = img.space.user
  bottom : img.sz.toNat - pgsize ≤ sp.toNat
  top : sp.toNat + implicitExit.length ≤ img.sz.toNat
  code : loadBytes s.byte (img.sz - BitVec.ofNat 32 implicitExit.length) implicitExit.length = implicitExit

variable {img : Image} {s s' : Space} {sp sp' : Word} {buf : List UInt8}

/-- The bytes of a copy that succeeds are in the last page: a copy that reaches further down, but not over the
three bytes that alignment may leave free, meets the page below it. -/
theorem bottom_of_copyout (huser : s.user = img.space.user) (hpos : 0 < buf.length)
    (hnear : img.sz.toNat ≤ sp'.toNat + buf.length + pgsize + 4) (htop : sp'.toNat + buf.length ≤ img.sz.toNat)
    (h : copyout s sp' buf = some s') : img.sz.toNat - pgsize ≤ sp'.toNat := by
  by_contra hlow
  have hsz := img.low
  have haligned := img.aligned
  have hroom := img.room
  have hpages := (copyout_eq_some (by unfold kernbase at hsz; omega) h).2
  have hguard := img.guard
  rw [← huser] at hguard
  -- the lowest byte of the copy in or above the page below
  have hbyte := hpages (max sp'.toNat (img.sz.toNat - 2 * pgsize)) (le_max_left _ _)
    (by unfold pgsize at *; omega)
  rw [show max sp'.toNat (img.sz.toNat - 2 * pgsize) / pgsize = img.sz.toNat / pgsize - 2 by unfold pgsize at *; omega,
    hguard] at hbyte
  cases hbyte

theorem OnStack.push (h : OnStack img s sp) (hpos : 0 < buf.length)
    (hnear : sp.toNat ≤ sp'.toNat + buf.length + 4) (hbelow : sp'.toNat + buf.length ≤ sp.toNat)
    (hcopy : copyout s sp' buf = some s') : OnStack img s' sp' := by
  have hsz := img.low
  have hroom := img.room
  have hbottom := h.bottom
  have htop := h.top
  have hlt := img.sz.isLt
  have hnew : img.sz.toNat - pgsize ≤ sp'.toNat := bottom_of_copyout h.user hpos (by omega) (by omega) hcopy
  obtain ⟨rfl, -⟩ := copyout_eq_some (by omega) hcopy
  refine ⟨h.user, hnew, by omega, ?_⟩
  refine (loadBytes_congr fun i hi => store_of_le ?_).trans h.code
  have haddr : (img.sz - BitVec.ofNat 32 implicitExit.length + BitVec.ofNat 32 i).toNat =
      img.sz.toNat - implicitExit.length + i := by
    have hi8 : i < 8 := hi
    unfold pgsize at hroom
    have hlen : implicitExit.length = 8 := rfl
    rw [hlen]
    rw [toNat_offset, BitVec.toNat_sub_of_le (by rw [BitVec.le_def]; change 8 ≤ _; omega)]
    change (img.sz.toNat - 8 + i) % 2 ^ 32 = _
    exact Nat.mod_eq_of_lt (by omega)
  rw [BitVec.toNat_sub_of_le (by rw [BitVec.le_def, haddr]; omega), haddr]
  omega

theorem toNat_align (x : Word) : (x &&& ~~~3).toNat = x.toNat / 4 * 4 := by
  have hlow : (x &&& 3).toNat = x.toNat % 4 := by
    rw [BitVec.toNat_and]
    exact Nat.and_two_pow_sub_one_eq_mod x.toNat 2
  have hsum := congrArg BitVec.toNat (and_add_and_not x 3)
  have hle : (x &&& ~~~3).toNat ≤ x.toNat := by
    rw [BitVec.toNat_and]
    exact Nat.and_le_left
  have hlt := x.isLt
  rw [BitVec.toNat_add, hlow] at hsum
  omega

abbrev below (sp : Word) (arg : CString) : Word := (sp - BitVec.ofNat 32 (arg.bytes.length + 1)) &&& ~~~3

theorem OnStack.arg {arg : CString} (h : OnStack img s sp) (hcopy : copyout s (below sp arg) (arg.bytes ++ [0]) = some s') :
    arg.bytes.length + 1 ≤ sp.toNat ∧ (below sp arg).toNat = (sp.toNat - (arg.bytes.length + 1)) / 4 * 4 ∧
      OnStack img s' (below sp arg) := by
  have hsp := sp.isLt
  have hshort := arg.short
  have hlen : (arg.bytes ++ [0]).length = arg.bytes.length + 1 := by simp
  have hsub : (sp - BitVec.ofNat 32 (arg.bytes.length + 1)).toNat =
      (2 ^ 32 - (arg.bytes.length + 1) + sp.toNat) % 2 ^ 32 := by
    rw [BitVec.toNat_sub, BitVec.toNat_ofNat,
      Nat.mod_eq_of_lt (by unfold kernbase at hshort; omega : arg.bytes.length + 1 < 2 ^ 32)]
  -- a string that does not fit below the stack pointer would go to the kernel's addresses
  have hfit : arg.bytes.length + 1 ≤ sp.toNat := by
    by_contra hlong
    have huser := user_of_copyout (by omega) hcopy
    rw [h.user, img.kernel _ ?_] at huser
    · cases huser
    · rw [toNat_align, hsub]
      unfold kernbase pgsize at *
      omega
  have hat : (below sp arg).toNat = (sp.toNat - (arg.bytes.length + 1)) / 4 * 4 := by
    rw [toNat_align, hsub]
    congr 2
    omega
  exact ⟨hfit, hat, h.push (by omega) (by rw [hat]; omega) (by rw [hat]; omega) hcopy⟩

theorem OnStack.pushArgs {argv : List CString} {argc : Nat} {us us' : List Word} (h : OnStack img s sp)
    (hargs : Exec.pushArgs argv argc s sp us = some (s', sp', us')) :
    OnStack img s' sp' ∧ us'.length = us.length + argv.length ∧ (argc ≤ maxarg → argc + argv.length ≤ maxarg) := by
  induction argv generalizing argc s sp us with
  | nil =>
    obtain ⟨rfl, rfl, rfl⟩ : s = s' ∧ sp = sp' ∧ us = us' := by simpa [Exec.pushArgs] using hargs
    exact ⟨h, rfl, fun hle => hle⟩
  | cons arg argv ih =>
    rw [Exec.pushArgs] at hargs
    split at hargs
    · cases hargs
    · rename_i hmax
      simp only at hargs
      split at hargs
      · cases hargs
      · rename_i s₁ hcopy
        obtain ⟨hon, hcount, hbound⟩ := ih (h.arg hcopy).2.2 hargs
        refine ⟨hon, ?_, fun _ => ?_⟩
        · rw [hcount, List.length_append, List.length_singleton, List.length_cons]
          omega
        · have hle := hbound (by omega)
          rw [List.length_cons]
          omega

structure Laid (img : Image) (argc : Nat) (e : Started) : Prop where
  sz : e.sz = img.sz
  user : e.space.user = img.space.user
  bottom : img.sz.toNat - pgsize ≤ e.esp.toNat
  top : e.esp.toNat + 16 + implicitExit.length ≤ img.sz.toNat
  code : loadBytes e.space.byte (img.sz - BitVec.ofNat 32 implicitExit.length) implicitExit.length = implicitExit
  ret : loadBytes e.space.byte e.esp 4 = leBytes 4 (img.sz - BitVec.ofNat 32 implicitExit.length).toNat
  count : loadBytes e.space.byte (e.esp + 4) 4 = leBytes 4 argc
  few : argc ≤ maxarg

theorem length_words (ws : List Word) : (ws.flatMap fun v => leBytes 4 v.toNat).length = 4 * ws.length := by
  induction ws with
  | nil => rfl
  | cons v ws ih =>
    rw [List.flatMap_cons, List.length_append, length_leBytes, ih, List.length_cons]
    omega

theorem take_words (v : Word) (ws : List Word) :
    ((v :: ws).flatMap fun v => leBytes 4 v.toNat).take 4 = leBytes 4 v.toNat := by
  rw [List.flatMap_cons]
  exact List.take_left' (length_leBytes 4 _)

theorem drop_words (v : Word) (ws : List Word) :
    ((v :: ws).flatMap fun v => leBytes 4 v.toNat).drop 4 = ws.flatMap fun v => leBytes 4 v.toNat := by
  rw [List.flatMap_cons]
  exact List.drop_left' (length_leBytes 4 _)

theorem Image.codeAt (img : Image) :
    (img.sz - BitVec.ofNat 32 implicitExit.length).toNat + implicitExit.length = img.sz.toNat := by
  have hroom := img.room
  have hle : (BitVec.ofNat 32 implicitExit.length).toNat ≤ img.sz.toNat := by
    change 8 ≤ _
    unfold pgsize at hroom
    omega
  rw [BitVec.toNat_sub_of_le (BitVec.le_def.mpr hle)]
  exact Nat.sub_add_cancel hle

theorem OnStack.start (h : copyout img.space (img.sz - BitVec.ofNat 32 implicitExit.length) implicitExit = some s) :
    OnStack img s (img.sz - BitVec.ofNat 32 implicitExit.length) := by
  have hroom := img.room
  have hlow := img.low
  have hlen : implicitExit.length = 8 := rfl
  have haddr : (img.sz - BitVec.ofNat 32 implicitExit.length).toNat = img.sz.toNat - 8 :=
    Nat.eq_sub_of_add_eq img.codeAt
  obtain ⟨rfl, -⟩ := copyout_eq_some (by rw [haddr]; unfold kernbase at hlow; omega) h
  refine ⟨rfl, by rw [haddr]; unfold pgsize at *; omega, by rw [haddr]; unfold pgsize at *; omega, ?_⟩
  have hfits : implicitExit.length ≤ 2 ^ 32 := by decide
  have hload := loadBytes_store (m := img.space.byte) (a := img.sz - BitVec.ofNat 32 implicitExit.length)
    (o := 0) (n := implicitExit.length) hfits (by omega)
  rwa [BitVec.add_zero, List.drop_zero, List.take_length] at hload

theorem toNat_ofNat_of_le {n m : Nat} (hn : n ≤ m) (hm : m < 2 ^ 32) : (BitVec.ofNat 32 n).toNat = n := by
  rw [BitVec.toNat_ofNat]
  exact Nat.mod_eq_of_lt (lt_of_le_of_lt hn hm)

theorem OnStack.words {ws : List Word} (h : OnStack img s sp) (hpos : 0 < ws.length) (hfew : ws.length ≤ maxarg + 4)
    (hcopy : copyout s (sp - BitVec.ofNat 32 (4 * ws.length)) (ws.flatMap fun v => leBytes 4 v.toNat) = some s') :
    (sp - BitVec.ofNat 32 (4 * ws.length)).toNat = sp.toNat - 4 * ws.length ∧ 4 * ws.length ≤ sp.toNat ∧
      OnStack img s' (sp - BitVec.ofNat 32 (4 * ws.length)) ∧
      s' = { s with byte := store s.byte (sp - BitVec.ofNat 32 (4 * ws.length)) (ws.flatMap fun v => leBytes 4 v.toNat) } := by
  have hroom := img.room
  have hbottom := h.bottom
  have hlt := sp.isLt
  have hlen := length_words ws
  unfold maxarg at hfew
  have hwords : (BitVec.ofNat 32 (4 * ws.length)).toNat = 4 * ws.length :=
    toNat_ofNat_of_le (m := 144) (by omega) (by decide)
  have hle : 4 * ws.length ≤ sp.toNat := by
    unfold pgsize at *
    omega
  have hesp : (sp - BitVec.ofNat 32 (4 * ws.length)).toNat = sp.toNat - 4 * ws.length := by
    rw [BitVec.toNat_sub_of_le (by rw [BitVec.le_def, hwords]; exact hle), hwords]
  refine ⟨hesp, hle, h.push (by omega) (by rw [hlen, hesp]; omega) (by rw [hlen, hesp]; omega) hcopy, ?_⟩
  exact (copyout_eq_some (by rw [hlen, hesp]; omega) hcopy).1

theorem OnStack.laid {args : List Word} {argc : Nat} {ptr : Word} (h : OnStack img s sp) (hfew : argc ≤ maxarg)
    (hcount : args.length = argc)
    (hcopy : copyout s (sp - BitVec.ofNat 32 ((3 + argc + 1) * 4))
      (([img.sz - BitVec.ofNat 32 implicitExit.length, BitVec.ofNat 32 argc, ptr] ++ args ++ [0]).flatMap
        fun v : Word => leBytes 4 v.toNat) = some s') :
    Laid img argc ⟨s', img.sz, sp - BitVec.ofNat 32 ((3 + argc + 1) * 4)⟩ := by
  have htop := h.top
  have hlen : ([img.sz - BitVec.ofNat 32 implicitExit.length, BitVec.ofNat 32 argc, ptr] ++ args ++ [0]).length =
      3 + argc + 1 := by
    simp only [List.length_append, List.length_cons, List.length_nil, hcount]
  rw [Nat.mul_comm, ← hlen] at hcopy ⊢
  generalize hws : [img.sz - BitVec.ofNat 32 implicitExit.length, BitVec.ofNat 32 argc, ptr] ++ args ++ [0] = ws at hcopy hlen ⊢
  obtain ⟨hesp, hle, hon, rfl⟩ := h.words (by omega) (by omega) hcopy
  have hload : ∀ o, o + 4 ≤ 4 * (3 + argc + 1) → _ := fun o ho =>
    loadBytes_store (m := s.byte) (a := sp - BitVec.ofNat 32 (4 * ws.length)) (o := o) (n := 4)
      (by rw [length_words, hlen]; unfold maxarg at hfew; omega) (by rw [length_words, hlen]; exact ho)
  refine ⟨rfl, hon.user, hon.bottom, by rw [hesp, hlen]; omega, hon.code, ?_, ?_, hfew⟩
  · have hret := hload 0 (by omega)
    rw [BitVec.add_zero] at hret
    refine hret.trans ?_
    rw [← hws]
    exact take_words _ _
  · refine (hload 4 (by omega)).trans ?_
    rw [← hws, List.cons_append, List.cons_append, drop_words, List.cons_append, List.cons_append, take_words,
      toNat_ofNat_of_le hfew (by decide)]

theorem buildStack_laid {argv : List CString} {e : Started} (h : buildStack img argv = some e) :
    Laid img argv.length e := by
  unfold buildStack at h
  simp only at h
  split at h
  · cases h
  · rename_i s₀ hcode
    split at h
    · cases h
    · rename_i s₁ sp args hargs
      obtain ⟨hon, hcount, hbound⟩ := (OnStack.start hcode).pushArgs hargs
      split at h
      · cases h
      · rename_i s₂ hcopy
        obtain rfl := Option.some.inj h
        refine hon.laid ?_ (by simpa using hcount) hcopy
        simpa using hbound (Nat.zero_le _)

end Xv6.Exec
