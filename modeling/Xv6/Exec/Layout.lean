import Xv6.Exec.Stack

/-!
# Everything on the first stack

All that `exec` puts on the stack: the words for `main`, the vector of pointers, the strings and the code of
`implicit_exit`, as objects in memory. How far they reach down is known beforehand, because it depends on
the lengths of the strings alone.
-/

namespace Xv6.Exec

open Lib Syscall Vm

variable {img : Image} {s s' : Space} {sp sp' : Word} {argv : List CString}

/-! ### How much there is -/

/-- The distance of the stack pointer from the end of memory after the strings. -/
def stackDepth (t : Nat) (argv : List CString) : Nat := argv.foldl (fun t arg => (t + (arg.bytes.length + 1) + 3) / 4 * 4) t

def stackBytes (argv : List CString) : Nat := stackDepth implicitExit.length argv + 4 * (3 + argv.length + 1)

/-- The size of the strings with their padding, and of the vector of pointers. -/
def argBytes (argv : List CString) : Nat :=
  (argv.map fun arg => (arg.bytes.length + 1 + 3) / 4 * 4).sum + 4 * (argv.length + 1)

theorem stackDepth_eq {t : Nat} (ht : t % 4 = 0) :
    stackDepth t argv = t + (argv.map fun arg => (arg.bytes.length + 1 + 3) / 4 * 4).sum := by
  induction argv generalizing t with
  | nil => rfl
  | cons arg argv ih =>
    change stackDepth ((t + (arg.bytes.length + 1) + 3) / 4 * 4) argv = _
    rw [ih (Nat.mul_mod_left _ 4), List.map_cons, List.sum_cons]
    omega

/-- The strings of arguments that are smaller than the memory reach down to its start at most. -/
theorem stackDepth_le {sz : Nat} (hsz : sz % 4 = 0) (h : argBytes argv < sz) : stackDepth implicitExit.length argv ≤ sz := by
  have hpad : ∀ l : List CString, (l.map fun arg => (arg.bytes.length + 1 + 3) / 4 * 4).sum % 4 = 0 := by
    intro l
    induction l with
    | nil => rfl
    | cons arg l ih =>
      rw [List.map_cons, List.sum_cons]
      omega
  have hargs := hpad argv
  rw [argBytes] at h
  rw [stackDepth_eq rfl]
  change 8 + _ ≤ sz
  omega

/-! ### The objects -/

def argObj (p : Word) (arg : CString) : Obj 32 := ⟨p, arg.bytes ++ [0]⟩

def wordsObj (a : Word) (ws : List Word) : Obj 32 := ⟨a, ws.flatMap fun v => leBytes 4 v.toNat⟩

/-- What lies on the stack, from the stack pointer up. -/
def stackObjs (argv : List CString) (esp code vec : Word) (ptrs : List Word) : List (Obj 32) :=
  wordsObj esp [code, BitVec.ofNat 32 argv.length, vec] :: wordsObj vec (ptrs ++ [0]) ::
    ((List.zipWith argObj ptrs argv).reverse ++ [⟨code, implicitExit⟩])

/-- The stack of a program about to start: there is a code to return to and a vector of pointers to the strings, and
all objects are intact, apart from each other and in the last page. -/
structure StackFor (argv : List CString) (m : Word → UInt8) (sz esp code vec : Word) (ptrs : List Word) : Prop where
  count : ptrs.length = argv.length
  intact : ∀ o ∈ stackObjs argv esp code vec ptrs, loadBytes m o.addr o.bytes.length = o.bytes
  apart : (stackObjs argv esp code vec ptrs).Pairwise fun x y => x.stop ≤ y.addr.toNat
  inPage : ∀ o ∈ stackObjs argv esp code vec ptrs, sz.toNat - pgsize ≤ o.addr.toNat ∧ o.stop ≤ sz.toNat

/-! ### The strings -/

theorem pushArgs_stacked {argc t : Nat} {us us' : List Word} {objs : List (Obj 32)} (h : OnStack img s sp)
    (hobjs : Stacked s.byte sp.toNat objs img.sz.toNat) (ht : sp.toNat + t = img.sz.toNat)
    (hargs : pushArgs argv argc s sp us = some (s', sp', us')) :
    sp'.toNat + stackDepth t argv = img.sz.toNat ∧ ∃ ptrs, us' = us ++ ptrs ∧ ptrs.length = argv.length ∧
      Stacked s'.byte sp'.toNat ((List.zipWith argObj ptrs argv).reverse ++ objs) img.sz.toNat := by
  induction argv generalizing argc s sp us t objs with
  | nil =>
    obtain ⟨rfl, rfl, rfl⟩ : s = s' ∧ sp = sp' ∧ us = us' := by simpa [pushArgs] using hargs
    exact ⟨ht, [], (List.append_nil us).symm, rfl, hobjs⟩
  | cons arg argv ih =>
    rw [pushArgs] at hargs
    split at hargs
    · cases hargs
    simp only at hargs
    split at hargs
    · cases hargs
    rename_i s₁ hcopy
    obtain ⟨hfit, hat, hon⟩ := h.arg hcopy
    have haligned := img.aligned
    have hsz := img.sz.isLt
    have hlen : (arg.bytes ++ [0]).length = arg.bytes.length + 1 := by simp
    have hdepth : (below sp arg).toNat + (t + (arg.bytes.length + 1) + 3) / 4 * 4 = img.sz.toNat := by
      rw [hat]
      unfold pgsize at haligned
      omega
    have hstop : (below sp arg).toNat + (arg.bytes ++ [0]).length ≤ sp.toNat := by
      rw [hlen]
      omega
    have hpush := hobjs.push (o := argObj (below sp arg) arg) hsz.le hstop
    obtain ⟨rfl, -⟩ := copyout_eq_some (hstop.trans (by omega)) hcopy
    obtain ⟨hsp, ptrs, hus, hcount, hstacked⟩ := ih hon hpush hdepth hargs
    refine ⟨hsp, below sp arg :: ptrs, ?_, by rw [List.length_cons, List.length_cons, hcount], ?_⟩
    · rw [hus, List.append_assoc]
      rfl
    · rw [List.zipWith_cons_cons, List.reverse_cons, List.append_assoc]
      exact hstacked

/-! ### The whole stack -/

theorem words_append (xs ys : List Word) : ((xs ++ ys).flatMap fun v : Word => leBytes 4 v.toNat) =
    (xs.flatMap fun v => leBytes 4 v.toNat) ++ ys.flatMap fun v => leBytes 4 v.toNat := List.flatMap_append ..

theorem stackFor_words {code : Word} {ptrs : List Word} (hon : OnStack img s sp) (hfew : argv.length ≤ maxarg)
    (hcount : ptrs.length = argv.length)
    (hstrings : Stacked s.byte sp.toNat ((List.zipWith argObj ptrs argv).reverse ++ [⟨code, implicitExit⟩]) img.sz.toNat)
    (hcopy : copyout s (sp - BitVec.ofNat 32 ((3 + argv.length + 1) * 4))
      (([code, BitVec.ofNat 32 argv.length, sp - BitVec.ofNat 32 ((argv.length + 1) * 4)] ++ ptrs ++ [0]).flatMap
        fun v : Word => leBytes 4 v.toNat) = some s') :
    (sp - BitVec.ofNat 32 ((3 + argv.length + 1) * 4)).toNat + 4 * (3 + argv.length + 1) = sp.toNat ∧
      StackFor argv s'.byte img.sz (sp - BitVec.ofNat 32 ((3 + argv.length + 1) * 4)) code
        (sp - BitVec.ofNat 32 ((argv.length + 1) * 4)) ptrs := by
  have hsz := img.sz.isLt
  have hvec : sp - BitVec.ofNat 32 ((3 + argv.length + 1) * 4) + BitVec.ofNat 32 12 =
      sp - BitVec.ofNat 32 ((argv.length + 1) * 4) := by
    rw [show (3 + argv.length + 1) * 4 = (argv.length + 1) * 4 + 12 by omega, BitVec.ofNat_add]
    ring
  generalize sp - BitVec.ofNat 32 ((argv.length + 1) * 4) = vec at hvec hcopy ⊢
  have hlen : ([code, BitVec.ofNat 32 argv.length, vec] ++ ptrs ++ [0]).length = 3 + argv.length + 1 := by
    simp only [List.length_append, List.length_cons, List.length_nil, hcount]
  rw [Nat.mul_comm, ← hlen] at hcopy hvec ⊢
  obtain ⟨hesp, hle, hon', rfl⟩ := hon.words (by omega) (by omega) hcopy
  generalize sp - BitVec.ofNat 32 (4 * ([code, BitVec.ofNat 32 argv.length, vec] ++ ptrs ++ [0]).length) = esp at *
  have hpush := hstrings.push (o := wordsObj esp ([code, BitVec.ofNat 32 argv.length, vec] ++ ptrs ++ [0])) hsz.le (by
    unfold Obj.stop wordsObj
    rw [length_words, hesp]
    omega)
  -- the words for `main` and the vector
  have hall : Stacked (store s.byte esp (([code, BitVec.ofNat 32 argv.length, vec] ++ ptrs ++ [0]).flatMap
      fun v : Word => leBytes 4 v.toNat)) esp.toNat (stackObjs argv esp code vec ptrs) img.sz.toNat := by
    unfold wordsObj at hpush
    rw [List.append_assoc, words_append] at hpush ⊢
    have hsplit := hpush.split (by rw [length_words, List.length_append, List.length_singleton]; omega) hsz.le
    rwa [length_words, show 4 * [code, BitVec.ofNat 32 argv.length, vec].length = 12 from rfl, hvec] at hsplit
  refine ⟨by omega, hcount, fun o ho => (hall.mem ho).2.2, hall.pairwise, fun o ho => ?_⟩
  obtain ⟨hfrom, hto, -⟩ := hall.mem ho
  exact ⟨hon'.bottom.trans hfrom, hto⟩

theorem buildStack_stackFor {e : Started} (h : buildStack img argv = some e) :
    e.esp.toNat + stackBytes argv = img.sz.toNat ∧ ∃ code vec ptrs, StackFor argv e.space.byte img.sz e.esp code vec ptrs := by
  unfold buildStack at h
  simp only at h
  split at h
  · cases h
  rename_i s₀ hcode
  split at h
  · cases h
  rename_i s₁ sp args hargs
  split at h
  · cases h
  rename_i s₂ hcopy
  obtain rfl := Option.some.inj h
  have hstart := OnStack.start hcode
  obtain ⟨hon, -, hfew⟩ := hstart.pushArgs hargs
  have hcodeAt := img.codeAt
  obtain ⟨hsp, ptrs, hptrs, hcount, hstrings⟩ := pushArgs_stacked hstart
    (show Stacked s₀.byte _ [⟨_, implicitExit⟩] _ from ⟨le_rfl, hstart.code, hcodeAt.le⟩) hcodeAt hargs
  rw [List.nil_append] at hptrs
  subst hptrs
  obtain ⟨hesp, hstack⟩ := stackFor_words hon (by simpa using hfew (Nat.zero_le _)) hcount hstrings hcopy
  refine ⟨?_, _, _, args, hstack⟩
  change (sp - BitVec.ofNat 32 ((3 + argv.length + 1) * 4)).toNat + (stackDepth implicitExit.length argv + _) = _
  omega

theorem stackBytes_le_of_buildStack {e : Started} (h : buildStack img argv = some e) : stackBytes argv ≤ pgsize := by
  have hbottom := (buildStack_laid h).bottom
  have hesp := (buildStack_stackFor h).1
  omega

end Xv6.Exec
