import Xv6.Exec.Stack

/-!
# The stack phase of `exec` on page tables

The part of `exec` that fills the stack of the new program, on physical memory: the code of `implicit_exit`, the strings of the
arguments and the words for `main`.
-/

namespace Xv6.Exec

open Lib Syscall Vm

def pushStrings (d : Nat) : List CString → Nat → Word → List Word → VmM (Option (Word × List Word))
  | [], _, sp, ustack => return some (sp, ustack)
  | arg :: argv, argc, sp, ustack => do
    if argc ≥ maxarg then return none
    else
      let sp := (sp - BitVec.ofNat 32 (arg.bytes.length + 1)) &&& ~~~3
      if ← Vm.copyout d sp (arg.bytes ++ [0]) then pushStrings d argv (argc + 1) sp (ustack ++ [sp]) else return none

def copyStack (d : Nat) (sz : Word) (argv : List CString) : VmM (Option Word) := do
  let addr := sz - BitVec.ofNat 32 implicitExit.length
  if ← Vm.copyout d addr implicitExit then
    match ← pushStrings d argv 0 addr [] with
    | none => return none
    | some (sp, args) =>
      let argc := argv.length
      let ustack := [addr, BitVec.ofNat 32 argc, sp - BitVec.ofNat 32 ((argc + 1) * 4)] ++ args ++ [0]
      let esp := sp - BitVec.ofNat 32 ((3 + argc + 1) * 4)
      if ← Vm.copyout d esp (ustack.flatMap fun v => leBytes 4 v.toNat) then return some esp else return none
  else return none

end Xv6.Exec
