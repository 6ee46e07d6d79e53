import Xv6.Vm.Run

/-!
# A machine that has booted

With enough memory the machine gets from its start to a process that makes calls. The steps cannot be computed, as
`setupkvm` maps all of memory; that they succeed is a matter of counting pages.
-/

namespace Xv6.Vm

open Lib Memory

variable {L : Layout} {m : Machine} {s s' : Memory} {dirs held : Multiset Nat} {α : Type}

section Steps

variable {as : List (Call × (Nat → Bool))} (hrun : (machine L).Run as m)

include hrun

end Steps

end Xv6.Vm
