import Xv6.Bio.Load
import Xv6.Fs.Balance
import Xv6.Fs.Shared
import Xv6.Grep.Match
import Xv6.Ide.Driver
import Xv6.Log.Crash
import Xv6.Memmove
import Xv6.Mp
import Xv6.Proc.Inherit
import Xv6.Proc.Launch
import Xv6.Proc.Lookup
import Xv6.Proc.NullStatus
import Xv6.Sched.Cli
import Xv6.Sched.Run
import Xv6.Shell.Foreground
import Xv6.Shell.Launches
import Xv6.Shell.Terminate
import Xv6.Sleep.Console
import Xv6.Sleep.Killed
import Xv6.Syscall.Transfer
import Xv6.Umalloc.Size
import Xv6.Vm.Boot
import Xv6.Vm.Grow
import Xv6.Vm.Mappages
import Xv6.Vm.Supply
