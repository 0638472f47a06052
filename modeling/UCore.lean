import UCore.Mem.Objects
import UCore.Vm.Leak
import UCore.Vm.PageMap
import UCore.Vm.Rollback
import UCore.Vm.KvmMap
import UCore.Console.Discipline
import UCore.Proc.Exec
import UCore.Proc.ExitCode
import UCore.Console.Sleep
import UCore.Proc.Roles
import UCore.Proc.WaitScan
import UCore.Proc.Pools
import UCore.Trap.Stray
import UCore.Mem.Memmove
import UCore.Proc.Fifo
import UCore.Mem.FreeList
import UCore.Mem.Kfree
import UCore.Console.Reads
import UCore.Console.Write
import UCore.Console.Printf
import UCore.Trap.Nesting
import UCore.Proc.UserAddr
import UCore.Smp.Online
import UCore.Proc.LoadMeets
import UCore.Thread.Deadlock
