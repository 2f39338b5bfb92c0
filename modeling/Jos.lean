import Jos.Lib.Prog
import Jos.Lib.Run
import Jos.Lib.Respect
import Jos.Lib.Queue
import Jos.Lib.Bytes
import Jos.Lib.StringOp
import Jos.Lib.Count
import Jos.Lib.Circular
import Jos.Kern.Mmu
import Jos.Kern.State
import Jos.Kern.Pmap
import Jos.Kern.Access
import Jos.Kern.Env
import Jos.Kern.Syscall
import Jos.Kern.Trap
import Jos.Kern.Effect
import Jos.Kern.Handle
import Jos.Kern.Invariant
import Jos.Kern.Small
import Jos.Ipc.Delivery
import Jos.Kern.History
import Jos.Ipc.Once
import Jos.Ipc.Blocked
import Jos.Ipc.Waiting
import Jos.Ipc.Receive
import Jos.Ipc.Contention
import Jos.Kern.Privilege
import Jos.Vm.Slots
import Jos.Vm.Owned
import Jos.Vm.Ops
import Jos.Vm.Calls
import Jos.Vm.Boot
import Jos.Vm.Map
import Jos.Vm.Space
import Jos.Vm.Room
import Jos.Vm.Kernel
import Jos.Kern.Ids
import Jos.Kern.Pages
import Jos.Kern.PageCalls
import Jos.Ipc.Library
import Jos.Kern.Wrap
import Jos.Kern.Check
import Jos.Kern.Recycle
import Jos.Kern.Switch
import Jos.Kern.Sched
import Jos.User.Prog
import Jos.User.Fork
import Jos.User.Dup
import Jos.User.Share
import Jos.User.Load
import Jos.User.Fd
import Jos.User.FdDup
import Jos.User.Nest
import Jos.User.Frame
import Jos.User.Host
import Jos.User.Mmap
import Jos.User.Munmap
import Jos.User.Region
import Jos.User.MapLoad
import Jos.User.Spawn
import Jos.User.Overrun
import Jos.User.Leftover
import Jos.User.Headers
import Jos.User.ArgStack
import Jos.Fs.Disk
import Jos.Fs.File
import Jos.Fs.Serv
import Jos.Fs.Layout
import Jos.Fs.Edit
import Jos.Fs.Spec
import Jos.Fs.Io
import Jos.Fs.Cache
import Jos.Fs.Flush
import Jos.Fs.Client
import Jos.Fs.Buffer
import Jos.Fs.Zero
import Jos.Fs.Request
import Jos.Fs.OpenTable
import Jos.Fs.Trunc
import Jos.Fs.Dir
import Jos.Fs.Tree
import Jos.Fs.Walk
import Jos.Fs.Create
import Jos.Fs.TreeEdit
import Jos.Fs.Remove
import Jos.Fs.Ledger
import Jos.Fs.Balance
import Jos.Fs.FileMap
import Jos.Fs.Mirror
import Jos.Fs.Volume
import Jos.Fs.Mounted
import Jos.Lib.Spans
import Jos.Fs.Format
import Jos.Fs.Formatted
import Jos.Fs.Image
import Jos.Fs.RoundTrip
import Jos.Monitor.Number
import Jos.Monitor.Perm
import Jos.Monitor.PageCmd
import Jos.Kern.Stab
import Jos.Kern.Debug
import Jos.Clib.Memory
import Jos.Clib.Printnum
import Jos.Lib.Ring
import Jos.Kern.Console
import Jos.Clib.Readline
import Jos.Clib.Format
import Jos.Clib.Inside
import Jos.Lib.Walk
import Jos.Lib.Window
import Jos.Monitor.Dump
import Jos.Monitor.DumpVa
import Jos.Vm.Guard
import Jos.Kern.Protect
import Jos.Kern.Isolation
import Jos.Kern.Start
import Jos.Kern.InUse
import Jos.Kern.Authority
