import Xv6.Lib.Run
import Xv6.Lib.Scan
import Xv6.Proc.Effect
import Xv6.Proc.Dispatch
import Xv6.Proc.RoundRobin
import Xv6.Proc.Pid
import Xv6.Proc.Priority
import Xv6.Proc.Accounting
import Xv6.Proc.Aging
import Xv6.Proc.Kill
import Xv6.Proc.Original
import Xv6.Proc.Family
import Xv6.Proc.Pass
import Xv6.Proc.Quantum
import Xv6.Sync.Sleeplock
import Xv6.Sync.Killable
import Xv6.Sync.Fifo
import Xv6.Sync.PipeEnds
import Xv6.Sync.Cli
import Xv6.Sync.Lines
import Xv6.Log.Space
import Xv6.Log.Recovery
import Xv6.Cache.Buffer
import Xv6.Cache.Ide
import Xv6.Fs.Calls
import Xv6.Fs.SharedWrite
import Xv6.Mkfs.ReadBack
import Xv6.Syscall.Args
import Xv6.Fs.Chunk
import Xv6.Data.Path
import Xv6.User.Sizes
import Xv6.Vm.Copy
import Xv6.Vm.Processes
import Xv6.User.Grep
import Xv6.User.Sanity
import Xv6.Boot.Mp
import Xv6.Shell.Order
import Xv6.Vm.Mapping
import Xv6.Lib.Owners
