import Xv6.Pipe
import Xv6.Console
import Xv6.Log
import Xv6.Log.Admission
import Xv6.Mem.ExecArgs
import Xv6.Mem.ExecFails
import Xv6.Mem.ForkFails
import Xv6.Proc.Dispatch
import Xv6.Proc.Kill
import Xv6.Proc.Times
import Xv6.Proc.Parents
import Xv6.Proc.Ids
import Xv6.Proc.Fcfs
import Xv6.SleepLock
import Xv6.Bio
import Xv6.Ide
import Xv6.Ftable
import Xv6.Fs.Names
import Xv6.Fs.LinkCount
import Xv6.Shell.Strings
import Xv6.Heap.Large
import Xv6.Disk.SharedOffset
import Xv6.User.Memmove
import Xv6.User.Grep
