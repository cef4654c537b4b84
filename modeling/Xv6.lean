import Xv6.Log.Space
import Xv6.Lock.Priority
import Xv6.SharedMem.RefCount
import Xv6.SharedMem.Frames
import Xv6.Pipe.Wakeup
import Xv6.Proc.Kill
import Xv6.Proc.SleepLock
import Xv6.Proc.SleepPtable
import Xv6.Bio.Transparent
import Xv6.Bio.Demand
import Xv6.Icache.Lifetime
import Xv6.Ftable.Exact
import Xv6.PageOwner.Boot
import Xv6.Fs.WriteThrough
import Xv6.Syscall.Count
import Xv6.SharedMem.Call
import Xv6.Console.Read
import Xv6.Fs.Filewrite
import Xv6.Mem.Mappages
import Xv6.Grep.Stream
import Xv6.Umalloc.Sbrk
import Xv6.PageOwner.Resize
import Xv6.PageOwner.Fork
import Xv6.Fs.Path
import Xv6.Sh.Nulterminate
import Xv6.Syscall.DigitalRoot
import Xv6.Ulib.Memmove
import Xv6.Mp.Scan
import Xv6.Lock.Linked
import Xv6.Ide.Progress
import Xv6.Proc.Ticks
