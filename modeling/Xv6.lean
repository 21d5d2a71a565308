import Xv6.Memory.FreeList
import Xv6.Log.Append
import Xv6.Buffer.Cache
import Xv6.Fs.Allocators
import Xv6.Fs.Chunked
import Xv6.Fs.FileBytes
import Xv6.Process.Restorer
import Xv6.Process.Images
import Xv6.OpenFiles.Runs
import Xv6.System.Locality
import Xv6.System.Dealloc
import Xv6.System.Protection
import Xv6.System.KernelAccess
import Xv6.Exec.Copyout
import Xv6.Fs.Readback
import Xv6.Fs.Consistency
import Xv6.Fs.Paths
import Xv6.Table.Pids
import Xv6.Table.Recycle
import Xv6.Table.Cpus
import Xv6.Syscall.ReadWrite
import Xv6.Heap.Break
import Xv6.Shell.Accept
import Xv6.Grep.Lines
import Xv6.Strings.Memmove
import Xv6.Boot.Load
