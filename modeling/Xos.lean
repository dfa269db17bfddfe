import Xos.Sched.Teardown
import Xos.Sched.Creation
import Xos.Xfs.Unlinked
import Xos.Xfs.Namespace
import Xos.Xfs.TwoRun
import Xos.Signal.Transparency
import Xos.Hal.Nvme
import Xos.Hal.Timer
import Xos.Hal.Msix
import Xos.Klib.Msgbuf
import Xos.Proc.Waitpid
import Xos.Xfs.Atomic
import Xos.Xfs.Listing
import Xos.Files.Isolation
import Xos.Files.PathAbs
import Xos.Xfs.Seek
import Xos.Ipc.Futex
import Xos.Ipc.Blocking
import Xos.Ipc.Stream
import Xos.Net.Poll
import Xos.Net.Select
import Xos.Net.Descriptors
import Xos.Net.Virtio
import Xos.Net.NewReno
import Xos.Net.Mbuf
import Xos.User.Bridge
import Xos.User.Fetch
import Xos.Proc.Exec
import Xos.Kheap.Canonical
import Xos.Mem.Counting
import Xos.Mem.Rollback
import Xos.Mem.PageMap
import Xos.Composer.Authority
import Xos.Hal.Gpu
import Xos.Hal.Input
