import Xv6.Sched.Slices
import Xv6.Sched.Pids
import Xv6.Sched.Order
import Xv6.Sched.Locks
import Xv6.Sched.ByPid
import Xv6.Fs.Recovery
import Xv6.Fs.WholeOps
import Xv6.Sched.Arrival
import Xv6.Sched.Bursts
import Xv6.Sched.Leftover
import Xv6.Fs.Calls
import Xv6.Fs.Latest
import Xv6.Fs.Exhaustion
import Xv6.Fs.Reservation
import Xv6.Ipc.Sleepers
import Xv6.Ipc.Reading
import Xv6.Smp.Wakeups
import Xv6.Smp.Locking
import Xv6.Smp.RoundRobin
import Xv6.Smp.Interrupts
import Xv6.Syscall.Counts
import Xv6.Fs.Sharing
import Xv6.Dev.Console
import Xv6.Dev.Virtio
import Xv6.Mkfs.Contents
import Xv6.Syscall.Forking
import Xv6.Syscall.Memory
import Xv6.User.Malloc
import Xv6.User.Memmove
import Xv6.User.Grep
import Xv6.Syscall.Resolving
