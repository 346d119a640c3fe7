import Multicore.Lib.Clients
import Multicore.Lib.Liveness
import Multicore.Lib.Machine
import Multicore.Lib.Text
import Multicore.Project1.History
import Multicore.Project1.Interchangeable
import Multicore.Project2.RecordLocks
import Multicore.Project2.Serializability
import Multicore.Project2.Progress
import Multicore.Project2.Immediate
import Multicore.Project2.Wakeup
import Multicore.Project2.Abort
import Multicore.Project2.Exactness
import Multicore.Project2.Termination
import Multicore.Project2.LogCheck
import Multicore.Project3.Stamps
import Multicore.Project3.Regularity
import Multicore.Project3.ThreadPool
import Multicore.Project4.UnlinkOnce
import Multicore.Project4.EpochSafety
import Multicore.Project4.Garbage
import Multicore.Project4.Dequeue
import Multicore.Project4.Chains
import Multicore.Project4.LockQueue
import Multicore.Project4.DeadlockFree
import Multicore.Project4.TableLockRuns
import Multicore.Lab04.PrimeCond
import Multicore.Lab04.PrimeMt
import Multicore.Lab07.PrimeThreadgroup
import Multicore.Lab11.OptimisticTermination
import Multicore.Lab13.Program
