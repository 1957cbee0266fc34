import QueueRate.Lib.Path
import QueueRate.Lib.Fifo
import QueueRate.Harness.Pinning
import QueueRate.Harness.Produce
import QueueRate.Harness.Routing
import QueueRate.Lockrate.Queue
import QueueRate.Lib.Adjacent
import QueueRate.Vyukov.Model
import QueueRate.Vyukov.Invariant
import QueueRate.Vyukov.Safety
import QueueRate.Cloudius.Model
import QueueRate.Cloudius.Invariant
import QueueRate.Cloudius.Safety
import QueueRate.Natsys.Model
import QueueRate.Natsys.Aliasing
import QueueRate.Harness.Shutdown
import QueueRate.Harness.ShutdownInv
import QueueRate.Vyukov.Conc
import QueueRate.Cloudius.Conc
import QueueRate.Lockrate.Locked
import QueueRate.Harness.Builds
import QueueRate.Natsys.Invariant
import QueueRate.Lib.Tickets
import QueueRate.Natsys.Frame
import QueueRate.Natsys.PushSteps
import QueueRate.Natsys.PopSteps
import QueueRate.Natsys.Safety
import QueueRate.Lib.Machine
import QueueRate.Lib.TokenChain
import QueueRate.Locks.Ticket
import QueueRate.Locks.Tidex
import QueueRate.Locks.TidexNps
import QueueRate.Locks.Mpsc
import QueueRate.Locks.Clh
import QueueRate.Lib.Critical
import QueueRate.Lockrate.Bodies
import QueueRate.Lockrate.WithLocks
import QueueRate.Locks.TidexTry
import QueueRate.Lib.Runs
import QueueRate.Lib.CStr
import QueueRate.Lib.RangeList
import QueueRate.Printme.RangeStr
import QueueRate.Printme.Binding
import QueueRate.Lib.Heap
import QueueRate.Lib.Ledger
import QueueRate.Harness.AllocRate
import QueueRate.Harness.AllocRateFrees
import QueueRate.Lib.Barrier
import QueueRate.Harness.Barriers
