import SnitchOs.Cap.History
import SnitchOs.Cap.Revocation
import SnitchOs.Notify.Protocol
import SnitchOs.Ipc.Fifo
import SnitchOs.Sched.Expiry
import SnitchOs.Kernel.Kill
import SnitchOs.Kernel.LostWake
import SnitchOs.Proc.MapAnon
import SnitchOs.Proc.Hostile
import SnitchOs.Sched.Reaping
import SnitchOs.Hart.Float
import SnitchOs.Trace.Authentic
import SnitchOs.Copy.Borrow
import SnitchOs.Copy.Moves
import SnitchOs.Mem.Split
import SnitchOs.Mem.Reclaim
import SnitchOs.Mem.BootFrames
import SnitchOs.Kernel.Queues
import SnitchOs.Fs.Authority
import SnitchOs.Obs.Intern
import SnitchOs.Wire.Stream
import SnitchOs.Hitch.Canonical
import SnitchOs.Hitch.Satisfy
import SnitchOs.Stitch.Fuel
import SnitchOs.Stitch.Trampoline
import SnitchOs.Stitch.Interchange
import SnitchOs.Snemu.KernelTables
import SnitchOs.Supervision.Order
import SnitchOs.Supervision.Restart
import SnitchOs.Snemu.Sv39
import SnitchOs.Stitch.Exhaustive
import SnitchOs.Snemu.Interrupts
import SnitchOs.Obs.BatchRing
import SnitchOs.Sched.Directory
import SnitchOs.Sched.Wheel
