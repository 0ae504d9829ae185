import Xv6MallocLab.UmmallocSizes
import Xv6MallocLab.UmmallocOutOfMemory
import Xv6MallocLab.UmallocLimits
import Xv6MallocLab.SharedBreak
import Xv6MallocLab.LogReservation
import Xv6MallocLab.CommitBuffers
import Xv6MallocLab.ProcExits
import Xv6MallocLab.KillTarget
import Xv6MallocLab.SleepWakeup
import Xv6MallocLab.FileRefs
import Xv6MallocLab.PageOwnership
import Xv6MallocLab.FileHoles
import Xv6MallocLab.ForkCopy
import Xv6MallocLab.ExecOutcome
import Xv6MallocLab.TornWrites
import Xv6MallocLab.PageCopies
import Xv6MallocLab.PathScan
import Xv6MallocLab.GrepLines
import Xv6MallocLab.UserPrintf
import Xv6MallocLab.ShellLines
import Xv6MallocLab.ConsoleInput
import Xv6MallocLab.OverlappingMoves
import Xv6MallocLab.VirtioCalls
