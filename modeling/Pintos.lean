import Pintos.Threads.StrictPriority
import Pintos.Threads.Donation
import Pintos.Userprog.Wait
import Pintos.Threads.Alarm
import Pintos.Userprog.Handshake
import Pintos.Threads.DonationRace
import Pintos.Filesys.Remount
import Pintos.Filesys.Handles
import Pintos.Userprog.Executables
import Pintos.Kernel.ListLoops
import Pintos.Kernel.HashRefinement
import Pintos.Threads.Palloc
import Pintos.Threads.MallocRun
import Pintos.Filesys.DirectoryMap
import Pintos.Userprog.Validation
import Pintos.Userprog.Arguments
import Pintos.Userprog.LoadSegment
import Pintos.Devices.IntqFifo
import Pintos.Userprog.FilesysLock
import Pintos.Devices.Partition
import Pintos.Kernel.Arithmetic
import Pintos.Threads.RecentCpu
import Pintos.Kernel.Stdlib
import Pintos.Kernel.Console
import Pintos.Kernel.Bitmap
import Pintos.Kernel.Ustar
import Pintos.Lib.Counting
import Pintos.Threads.Condition
import Pintos.Threads.Signals
