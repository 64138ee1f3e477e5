import Eotan.Rc.RoundTrip
import Eotan.Rc.Decoder
import Eotan.Kernel.Bookkeeping
import Eotan.Kernel.Lifetime
import Eotan.Kernel.Notify
import Eotan.Kernel.Replies
import Eotan.Kernel.Running
import Eotan.Fs.Fids
import Eotan.Pipe.Delivery
import Eotan.Mm.SemaphoreRuns
import Eotan.Mm.FamilyRuns
import Eotan.Mm.SessionAgreement
import Eotan.Mm.Heap
import Eotan.Mm.FileIds
import Eotan.Set.SequenceRuns
import Eotan.Fs.Mkfs
import Eotan.Timer.Sleepers
import Eotan.Pipe.Attended
import Eotan.Fs.CacheRuns
import Eotan.Fs.CacheOrder
import Eotan.Set.Ring
import Eotan.Rc.ZeroRuns
import Eotan.Libc.Utf8
import Eotan.Libc.Gmtime
import Eotan.Libnc.Printf
import Eotan.Mpu.MoveStack
import Eotan.Kernel.Backlog
import Eotan.Hmi.Windows
import Eotan.Starter.BootMap
import Eotan.Libcurses.Curses
import Eotan.Libm.Frexp
import Eotan.Console.Device
import Eotan.Set.QueueLayout
