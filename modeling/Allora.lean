import Allora.Proof.Apps.Disk
import Allora.Proof.Apps.Verify
import Allora.Proof.Arena.Rounds
import Allora.Proof.Containers.Search
import Allora.Proof.DeviceTree.Interrupts
import Allora.Proof.DeviceTree.Path
import Allora.Proof.Kobject.Descr
import Allora.Proof.Kobject.Interleave
import Allora.Proof.Kobject.Record
import Allora.Proof.Lfchannel.Null
import Allora.Proof.Page.Agree
import Allora.Proof.Page.Bools
import Allora.Proof.Page.Find
import Allora.Proof.PageTree.Balance
import Allora.Proof.PageTree.Traverse
import Allora.Proof.PtrList.Refines
import Allora.Proof.Regions
import Allora.Proof.Schedule.Ready
import Allora.Proof.Schedule.Rounds
import Allora.Proof.Schedule.Termination
import Allora.Proof.Switch.Threads
import Allora.Proof.Timer.Wait
import Allora.Proof.Uart.Line
import Allora.Proof.Virtio.Net
import Allora.Lib.Monitor
import Allora.Mutex
import Allora.Proof.Mutex.Serial
import Allora.Mm.KoArena
import Allora.Proof.Arena.Shared
import Allora.Exception
import Allora.Proof.Exception.Safety
import Allora.Proof.Exception.Ticks
import Allora.Vectors
import Allora.Proof.Exception.Trap
import Allora.Proof.PtrList.Shared
import Allora.Gic
import Allora.Proof.Gic.Table
import Allora.Boot
import Allora.Proof.Boot.Entries
import Allora.Proof.Boot.Layout
import Allora.Proof.Boot.Devices
import Allora.Proof.Boot.Runs
