import HamixOS.HextFs.CrashFree
import HamixOS.HextFs.BlockSearch
import HamixOS.HextFs.DirRuns
import HamixOS.HextFs.Batches
import HamixOS.Kernel.SigPerm
import HamixOS.Kernel.SigWait
import HamixOS.Kernel.SigMask
import HamixOS.Kernel.Blocked
import HamixOS.Kernel.ShmRefs
import HamixOS.Kernel.EpollOneshot
import HamixOS.Kernel.EpollFiles
import HamixOS.Kernel.BlockCache
import HamixOS.Kernel.InetStream
import HamixOS.Kernel.UnixTable
import HamixOS.Kernel.UnixWait
import HamixOS.Kernel.PipeStream
import HamixOS.Kernel.ExecStack
import HamixOS.Kernel.RelocExact
import HamixOS.Kernel.VmallocRuns
import HamixOS.Kernel.HeapRuns
import HamixOS.Kernel.LoopDisk
import HamixOS.Kernel.MmapPlace
import HamixOS.Kernel.TimerFd
import HamixOS.Kernel.TtyRead
import HamixOS.Pantry.DbFile
import HamixOS.Pantry.Ownership
import HamixOS.Desktop.Wire
import HamixOS.Desktop.Proto
import HamixOS.Dbus.Bus
import HamixOS.Wlan.Nonces
import HamixOS.Wlan.Attempt
import HamixOS.Services.Supervision
import HamixOS.Services.BootOrder
import HamixOS.Hsh.Balance
import HamixOS.Imago.Stream
import HamixOS.Vt.Damage
import HamixOS.Vt.AltScreen
import HamixOS.Vt.Wide
import HamixOS.Kernel.FrameSet
import HamixOS.Kernel.VfsDescriptor
import HamixOS.Kernel.VfsStream
import HamixOS.Kernel.Partitions
import HamixOS.Kernel.ReceivedFds
import HamixOS.Linux.Links
import HamixOS.Pantry.Http
import HamixOS.Pantry.TarFaults
import HamixOS.Pantry.Rsa
import HamixOS.Pantry.InstallIf
import HamixOS.Pantry.PlanOrder
import HamixOS.Vt.Scrolling
import HamixOS.Vt.Resize
